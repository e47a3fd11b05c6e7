import RingStore.Proofs.Replica.Durable
import RingStore.Proofs.Replica.Machine
import RingStore.Proofs.Replica.Unacknowledged

/-!
# Operations that are left behind

A replica may wait for a decision that nobody sends any more. Whatever became of it before, with
calls that failed and with restarts, a replica that runs either waits for a decision on an operation
within the limits (`Replica.Engaged`) or waits for none (`Replica.Free`), and its journal is fit to
be written on (`Machine.Reached.usable`). A decision that is acknowledged frees it, whoever sent it
and for whatever operation.
-/

namespace RingStore

open Disk Disk.Attempt

namespace Replica

open ReplicaSettings Action

variable {settings : ReplicaSettings} {M : Store.Contents} {rs : List Record} {op op' : Operation}
  {n : Nat} {d e : Disk} {r r' : Replica} {q : Request} {answer : Response} {commit : Bool}

/-- The records can be read back, and what they tell of is within the limits. -/
structure Readable (rs : List Record) : Prop where
  countable : Journal.Countable rs
  checked : ∀ r ∈ rs, r.Checked

theorem readable_nil : Readable [] := ⟨Journal.countable_nil, by simp⟩

theorem readable_ofVote (hop : op.check = .ok ()) : Readable [.ofVote op] := by
  refine ⟨Journal.countable_single (Record.length_data_ofVote_lt hop), fun r hr => ?_⟩
  obtain rfl := List.mem_singleton.1 hr
  exact Record.checked_ofVote_of_check hop

/-- A decision comes after some of the records. -/
theorem Readable.decided (h : Readable rs) (hroom : n + 1 < Journal.recordBound) (commit : Bool) :
    Readable (rs.take n ++ [.ofDecision commit]) := by
  have hlen := List.length_take_le n rs
  refine ⟨Journal.Countable.concat ⟨by omega, fun r hr => h.countable.2 r (List.mem_of_mem_take hr)⟩
    (by omega) (Standing.length_data_ofDecision commit), fun r hr => ?_⟩
  rcases List.mem_append.1 hr with hr | hr
  · exact h.checked r (List.mem_of_mem_take hr)
  · obtain rfl := List.mem_singleton.1 hr
    exact Record.checked_ofDecision commit

/-- An operation waits for its decision, and the store holds `M`. The journal may hold one more
record than it counts. -/
structure Engaged (settings : ReplicaSettings) (M : Store.Contents) (op : Operation)
    (rs : List Record) (n : Nat) (r : Replica) (d : Disk) : Prop where
  placed : r.Placed settings n
  phase_eq : r.phase = .pending op
  check : op.check = .ok ()
  housed : settings.Housed M rs d
  long : n ≤ rs.length
  short : rs.length ≤ n + 1
  readable : Readable rs

/-- No operation waits, and the store holds `M`. The journal may hold fewer records than it counts,
and a vote that it does not count. -/
structure Free (settings : ReplicaSettings) (M : Store.Contents) (rs : List Record) (n : Nat)
    (r : Replica) (d : Disk) : Prop where
  placed : r.Placed settings n
  phase_eq : r.phase.pending? = none
  stocked : settings.Stocked M rs d
  directory : d.at? settings.journalPath = some .directory
  short : rs.length ≤ max 1 n
  room : n < Journal.recordBound
  readable : Readable rs

theorem Engaged.stocked (h : r.Engaged settings M op rs n d) : settings.Stocked M rs d :=
  h.housed.stocked h.readable.countable.1

theorem Engaged.frayed (h : r.Engaged settings M op rs n d) (he : Frayed d e) (cache : Cache) :
    Engaged settings M op rs n { r with cache } e :=
  ⟨⟨h.placed.settings_eq, h.placed.store_eq, h.placed.journal_eq⟩, h.phase_eq, h.check,
    h.housed.frayed he, h.long, h.short, h.readable⟩

theorem Free.frayed (h : r.Free settings M rs n d) (he : Frayed d e) (cache : Cache) :
    Free settings M rs n { r with cache } e :=
  ⟨⟨h.placed.settings_eq, h.placed.store_eq, h.placed.journal_eq⟩, h.phase_eq, h.stocked.frayed he,
    (he.directory_iff _).2 h.directory, h.short, h.room, h.readable⟩

/-! ## Decisions -/

/-- The replica that has taken a decision. -/
theorem Engaged.free (h : r.Engaged settings M op rs n d) (hroom : n + 1 < Journal.recordBound)
    {cache : Cache} {phase : Phase} (hphase : phase.pending? = none)
    (he : settings.Housed (decided commit op M) (rs.take n ++ [.ofDecision commit]) e) :
    Free settings (decided commit op M) (rs.take n ++ [.ofDecision commit]) (n + 1)
      { r with journal := ⟨settings.journalPath, n + 1, r.journal.cursor⟩, cache, phase } e := by
  have hreadable := h.readable.decided hroom commit
  refine ⟨⟨h.placed.settings_eq, h.placed.store_eq, rfl⟩, hphase, he.stocked hreadable.countable.1,
    he.journal.directory, ?_, hroom, hreadable⟩
  rw [List.length_append, List.length_take, List.length_singleton]
  omega

/-- The replica whose decision came into the journal, whether or not it counts it, and that
waits. -/
theorem Engaged.logged (h : r.Engaged settings M op rs n d) (hroom : n + 1 < Journal.recordBound)
    {M' : Store.Contents} {n' : Nat} (hn : n' = n ∨ n' = n + 1) (hplaced : r'.Placed settings n')
    (hphase : r'.phase = .pending op)
    (he : settings.Housed M' (rs.take n ++ [.ofDecision commit]) e) :
    r'.Engaged settings M' op (rs.take n ++ [.ofDecision commit]) n' e := by
  have hlen : (rs.take n ++ [Record.ofDecision commit]).length = n + 1 := by
    rw [List.length_append, List.length_take, List.length_singleton, Nat.min_eq_left h.long]
  exact ⟨hplaced, hphase, h.check, he, by omega, by omega, h.readable.decided hroom commit⟩

/-- A decision is taken, and on the way it comes into the journal before it is carried out. -/
theorem Engaged.ensures_decide (h : r.Engaged settings M op rs n d)
    (hroom : n + 1 < Journal.recordBound) (commit : Bool) :
    (r.decide commit).Ensures (fun e => ∃ M' rs', Readable rs' ∧ settings.Stocked M' rs' e)
      (fun a e => a.1 = .ack ∧ ∃ rs', a.2.Free settings (decided commit op M) rs' (n + 1) e) d := by
  have hreadable := h.readable.decided hroom commit
  have hway : ∀ {M' e}, settings.Housed M' (rs.take n ++ [.ofDecision commit]) e →
      ∃ M' rs', Readable rs' ∧ settings.Stocked M' rs' e := fun he =>
    ⟨_, _, hreadable, he.stocked hreadable.countable.1⟩
  have happend := h.housed.ensures_append_at (.ofDecision commit) h.long h.short r.journal.cursor
  rw [decide_of_pending h.phase_eq, h.placed.journal_eq]
  refine Action.Ensures.bind (happend.mono ?_ fun a e _ hQ => hQ) ?_
  · rintro e (hbefore | hafter)
    · exact ⟨M, rs, h.readable, hbefore.stocked h.readable.countable.1⟩
    · exact hway hafter
  rintro - c - ⟨rfl, hlogged⟩
  cases commit with
  | false => exact Action.ensures_done.2 ⟨hway hlogged, rfl, _, h.free hroom rfl hlogged⟩
  | true =>
    have happly := ensures_applyDecided hlogged (r := { r with
      journal := ⟨settings.journalPath, n + 1, r.journal.cursor⟩ }) h.placed.store_eq h.check
    refine Action.Ensures.bind (happly.mono ?_ fun a e _ hQ => hQ) ?_
    · rintro e (hbefore | hafter)
      · exact hway hbefore
      · exact hway hafter
    rintro - e - ⟨rfl, hafter⟩
    exact Action.ensures_done.2 ⟨hway hafter, rfl, _, h.free hroom rfl hafter⟩

/-- A decision is acknowledged and taken, or the operation goes on waiting. It may have been carried
out then. -/
theorem Engaged.ends_decide (h : r.Engaged settings M op rs n d)
    (hroom : n + 1 < Journal.recordBound)
    (hends : Ends (· = settings.storePath) (r.decide commit) d (answer, r') e) :
    (answer = .ack ∧ ∃ rs', r'.Free settings (decided commit op M) rs' (n + 1) e) ∨
    (answer ≠ .ack ∧ ∃ M' rs' n', (M' = M ∨ M' = decided commit op M) ∧
      r'.Engaged settings M' op rs' n' e) := by
  rw [decide_of_pending h.phase_eq, h.placed.journal_eq] at hends
  obtain ⟨appended, c, happend, hrest⟩ := fares_bind hends
  rcases ends_append h.housed h.long h.short happend with ⟨rfl, hlogged⟩ | ⟨⟨f, rfl⟩, hC⟩
  · cases commit with
    | false =>
      obtain ⟨rfl, rfl, rfl⟩ := fares_done_pair hrest
      exact .inl ⟨rfl, _, h.free hroom rfl hlogged⟩
    | true =>
      obtain ⟨applied, c', happly, hlast⟩ := fares_bind hrest
      obtain ⟨cache, ⟨rfl, hafter⟩ | ⟨⟨f, rfl⟩, hC⟩⟩ := ends_applyDecided hlogged
        (r := { r with journal := ⟨settings.journalPath, n + 1, r.journal.cursor⟩ })
        h.placed.store_eq h.check happly
      · obtain ⟨rfl, rfl, rfl⟩ := fares_done_pair hlast
        exact .inl ⟨rfl, _, h.free hroom rfl hafter⟩
      · obtain ⟨rfl, rfl, rfl⟩ := fares_done_pair hlast
        have hplaced : Placed settings (n + 1) { r with
            journal := ⟨settings.journalPath, n + 1, r.journal.cursor⟩, cache } :=
          ⟨h.placed.settings_eq, h.placed.store_eq, rfl⟩
        refine .inr ⟨by simp [Response.ofFault], ?_⟩
        rcases hC with hbefore | hafter
        · exact ⟨M, _, _, .inl rfl, h.logged hroom (.inr rfl) hplaced h.phase_eq hbefore⟩
        · exact ⟨_, _, _, .inr rfl, h.logged hroom (.inr rfl) hplaced h.phase_eq hafter⟩
  · obtain ⟨rfl, rfl, rfl⟩ := fares_done_pair hrest
    refine .inr ⟨by simp [Response.ofFault], M, ?_⟩
    rcases hC with hbefore | hafter
    · exact ⟨rs, n, .inl rfl, { h with housed := hbefore }⟩
    · exact ⟨_, n, .inl rfl, h.logged hroom (.inl rfl) h.placed h.phase_eq hafter⟩

/-- A replica that waits for no decision acknowledges any. -/
theorem Free.decide_eq (h : r.Free settings M rs n d) (commit : Bool) :
    r.decide commit = .done (.ack, r) :=
  decide_of_not_pending (pending?_eq_none_iff.1 h.phase_eq) commit

/-! ## Votes -/

/-- A vote comes into the place of what the journal holds. -/
theorem Free.ensures_vote (h : r.Free settings M rs n d) (hop : op.check = .ok ()) :
    (r.vote op).Ensures (fun e => ∃ rs', Readable rs' ∧ settings.Stocked M rs' e)
      (fun a e => a.1 = .voteCommit ∧ a.2.Engaged settings M op [.ofVote op] 1 e) d := by
  have hvoted := readable_ofVote hop
  have hclear := h.stocked.ensures_clear h.directory h.short h.room r.journal.cursor
  rw [vote_of_ok (pending?_eq_none_iff.1 h.phase_eq) hop, h.placed.journal_eq]
  refine Action.Ensures.bind (Q := fun a e => a = (.ok (), ⟨settings.journalPath, 1, 0⟩) ∧
    settings.Housed M [.ofVote op] e) ?_ ?_
  · refine Action.Ensures.bind (hclear.mono ?_ fun a e _ hQ => hQ) ?_
    · rintro e ⟨hbefore | hempty, -⟩
      · exact ⟨rs, h.readable, hbefore⟩
      · exact ⟨[], readable_nil, hempty⟩
    rintro - c - ⟨rfl, hempty⟩
    refine Action.Ensures.bind ((hempty.ensures_append (.ofVote op) 0).mono ?_
      fun a e _ hQ => hQ) ?_
    · rintro e (hbefore | hafter)
      · exact ⟨[], readable_nil, hbefore.stocked readable_nil.countable.1⟩
      · exact ⟨_, hvoted, hafter.stocked hvoted.countable.1⟩
    · rintro - e hC ⟨rfl, hafter⟩
      exact Action.ensures_done.2 ⟨hC, rfl, hafter⟩
  · rintro - e hC ⟨rfl, hafter⟩
    exact Action.ensures_done.2 ⟨hC, rfl, ⟨h.placed.settings_eq, h.placed.store_eq, rfl⟩, rfl, hop,
      hafter, Nat.le_refl 1, Nat.le_succ 1, hvoted⟩

/-- A vote comes into the place of what the journal holds, or the replica still waits for no
decision. The vote may be in the journal then, but does not count. -/
theorem Free.ends_vote (h : r.Free settings M rs n d)
    (hends : Ends (· = settings.storePath) (r.vote op) d (answer, r') e) :
    (answer = .voteCommit ∧ r'.Engaged settings M op [.ofVote op] 1 e) ∨
      (answer ≠ .voteCommit ∧ ∃ rs' n', r'.Free settings M rs' n' e) := by
  have hphase := pending?_eq_none_iff.1 h.phase_eq
  cases hop : op.check with
  | error f =>
    rw [vote_of_error hphase hop] at hends
    obtain ⟨rfl, rfl, rfl⟩ := fares_done_pair hends
    exact .inr ⟨by simp, rs, n, h⟩
  | ok _ =>
    have hvoted := readable_ofVote hop
    have hplaced : ∀ {size : Nat} {cursor : Nat}, Placed settings size
        { r with journal := ⟨settings.journalPath, size, cursor⟩ } :=
      ⟨h.placed.settings_eq, h.placed.store_eq, rfl⟩
    rw [vote_of_ok hphase hop, h.placed.journal_eq] at hends
    obtain ⟨recorded, c, hrecord, hrest⟩ := fares_bind hends
    rcases ends_recordVote h.stocked h.directory h.short h.room hrecord with
      ⟨rfl, hafter⟩ | ⟨⟨f, rfl⟩, hbefore | hempty, hdir⟩ | ⟨⟨f, rfl⟩, hempty | hafter⟩
    · obtain ⟨rfl, rfl, rfl⟩ := fares_done_pair hrest
      exact .inl ⟨rfl, ⟨h.placed.settings_eq, h.placed.store_eq, rfl⟩, rfl, hop, hafter,
        Nat.le_refl 1, Nat.le_succ 1, hvoted⟩
    all_goals
      obtain ⟨rfl, rfl, rfl⟩ := fares_done_pair hrest
      refine .inr ⟨by simp, ?_⟩
    · exact ⟨rs, n, hplaced, h.phase_eq, hbefore, hdir, h.short, h.room, h.readable⟩
    · exact ⟨[], n, hplaced, h.phase_eq, hempty, hdir, Nat.zero_le _, h.room, readable_nil⟩
    · exact ⟨[], 0, hplaced, h.phase_eq, hempty.stocked readable_nil.countable.1,
        hempty.journal.directory, Nat.zero_le _, readable_nil.countable.1, readable_nil⟩
    · exact ⟨_, 0, hplaced, h.phase_eq, hafter.stocked hvoted.countable.1,
        hafter.journal.directory, Nat.le_refl 1, readable_nil.countable.1, hvoted⟩

/-- A replica that waits for a decision does not vote, and stays as it is. -/
theorem Engaged.ends_vote (h : r.Engaged settings M op rs n d) {blind : Path → Prop}
    (hends : Ends blind (r.vote op') d (answer, r') e) :
    answer = .ofFault .invalidRequest ∧ r' = r ∧ e = d := by
  rw [vote_of_pending h.phase_eq] at hends
  exact fares_done_pair hends

/-! ## Requests -/

/-- The replica runs, and its journal is fit to be written on. -/
def Running (settings : ReplicaSettings) (r : Replica) (d : Disk) : Prop :=
  (∃ M op rs n, r.Engaged settings M op rs n d) ∨ ∃ M rs n, r.Free settings M rs n d

theorem Running.placed (h : r.Running settings d) : r.Placed settings r.journal.size := by
  rcases h with ⟨M, op, rs, n, h⟩ | ⟨M, rs, n, h⟩
  · rw [h.placed.size_eq]
    exact h.placed
  · rw [h.placed.size_eq]
    exact h.placed

/-- The disk can be opened. -/
def Openable (settings : ReplicaSettings) (d : Disk) : Prop :=
  ∃ M rs, Readable rs ∧ settings.Stocked M rs d

theorem Openable.frayed (h : Openable settings d) (he : Frayed d e) : Openable settings e := by
  obtain ⟨M, rs, hreadable, hstocked⟩ := h
  exact ⟨M, rs, hreadable, hstocked.frayed he⟩

theorem Running.openable (h : r.Running settings d) : Openable settings d := by
  rcases h with ⟨M, op, rs, n, h⟩ | ⟨M, rs, n, h⟩
  · exact ⟨M, rs, h.readable, h.stocked⟩
  · exact ⟨M, rs, h.readable, h.stocked⟩

theorem Running.frayed (h : r.Running settings d) (he : Frayed d e) (cache : Cache) :
    Running settings { r with cache } e := by
  rcases h with ⟨M, op, rs, n, h⟩ | ⟨M, rs, n, h⟩
  · exact .inl ⟨M, op, rs, n, h.frayed he cache⟩
  · exact .inr ⟨M, rs, n, h.frayed he cache⟩

theorem Running.ends_vote (h : r.Running settings d)
    (hends : Ends (· = settings.storePath) (r.vote op) d (answer, r') e) :
    r'.Running settings e := by
  rcases h with ⟨M, op, rs, n, h⟩ | ⟨M, rs, n, h⟩
  · obtain ⟨-, rfl, rfl⟩ := h.ends_vote hends
    exact .inl ⟨M, op, rs, n, h⟩
  · rcases h.ends_vote hends with ⟨-, h'⟩ | ⟨-, rs', n', h'⟩
    · exact .inl ⟨M, _, _, _, h'⟩
    · exact .inr ⟨M, rs', n', h'⟩

theorem Running.ends_decide (h : r.Running settings d)
    (hroom : r.journal.size + 1 < Journal.recordBound)
    (hends : Ends (· = settings.storePath) (r.decide commit) d (answer, r') e) :
    r'.Running settings e := by
  rcases h with ⟨M, op, rs, n, h⟩ | ⟨M, rs, n, h⟩
  · rw [h.placed.size_eq] at hroom
    rcases h.ends_decide hroom hends with ⟨-, rs', h'⟩ | ⟨-, M', rs', n', -, h'⟩
    · exact .inr ⟨_, rs', _, h'⟩
    · exact .inl ⟨M', op, rs', n', h'⟩
  · rw [h.decide_eq] at hends
    obtain ⟨-, rfl, rfl⟩ := fares_done_pair hends
    exact .inr ⟨M, rs, n, h⟩

/-- Serving a request leaves the journal fit to be written on, whatever calls fail. -/
theorem Running.ends_serve (h : r.Running settings d) (hvotes : settings.votes = true)
    (hroom : r.journal.size + 1 < Journal.recordBound) {now : String}
    (hends : Ends (· = settings.storePath) (r.serve now q) d (answer, r') e) :
    r'.Running settings e := by
  rw [serve_of_votes (h.placed.settings_eq ▸ hvotes)] at hends
  cases q with
  | get key =>
    obtain ⟨⟨cache, rfl⟩, hfrayed, -⟩ := ends_get hends
    exact h.frayed hfrayed cache
  | put key value | del key => exact h.ends_vote hends
  | commit | abort => exact h.ends_decide hroom hends
  | info | register host port =>
    obtain ⟨-, rfl, rfl⟩ := fares_done_pair hends
    exact h

/-- The disks on the way while a request is served can be opened. -/
theorem Running.trail_serve (h : r.Running settings d) (hvotes : settings.votes = true)
    (hroom : r.journal.size + 1 < Journal.recordBound) {now : String}
    (he : e ∈ (r.serve now q).trail d) : Openable settings e := by
  rw [serve_of_votes (h.placed.settings_eq ▸ hvotes)] at he
  have hsame : ∀ a, e ∈ (done a : Action (Response × Replica)).trail d → Openable settings e := by
    intro a hmem
    obtain rfl : e = d := by simpa [trail] using hmem
    exact h.openable
  have hvote : ∀ op, e ∈ (r.vote op).trail d → Openable settings e := by
    intro op hmem
    rcases h with ⟨M, op', rs, n, h⟩ | ⟨M, rs, n, h⟩
    · rw [vote_of_pending h.phase_eq] at hmem
      exact hsame _ hmem
    · cases hop : op.check with
      | error f =>
        rw [vote_of_error (pending?_eq_none_iff.1 h.phase_eq) hop] at hmem
        exact hsame _ hmem
      | ok _ => exact ⟨M, (h.ensures_vote hop).1 e hmem⟩
  have hdecide : ∀ commit, e ∈ (r.decide commit).trail d → Openable settings e := by
    intro commit hmem
    rcases h with ⟨M, op', rs, n, h⟩ | ⟨M, rs, n, h⟩
    · rw [h.placed.size_eq] at hroom
      exact (h.ensures_decide hroom commit).1 e hmem
    · rw [h.decide_eq] at hmem
      exact hsame _ hmem
  cases q with
  | get key =>
    exact h.openable.frayed (.of_same fun q => (r.within_get key).at?_of_mem_trail he not_false)
  | put key value => exact hvote _ he
  | del key => exact hvote _ he
  | commit => exact hdecide true he
  | abort => exact hdecide false he
  | info | register host port => exact hsame _ he

/-- A replica that was opened is fit to run, whatever its journal tells of. -/
theorem Resumed.running {M : Store.Contents} (h : r.Resumed settings M (.ofRecords rs) rs d)
    (hrs : Readable rs) : r.Running settings d := by
  have hplaced : r.Placed settings rs.length := ⟨h.settings_eq, h.store_eq, h.journal_eq⟩
  cases hpending : r.phase.pending? with
  | some op =>
    have hphase := pending?_eq_some_iff.1 hpending
    have hvoted : Standing.ofRecords rs = .voted op := by
      rw [← Standing.pending?_eq_some, Standing.pending?, ← h.phase_eq, hpending]
    exact .inl ⟨M, op, rs, _, hplaced, hphase, Standing.check_of_foldl (by simp) hrs.checked hvoted,
      h.housed, Nat.le_refl _, Nat.le_succ _, hrs⟩
  | none =>
    exact .inr ⟨M, rs, _, hplaced, hpending, h.housed.stocked hrs.countable.1,
      h.housed.journal.directory, by omega, hrs.countable.1, hrs⟩

/-- Opening a replica goes to its end, and it can be opened again if it is cut off. -/
theorem Openable.ensures_openWith (h : Openable settings d) (hvotes : settings.votes = true)
    {cache : Cache} (hcache : Cache.create settings.cacheSets settings.cacheSlots = .ok cache) :
    (openWith settings).Ensures (Openable settings)
      (fun a e => ∃ r, a = .ok r ∧ r.Running settings e) d := by
  obtain ⟨M, rs, hrs, hstocked⟩ := h
  refine (ensures_openWith_records hstocked hrs.countable hrs.checked hvotes hcache).mono ?_ ?_
  · rintro e ⟨ops, -, he⟩
    exact ⟨_, rs, hrs, he⟩
  · rintro a e - ⟨r, rfl, hresumed⟩
    exact ⟨r, rfl, hresumed.running hrs⟩

end Replica

/-! ## Machines -/

namespace Machine

open Replica

variable {settings : ReplicaSettings} {m m' : Machine} {d e : Disk} {r : Replica}

/-- The machine goes on or off or fails to go on, or its replica serves a request while calls may
fail, or is cut off on the way. -/
inductive Event (settings : ReplicaSettings) : Machine → Machine → Prop
  | switched {m m' : Machine} (h : Switched settings m m') : Event settings m m'
  | unopened {d e : Disk} {f : Fault}
    (h : Action.Falters (openWith settings).run d (.error f) e) :
    Event settings ⟨d, none⟩ ⟨e, none⟩
  | served {d e : Disk} {r r' : Replica} {q : Request} {answer : Response} {now : String}
    (hroom : r.journal.size + 1 < Journal.recordBound)
    (h : Action.Ends (· = settings.storePath) (r.serve now q) d (answer, r') e) :
    Event settings ⟨d, some r⟩ ⟨e, some r'⟩
  | cut {d e : Disk} {r : Replica} {q : Request} {now : String}
    (hroom : r.journal.size + 1 < Journal.recordBound) (h : e ∈ (r.serve now q).trail d) :
    Event settings ⟨d, some r⟩ ⟨e, none⟩

/-- What can have become of a machine since its directory was fit to be opened. -/
def Reached (settings : ReplicaSettings) (m : Machine) : Prop :=
  ∃ d, Openable settings d ∧ Relation.ReflTransGen (Event settings) ⟨d, none⟩ m

/-- The machine can be opened, or its replica runs. -/
def Usable (settings : ReplicaSettings) (m : Machine) : Prop :=
  match m.replica? with
  | none => Openable settings m.disk
  | some r => r.Running settings m.disk

theorem Usable.openable (h : Usable settings m) : Openable settings m.disk := by
  obtain ⟨d, _ | r⟩ := m
  · exact h
  · exact Running.openable h

theorem Usable.event (h : Usable settings m) (hs : settings.Serviceable)
    (hstep : Event settings m m') : Usable settings m' := by
  obtain ⟨cache, hcache⟩ := hs.cache
  have hopens := h.openable.ensures_openWith hs.votes hcache
  cases hstep with
  | switched hswitched =>
    cases hswitched with
    | on hopen =>
      obtain ⟨-, r, heq, hruns⟩ := hopens
      rw [hopen] at heq hruns
      obtain rfl := Except.ok.inj heq
      exact hruns
    | cut hopen => exact hopens.1 _ hopen
    | off => exact h.openable
  | unopened hopen =>
    rcases (halts_openWith settings).falters hopen with hrun | ⟨-, htrail⟩
    · obtain ⟨-, r, heq, -⟩ := hopens
      exact absurd (heq.symm.trans (congrArg Prod.fst hrun)) (by simp)
    · exact hopens.1 _ htrail
  | served hroom hserve => exact Running.ends_serve h hs.votes hroom hserve
  | cut hroom hcut => exact Running.trail_serve h hs.votes hroom hcut

theorem Reached.usable (h : Reached settings m) (hs : settings.Serviceable) :
    Usable settings m := by
  obtain ⟨d, hopenable, hrun⟩ := h
  induction hrun with
  | refl => exact hopenable
  | tail _ hstep ih => exact ih.event hs hstep

end Machine

end RingStore
