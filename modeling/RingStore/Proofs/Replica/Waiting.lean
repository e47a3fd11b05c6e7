import RingStore.Proofs.Replica.Failing
import RingStore.Proofs.Replica.Serving

/-!
# Operations that wait while calls fail

A replica serves requests while calls on its disk may fail. A decision is written to the journal
before it is carried out. When it is in the journal and fails to be carried out, the operation goes
on waiting (`Replica.Waits`) until the decision comes again; then the journal holds it twice.
Whatever fails, what the replica acknowledges is what its journal tells of (`Replica.Handled`),
unless a decision to drop comes when the decision to carry out is in the journal (`Replica.Serves`).
-/

namespace RingStore

open Disk Disk.Attempt

namespace Standing

variable {L : Standing} {op : Operation} {later : List Bool} {n : Nat}

/-- The operation whose decision to carry out has come into the journal between two standings. -/
def commits (L L' : Standing) : List Operation :=
  match L, L' with
  | committed _, _ => []
  | _, committed op => [op]
  | _, _ => []

theorem commits_of_ne (L : Standing) {L' : Standing} (h : ∀ op, L' ≠ committed op) :
    L.commits L' = [] := by
  cases L' with
  | committed op => exact absurd rfl (h op)
  | idle | voted op | aborted op => cases L <;> rfl

theorem commits_self (L : Standing) : L.commits L = [] := by
  cases L <;> rfl

/-- The decision to carry out counts once. -/
theorem carryOut_commits (hop : L.operation? = some op) (M : Store.Contents) :
    carryOut (L.commits (committed op)) (L.settle M) = op.effect M := by
  cases L with
  | idle => simp [operation?] at hop
  | voted op' | committed op' | aborted op' =>
    obtain rfl := Option.some.inj hop
    rfl

theorem settle_of_not_committed (hL : ∀ op', L ≠ committed op') (M : Store.Contents) :
    L.settle M = M := by
  cases L with
  | committed op' => exact absurd rfl (hL op')
  | idle | voted op' | aborted op' => rfl

theorem log_committed (op : Operation) (n : Nat) :
    (committed op).log (List.replicate n true) =
      .ofVote op :: List.replicate (n + 1) (.ofDecision true) := by
  simp [log, records, List.replicate_succ]

theorem length_log_committed (op : Operation) (n : Nat) :
    ((committed op).log (List.replicate n true)).length = n + 2 := by
  rw [log_committed]
  simp

/-- The decision to carry out is in the journal if more than the vote is counted. -/
theorem eq_zero_of_counted
    (h : (L.log later).take (n + 1) = .ofVote op :: List.replicate n (.ofDecision true))
    (hL : ∀ op', L ≠ committed op') : n = 0 := by
  have hne : Record.ofDecision false ≠ Record.ofDecision true := by decide
  cases n with
  | zero => rfl
  | succ n =>
    cases L with
    | committed op' => exact absurd rfl (hL op')
    | idle => simp [log, records] at h
    | voted op' => simp [log, records, List.replicate_succ] at h
    | aborted op' => simp [log, records, List.replicate_succ, hne] at h

end Standing

namespace Replica

open ReplicaSettings Action Standing

variable {settings : ReplicaSettings} {N : Store.Contents} {op : Operation} {L : Standing}
  {later : List Bool} {n : Nat} {r r' : Replica} {d e : Disk} {q : Request} {answer : Response}

/-- The replica runs in the directories of the settings, and its journal counts some records. -/
structure Placed (settings : ReplicaSettings) (size : Nat) (r : Replica) : Prop where
  settings_eq : r.settings = settings
  store_eq : r.store = settings.store
  journal_eq : r.journal = ⟨settings.journalPath, size, r.journal.cursor⟩

theorem Placed.size_eq {size : Nat} (h : r.Placed settings size) : r.journal.size = size := by
  rw [h.journal_eq]

/-- An operation waits for its decision. The journal counts its vote and the decisions to carry out
that were not acknowledged, and may hold one more record that it does not count. The contents are
`N` once all that the journal tells of is carried out. -/
structure Waits (settings : ReplicaSettings) (N : Store.Contents) (op : Operation) (L : Standing)
    (later : List Bool) (n : Nat) (r : Replica) (d : Disk) : Prop where
  placed : r.Placed settings (n + 1)
  phase_eq : r.phase = .pending op
  about : L.operation? = some op
  counted : (L.log later).take (n + 1) = .ofVote op :: List.replicate n (.ofDecision true)
  short : (L.log later).length ≤ n + 2
  housed : ∃ M, L.settle M = N ∧ settings.Housed M (L.log later) d
  valid : L.Valid
  room : (L.log later).length < Journal.recordBound

/-- No operation waits, and the store holds `N`, in which all that the journal tells of is carried
out. The journal may hold fewer records than it counts, and a vote that it does not count. -/
structure Rests (settings : ReplicaSettings) (N : Store.Contents) (L : Standing) (later : List Bool)
    (n : Nat) (r : Replica) (d : Disk) : Prop where
  placed : r.Placed settings n
  phase_eq : r.phase.pending? = none
  settled : L.settle N = N
  short : (L.log later).length ≤ max 1 n
  stocked : settings.Stocked N (L.log later) d
  directory : d.at? settings.journalPath = some .directory
  valid : L.Valid
  room : (L.log later).length < Journal.recordBound

theorem Waits.standing_eq (h : r.Waits settings N op L later n d) : settings.standing d = L := by
  obtain ⟨M, -, hhoused⟩ := h.housed
  exact (hhoused.stocked h.room).standing_eq h.valid

/-- All that is counted is in the journal. -/
theorem Waits.long (h : r.Waits settings N op L later n d) : n + 1 ≤ (L.log later).length := by
  have hlen := congrArg List.length h.counted
  simp only [List.length_take, List.length_cons, List.length_replicate] at hlen
  omega

theorem Waits.valid_of_about (h : r.Waits settings N op L later n d) {L' : Standing}
    (hL' : L'.operation? = some op) : L'.Valid :=
  fun op' hop' => h.valid op' (h.about.trans (hL'.symm.trans hop'))

/-- The same operation waits on another disk that holds the same records. -/
theorem Waits.rehoused (h : r.Waits settings N op L later n d) {M : Store.Contents}
    (hM : L.settle M = N) (hhoused : settings.Housed M (L.log later) e) :
    r.Waits settings N op L later n e :=
  { h with housed := ⟨M, hM, hhoused⟩ }

theorem Rests.standing_eq (h : r.Rests settings N L later n d) : settings.standing d = L :=
  h.stocked.standing_eq h.valid

theorem Rests.phase_ne (h : r.Rests settings N L later n d) (op : Operation) :
    r.phase ≠ .pending op := by
  intro hphase
  have hnone := h.phase_eq
  rw [hphase] at hnone
  exact absurd hnone (by simp [Phase.pending?])

/-- Nothing but the cache and drafts has changed. -/
theorem Waits.frayed (h : r.Waits settings N op L later n d) (he : Frayed d e) (cache : Cache) :
    Waits settings N op L later n { r with cache } e := by
  obtain ⟨M, hM, hhoused⟩ := h.housed
  have hplaced : Placed settings (n + 1) { r with cache } :=
    ⟨h.placed.settings_eq, h.placed.store_eq, h.placed.journal_eq⟩
  exact { h.rehoused hM (hhoused.frayed he) with placed := hplaced }

theorem Rests.frayed (h : r.Rests settings N L later n d) (he : Frayed d e) (cache : Cache) :
    Rests settings N L later n { r with cache } e :=
  ⟨⟨h.placed.settings_eq, h.placed.store_eq, h.placed.journal_eq⟩, h.phase_eq, h.settled, h.short,
    h.stocked.frayed he, (he.directory_iff _).2 h.directory, h.valid, h.room⟩

/-- What serving a request makes of an operation that waits: it goes on waiting, or is carried out
or dropped as the journal tells. -/
inductive Handled (settings : ReplicaSettings) (N : Store.Contents) (op : Operation) (L : Standing)
    (answer : Response) (r' : Replica) (e : Disk) : Prop
  | waiting (L' : Standing) (later : List Bool) (n : Nat)
    (h : r'.Waits settings (carryOut (L.commits L') N) op L' later n e)
    (hkept : L = .committed op → L' = .committed op) (hanswer : answer ≠ .ack)
  | committed (later : List Bool) (n : Nat) (hphase : r'.phase = .committed)
    (h : r'.Rests settings (carryOut (L.commits (.committed op)) N) (.committed op) later n e)
    (hanswer : answer = .ack)
  | aborted (later : List Bool) (n : Nat) (hL : ∀ op', L ≠ .committed op')
    (hphase : r'.phase = .aborted) (h : r'.Rests settings N (.aborted op) later n e)
    (hanswer : answer = .ack)

/-- The operation goes on waiting, and the journal is the same. -/
theorem Waits.unchanged (h : r.Waits settings N op L later n d) (hanswer : answer ≠ .ack) :
    Handled settings N op L answer r d := by
  have hN : carryOut (L.commits L) N = N := by
    rw [commits_self]
    rfl
  refine .waiting L later n ?_ (fun hL => hL) hanswer
  rw [hN]
  exact h

/-- The decision to carry out is in the journal, whether or not it is counted. -/
theorem waits_committed (hvalid : (committed op).Valid) (hroom : n + 2 < Journal.recordBound)
    {M : Store.Contents} {k : Nat} (hk : k = n ∨ k = n + 1) (hplaced : r.Placed settings (k + 1))
    (hphase : r.phase = .pending op)
    (hhoused : settings.Housed M ((committed op).log (List.replicate n true)) d) :
    r.Waits settings (op.effect M) op (.committed op) (List.replicate n true) k d := by
  have hlength := length_log_committed op n
  refine ⟨hplaced, hphase, rfl, ?_, by omega, ⟨M, rfl, hhoused⟩, hvalid, by omega⟩
  rw [log_committed, List.take_succ_cons, List.take_replicate, Nat.min_eq_left (by omega)]

theorem Waits.commit (h : r.Waits settings N op L later n d) (hroom : n + 2 < Journal.recordBound)
    (hends : Ends (· = settings.storePath) (r.decide true) d (answer, r') e) :
    Handled settings N op L answer r' e := by
  obtain ⟨M, rfl, hhoused⟩ := h.housed
  have hvalid : (committed op).Valid := h.valid_of_about rfl
  have hcarried := carryOut_commits h.about M
  have hlength := length_log_committed op n
  -- the journal with the decision once more
  have hlog : (L.log later).take (n + 1) ++ [.ofDecision true] =
      (committed op).log (List.replicate n true) := by
    rw [h.counted, log_committed, List.replicate_succ', List.cons_append]
  have hwaits : ∀ {M' : Store.Contents} {k : Nat},
      r'.Waits settings (op.effect M') op (committed op) (List.replicate n true) k e →
      op.effect M' = op.effect M → answer ≠ .ack →
        Handled settings (L.settle M) op L answer r' e := by
    intro M' k hwaits hM' hanswer
    refine .waiting (committed op) (List.replicate n true) k ?_ (fun _ => rfl) hanswer
    rw [hcarried, ← hM']
    exact hwaits
  rw [decide_of_pending h.phase_eq, h.placed.journal_eq] at hends
  obtain ⟨appended, c, happend, hrest⟩ := fares_bind hends
  rcases ends_append hhoused h.long h.short happend with ⟨rfl, hlogged⟩ | ⟨⟨f, rfl⟩, hC⟩
  · rw [hlog] at hlogged
    obtain ⟨applied, c', happly, hlast⟩ := fares_bind hrest
    obtain ⟨cache, ⟨rfl, hafter⟩ | ⟨⟨f, rfl⟩, hC⟩⟩ := ends_applyDecided hlogged
      (r := { r with journal := ⟨settings.journalPath, n + 1 + 1, r.journal.cursor⟩ })
      h.placed.store_eq (h.valid op h.about).1 happly
    · obtain ⟨rfl, rfl, rfl⟩ := fares_done_pair hlast
      refine .committed (List.replicate n true) (n + 2) rfl ?_ rfl
      rw [hcarried]
      exact ⟨⟨h.placed.settings_eq, h.placed.store_eq, rfl⟩, rfl, op.effect_effect M, by omega,
        hafter.stocked (by omega), hafter.journal.directory, hvalid, by omega⟩
    · obtain ⟨rfl, rfl, rfl⟩ := fares_done_pair hlast
      have hplaced : Placed settings (n + 1 + 1) { r with
          journal := ⟨settings.journalPath, n + 1 + 1, r.journal.cursor⟩, cache } :=
        ⟨h.placed.settings_eq, h.placed.store_eq, rfl⟩
      rcases hC with hbefore | hafter
      · exact hwaits (waits_committed hvalid hroom (.inr rfl) hplaced h.phase_eq hbefore) rfl
          (by simp [Response.ofFault])
      · exact hwaits (waits_committed hvalid hroom (.inr rfl) hplaced h.phase_eq hafter)
          (op.effect_effect M) (by simp [Response.ofFault])
  · obtain ⟨rfl, rfl, rfl⟩ := fares_done_pair hrest
    rcases hC with hbefore | hafter
    · exact (h.rehoused rfl hbefore).unchanged (by simp [Response.ofFault])
    · rw [hlog] at hafter
      exact hwaits (waits_committed hvalid hroom (.inl rfl) h.placed h.phase_eq hafter) rfl
        (by simp [Response.ofFault])

/-- A decision to drop is not to come when the decision to carry out is in the journal. -/
theorem Waits.abort (h : r.Waits settings N op L later n d) (hL : ∀ op', L ≠ .committed op')
    (hends : Ends (· = settings.storePath) (r.decide false) d (answer, r') e) :
    Handled settings N op L answer r' e := by
  obtain ⟨M, rfl, hhoused⟩ := h.housed
  obtain rfl := eq_zero_of_counted h.counted hL
  have hvalid : (aborted op).Valid := h.valid_of_about rfl
  have hN : L.settle M = M := settle_of_not_committed hL M
  have hlog : (L.log later).take (0 + 1) ++ [.ofDecision false] = (aborted op).log [] := by
    rw [h.counted]
    rfl
  have hbound : 2 < Journal.recordBound := by decide
  rw [decide_of_pending h.phase_eq, h.placed.journal_eq] at hends
  obtain ⟨appended, c, happend, hrest⟩ := fares_bind hends
  rcases ends_append hhoused h.long h.short happend with ⟨rfl, hlogged⟩ | ⟨⟨f, rfl⟩, hC⟩
  · obtain ⟨rfl, rfl, rfl⟩ := fares_done_pair hrest
    rw [hlog] at hlogged
    refine .aborted [] 2 hL rfl ?_ rfl
    rw [hN]
    exact ⟨⟨h.placed.settings_eq, h.placed.store_eq, rfl⟩, rfl, rfl, Nat.le_refl 2,
      hlogged.stocked hbound, hlogged.journal.directory, hvalid, hbound⟩
  · obtain ⟨rfl, rfl, rfl⟩ := fares_done_pair hrest
    rcases hC with hbefore | hafter
    · exact (h.rehoused rfl hbefore).unchanged (by simp [Response.ofFault])
    · rw [hlog] at hafter
      refine .waiting (.aborted op) [] 0 ?_ (fun heq => absurd heq (hL op))
        (by simp [Response.ofFault])
      rw [commits_of_ne L (by simp), hN]
      exact ⟨h.placed, h.phase_eq, rfl, rfl, Nat.le_refl 2, ⟨M, rfl, hafter⟩, hvalid, hbound⟩

/-- A vote comes into the place of what the journal holds, or is refused. -/
theorem Rests.vote (h : r.Rests settings N L later n d) (hn : n < Journal.recordBound)
    (hfree : op.ZeroFree) (hends : Ends (· = settings.storePath) (r.vote op) d (answer, r') e) :
    (∃ later n, r'.Waits settings N op (.voted op) later n e) ∨
      ∃ L' later n, (∀ op', L' ≠ L → L' ≠ .committed op') ∧ r'.Rests settings N L' later n e := by
  cases hop : op.check with
  | error f =>
    rw [vote_of_error h.phase_ne hop] at hends
    obtain ⟨rfl, rfl, rfl⟩ := fares_done_pair hends
    exact .inr ⟨L, later, n, fun _ hne => absurd rfl hne, h⟩
  | ok _ =>
    have hvalid := valid_voted hop hfree
    have hone : 1 < Journal.recordBound := by decide
    rw [vote_of_ok h.phase_ne hop, h.placed.journal_eq] at hends
    obtain ⟨recorded, c, hrecord, hrest⟩ := fares_bind hends
    rcases ends_recordVote h.stocked h.directory h.short hn hrecord with
      ⟨rfl, hafter⟩ | ⟨⟨f, rfl⟩, hbefore | hempty, hdir⟩ | ⟨⟨f, rfl⟩, hempty | hafter⟩
    · obtain ⟨rfl, rfl, rfl⟩ := fares_done_pair hrest
      exact .inl ⟨[], 0, ⟨h.placed.settings_eq, h.placed.store_eq, rfl⟩, rfl, rfl, rfl,
        Nat.le_succ 1, ⟨N, rfl, hafter⟩, hvalid, hone⟩
    all_goals
      obtain ⟨rfl, rfl, rfl⟩ := fares_done_pair hrest
      right
    · exact ⟨L, later, n, fun _ hne => absurd rfl hne,
        ⟨h.placed.settings_eq, h.placed.store_eq, rfl⟩, h.phase_eq, h.settled, h.short, hbefore,
        hdir, h.valid, h.room⟩
    · exact ⟨.idle, [], n, by simp, ⟨h.placed.settings_eq, h.placed.store_eq, rfl⟩, h.phase_eq, rfl,
        Nat.zero_le _, hempty, hdir, valid_idle, by decide⟩
    · exact ⟨.idle, [], 0, by simp, ⟨h.placed.settings_eq, h.placed.store_eq, rfl⟩, h.phase_eq, rfl,
        Nat.zero_le _, hempty.stocked (by decide), hempty.journal.directory, valid_idle, by decide⟩
    · exact ⟨.voted op, [], 0, by simp, ⟨h.placed.settings_eq, h.placed.store_eq, rfl⟩, h.phase_eq,
        rfl, Nat.le_refl 1, hafter.stocked hone, hafter.journal.directory, hvalid, hone⟩

/-- Reading a key changes the cache at most, and is not acknowledged. -/
theorem ends_get {key : String} {blind : Path → Prop}
    (hends : Ends blind (r.get key) d (answer, r') e) :
    (∃ cache, r' = { r with cache }) ∧ Frayed d e ∧ answer ≠ .ack := by
  unfold get at hends
  cases hkey : checkKey key with
  | error f =>
    rw [hkey] at hends
    obtain ⟨rfl, rfl, rfl⟩ := fares_done_pair hends
    exact ⟨⟨_, rfl⟩, .refl _, by simp [Response.ofFault]⟩
  | ok _ =>
    rw [hkey] at hends
    rcases hcached : r.cache.get key with ⟨value?, cache⟩
    simp only [hcached] at hends
    cases value? with
    | some value =>
      obtain ⟨rfl, rfl, rfl⟩ := fares_done_pair hends
      exact ⟨⟨_, rfl⟩, .refl _, by simp⟩
    | none =>
      obtain ⟨outcome, c, hget, hrest⟩ := fares_bind hends
      have hsame : Frayed d c := .of_same fun q =>
        Action.Within.at?_of_ends (r.store.within_get (P := fun _ => False) key) hget not_false
      cases outcome with
      | ok value =>
        obtain ⟨rfl, rfl, rfl⟩ := fares_done_pair hrest
        exact ⟨⟨_, rfl⟩, hsame, by simp⟩
      | error f =>
        obtain ⟨rfl, rfl, rfl⟩ := fares_done_pair hrest
        exact ⟨⟨_, rfl⟩, hsame, by simp [Response.ofFault]⟩

/-- The replica serves a request while calls may fail. The request has no zero byte, the journal has
room for one more record, and the request is no decision to drop if an operation waits whose
decision to carry out is in the journal. -/
structure Serves (settings : ReplicaSettings) (r : Replica) (q : Request) (d : Disk)
    (answer : Response) (r' : Replica) (e : Disk) : Prop where
  zeroFree : q.ZeroFree
  room : r.journal.size + 1 < Journal.recordBound
  consistent : q = .abort → r.phase.pending? = none ∨ ∀ op, settings.standing d ≠ .committed op
  ends : ∃ now, Ends (· = settings.storePath) (r.serve now q) d (answer, r') e

theorem Serves.ends_voting (h : r.Serves settings q d answer r' e) (hr : r.settings = settings)
    (hvotes : settings.votes = true) :
    ∃ now, Ends (· = settings.storePath) (r.serveVoting now q) d (answer, r') e := by
  obtain ⟨now, hends⟩ := h.ends
  rw [serve_of_votes (hr ▸ hvotes)] at hends
  exact ⟨now, hends⟩

theorem Waits.serve (h : r.Waits settings N op L later n d) (hvotes : settings.votes = true)
    (hserves : r.Serves settings q d answer r' e) : Handled settings N op L answer r' e := by
  obtain ⟨now, hends⟩ := hserves.ends_voting h.placed.settings_eq hvotes
  cases q with
  | get key =>
    obtain ⟨⟨cache, rfl⟩, hfrayed, hanswer⟩ := ends_get hends
    exact (h.frayed hfrayed cache).unchanged hanswer
  | put key value | del key =>
    rw [serveVoting, vote_of_pending h.phase_eq] at hends
    obtain ⟨rfl, rfl, rfl⟩ := fares_done_pair hends
    exact h.unchanged (by simp [Response.ofFault])
  | commit =>
    have hroom := hserves.room
    rw [h.placed.size_eq] at hroom
    exact h.commit hroom hends
  | abort =>
    rcases hserves.consistent rfl with hnone | hL
    · rw [h.phase_eq] at hnone
      exact absurd hnone (by simp [Phase.pending?])
    · rw [h.standing_eq] at hL
      exact h.abort hL hends
  | info | register host port =>
    obtain ⟨rfl, rfl, rfl⟩ := fares_done_pair hends
    exact h.unchanged (by simp [Response.ofFault, report])

theorem Rests.serve (h : r.Rests settings N L later n d) (hvotes : settings.votes = true)
    (hserves : r.Serves settings q d answer r' e) :
    (∃ op later n, r'.Waits settings N op (.voted op) later n e) ∨
      ∃ L' later n, (∀ op', L' ≠ L → L' ≠ .committed op') ∧ r'.Rests settings N L' later n e := by
  obtain ⟨now, hends⟩ := hserves.ends_voting h.placed.settings_eq hvotes
  have hn : n < Journal.recordBound := by
    have hroom := hserves.room
    rw [h.placed.size_eq] at hroom
    exact Nat.lt_of_succ_lt hroom
  cases q with
  | get key =>
    obtain ⟨⟨cache, rfl⟩, hfrayed, -⟩ := ends_get hends
    exact .inr ⟨L, later, n, fun _ hne => absurd rfl hne, h.frayed hfrayed cache⟩
  | put key value =>
    exact (h.vote hn (hserves.zeroFree _ rfl) hends).imp_left fun hwaits => ⟨_, hwaits⟩
  | del key =>
    exact (h.vote hn (hserves.zeroFree _ rfl) hends).imp_left fun hwaits => ⟨_, hwaits⟩
  | commit | abort =>
    rw [serveVoting, decide_of_not_pending h.phase_ne] at hends
    obtain ⟨rfl, rfl, rfl⟩ := fares_done_pair hends
    exact .inr ⟨L, later, n, fun _ hne => absurd rfl hne, h⟩
  | info | register host port =>
    obtain ⟨rfl, rfl, rfl⟩ := fares_done_pair hends
    exact .inr ⟨L, later, n, fun _ hne => absurd rfl hne, h⟩

/-- The replica runs, and its store holds `N` once all that the journal tells of is carried out. -/
def Runs (settings : ReplicaSettings) (N : Store.Contents) (r : Replica) (d : Disk) : Prop :=
  (∃ op L later n, r.Waits settings N op L later n d) ∨ ∃ L later n, r.Rests settings N L later n d

/-- Where no operation waits, no request makes the journal tell to carry one out. -/
theorem Rests.serves (h : r.Rests settings N L later n d) (hvotes : settings.votes = true)
    (hserves : r.Serves settings q d answer r' e) :
    (settings.standing d).commits (settings.standing e) = [] ∧ r'.Runs settings N e := by
  rw [h.standing_eq]
  rcases h.serve hvotes hserves with ⟨op, later', n', h'⟩ | ⟨L', later', n', hL', h'⟩
  · rw [h'.standing_eq]
    exact ⟨commits_of_ne L (by simp), .inl ⟨op, _, later', n', h'⟩⟩
  · rw [h'.standing_eq]
    refine ⟨?_, .inr ⟨L', later', n', h'⟩⟩
    by_cases hsame : L' = L
    · rw [hsame, commits_self]
    · exact commits_of_ne L fun op' => hL' op' hsame

/-- What is carried out is what the journal has come to tell of. -/
theorem Runs.serves (h : r.Runs settings N d) (hvotes : settings.votes = true)
    (hserves : r.Serves settings q d answer r' e) :
    r'.Runs settings (carryOut ((settings.standing d).commits (settings.standing e)) N) e := by
  rcases h with ⟨op, L, later, n, h⟩ | ⟨L, later, n, h⟩
  · rw [h.standing_eq]
    cases h.serve hvotes hserves with
    | waiting L' later' n' h' hkept hanswer =>
      rw [h'.standing_eq]
      exact .inl ⟨op, L', later', n', h'⟩
    | committed later' n' hphase h' hanswer =>
      rw [h'.standing_eq]
      exact .inr ⟨_, later', n', h'⟩
    | aborted later' n' hL hphase h' hanswer =>
      rw [h'.standing_eq, commits_of_ne L (by simp)]
      exact .inr ⟨_, later', n', h'⟩
  · obtain ⟨hnone, h'⟩ := h.serves hvotes hserves
    rw [hnone]
    exact h'

theorem Sound.waits {M : Store.Contents} (h : r.Sound settings M (.voted op) d) :
    r.Waits settings M op (.voted op) [] 0 d where
  placed := ⟨h.settings_eq, h.store_eq, h.journal_eq⟩
  phase_eq := h.phase_eq
  about := rfl
  counted := rfl
  short := Nat.le_succ 1
  housed := ⟨M, rfl, h.tidy.housed⟩
  valid := h.tidy.valid
  room := show 1 < Journal.recordBound by decide

/-- A replica that was opened waits for a decision, or has carried all out. -/
theorem Resumed.runs {M : Store.Contents}
    (h : r.Resumed settings (L.settle M) L (L.log later) d) (hL : L.Valid)
    (hlen : (L.log later).length < Journal.recordBound) : r.Runs settings (L.settle M) d := by
  by_cases hvoted : ∃ op, L = .voted op
  · obtain ⟨op, rfl⟩ := hvoted
    have hshort : ((Standing.voted op).log later).length ≤ 0 + 2 := Nat.le_succ 1
    exact .inl ⟨op, _, later, 0, ⟨h.settings_eq, h.store_eq, h.journal_eq⟩, h.phase_eq, rfl, rfl,
      hshort, ⟨M, rfl, h.housed⟩, hL, hlen⟩
  · refine .inr ⟨L, later, (L.log later).length, ⟨h.settings_eq, h.store_eq, h.journal_eq⟩, ?_,
      L.settle_settle M, by omega, h.housed.stocked hlen, h.housed.journal.directory, hL, hlen⟩
    rw [h.phase_eq]
    cases L with
    | voted op => exact absurd ⟨op, rfl⟩ hvoted
    | idle | committed op | aborted op => rfl

end Replica

end RingStore
