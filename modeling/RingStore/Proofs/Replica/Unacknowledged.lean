import RingStore.Coordinator.Writing
import RingStore.Proofs.Replica.Faltering
import RingStore.Proofs.Replica.Waiting

/-!
# Decisions that could not be acknowledged

A decision to carry an operation out comes into the journal before it is carried out. Where a call
that fails changes nothing, a replica that runs knows its journal exactly. If an operation waits
(`Replica.Awaits`), the journal holds its vote and every decision to carry it out that came into the
journal and could not be acknowledged, and the store is as it was when the vote came. Otherwise
(`Replica.Idles`) the journal holds no vote without a decision. Every request keeps to that.
-/

namespace RingStore

open Disk Disk.Attempt

namespace Standing

variable {op : Operation} {k : Nat}

/-- The records of a vote and of decisions to carry it out, none of which was acknowledged. -/
def unacked (op : Operation) (k : Nat) : List Record :=
  .ofVote op :: List.replicate k (.ofDecision true)

/-- Where a replica stands with such records. -/
def proposed (op : Operation) : Nat → Standing
  | 0 => voted op
  | _ + 1 => committed op

/-- Where it stands when a decision to drop follows: the first decision counts. -/
def dropped (op : Operation) : Nat → Standing
  | 0 => aborted op
  | _ + 1 => committed op

theorem length_unacked (op : Operation) (k : Nat) : (unacked op k).length = k + 1 := by
  simp [unacked]

theorem unacked_concat (op : Operation) (k : Nat) :
    unacked op k ++ [.ofDecision true] = unacked op (k + 1) := by
  rw [unacked, unacked, List.replicate_succ', List.cons_append]

theorem log_committed_eq (op : Operation) (k : Nat) :
    (committed op).log (List.replicate k true) = unacked op (k + 1) := log_committed op k

theorem log_proposed (op : Operation) (k : Nat) :
    (proposed op k).log (List.replicate (k - 1) true) = unacked op k := by
  cases k with
  | zero => rfl
  | succ k => exact log_committed_eq op k

theorem exists_log_dropped (op : Operation) (k : Nat) :
    ∃ later, (dropped op k).log later = unacked op k ++ [.ofDecision false] := by
  cases k with
  | zero => exact ⟨[], rfl⟩
  | succ k =>
    refine ⟨List.replicate k true ++ [false], ?_⟩
    simp [dropped, log, records, unacked, List.replicate_succ]

theorem operation?_proposed (op : Operation) (k : Nat) : (proposed op k).operation? = some op := by
  cases k <;> rfl

theorem operation?_dropped (op : Operation) (k : Nat) : (dropped op k).operation? = some op := by
  cases k <;> rfl

theorem dropped_ne_voted (op : Operation) (k : Nat) (op' : Operation) :
    dropped op k ≠ voted op' := by
  cases k <;> simp [dropped]

/-- Whether a standing is fit to be opened depends on its operation only. -/
theorem Valid.of_operation {L L' : Standing} (h : L.Valid) (hop : L'.operation? = L.operation?) :
    L'.Valid :=
  fun op hL' => h op (hop ▸ hL')

end Standing

namespace Replica

open ReplicaSettings Action Standing

variable {settings : ReplicaSettings} {M : Store.Contents} {L : Standing} {later : List Bool}
  {op : Operation} {k n : Nat} {d e : Disk} {r r' : Replica} {answer : Response} {q : Request}

/-- An operation waits for its decision. The journal holds its vote and `k` decisions to carry it
out, and counts them all; the store holds `M`. -/
structure Awaits (settings : ReplicaSettings) (M : Store.Contents) (op : Operation) (k : Nat)
    (r : Replica) (d : Disk) : Prop where
  placed : r.Placed settings (k + 1)
  phase_eq : r.phase = .pending op
  housed : settings.Housed M (unacked op k) d
  valid : (Standing.voted op).Valid
  room : k + 1 < Journal.recordBound

/-- No operation waits, and the journal holds no vote without a decision. The journal may hold fewer
records than it counts. -/
structure Idles (settings : ReplicaSettings) (M : Store.Contents) (L : Standing) (later : List Bool)
    (n : Nat) (r : Replica) (d : Disk) : Prop where
  placed : r.Placed settings n
  phase_eq : r.phase.pending? = none
  decided : ∀ op, L ≠ .voted op
  short : (L.log later).length ≤ max 1 n
  stocked : settings.Stocked M (L.log later) d
  directory : d.at? settings.journalPath = some .directory
  valid : L.Valid
  room : (L.log later).length < Journal.recordBound

theorem Awaits.stocked (h : r.Awaits settings M op k d) :
    settings.Stocked M ((proposed op k).log (List.replicate (k - 1) true)) d := by
  rw [log_proposed]
  exact h.housed.stocked (by rw [length_unacked]; exact h.room)

theorem Awaits.stored_eq (h : r.Awaits settings M op k d) : settings.stored d = M :=
  h.stocked.stored_eq

theorem Awaits.standing_eq (h : r.Awaits settings M op k d) : settings.standing d = proposed op k :=
  h.stocked.standing_eq (h.valid.of_operation (operation?_proposed op k))

theorem Idles.stored_eq (h : r.Idles settings M L later n d) : settings.stored d = M :=
  h.stocked.stored_eq

theorem Idles.phase_ne (h : r.Idles settings M L later n d) : ∀ op, r.phase ≠ .pending op :=
  pending?_eq_none_iff.1 h.phase_eq

/-- Nothing but the cache and drafts has changed. -/
theorem Awaits.frayed (h : r.Awaits settings M op k d) (he : Frayed d e) (cache : Cache) :
    Awaits settings M op k { r with cache } e :=
  ⟨⟨h.placed.settings_eq, h.placed.store_eq, h.placed.journal_eq⟩, h.phase_eq, h.housed.frayed he,
    h.valid, h.room⟩

theorem Idles.frayed (h : r.Idles settings M L later n d) (he : Frayed d e) (cache : Cache) :
    Idles settings M L later n { r with cache } e :=
  ⟨⟨h.placed.settings_eq, h.placed.store_eq, h.placed.journal_eq⟩, h.phase_eq, h.decided, h.short,
    h.stocked.frayed he, (he.directory_iff _).2 h.directory, h.valid, h.room⟩

/-! ## Decisions -/

/-- The contents that a decision makes of the store. -/
def decided (commit : Bool) (op : Operation) (M : Store.Contents) : Store.Contents :=
  if commit then op.effect M else M

/-- Where a replica stands that has taken a decision. -/
def verdict (commit : Bool) (op : Operation) (k : Nat) : Standing :=
  if commit then .committed op else dropped op k

theorem exists_log_verdict (commit : Bool) (op : Operation) (k : Nat) :
    ∃ later, (verdict commit op k).log later = unacked op k ++ [.ofDecision commit] := by
  cases commit with
  | false => exact exists_log_dropped op k
  | true => exact ⟨_, (log_committed_eq op k).trans (unacked_concat op k).symm⟩

theorem verdict_ne_voted (commit : Bool) (op : Operation) (k : Nat) (op' : Operation) :
    verdict commit op k ≠ .voted op' := by
  cases commit with
  | false => exact dropped_ne_voted op k op'
  | true => simp [verdict]

theorem operation?_verdict (commit : Bool) (op : Operation) (k : Nat) :
    (verdict commit op k).operation? = some op := by
  cases commit with
  | false => exact operation?_dropped op k
  | true => rfl

/-- The replica that has taken a decision. -/
theorem Awaits.idles (h : r.Awaits settings M op k d) (hroom : k + 2 < Journal.recordBound)
    {commit : Bool} {cache : Cache} {phase : Phase} (hphase : phase.pending? = none)
    (he : settings.Housed (decided commit op M) (unacked op k ++ [.ofDecision commit]) e) :
    ∃ later, Idles settings (decided commit op M) (verdict commit op k) later (k + 2)
      { r with journal := ⟨settings.journalPath, k + 2, r.journal.cursor⟩, cache, phase } e := by
  obtain ⟨later, hlog⟩ := exists_log_verdict commit op k
  have hlen : ((verdict commit op k).log later).length = k + 2 := by
    rw [hlog, List.length_append, length_unacked, List.length_singleton]
  rw [← hlog] at he
  exact ⟨later, ⟨h.placed.settings_eq, h.placed.store_eq, rfl⟩, hphase,
    verdict_ne_voted commit op k, by omega, he.stocked (by omega), he.journal.directory,
    h.valid.of_operation (operation?_verdict commit op k), by omega⟩

/-- A decision is taken, and on the way it comes into the journal before it is carried out. -/
theorem Awaits.ensures_decide (h : r.Awaits settings M op k d) (hroom : k + 2 < Journal.recordBound)
    (commit : Bool) :
    (r.decide commit).Ensures
      (fun e => settings.Housed M (unacked op k) e ∨
        settings.Housed M (unacked op k ++ [.ofDecision commit]) e ∨
        settings.Housed (decided commit op M) (unacked op k ++ [.ofDecision commit]) e)
      (fun a e => a.1 = .ack ∧ ∃ later,
        a.2.Idles settings (decided commit op M) (verdict commit op k) later (k + 2) e) d := by
  have happend := h.housed.ensures_append (.ofDecision commit) r.journal.cursor
  rw [length_unacked] at happend
  rw [decide_of_pending h.phase_eq, h.placed.journal_eq]
  refine Action.Ensures.bind (happend.mono (fun e he => he.imp_right .inl) fun a e _ hQ => hQ) ?_
  rintro - c - ⟨rfl, hlogged⟩
  cases commit with
  | false => exact Action.ensures_done.2 ⟨.inr (.inl hlogged), rfl, h.idles hroom rfl hlogged⟩
  | true =>
    have happly := ensures_applyDecided hlogged (r := { r with
      journal := ⟨settings.journalPath, k + 1 + 1, r.journal.cursor⟩ }) h.placed.store_eq
      (h.valid op rfl).1
    refine Action.Ensures.bind (happly.mono (fun e he => .inr he) fun a e _ hQ => hQ) ?_
    rintro - e - ⟨rfl, hafter⟩
    exact Action.ensures_done.2 ⟨.inr (.inr hafter), rfl, h.idles hroom rfl hafter⟩

/-- A decision is taken and acknowledged, or the operation goes on waiting and the store is the
same. A decision to carry out may have come into the journal then. -/
theorem Awaits.falters_decide (h : r.Awaits settings M op k d) (hroom : k + 2 < Journal.recordBound)
    {commit : Bool} (hfalters : Falters (r.decide commit) d (answer, r') e) :
    (answer = .ack ∧ ∃ later,
      r'.Idles settings (decided commit op M) (verdict commit op k) later (k + 2) e) ∨
    (answer ≠ .ack ∧ ∃ k', (commit = false → k' = k) ∧ r'.Awaits settings M op k' e) := by
  rw [decide_of_pending h.phase_eq, h.placed.journal_eq] at hfalters
  obtain ⟨appended, c, happend, hrest⟩ := fares_bind hfalters
  rw [← length_unacked op k] at happend
  rcases falters_append h.housed happend with ⟨rfl, hlogged⟩ | ⟨⟨f, rfl⟩, hsame⟩
  · rw [length_unacked] at hrest
    cases commit with
    | false =>
      obtain ⟨rfl, rfl, rfl⟩ := fares_done_pair hrest
      exact .inl ⟨rfl, h.idles hroom rfl hlogged⟩
    | true =>
      obtain ⟨applied, c', happly, hlast⟩ := fares_bind hrest
      obtain ⟨cache, ⟨rfl, hafter⟩ | ⟨⟨f, rfl⟩, hsame⟩⟩ := falters_applyDecided hlogged
        (r := { r with journal := ⟨settings.journalPath, k + 1 + 1, r.journal.cursor⟩ })
        h.placed.store_eq (h.valid op rfl).1 happly
      · obtain ⟨rfl, rfl, rfl⟩ := fares_done_pair hlast
        exact .inl ⟨rfl, h.idles hroom rfl hafter⟩
      · obtain ⟨rfl, rfl, rfl⟩ := fares_done_pair hlast
        rw [unacked_concat] at hsame
        exact .inr ⟨by simp [Response.ofFault], k + 1, by simp,
          ⟨h.placed.settings_eq, h.placed.store_eq, rfl⟩, h.phase_eq, hsame, h.valid, hroom⟩
  · obtain ⟨rfl, rfl, rfl⟩ := fares_done_pair hrest
    exact .inr ⟨by simp [Response.ofFault], k, fun _ => rfl,
      ⟨h.placed.settings_eq, h.placed.store_eq, h.placed.journal_eq⟩, h.phase_eq, hsame, h.valid,
      h.room⟩

/-! ## Votes -/

/-- A vote comes into the place of what the journal holds, and on the way there may be nothing. -/
theorem Idles.ensures_vote (h : r.Idles settings M L later n d) (hn : n < Journal.recordBound)
    (hop : op.check = .ok ()) (hfree : op.ZeroFree) :
    (r.vote op).Ensures
      (fun e => settings.Stocked M (L.log later) e ∨ settings.Stocked M [] e ∨
        settings.Housed M [.ofVote op] e)
      (fun a e => a.1 = .voteCommit ∧ a.2.Awaits settings M op 0 e) d := by
  have hclear := h.stocked.ensures_clear h.directory h.short hn r.journal.cursor
  rw [vote_of_ok h.phase_ne hop, h.placed.journal_eq]
  refine Action.Ensures.bind (Q := fun a e => a = (.ok (), ⟨settings.journalPath, 1, 0⟩) ∧
    settings.Housed M [.ofVote op] e) ?_ ?_
  · refine Action.Ensures.bind (hclear.mono (fun e he => he.1.imp_right .inl) fun a e _ hQ => hQ) ?_
    rintro - c - ⟨rfl, hempty⟩
    refine Action.Ensures.bind ((hempty.ensures_append (.ofVote op) 0).mono ?_
      fun a e _ hQ => hQ) ?_
    · rintro e (hbefore | hafter)
      · exact .inr (.inl (hbefore.stocked (by decide)))
      · exact .inr (.inr hafter)
    · rintro - e hC ⟨rfl, hafter⟩
      exact Action.ensures_done.2 ⟨.inr (.inr hafter), rfl, hafter⟩
  · rintro - e hC ⟨rfl, hafter⟩
    exact Action.ensures_done.2
      ⟨hC, rfl, ⟨h.placed.settings_eq, h.placed.store_eq, rfl⟩, rfl, hafter,
      valid_voted hop hfree, by decide⟩

theorem Idles.trail_vote (h : r.Idles settings M L later n d) (hn : n < Journal.recordBound)
    (hfree : op.ZeroFree) (he : e ∈ (r.vote op).trail d) :
    settings.Stocked M (L.log later) e ∨ settings.Stocked M [] e ∨
      (op.check = .ok () ∧ settings.Housed M [.ofVote op] e) := by
  cases hop : op.check with
  | error f =>
    rw [vote_of_error h.phase_ne hop] at he
    obtain rfl : e = d := by simpa [trail] using he
    exact .inl h.stocked
  | ok _ =>
    rcases (h.ensures_vote hn hop hfree).1 e he with hbefore | hempty | hafter
    · exact .inl hbefore
    · exact .inr (.inl hempty)
    · exact .inr (.inr ⟨rfl, hafter⟩)

/-- A vote comes into the place of what the journal holds, or it leaves at most an empty journal. -/
theorem Idles.falters_vote (h : r.Idles settings M L later n d) (hn : n < Journal.recordBound)
    (hfree : op.ZeroFree) (hfalters : Falters (r.vote op) d (answer, r') e) :
    (answer = .voteCommit ∧ r'.Awaits settings M op 0 e) ∨
    (answer ≠ .voteCommit ∧ r'.phase = r.phase ∧ r'.cache = r.cache ∧
      ∃ L' later n, (L' = L ∨ L' = .idle) ∧ r'.Idles settings M L' later n e) := by
  cases hop : op.check with
  | error f =>
    rw [vote_of_error h.phase_ne hop] at hfalters
    obtain ⟨rfl, rfl, rfl⟩ := fares_done_pair hfalters
    exact .inr ⟨by simp, rfl, rfl, L, later, n, .inl rfl, h⟩
  | ok _ =>
    rw [vote_of_ok h.phase_ne hop, h.placed.journal_eq] at hfalters
    obtain ⟨recorded, c, hrecord, hrest⟩ := fares_bind hfalters
    obtain ⟨cleared, c', hclear, hlast⟩ := fares_bind hrecord
    rcases ends_clear h.stocked h.directory h.short hn (Falters.ends hclear fun _ => False) with
      ⟨rfl, hempty⟩ | ⟨⟨f, rfl⟩, hkept, hdir⟩
    · obtain ⟨appended, c'', happend, hlast⟩ := fares_bind hlast
      rcases falters_append hempty happend with ⟨rfl, hafter⟩ | ⟨⟨f, rfl⟩, hsame⟩
      · obtain ⟨rfl, rfl⟩ := fares_done hlast
        obtain ⟨rfl, rfl, rfl⟩ := fares_done_pair hrest
        exact .inl ⟨rfl, ⟨h.placed.settings_eq, h.placed.store_eq, rfl⟩, rfl, hafter,
          valid_voted hop hfree, by decide⟩
      · obtain ⟨rfl, rfl⟩ := fares_done hlast
        obtain ⟨rfl, rfl, rfl⟩ := fares_done_pair hrest
        exact .inr ⟨by simp, rfl, rfl, .idle, [], 0, .inr rfl,
          ⟨h.placed.settings_eq, h.placed.store_eq, rfl⟩, h.phase_eq, by simp, Nat.zero_le _,
          hsame.stocked (by decide), hsame.journal.directory, valid_idle, by decide⟩
    · obtain ⟨rfl, rfl⟩ := fares_done hlast
      obtain ⟨rfl, rfl, rfl⟩ := fares_done_pair hrest
      have hplaced : Placed settings n
          { r with journal := ⟨settings.journalPath, n, r.journal.cursor⟩ } :=
        ⟨h.placed.settings_eq, h.placed.store_eq, rfl⟩
      refine .inr ⟨by simp, rfl, rfl, ?_⟩
      rcases hkept with hbefore | hempty
      · exact ⟨L, later, n, .inl rfl, hplaced, h.phase_eq, h.decided, h.short, hbefore, hdir,
          h.valid, h.room⟩
      · exact ⟨.idle, [], n, .inr rfl, hplaced, h.phase_eq, by simp, Nat.zero_le _, hempty, hdir,
          valid_idle, by decide⟩

/-- A replica that was opened waits for a decision, or the journal holds no vote without one. -/
theorem Resumed.awaits_or_idles (h : r.Resumed settings (L.settle M) L (L.log later) d)
    (hL : L.Valid) (hlen : (L.log later).length < Journal.recordBound) :
    (∃ op, L = .voted op ∧ r.Awaits settings (L.settle M) op 0 d) ∨
      r.Idles settings (L.settle M) L later (L.log later).length d := by
  by_cases hvoted : ∃ op, L = .voted op
  · obtain ⟨op, rfl⟩ := hvoted
    exact .inl ⟨op, rfl, ⟨h.settings_eq, h.store_eq, h.journal_eq⟩, h.phase_eq, h.housed, hL, hlen⟩
  · refine .inr ⟨⟨h.settings_eq, h.store_eq, h.journal_eq⟩, ?_, fun op heq => hvoted ⟨op, heq⟩,
      by omega, h.housed.stocked hlen, h.housed.journal.directory, hL, hlen⟩
    rw [h.phase_eq]
    cases L with
    | voted op => exact absurd ⟨op, rfl⟩ hvoted
    | idle | committed op | aborted op => rfl

/-! ## Requests -/

/-- Reading a key writes nothing. -/
theorem within_get (r : Replica) (key : String) : (r.get key).Within fun _ => False := by
  unfold get
  cases checkKey key with
  | error f => exact trivial
  | ok _ =>
    rcases r.cache.get key with ⟨_ | value, cache⟩
    · refine Action.Within.bind (r.store.within_get key) fun outcome => ?_
      cases outcome <;> exact trivial
    · exact trivial

/-- What serving a request makes of an operation that waits: a decision is acknowledged, or the
operation goes on waiting. Only a decision to carry out can come into the journal then. -/
theorem Awaits.falters_serve (h : r.Awaits settings M op k d) (hvotes : settings.votes = true)
    (hroom : k + 2 < Journal.recordBound) {now : String}
    (hfalters : Falters (r.serve now q) d (answer, r') e) :
    (∃ commit, q = Coordinator.decisionRequest commit ∧ answer = .ack ∧ ∃ later,
      r'.Idles settings (decided commit op M) (verdict commit op k) later (k + 2) e) ∨
    (answer ≠ .ack ∧ (q.operation? ≠ none → answer ≠ .voteCommit ∧ r' = r ∧ e = d) ∧
      ∃ k', (q ≠ .commit → k' = k) ∧ r'.Awaits settings M op k' e) := by
  rw [serve_of_votes (h.placed.settings_eq ▸ hvotes)] at hfalters
  have hrefused : ∀ op', Falters (r.vote op') d (answer, r') e →
      answer = .ofFault .invalidRequest ∧ r' = r ∧ e = d := by
    intro op' hvote
    rw [vote_of_pending h.phase_eq] at hvote
    exact fares_done_pair hvote
  cases q with
  | get key =>
    obtain ⟨⟨cache, rfl⟩, hfrayed, hanswer⟩ := ends_get (hfalters.ends fun _ => False)
    exact .inr ⟨hanswer, fun hne => absurd rfl hne, k, fun _ => rfl, h.frayed hfrayed cache⟩
  | put key value | del key =>
    obtain ⟨rfl, rfl, rfl⟩ := hrefused _ hfalters
    exact .inr ⟨by simp [Response.ofFault], fun _ => ⟨by simp [Response.ofFault], rfl, rfl⟩, k,
      fun _ => rfl, h⟩
  | commit =>
    rcases h.falters_decide hroom hfalters with ⟨hack, hidles⟩ | ⟨hack, k', -, hawaits⟩
    · exact .inl ⟨true, rfl, hack, hidles⟩
    · exact .inr ⟨hack, fun hne => absurd rfl hne, k', fun hne => absurd rfl hne, hawaits⟩
  | abort =>
    rcases h.falters_decide hroom hfalters with ⟨hack, hidles⟩ | ⟨hack, k', hk, hawaits⟩
    · exact .inl ⟨false, rfl, hack, hidles⟩
    · exact .inr ⟨hack, fun hne => absurd rfl hne, k', fun _ => hk rfl, hawaits⟩
  | info | register host port =>
    obtain ⟨rfl, rfl, rfl⟩ := fares_done_pair hfalters
    exact .inr ⟨by simp [Response.ofFault, report], fun hne => absurd rfl hne, k, fun _ => rfl, h⟩

/-- What serving a request makes of a replica where nothing waits: it votes, or it leaves at most an
empty journal. -/
theorem Idles.falters_serve (h : r.Idles settings M L later n d) (hvotes : settings.votes = true)
    (hn : n < Journal.recordBound) {now : String} (hq : q.ZeroFree)
    (hfalters : Falters (r.serve now q) d (answer, r') e) :
    (∃ op, q.operation? = some op ∧ answer = .voteCommit ∧ r'.Awaits settings M op 0 e) ∨
    ((q.operation? ≠ none → answer ≠ .voteCommit ∧ r'.phase = r.phase ∧ r'.cache = r.cache) ∧
      (∀ commit, q = Coordinator.decisionRequest commit → answer = .ack) ∧
      ∃ L' later n, (L' = L ∨ L' = .idle) ∧ r'.Idles settings M L' later n e) := by
  rw [serve_of_votes (h.placed.settings_eq ▸ hvotes)] at hfalters
  have hvoted : ∀ op, q.operation? = some op → Falters (r.vote op) d (answer, r') e →
      (answer = .voteCommit ∧ r'.Awaits settings M op 0 e) ∨
      (answer ≠ .voteCommit ∧ r'.phase = r.phase ∧ r'.cache = r.cache ∧
        ∃ L' later n, (L' = L ∨ L' = .idle) ∧ r'.Idles settings M L' later n e) :=
    fun op hop hvote => h.falters_vote hn (hq op hop) hvote
  have hdecision : ∀ q' : Request, q'.operation? ≠ none → ∀ commit,
      q' = Coordinator.decisionRequest commit → answer = .ack := by
    rintro q' hop (_ | _) rfl <;> exact absurd rfl hop
  cases q with
  | get key =>
    obtain ⟨⟨cache, rfl⟩, hfrayed, -⟩ := ends_get (hfalters.ends fun _ => False)
    refine .inr ⟨fun hne => absurd rfl hne, ?_, L, later, n, .inl rfl, h.frayed hfrayed cache⟩
    rintro (_ | _) ⟨⟩
  | put key value | del key =>
    rcases hvoted _ rfl hfalters with ⟨hanswer, hawaits⟩ | ⟨hanswer, hphase, hcache, hidles⟩
    · exact .inl ⟨_, rfl, hanswer, hawaits⟩
    · exact .inr ⟨fun _ => ⟨hanswer, hphase, hcache⟩, hdecision _ (by simp [Request.operation?]),
        hidles⟩
  | commit | abort =>
    rw [serveVoting, decide_of_not_pending h.phase_ne] at hfalters
    obtain ⟨rfl, rfl, rfl⟩ := fares_done_pair hfalters
    exact .inr ⟨fun hne => absurd rfl hne, fun _ _ => rfl, L, later, n, .inl rfl, h⟩
  | info | register host port =>
    obtain ⟨rfl, rfl, rfl⟩ := fares_done_pair hfalters
    refine .inr ⟨fun hne => absurd rfl hne, ?_, L, later, n, .inl rfl, h⟩
    rintro (_ | _) ⟨⟩

/-- The disks on the way while a request is served and an operation waits. -/
theorem Awaits.trail_serve (h : r.Awaits settings M op k d) (hvotes : settings.votes = true)
    (hroom : k + 2 < Journal.recordBound) {now : String} (he : e ∈ (r.serve now q).trail d) :
    settings.Housed M (unacked op k) e ∨
      ∃ commit, q = Coordinator.decisionRequest commit ∧
        (settings.Housed M (unacked op k ++ [.ofDecision commit]) e ∨
          settings.Housed (decided commit op M) (unacked op k ++ [.ofDecision commit]) e) := by
  rw [serve_of_votes (h.placed.settings_eq ▸ hvotes)] at he
  have hsame : ∀ a, e ∈ (done a : Action (Response × Replica)).trail d →
      settings.Housed M (unacked op k) e := by
    intro a hmem
    obtain rfl : e = d := by simpa [trail] using hmem
    exact h.housed
  have hdecide : ∀ commit, e ∈ (r.decide commit).trail d →
      settings.Housed M (unacked op k) e ∨
        settings.Housed M (unacked op k ++ [.ofDecision commit]) e ∨
        settings.Housed (decided commit op M) (unacked op k ++ [.ofDecision commit]) e :=
    fun commit => (h.ensures_decide hroom commit).1 e
  cases q with
  | get key =>
    exact .inl (h.housed.frayed (.of_same fun q =>
      (r.within_get key).at?_of_mem_trail he not_false))
  | put key value | del key =>
    rw [serveVoting, vote_of_pending h.phase_eq] at he
    exact .inl (hsame _ he)
  | commit => exact (hdecide true he).imp_right fun hpassed => ⟨true, rfl, hpassed⟩
  | abort => exact (hdecide false he).imp_right fun hpassed => ⟨false, rfl, hpassed⟩
  | info | register host port => exact .inl (hsame _ he)

/-- The disks on the way while a request is served and nothing waits. -/
theorem Idles.trail_serve (h : r.Idles settings M L later n d) (hvotes : settings.votes = true)
    (hn : n < Journal.recordBound) {now : String} (hq : q.ZeroFree)
    (he : e ∈ (r.serve now q).trail d) :
    settings.Stocked M (L.log later) e ∨
      ∃ op, q.operation? = some op ∧
        (settings.Stocked M [] e ∨ op.check = .ok () ∧ settings.Housed M [.ofVote op] e) := by
  rw [serve_of_votes (h.placed.settings_eq ▸ hvotes)] at he
  have hsame : ∀ a, e ∈ (done a : Action (Response × Replica)).trail d →
      settings.Stocked M (L.log later) e := by
    intro a hmem
    obtain rfl : e = d := by simpa [trail] using hmem
    exact h.stocked
  cases q with
  | get key =>
    exact .inl (h.stocked.frayed (.of_same fun q =>
      (r.within_get key).at?_of_mem_trail he not_false))
  | put key value =>
    exact (h.trail_vote hn (hq _ rfl) he).imp_right fun hvoted => ⟨_, rfl, hvoted⟩
  | del key =>
    exact (h.trail_vote hn (hq _ rfl) he).imp_right fun hvoted => ⟨_, rfl, hvoted⟩
  | commit | abort =>
    rw [serveVoting, decide_of_not_pending h.phase_ne] at he
    exact .inl (hsame _ he)
  | info | register host port => exact .inl (hsame _ he)

end Replica

end RingStore
