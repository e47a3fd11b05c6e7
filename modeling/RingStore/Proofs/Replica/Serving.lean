import RingStore.Proofs.Replica.Opening

/-!
# Serving a request

A replica that votes serves every request soundly (`ensures_serve`). What a request makes of the
standing is `Standing.serve`, and the store then holds the contents of the new standing. On the way
the disk is kept for the standing from before or the one from after; between a new vote and the
records in whose place it comes, there may be no record at all.
-/

namespace RingStore

open Disk Disk.Attempt

variable {settings : ReplicaSettings} {M : Store.Contents} {L : Standing} {d e : Disk} {r : Replica}
  {op : Operation}

namespace Standing

/-- The operation that a request makes a replica vote on. -/
def ballot (L : Standing) (q : Request) : Option Operation :=
  match L with
  | voted _ => none
  | _ => q.operation?.filter (·.check = .ok ())

/-- The standing after a request was served. -/
def serve (L : Standing) (q : Request) : Standing :=
  match L, q with
  | voted op, .commit => committed op
  | voted op, .abort => aborted op
  | L, q => ((L.ballot q).map voted).getD L

/-- The standings and contents that a disk passes through while a request is served. -/
inductive Passes (L : Standing) (M : Store.Contents) (q : Request) :
    Standing → Store.Contents → Prop
  /-- Nothing has changed. -/
  | before : Passes L M q L M
  /-- The records of before are gone, and the new vote is not there. -/
  | cleared {op : Operation} (hop : L.ballot q = some op) : Passes L M q idle M
  /-- The journal is that of the new standing. -/
  | logged : Passes L M q (L.serve q) M
  /-- All is done. -/
  | after : Passes L M q (L.serve q) ((L.serve q).settle M)

variable {q : Request}

theorem ballot_eq_some : L.ballot q = some op ↔
    (∀ op', L ≠ voted op') ∧ q.operation? = some op ∧ op.check = .ok () := by
  cases L with
  | voted op' => simp [ballot]
  | idle | committed op' | aborted op' => simp [ballot, Option.filter_eq_some_iff]

theorem serve_of_not_decision (hcommit : q ≠ .commit) (habort : q ≠ .abort) :
    L.serve q = ((L.ballot q).map voted).getD L := by
  cases L with
  | voted op =>
    cases q with
    | commit => exact absurd rfl hcommit
    | abort => exact absurd rfl habort
    | get _ | put _ _ | del _ | register _ _ | info => rfl
  | idle | committed op | aborted op => rfl

theorem serve_of_not_voted (hL : ∀ op', L ≠ voted op') :
    L.serve q = ((L.ballot q).map voted).getD L := by
  cases L with
  | voted op => exact absurd rfl (hL op)
  | idle | committed op | aborted op => rfl

theorem serve_of_ballot (h : L.ballot q = some op) : L.serve q = voted op := by
  rw [serve_of_not_voted (ballot_eq_some.1 h).1, h]
  rfl

/-- Only a vote and a decision on a vote make another standing. -/
theorem serve_of_ballot_none (h : L.ballot q = none)
    (hL : (q ≠ .commit ∧ q ≠ .abort) ∨ ∀ op', L ≠ voted op') : L.serve q = L := by
  have hserve : L.serve q = ((L.ballot q).map voted).getD L := by
    rcases hL with ⟨hcommit, habort⟩ | hL
    · exact serve_of_not_decision hcommit habort
    · exact serve_of_not_voted hL
  rw [hserve, h]
  rfl

theorem ballot_of_operation_none (h : q.operation? = none) : L.ballot q = none := by
  cases L <;> simp [ballot, h]

/-- The operation that serving a request carries out. -/
def carriedOut (L : Standing) (q : Request) : List Operation :=
  match L, q with
  | voted op, .commit => [op]
  | _, _ => []

/-- Serving a request makes of the contents what is carried out in it. -/
theorem settle_serve (hM : L.settle M = M) (q : Request) :
    (L.serve q).settle M = carryOut (L.carriedOut q) M := by
  cases hballot : L.ballot q with
  | some op =>
    have hnone : L.carriedOut q = [] := by
      cases L with
      | voted op' => exact absurd rfl ((ballot_eq_some.1 hballot).1 op')
      | idle | committed op' | aborted op' => rfl
    rw [serve_of_ballot hballot, hnone]
    rfl
  | none =>
    cases L with
    | voted op => cases q <;> rfl
    | idle | committed op | aborted op =>
      rw [serve_of_ballot_none hballot (.inr (by simp)), hM]
      rfl

end Standing

/-- The operation that a request asks for has no zero byte. -/
def Request.ZeroFree (q : Request) : Prop := ∀ op ∈ q.operation?, op.ZeroFree

instance (q : Request) : Decidable q.ZeroFree :=
  inferInstanceAs (Decidable (∀ op ∈ q.operation?, op.ZeroFree))

namespace ReplicaSettings

theorem Tidy.ensures_append (h : settings.Tidy M L d) (L' : Standing) {record : Record}
    (hrecords : L'.records = L.records ++ [record]) (hvalid : L'.Valid) (cursor : Nat) :
    (Journal.append ⟨settings.journalPath, L.records.length, cursor⟩ record).Ensures
      (fun e => settings.Tidy M L e ∨ settings.Tidy M L' e)
      (fun j e => j = .ok ⟨settings.journalPath, L'.records.length, cursor⟩ ∧
        settings.Tidy M L' e) d := by
  have happend := h.housed.ensures_append record cursor
  rw [← hrecords] at happend
  refine happend.mono ?_ fun j e _ hQ => ⟨?_, hQ.2.tidy hvalid⟩
  · rintro e (hbefore | hafter)
    · exact .inl (hbefore.tidy h.valid)
    · exact .inr (hafter.tidy hvalid)
  · rw [hQ.1, hrecords, List.length_append]
    rfl

end ReplicaSettings

namespace Replica

open ReplicaSettings

/-- A vote takes the place of all records. -/
theorem ensures_recordVote (h : settings.Tidy M L d) {op : Operation} (hop : op.check = .ok ())
    (hfree : op.ZeroFree) (cursor : Nat) :
    (recordVote ⟨settings.journalPath, L.records.length, cursor⟩ op).Ensures
      (fun e => settings.Kept M L e ∨ settings.Kept M .idle e ∨ settings.Kept M (.voted op) e)
      (fun a e =>
        a = (.ok (), ⟨settings.journalPath, 1, 0⟩) ∧ settings.Tidy M (.voted op) e) d := by
  have hvalid := Standing.valid_voted hop hfree
  refine (ensures_recordVote_of_housed h.housed L.length_records_lt op cursor).mono ?_
    fun a e _ hQ => ⟨hQ.1, Housed.tidy (L := .voted op) hQ.2 hvalid⟩
  rintro e (hbefore | hempty | hafter)
  · exact .inl ⟨hbefore.store, hbefore.journal, h.valid⟩
  · exact .inr (.inl ⟨hempty.store, hempty.journal, Standing.valid_idle⟩)
  · exact .inr (.inr ⟨hafter.store, hafter.journal, hvalid⟩)

/-- A decision is acknowledged, and the answer to a vote is that the replica voted, if it did. -/
def Answered (L : Standing) (q : Request) (answer : Response) : Prop :=
  (q = .commit ∨ q = .abort → answer = .ack) ∧ (answer = .voteCommit ↔ (L.ballot q).isSome)

theorem vote_of_pending {op op' : Operation} (hr : r.phase = .pending op') :
    r.vote op = .done (.ofFault .invalidRequest, r) := by
  unfold vote
  rw [hr]
  rfl

theorem vote_of_error {op : Operation} {f : Fault} (hr : ∀ op', r.phase ≠ .pending op')
    (hop : op.check = .error f) : r.vote op = .done (.voteAbort f.message, r) := by
  unfold vote
  rw [hop]
  cases hphase : r.phase with
  | pending op' => exact absurd hphase (hr op')
  | ready | committed | aborted => rfl

/-- A vote that is not refused is recorded before it is given. -/
theorem vote_of_ok {op : Operation} (hr : ∀ op', r.phase ≠ .pending op') (hop : op.check = .ok ()) :
    r.vote op = (recordVote r.journal op).bind fun
      | (.error f, journal) => .done (.voteAbort f.message, { r with journal })
      | (.ok (), journal) => .done (.voteCommit, { r with journal, phase := .pending op }) := by
  unfold vote
  rw [hop]
  cases hphase : r.phase with
  | pending op' => exact absurd hphase (hr op')
  | ready | committed | aborted => rfl

theorem Sound.phase_ne_pending (h : r.Sound settings M L d) (hL : ∀ op', L ≠ .voted op')
    (op' : Operation) : r.phase ≠ .pending op' := by
  rw [h.phase_eq]
  cases L with
  | voted op => exact absurd rfl (hL op)
  | idle | committed op | aborted op => simp [Standing.phase]

/-- A request that leaves the replica as it is. -/
theorem Sound.ensures_done (h : r.Sound settings M L d) {q : Request} (hq : L.serve q = L)
    {answer : Response} (hanswer : Answered L q answer) :
    (Action.done (answer, r)).Ensures (fun e => ∃ L' M', L.Passes M q L' M' ∧ settings.Kept M' L' e)
      (fun a e =>
        a.2.Sound settings ((L.serve q).settle M) (L.serve q) e ∧ Answered L q a.1) d := by
  refine Action.ensures_done.2 ⟨⟨L, M, .before, h.tidy.kept⟩, ?_, hanswer⟩
  rw [hq, h.settled]
  exact h

/-- A request that asks for an operation and is refused. -/
theorem Sound.ensures_refused (h : r.Sound settings M L d) {q : Request}
    (hq : q.operation? = some op) (hballot : L.ballot q = none) {answer : Response}
    (hanswer : answer ≠ .voteCommit) :
    (Action.done (answer, r)).Ensures (fun e => ∃ L' M', L.Passes M q L' M' ∧ settings.Kept M' L' e)
      (fun a e =>
        a.2.Sound settings ((L.serve q).settle M) (L.serve q) e ∧ Answered L q a.1) d := by
  have hcommit : q ≠ .commit := by
    rintro rfl
    exact absurd hq (by simp [Request.operation?])
  have habort : q ≠ .abort := by
    rintro rfl
    exact absurd hq (by simp [Request.operation?])
  refine h.ensures_done (Standing.serve_of_ballot_none hballot (.inl ⟨hcommit, habort⟩)) ⟨?_, ?_⟩
  · rintro (heq | heq)
    · exact absurd heq hcommit
    · exact absurd heq habort
  · rw [hballot]
    simp [hanswer]

/-- While a vote is recorded the replica has passed on to it, or not yet. -/
theorem ensures_vote (h : r.Sound settings M L d) {q : Request} (hq : q.operation? = some op)
    (hfree : op.ZeroFree) :
    (r.vote op).Ensures (fun e => ∃ L' M', L.Passes M q L' M' ∧ settings.Kept M' L' e)
      (fun a e =>
        a.2.Sound settings ((L.serve q).settle M) (L.serve q) e ∧ Answered L q a.1) d := by
  by_cases hpending : ∃ op', L = .voted op'
  · obtain ⟨op', rfl⟩ := hpending
    rw [vote_of_pending h.phase_eq]
    exact h.ensures_refused hq rfl (by simp [Response.ofFault])
  have hL : ∀ op', L ≠ .voted op' := fun op' heq => hpending ⟨op', heq⟩
  cases hop : op.check with
  | error f =>
    rw [vote_of_error (h.phase_ne_pending hL) hop]
    refine h.ensures_refused hq ?_ (by simp)
    rw [Option.eq_none_iff_forall_ne_some]
    intro op' hballot
    obtain ⟨-, hq', hop'⟩ := Standing.ballot_eq_some.1 hballot
    obtain rfl := Option.some.inj (hq.symm.trans hq')
    rw [hop] at hop'
    exact absurd hop' (by simp)
  | ok _ =>
    have hballot : L.ballot q = some op := Standing.ballot_eq_some.2 ⟨hL, hq, hop⟩
    have hserve := Standing.serve_of_ballot hballot
    rw [vote_of_ok (h.phase_ne_pending hL) hop, h.journal_eq]
    have hrecord := ensures_recordVote h.tidy hop hfree r.journal.cursor
    refine Action.Ensures.bind (hrecord.mono ?_ fun a e _ hQ => hQ) ?_
    · rintro e (hbefore | hempty | hafter)
      · exact ⟨L, M, .before, hbefore⟩
      · exact ⟨.idle, M, .cleared hballot, hempty⟩
      · exact ⟨L.serve q, M, .logged, hserve ▸ hafter⟩
    · rintro - e hC ⟨rfl, hafter⟩
      refine Action.ensures_done.2 ⟨hC, ?_, ?_, by simp [hballot]⟩
      · rw [hserve]
        exact ⟨h.settings_eq, h.store_eq, rfl, rfl, rfl, hafter⟩
      · rintro (rfl | rfl) <;> exact absurd hq (by simp [Request.operation?])

/-- Without an operation that waits for it, a decision is acknowledged and changes nothing. -/
theorem decide_of_not_pending (hr : ∀ op', r.phase ≠ .pending op') (commit : Bool) :
    r.decide commit = .done (.ack, r) := by
  unfold decide
  cases hphase : r.phase with
  | pending op' => exact absurd hphase (hr op')
  | ready | committed | aborted => rfl

theorem decide_of_pending {op : Operation} (hr : r.phase = .pending op) (commit : Bool) :
    r.decide commit = (r.journal.append (.ofDecision commit)).run.bind fun
      | .error f => .done (.ofFault f, r)
      | .ok journal =>
        if commit then ({ r with journal }.applyDecided op).bind fun
          | (.ok (), r) => .done (.ack, { r with phase := .committed })
          | (.error f, r) => .done (.ofFault f, r)
        else .done (.ack, { r with journal, phase := .aborted }) := by
  unfold decide
  rw [hr]
  rfl

/-! ## The ways a vote and a decision go -/

theorem pending?_eq_none_iff {phase : Phase} :
    phase.pending? = none ↔ ∀ op, phase ≠ .pending op := by
  cases phase <;> simp [Phase.pending?]

theorem pending?_eq_some_iff {phase : Phase} {op : Operation} :
    phase.pending? = some op ↔ phase = .pending op := by
  cases phase <;> simp [Phase.pending?]

/-- An operation waits already, or this one is over a limit, or its vote takes the place of all
records. -/
theorem ensures_vote_cases {rs : List Record} (h : settings.Housed M rs d)
    (hlen : rs.length < Journal.recordBound) {cursor : Nat}
    (hjournal : r.journal = ⟨settings.journalPath, rs.length, cursor⟩) (op : Operation)
    {Q : Response × Replica → Disk → Prop}
    (hwaits : ∀ op', r.phase.pending? = some op' → Q (.ofFault .invalidRequest, r) d)
    (hrefused : ∀ f, r.phase.pending? = none → op.check = .error f → Q (.voteAbort f.message, r) d)
    (hvoted : ∀ e, r.phase.pending? = none → op.check = .ok () → settings.Housed M [.ofVote op] e →
      Q (.voteCommit, { r with journal := ⟨settings.journalPath, 1, 0⟩, phase := .pending op }) e) :
    (r.vote op).Ensures (fun _ => True) Q d := by
  cases hpending : r.phase.pending? with
  | some op' =>
    rw [vote_of_pending (pending?_eq_some_iff.1 hpending)]
    exact Action.ensures_done.2 ⟨trivial, hwaits op' hpending⟩
  | none =>
    have hphase := pending?_eq_none_iff.1 hpending
    cases hcheck : op.check with
    | error f =>
      rw [vote_of_error hphase hcheck]
      exact Action.ensures_done.2 ⟨trivial, hrefused f hpending hcheck⟩
    | ok _ =>
      rw [vote_of_ok hphase hcheck, hjournal]
      have hrecord := ensures_recordVote_of_housed h hlen op cursor
      refine Action.Ensures.bind (hrecord.mono (fun _ _ => trivial) fun a e _ hQ => hQ) ?_
      rintro - e - ⟨rfl, hafter⟩
      exact Action.ensures_done.2 ⟨trivial, hvoted e hpending hcheck hafter⟩

/-- Nothing waits, or the decision is recorded and the operation that waits is dropped or carried
out. -/
theorem ensures_decide_cases {rs : List Record} (h : settings.Housed M rs d)
    (hstore : r.store = settings.store) {cursor : Nat}
    (hjournal : r.journal = ⟨settings.journalPath, rs.length, cursor⟩)
    (hchecked : ∀ op, r.phase.pending? = some op → op.check = .ok ()) (commit : Bool)
    {Q : Response × Replica → Disk → Prop} (hnone : r.phase.pending? = none → Q (.ack, r) d)
    (hdropped : ∀ op e, r.phase.pending? = some op → commit = false →
      settings.Housed M (rs ++ [.ofDecision false]) e → Q (.ack, { r with
        journal := ⟨settings.journalPath, rs.length + 1, cursor⟩, phase := .aborted }) e)
    (hcarried : ∀ op e, r.phase.pending? = some op → commit = true →
      settings.Housed (op.effect M) (rs ++ [.ofDecision true]) e → Q (.ack, { r with
        journal := ⟨settings.journalPath, rs.length + 1, cursor⟩, cache := cacheOf op r.cache,
        phase := .committed }) e) :
    (r.decide commit).Ensures (fun _ => True) Q d := by
  cases hpending : r.phase.pending? with
  | none =>
    rw [decide_of_not_pending (pending?_eq_none_iff.1 hpending)]
    exact Action.ensures_done.2 ⟨trivial, hnone hpending⟩
  | some op =>
    rw [decide_of_pending (pending?_eq_some_iff.1 hpending), hjournal]
    have happend := h.ensures_append (.ofDecision commit) cursor
    refine Action.Ensures.bind (happend.mono (fun _ _ => trivial) fun a e _ hQ => hQ) ?_
    rintro - c - ⟨rfl, hlogged⟩
    cases commit with
    | false => exact Action.ensures_done.2 ⟨trivial, hdropped op c hpending rfl hlogged⟩
    | true =>
      have happly := ensures_applyDecided hlogged (r := { r with
        journal := ⟨settings.journalPath, rs.length + 1, cursor⟩ }) hstore (hchecked op hpending)
      refine Action.Ensures.bind (happly.mono (fun _ _ => trivial) fun a e _ hQ => hQ) ?_
      rintro - e - ⟨rfl, hafter⟩
      exact Action.ensures_done.2 ⟨trivial, hcarried op e hpending rfl hafter⟩

theorem answered_of_operation_none {q : Request} (hq : q.operation? = none) {answer : Response}
    (hanswer : answer ≠ .voteCommit) (hack : q = .commit ∨ q = .abort → answer = .ack) :
    Answered L q answer := by
  refine ⟨hack, ?_⟩
  rw [Standing.ballot_of_operation_none hq]
  simp [hanswer]

/-- A replica that waits carries the operation out on COMMIT, and acknowledges. -/
theorem ensures_commit (h : r.Sound settings M (.voted op) d) :
    (r.decide true).Ensures
      (fun e => ∃ L' M', (Standing.voted op).Passes M .commit L' M' ∧ settings.Kept M' L' e)
      (fun a e => a.2.Sound settings (op.effect M) (.committed op) e ∧ a.1 = .ack) d := by
  obtain ⟨hop, hfree⟩ := h.tidy.valid op rfl
  have happend := h.tidy.ensures_append (.committed op) rfl
    (fun _ hop' => h.tidy.valid _ hop') r.journal.cursor
  rw [decide_of_pending h.phase_eq, h.journal_eq]
  refine Action.Ensures.bind (happend.mono ?_ fun a e _ hQ => hQ) ?_
  · rintro e (hbefore | hafter)
    · exact ⟨_, M, .before, hbefore.kept⟩
    · exact ⟨_, M, .logged, hafter.kept⟩
  rintro - c - ⟨rfl, hlogged⟩
  have happly := hlogged.ensures_applyDecided (r := { r with
    journal := ⟨settings.journalPath, 2, r.journal.cursor⟩ }) h.store_eq hop
  refine Action.Ensures.bind (happly.mono ?_ fun a e _ hQ => hQ) ?_
  · rintro e (hbefore | hafter)
    · exact ⟨_, M, .logged, hbefore.kept⟩
    · exact ⟨_, _, .after, hafter.kept⟩
  · rintro - e hC ⟨⟨cache, rfl⟩, hafter⟩
    refine Action.ensures_done.2 ⟨hC, ?_, rfl⟩
    exact ⟨h.settings_eq, h.store_eq, rfl, rfl, op.effect_effect M, hafter⟩

/-- A replica that waits leaves its contents alone on ABORT, and acknowledges. -/
theorem ensures_abort (h : r.Sound settings M (.voted op) d) :
    (r.decide false).Ensures
      (fun e => ∃ L' M', (Standing.voted op).Passes M .abort L' M' ∧ settings.Kept M' L' e)
      (fun a e => a.2.Sound settings M (.aborted op) e ∧ a.1 = .ack) d := by
  have happend := h.tidy.ensures_append (.aborted op) rfl
    (fun _ hop' => h.tidy.valid _ hop') r.journal.cursor
  rw [decide_of_pending h.phase_eq, h.journal_eq]
  refine Action.Ensures.bind (happend.mono ?_ fun a e _ hQ => hQ) ?_
  · rintro e (hbefore | hafter)
    · exact ⟨_, M, .before, hbefore.kept⟩
    · exact ⟨_, M, .logged, hafter.kept⟩
  · rintro - e hC ⟨rfl, hafter⟩
    refine Action.ensures_done.2 ⟨hC, ?_, rfl⟩
    exact ⟨h.settings_eq, h.store_eq, rfl, rfl, rfl, hafter⟩

/-- Reading a key changes the cache at most. -/
theorem answers_get {rs : List Record} (h : settings.Housed M rs d) (hr : r.store = settings.store)
    (key : String) :
    ∃ answer cache, (r.get key).Answers d (answer, { r with cache }) ∧ answer ≠ .voteCommit := by
  unfold get
  cases hkey : checkKey key with
  | error f => exact ⟨_, r.cache, Action.answers_done _ d, by simp [Response.ofFault]⟩
  | ok _ =>
    rcases r.cache.get key with ⟨value?, cache⟩
    cases value? with
    | some value => exact ⟨_, cache, Action.answers_done _ d, by simp⟩
    | none =>
      have hget := Store.answers_get h.store h.directory hkey
      rw [← hr] at hget
      cases hM : M key with
      | some value =>
        rw [hM] at hget
        exact ⟨_, _, Action.Answers.bind hget (Action.answers_done _ d), by simp⟩
      | none =>
        rw [hM] at hget
        exact ⟨_, r.cache, Action.Answers.bind hget (Action.answers_done _ d), by
          simp [Response.ofFault]⟩

/-- A request that neither asks for an operation nor decides on one. -/
theorem Sound.ensures_other (h : r.Sound settings M L d) {q : Request} (hq : q.operation? = none)
    (hL : (q ≠ .commit ∧ q ≠ .abort) ∨ ∀ op', L ≠ .voted op') {answer : Response}
    (hanswer : answer ≠ .voteCommit) (hack : q = .commit ∨ q = .abort → answer = .ack) :
    (Action.done (answer, r)).Ensures (fun e => ∃ L' M', L.Passes M q L' M' ∧ settings.Kept M' L' e)
      (fun a e => a.2.Sound settings ((L.serve q).settle M) (L.serve q) e ∧ Answered L q a.1) d :=
  h.ensures_done (Standing.serve_of_ballot_none (Standing.ballot_of_operation_none hq) hL)
    (answered_of_operation_none hq hanswer hack)

theorem serve_of_votes (h : r.settings.votes = true) (now : String) (q : Request) :
    r.serve now q = r.serveVoting now q := if_pos h

/-- Every request is served soundly, and leaves the contents of the new standing. -/
theorem ensures_serve (h : r.Sound settings M L d) (hvotes : settings.votes = true) (now : String)
    {q : Request} (hq : q.ZeroFree) :
    (r.serve now q).Ensures (fun e => ∃ L' M', L.Passes M q L' M' ∧ settings.Kept M' L' e)
      (fun a e =>
        a.2.Sound settings ((L.serve q).settle M) (L.serve q) e ∧ Answered L q a.1) d := by
  rw [serve_of_votes (h.settings_eq ▸ hvotes)]
  cases q with
  | put key value => exact ensures_vote h rfl (hq _ rfl)
  | del key => exact ensures_vote h rfl (hq _ rfl)
  | get key =>
    obtain ⟨answer, cache, hget, hanswer⟩ := answers_get h.tidy.housed h.store_eq key
    have hserve : L.serve (.get key) = L := Standing.serve_of_ballot_none
      (Standing.ballot_of_operation_none rfl) (.inl ⟨by simp, by simp⟩)
    refine Action.Answers.ensures hget ⟨L, M, .before, h.tidy.kept⟩
      ⟨?_, answered_of_operation_none rfl hanswer (by simp)⟩
    rw [hserve, h.settled]
    exact ⟨h.settings_eq, h.store_eq, h.journal_eq, h.phase_eq, h.settled, h.tidy⟩
  | register host port =>
    exact h.ensures_other rfl (.inl ⟨by simp, by simp⟩) (by simp [Response.ofFault]) (by simp)
  | info => exact h.ensures_other rfl (.inl ⟨by simp, by simp⟩) (by simp [report]) (by simp)
  | commit =>
    by_cases hpending : ∃ op, L = .voted op
    · obtain ⟨op, rfl⟩ := hpending
      refine (ensures_commit h).mono (fun e he => he) fun a e _ hQ => ⟨hQ.1, ?_⟩
      rw [hQ.2]
      exact answered_of_operation_none rfl (by simp) fun _ => rfl
    · have hL : ∀ op', L ≠ .voted op' := fun op' heq => hpending ⟨op', heq⟩
      show (r.decide true).Ensures _ _ d
      rw [decide_of_not_pending (h.phase_ne_pending hL)]
      exact h.ensures_other rfl (.inr hL) (by simp) fun _ => rfl
  | abort =>
    by_cases hpending : ∃ op, L = .voted op
    · obtain ⟨op, rfl⟩ := hpending
      refine (ensures_abort h).mono (fun e he => he) fun a e _ hQ => ⟨hQ.1, ?_⟩
      rw [hQ.2]
      exact answered_of_operation_none rfl (by simp) fun _ => rfl
    · have hL : ∀ op', L ≠ .voted op' := fun op' heq => hpending ⟨op', heq⟩
      show (r.decide false).Ensures _ _ d
      rw [decide_of_not_pending (h.phase_ne_pending hL)]
      exact h.ensures_other rfl (.inr hL) (by simp) fun _ => rfl

end Replica

end RingStore
