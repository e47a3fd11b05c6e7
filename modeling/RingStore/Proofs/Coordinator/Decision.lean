import RingStore.Proofs.Coordinator.Asking
import RingStore.Proofs.Coordinator.TwoPhase

/-!
# The decision and the response

A write comes to a decision only if it is let in (`LetIn`), and then to a single one: to carry the
write out if all who are asked vote for that. Its response follows from the decision and tells it
(`Writing.Bound`). What else members say, in whatever words, decides nothing (`Script.Alike`).
-/

namespace RingStore

namespace Coordinator

open Course

variable {script script' : Script} {c c' : Coordinator} {op : Operation} {s s' : Course}
  {t t' : Task} {h : List Moment} {x : Member} {q : Request} {n : Nat} {commit : Bool}
  {r : Response} {cohort : List Member}

/-- A write is let in: it is within the limits, the ring is full, and no other write is under
way. -/
structure LetIn (c : Coordinator) (op : Operation) : Prop where
  check : op.check = .ok ()
  full : c.ring.isFull = true
  free : c.busy = false

/-- The write comes to that decision. -/
def Decided (script : Script) (c : Coordinator) (op : Operation) (commit : Bool) : Prop :=
  ∃ s, Reaches script (.ofWrite c op) s ∧ s.task.verdict? = some commit

/-- What becomes of a write. -/
def writeOutcome (script : Script) (c : Coordinator) (op : Operation) : Except Fault Unit :=
  match op.check with
  | .error f => .error f
  | .ok () =>
    if !c.ring.isFull then .error .generic
    else if c.busy then .error .invalidRequest
    else if script.unanimous (c.cohort op.key) op.request then .ok ()
    else .error .generic

/-- Everyone on the ring acknowledges decisions, sooner or later. -/
def Script.Acknowledges (script : Script) (members : List Member) : Prop :=
  ∀ x ∈ members, ∀ commit, ∃ k, script x (decisionRequest commit) k = .ok .ack

/-- A write that was let in succeeds exactly if its cohort is unanimous. -/
theorem LetIn.writeOutcome (hin : LetIn c op) : writeOutcome script c op =
    if script.unanimous (c.cohort op.key) op.request then .ok () else .error .generic := by
  simp [Coordinator.writeOutcome, hin.check, hin.full, hin.free]

theorem eq_voting_of_verdict (hverdict : t.verdict? = some commit) :
    ∃ op asked, t = .write op (.voting asked [] commit) := by
  cases t with
  | write op stage =>
    cases stage with
    | voting asked left unanimous =>
      cases left with
      | nil =>
        obtain rfl := Option.some.inj hverdict
        exact ⟨op, asked, rfl⟩
      | cons x left => cases hverdict
    | checking | admission | entering | routing | deciding _ _ | settling | leaving _
    | finished _ =>
      cases hverdict
  | read key stage | register host port | survey now | trying left report | finished r =>
    cases hverdict

/-- What is left of a write that has come to its decision. -/
def Writing.Bound (commit : Bool) : Writing → Prop
  | voting _ [] unanimous => unanimous = commit
  | deciding commit' _ => commit' = commit
  | settling => commit = true
  | leaving r | finished r => r = if commit then .success else .ofFault .generic
  | _ => False

theorem Writing.Bound.advance {stage : Writing} (hbound : stage.Bound commit) :
    (stage.advance c op).2.1.Bound commit := by
  cases stage with
  | voting asked left unanimous =>
    cases left with
    | nil => exact hbound
    | cons x left => cases hbound
  | deciding commit' left =>
    obtain rfl : commit' = commit := hbound
    cases left with
    | nil => cases commit' <;> rfl
    | cons x left => cases commit' <;> rfl
  | settling =>
    obtain rfl : commit = true := hbound
    rfl
  | leaving r | finished r => exact hbound
  | checking | admission | entering | routing => cases hbound

theorem Writing.Bound.contacted {stage : Writing} (hbound : stage.Bound commit) (met : Contact) :
    (stage.contacted met).1.Bound commit := by
  cases stage with
  | voting asked left unanimous =>
    cases left with
    | nil => exact hbound
    | cons x left => cases hbound
  | deciding commit' left => cases left <;> exact hbound
  | settling | leaving r | finished r => exact hbound
  | checking | admission | entering | routing => cases hbound

/-- A write whose decision was taken is not carried out, or dropped, against it. -/
def Course.Bound (op : Operation) (commit : Bool) (s : Course) : Prop :=
  ∃ stage, s.task = .write op stage ∧ stage.Bound commit

/-- A decision that was taken stays the decision. -/
theorem bound_next (hbound : s.Bound op commit) : (s.next script).Bound op commit := by
  obtain ⟨stage, hstage, hbound⟩ := hbound
  unfold next
  rw [hstage]
  split
  · exact ⟨_, rfl, hbound.advance⟩
  · exact ⟨_, rfl, hbound.contacted _⟩
  · exact ⟨stage, hstage, hbound⟩
  · exact ⟨stage, hstage, hbound⟩

/-- Once taken, a decision is never changed. -/
theorem bound_of_reaches (hbound : s.Bound op commit) (hreach : Reaches script s s') :
    s'.Bound op commit := by
  obtain ⟨k, rfl⟩ := hreach
  induction k with
  | zero => exact hbound
  | succ k ih =>
    rw [Function.iterate_succ_apply']
    exact bound_next ih

/-- The response tells the decision. -/
theorem Decided.response (hdecided : Decided script c op commit)
    (hreach : Reaches script (.ofWrite c op) s') (hend : s'.task = .write op (.finished r)) :
    r = if commit then .success else .ofFault .generic := by
  obtain ⟨s, ⟨k, rfl⟩, hverdict⟩ := hdecided
  have hbound : ((next script)^[k] (.ofWrite c op)).Bound op commit := by
    obtain ⟨stage, hstage⟩ := (untouched_iterate script c op k).write
    obtain ⟨op', asked, heq⟩ := eq_voting_of_verdict hverdict
    obtain ⟨rfl, rfl⟩ := Task.write.inj (hstage.symm.trans heq)
    exact ⟨_, hstage, rfl⟩
  have hdemand : s'.task.demand = .finished r := by rw [hend]; rfl
  obtain ⟨stage, hstage, hlast⟩ := bound_of_reaches hbound (hreach.of_iterate hdemand k)
  obtain ⟨-, rfl⟩ := Task.write.inj (hstage.symm.trans hend)
  exact hlast

/-- A write that is let in comes to the decision that the votes lead to. -/
theorem LetIn.decided (script : Script) (hin : LetIn c op) (hring : c.ring.Ordered) :
    Decided script c op (script.unanimous (c.cohort op.key) op.request) := by
  have hnodup : (c.cohort op.key).Nodup := hring.nodup_cohort _ _
  refine ⟨_, (Reaches.of_advances (advances_voting hin.check hin.full hin.free)).trans
    (reaches_voted (fun x _ => rfl) hnodup), ?_⟩
  show some (true && script.unanimous (c.cohort op.key) op.request) = _
  rw [Bool.true_and]

/-! ## The response of any write -/

/-- A response without what is told by its texts. -/
def wordless : Response → Response
  | .report _ => .report ""
  | .value _ _ => .value "" ""
  | .voteAbort _ => .voteAbort ""
  | r => r

/-- The scripts tell the same, but for the texts in what members say and for why they are not
heard. -/
def Script.Alike (script script' : Script) : Prop :=
  ∀ x q n, (script x q n).toOption.map wordless = (script' x q n).toOption.map wordless

theorem wordless_eq_voteCommit {outcome : Except Fault Response} :
    outcome.toOption.map wordless = some .voteCommit ↔ outcome = .ok .voteCommit := by
  cases outcome with
  | error f => simp [Except.toOption]
  | ok r => cases r <;> simp [Except.toOption, wordless]

theorem wordless_eq_ack {outcome : Except Fault Response} :
    outcome.toOption.map wordless = some .ack ↔ outcome = .ok .ack := by
  cases outcome with
  | error f => simp [Except.toOption]
  | ok r => cases r <;> simp [Except.toOption, wordless]

theorem Script.Alike.unanimous (halike : script.Alike script') (cohort : List Member)
    (q : Request) :
    script'.unanimous cohort q = script.unanimous cohort q := by
  rw [Bool.eq_iff_iff, Script.unanimous_iff, Script.unanimous_iff]
  refine forall₂_congr fun x _ => ?_
  rw [← wordless_eq_voteCommit, ← wordless_eq_voteCommit, halike x q 0]

theorem Script.Alike.acknowledges (halike : script.Alike script') {members : List Member}
    (hacks : script.Acknowledges members) : script'.Acknowledges members := by
  intro x hx commit
  obtain ⟨k, hk⟩ := hacks x hx commit
  refine ⟨k, ?_⟩
  rwa [← wordless_eq_ack, ← halike x _ k, wordless_eq_ack]

/-- The texts of the replicas make no difference to the outcome. -/
theorem Script.Alike.writeOutcome (halike : script.Alike script') (c : Coordinator)
    (op : Operation) :
    Coordinator.writeOutcome script' c op = Coordinator.writeOutcome script c op := by
  unfold Coordinator.writeOutcome
  rw [halike.unanimous]

end Coordinator

end RingStore
