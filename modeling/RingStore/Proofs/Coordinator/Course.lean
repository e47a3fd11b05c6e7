import RingStore.Proofs.Coordinator.Turns
import Mathlib.Logic.Function.Iterate

/-!
# The course of a task

A task on its own, with everything that is seen of it from outside: the attempts to put a request to
a member, how each ended, and what those who watch are told. How attempts end is up to a script,
which may give any outcome at any place. Under a script the course is fixed, so that it can be
followed step by step.
-/

namespace RingStore

namespace Coordinator

/-- How an attempt to put a request to a member ends, if the same was attempted so many times
before. -/
def Script : Type := Member → Request → Nat → Except Fault Response

/-- What is seen of a task at one moment. -/
inductive Moment
  /-- An attempt to put a request to a member. -/
  | attempt (m : Member) (q : Request) (outcome : Except Fault Response)
  /-- Those who watch are told something. -/
  | notice (n : Notice)

/-- An attempt to put the request to the member. -/
def Moment.isOf (m : Member) (q : Request) : Moment → Bool
  | attempt m' q' _ => m' = m ∧ q' = q
  | notice _ => false

/-- How many times the request was put to the member. -/
def attempts (m : Member) (q : Request) (history : List Moment) : Nat := history.countP (·.isOf m q)

/-- A task on the coordinator's state, with what was seen of it. -/
structure Course where
  coordinator : Coordinator
  task : Task
  history : List Moment

namespace Course

/-- One step of a task. Who only connects to a member puts no request to it, and stays here. -/
def next (script : Script) (s : Course) : Course :=
  match s.task.demand with
  | .step =>
    let (c, t, told) := s.task.advance s.coordinator
    ⟨c, t, s.history ++ told.toList.map .notice⟩
  | .contact m q =>
    let outcome := script m q (attempts m q s.history)
    let (t, told) := s.task.contacted (.ofOutcome outcome)
    ⟨s.coordinator, t, s.history ++ .attempt m q outcome :: told.toList.map .notice⟩
  | .probe _ | .finished _ => s

/-- A write that is about to be served. -/
def ofWrite (c : Coordinator) (op : Operation) : Course := ⟨c, .ofWrite op.request, []⟩

/-- Some number of steps leads there. -/
def Reaches (script : Script) (s s' : Course) : Prop := ∃ k, (next script)^[k] s = s'

variable {script : Script} {s s' s'' : Course} {c c' : Coordinator} {t t' : Task} {op : Operation}
  {cohort left : List Member} {unanimous commit : Bool} {h : List Moment} {x : Member} {q : Request}
  {n : Nat}

@[refl]
theorem Reaches.refl (script : Script) (s : Course) : Reaches script s s := ⟨0, rfl⟩

theorem Reaches.trans (h : Reaches script s s') (h' : Reaches script s' s'') :
    Reaches script s s'' := by
  obtain ⟨k, rfl⟩ := h
  obtain ⟨k', rfl⟩ := h'
  exact ⟨k' + k, Function.iterate_add_apply _ _ _ _⟩

/-- What comes of the next state comes of this one. -/
theorem Reaches.head (h : Reaches script (s.next script) s') : Reaches script s s' :=
  .trans ⟨1, rfl⟩ h

/-! ## The history only grows -/

/-- A step only adds to what has happened. -/
theorem history_next (script : Script) (s : Course) : s.history <+: (s.next script).history := by
  unfold next
  split
  · exact List.prefix_append _ _
  · exact List.prefix_append _ _
  · exact List.prefix_rfl
  · exact List.prefix_rfl

/-- Steps only add to what has happened. -/
theorem history_iterate (script : Script) (s : Course) (k : Nat) :
    s.history <+: ((next script)^[k] s).history := by
  induction k generalizing s with
  | zero => exact List.prefix_rfl
  | succ k ih => exact (history_next script s).trans (ih _)

/-- Whatever is on the way to an end goes on to it: nothing else can become of it. -/
theorem Reaches.of_iterate {r : Response} (hreach : Reaches script s s')
    (hend : s'.task.demand = .finished r) (k : Nat) : Reaches script ((next script)^[k] s) s' := by
  obtain ⟨n, rfl⟩ := hreach
  rcases Nat.le_total k n with hle | hle
  · refine ⟨n - k, ?_⟩
    rw [← Function.iterate_add_apply, Nat.sub_add_cancel hle]
  · have hfixed : next script ((next script)^[n] s) = (next script)^[n] s := by
      rw [next, hend]
    have hsplit : (next script)^[k] s = (next script)^[n] s := by
      rw [← Nat.sub_add_cancel hle, Function.iterate_add_apply, Function.iterate_fixed hfixed]
    rw [hsplit]

/-- There is one end. -/
theorem Reaches.eq_of_finished {r r' : Response} (hreach : Reaches script s s')
    (hreach' : Reaches script s s'') (hend : s'.task.demand = .finished r)
    (hend' : s''.task.demand = .finished r') : s' = s'' := by
  obtain ⟨k, rfl⟩ := hreach
  obtain ⟨n, hn⟩ := hreach'.of_iterate hend' k
  have hfixed : next script ((next script)^[k] s) = (next script)^[k] s := by
    rw [next, hend]
  rw [← hn, Function.iterate_fixed hfixed]

/-- What has happened stays the beginning of what happens. -/
theorem Reaches.history_le (hreach : Reaches script s s') : s.history <+: s'.history := by
  obtain ⟨n, rfl⟩ := hreach
  exact history_iterate script s n

/-! ## What is seen of one attempt -/

/-- What is seen of one attempt: if no connection came about, those who watch are told of it. -/
def seen (m : Member) (q : Request) : Except Fault Response → List Moment
  | .error (.connection text) =>
    [.attempt m q (.error (.connection text)), .notice (.unreachable m)]
  | outcome => [.attempt m q outcome]

/-- A member that was met shows an attempt, and what is told of it. -/
theorem seen_eq (m : Member) (q : Request) (outcome : Except Fault Response) :
    seen m q outcome =
      .attempt m q outcome :: (Writing.noticeOf m (.ofOutcome outcome)).toList.map .notice := by
  cases outcome with
  | ok r => rfl
  | error f => cases f <;> rfl

/-- Only an attempt to put this request to this member counts. -/
theorem attempts_seen (m x : Member) (p q : Request) (outcome : Except Fault Response) :
    attempts x q (seen m p outcome) = if m = x ∧ p = q then 1 else 0 := by
  have hnotices : ∀ l : List Notice, attempts x q (l.map .notice) = 0 := fun l =>
    List.countP_eq_zero.2 fun e he => by
      obtain ⟨n, -, rfl⟩ := List.mem_map.1 he
      exact Bool.false_ne_true
  rw [seen_eq, attempts, List.countP_cons]
  change attempts x q _ + _ = _
  rw [hnotices, Nat.zero_add]
  simp [Moment.isOf]

/-- Attempts of two stretches of time add up. -/
theorem attempts_append (x : Member) (q : Request) (h h' : List Moment) :
    attempts x q (h ++ h') = attempts x q h + attempts x q h' := List.countP_append

/-! ## Steps of a write -/

/-- A task that waits for a member goes on with how the script lets it be met. -/
theorem next_contact {stage : Writing} (hdemand : stage.demand op = .contact x q)
    (htold : (stage.contacted (.ofOutcome (script x q (attempts x q h)))).2 =
      Writing.noticeOf x (.ofOutcome (script x q (attempts x q h)))) :
    next script ⟨c, .write op stage, h⟩ =
      ⟨c, .write op (stage.contacted (.ofOutcome (script x q (attempts x q h)))).1,
        h ++ seen x q (script x q (attempts x q h))⟩ := by
  have htask : (Task.write op stage).demand = .contact x q := hdemand
  unfold next
  simp only [htask, Task.contacted, htold, seen_eq]

/-- Nothing is told of steps on the coordinator's state, other than the decision. -/
theorem notice_advance (hquiet : t.verdict? = none) : (t.advance c).2.2 = none := by
  cases t with
  | write op stage =>
    cases stage with
    | checking | entering =>
      simp only [Task.advance, Writing.advance]
      split <;> rfl
    | voting asked left unanimous =>
      cases left with
      | nil => cases hquiet
      | cons y left => rfl
    | deciding commit left => cases left <;> cases commit <;> rfl
    | admission | routing | settling | leaving r | finished r => rfl
  | trying left report => cases left <;> rfl
  | read key stage | register host port | survey now | finished r => rfl

/-- A task that waits for nobody takes its step, and nobody sees it. -/
theorem next_advance (hdemand : t.demand = .step) (hquiet : t.verdict? = none) :
    next script ⟨c, t, h⟩ = ⟨(t.advance c).1, (t.advance c).2.1, h⟩ := by
  simp only [next, hdemand, notice_advance hquiet, Option.toList_none, List.map_nil,
    List.append_nil]

/-- Steps that nobody sees are a part of the course. -/
theorem Reaches.of_advances (hsteps : Advances (c, t) (c', t')) :
    Reaches script ⟨c, t, h⟩ ⟨c', t', h⟩ := by
  generalize hfrom : (c, t) = p at hsteps
  generalize hto : (c', t') = p' at hsteps
  induction hsteps generalizing c' t' with
  | refl =>
    obtain ⟨rfl, rfl⟩ := Prod.mk.inj (hfrom.trans hto.symm)
    rfl
  | tail hbefore hstep ih =>
    obtain ⟨hdemand, hquiet, heq⟩ := hstep
    obtain ⟨rfl, rfl⟩ := Prod.mk.inj (hto.trans heq)
    exact (ih rfl).trans ⟨1, next_advance hdemand hquiet⟩

end Course

end Coordinator

end RingStore
