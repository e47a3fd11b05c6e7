import RingStore.Proofs.Coordinator.Course
import RingStore.Proofs.Ring.Cohort

/-!
# The messages of a read

What a read sends, to the last moment: nothing if the key is too long or cached or the ring is not
full. Otherwise the members that hold the key are asked in ring order, once each, up to the first
that answers with a value. That value is cached and is the response; without one the key is not
known.
-/

namespace RingStore

namespace Coordinator

open Course

/-- The pair that an attempt ended with, if it ended with one. -/
def pair? : Except Fault Response → Option (String × String)
  | .ok (.value key value) => some (key, value)
  | _ => none

namespace Script

/-- What is seen of asking the members one after the other, until one answers with a pair. -/
def asks (script : Script) (q : Request) : List Member → List Moment
  | [] => []
  | x :: left =>
    .attempt x q (script x q 0) ::
      if (pair? (script x q 0)).isSome then [] else script.asks q left

end Script

/-- A read that is about to be served. -/
def Course.ofRead (c : Coordinator) (key : String) : Course := ⟨c, .ofRead key, []⟩

variable {script : Script} {c : Coordinator} {key : String} {left : List Member} {h : List Moment}
  {x : Member} {epoch : UInt64}

theorem contacted_of_pair {outcome : Except Fault Response} {k value : String}
    (hpair : pair? outcome = some (k, value)) :
    (Reading.asking epoch (x :: left)).contacted (.ofOutcome outcome) = .filling epoch k value := by
  cases outcome with
  | error f => cases hpair
  | ok r =>
    cases r with
    | value k' value' =>
      obtain ⟨rfl, rfl⟩ := Prod.mk.inj (Option.some.inj hpair)
      rfl
    | report _ | voteCommit | voteAbort _ | ack => cases hpair

theorem contacted_of_no_pair {outcome : Except Fault Response} (hpair : pair? outcome = none) :
    (Reading.asking epoch (x :: left)).contacted (.ofOutcome outcome) = .asking epoch left := by
  cases outcome with
  | error f => cases f <;> rfl
  | ok r =>
    cases r with
    | value k value => cases hpair
    | report _ | voteCommit | voteAbort _ | ack => rfl

/-- A member that was not asked yet is asked. -/
theorem next_asking (hnew : attempts x (.get key) h = 0) :
    next script ⟨c, .read key (.asking epoch (x :: left)), h⟩ =
      ⟨c, .read key ((Reading.asking epoch (x :: left)).contacted
          (.ofOutcome (script x (.get key) 0))),
        h ++ [.attempt x (.get key) (script x (.get key) 0)]⟩ := by
  have hdemand : (Task.read key (.asking epoch (x :: left))).demand = .contact x (.get key) := rfl
  unfold next
  simp only [hdemand, hnew, Task.contacted, Option.toList_none, List.map_nil]

end Coordinator

end RingStore
