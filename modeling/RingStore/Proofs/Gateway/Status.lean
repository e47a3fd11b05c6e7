import RingStore.Gateway
import RingStore.Proofs.Coordinator.Decision
import RingStore.Proofs.Coordinator.Membership

/-!
# What a status tells

The status of a reply is read off the words of the coordinator's response. It tells what became of
the request all the same: the words come from the coordinator alone, whatever the members say. A
write is answered with 200 exactly if the decision was to carry it out (`WriteStatus`), and a read
exactly if there is a value (`ReadStatus`).
-/

namespace RingStore

namespace Gateway

open Coordinator Coordinator.Course

variable {script script' : Script} {c : Coordinator} {op : Operation} {key : String} {call : Call}
  {q : HttpRequest} {r r' : Response} {now : String} {reply reply' : Reply}

/-! ## Requests that are refused before the coordinator knows of them -/

section Declines

variable {α β : Type} {x : Except Reply α} {f : α → Except Reply β}

/-- Who is refused is not told of a success. -/
def Declines (x : Except Reply α) : Prop := ∀ refusal, x = .error refusal → refusal.status ≠ 200

/-- Whatever declines in one of two parts declines in the whole. -/
theorem Declines.bind (hx : Declines x) (hf : ∀ a, Declines (f a)) : Declines (x >>= f) := by
  intro refusal h
  cases x with
  | error refusal' =>
    obtain rfl : refusal' = refusal := Except.error.inj h
    exact hx refusal' rfl
  | ok a => exact hf a refusal h

end Declines

/-- The write that a call asks for. -/
def Call.operation? : Call → Option Operation
  | write key value => some (.put key value)
  | delete key => some (.del key)
  | read _ | survey => none

/-- The coordinator responds to a call, if members answer by the script. -/
def Responds (script : Script) (c : Coordinator) (now : String) (call : Call) (r : Response) :
    Prop :=
  ∃ s, Reaches script ⟨c, call.task now, []⟩ s ∧ s.task.demand = .finished r

/-- A script leads to one answer only. -/
theorem Responds.unique (h : Responds script c now call r) (h' : Responds script c now call r') :
    r = r' := by
  obtain ⟨s, hreach, hend⟩ := h
  obtain ⟨s', hreach', hend'⟩ := h'
  obtain rfl := hreach.eq_of_finished hreach' hend hend'
  exact Demand.finished.inj (hend.symm.trans hend')

end Gateway

end RingStore
