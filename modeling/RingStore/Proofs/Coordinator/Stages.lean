import RingStore.Coordinator.Task
import Mathlib.Logic.Relation

/-!
# The stages of writes and reads

What a write does on the coordinator's state, whatever becomes of the members it meets. The members
that are left to be met belong to the cohort of the key, and neither the ring nor the settings
change. Reads and writes go on by themselves up to where they need a member.
-/

namespace RingStore

namespace Coordinator

variable {op : Operation} {cohort : List Member} {c c' : Coordinator} {x : Member}

theorem mem_members {key : String} (hx : x ∈ c.cohort key) : x ∈ c.ring.members :=
  Ring.mem_of_mem_cohort hx

theorem cohort_eq (hring : c'.ring = c.ring) (hsettings : c'.settings = c.settings) (key : String) :
    c'.cohort key = c.cohort key := by
  rw [Coordinator.cohort, Coordinator.cohort, hring, hsettings]

namespace Writing

variable {stage : Writing} {q : Request}

/-- The members that are left belong to the cohort, and a write that goes on was found within the
limits. -/
def Proper (op : Operation) (cohort : List Member) : Writing → Prop
  | checking | settling | leaving _ | finished _ => True
  | admission | entering | routing => op.check = .ok ()
  | voting asked left _ => op.check = .ok () ∧ asked = cohort ∧ left ⊆ cohort
  | deciding _ left => left ⊆ cohort

theorem Proper.advance (h : stage.Proper op cohort) (hcohort : c.cohort op.key = cohort) :
    (stage.advance c op).2.1.Proper op cohort := by
  cases stage with
  | checking =>
    simp only [Writing.advance]
    split
    · trivial
    · assumption
  | admission =>
    simp only [Writing.advance]
    split
    · exact h
    · trivial
  | entering =>
    simp only [Writing.advance]
    split
    · trivial
    · exact h
  | routing => exact ⟨h, hcohort, hcohort ▸ List.Subset.refl _⟩
  | voting asked left unanimous =>
    cases left with
    | cons y left => exact h
    | nil => exact h.2.1 ▸ List.Subset.refl _
  | deciding commit left =>
    cases left with
    | cons y left => cases commit <;> exact h
    | nil => cases commit <;> trivial
  | settling | leaving r | finished r => trivial

/-- A write changes neither the ring nor the settings. -/
theorem advance_fixed (c : Coordinator) (op : Operation) (stage : Writing) :
    (stage.advance c op).1.ring = c.ring ∧ (stage.advance c op).1.settings = c.settings := by
  cases stage with
  | checking =>
    simp only [Writing.advance]
    split <;> exact ⟨rfl, rfl⟩
  | entering =>
    simp only [Writing.advance]
    split <;> exact ⟨rfl, rfl⟩
  | voting asked left unanimous => cases left <;> exact ⟨rfl, rfl⟩
  | deciding commit left => cases left <;> cases commit <;> exact ⟨rfl, rfl⟩
  | admission | routing | settling | leaving r | finished r => exact ⟨rfl, rfl⟩

/-- The member that is met is one that is left, and is asked for its vote or told the decision. -/
theorem demand_eq_contact {y : Member} (h : stage.demand op = .contact y q) :
    (∃ asked left unanimous, stage = voting asked (y :: left) unanimous ∧ q = op.request) ∨
      ∃ commit left, stage = deciding commit (y :: left) ∧ q = decisionRequest commit := by
  cases stage with
  | voting asked left unanimous =>
    cases left with
    | nil => exact absurd h (by simp [Writing.demand])
    | cons z left =>
      simp only [Writing.demand, Demand.contact.injEq] at h
      obtain ⟨rfl, rfl⟩ := h
      exact .inl ⟨_, _, _, rfl, rfl⟩
  | deciding commit left =>
    cases left with
    | nil => exact absurd h (by simp [Writing.demand])
    | cons z left =>
      simp only [Writing.demand, Demand.contact.injEq] at h
      obtain ⟨rfl, rfl⟩ := h
      exact .inr ⟨_, _, rfl, rfl⟩
  | checking | admission | entering | routing | settling | leaving r | finished r =>
    exact absurd h (by simp [Writing.demand])

theorem Proper.contacted (h : stage.Proper op cohort) (met : Contact) :
    (stage.contacted met).1.Proper op cohort := by
  cases stage with
  | voting asked left unanimous =>
    cases left with
    | nil => exact h
    | cons y left => exact ⟨h.1, h.2.1, (List.cons_subset.1 h.2.2).2⟩
  | deciding commit left =>
    cases left with
    | nil => exact h
    | cons y left =>
      simp only [Writing.contacted]
      split
      · exact (List.cons_subset.1 h).2
      · exact h
  | checking | admission | entering | routing | settling | leaving r | finished r => exact h

theorem eq_finished_of_demand {r : Response} (h : stage.demand op = .finished r) :
    stage = .finished r := by
  cases stage with
  | voting asked left unanimous => cases left <;> exact absurd h (by simp [Writing.demand])
  | deciding commit left => cases left <;> exact absurd h (by simp [Writing.demand])
  | finished r' =>
    obtain rfl := Demand.finished.inj h
    rfl
  | checking | admission | entering | routing | settling | leaving r' =>
    exact absurd h (by simp [Writing.demand])

end Writing

/-! ## Steps that go on by themselves -/

/-- The decision that the next step of a task takes. -/
def Task.verdict? : Task → Option Bool
  | .write _ (.voting _ [] unanimous) => some unanimous
  | _ => none

/-- Steps on the coordinator's state, none of which takes a decision. -/
def Advances : Coordinator × Task → Coordinator × Task → Prop :=
  Relation.ReflTransGen fun p p' => p.2.demand = .step ∧ p.2.verdict? = none ∧
    p' = ((p.2.advance p.1).1, (p.2.advance p.1).2.1)

theorem advances_of_advance {stage stage' : Writing} {notice : Option Notice}
    (hdemand : stage.demand op = .step) (hverdict : (Task.write op stage).verdict? = none)
    (hadvance : stage.advance c op = (c', stage', notice)) :
    Advances (c, .write op stage) (c', .write op stage') := by
  refine .single ⟨hdemand, hverdict, ?_⟩
  rw [Task.advance, hadvance]

/-- A write within the limits comes to ask for votes, if the ring is full and no other write is
under way. -/
theorem advances_voting (hcheck : op.check = .ok ()) (hfull : c.ring.isFull = true)
    (hidle : c.busy = false) :
    Advances (c, .ofWrite op.request)
      ({ c with busy := true }, .write op (.voting (c.cohort op.key) (c.cohort op.key) true)) := by
  have hchecking : Writing.checking.advance c op = (c, .admission, none) := by
    simp [Writing.advance, hcheck]
  have hadmission : Writing.admission.advance c op = (c, .entering, none) := by
    simp [Writing.advance, hfull]
  have hentering : Writing.entering.advance c op = ({ c with busy := true }, .routing, none) := by
    simp [Writing.advance, hidle]
  rw [Task.ofWrite, Operation.operation?_request]
  exact (advances_of_advance rfl rfl hchecking).trans <|
    (advances_of_advance rfl rfl hadmission).trans <|
    (advances_of_advance rfl rfl hentering).trans (advances_of_advance rfl rfl rfl)

/-- A write that all members have acknowledged is settled. -/
theorem advances_settled (c : Coordinator) (op : Operation) :
    Advances (c, .write op (.deciding true [])) (c.settle op, .write op (.leaving .success)) :=
  (advances_of_advance rfl rfl rfl).trans (advances_of_advance rfl rfl rfl)

/-- A write that all members have acknowledged ends with success. -/
theorem advances_success (c : Coordinator) (op : Operation) :
    Advances (c, .write op (.deciding true []))
      ({ c.settle op with busy := false }, .write op (.finished .success)) :=
  (advances_settled c op).trans (advances_of_advance rfl rfl rfl)

/-- A write that all members have dropped ends with a fault. -/
theorem advances_dropped (c : Coordinator) (op : Operation) :
    Advances (c, .write op (.deciding false []))
      ({ c with busy := false }, .write op (.finished (.ofFault .generic))) :=
  (advances_of_advance rfl rfl rfl).trans (advances_of_advance rfl rfl rfl)

/-- A write beyond the limits is refused at once. -/
theorem advances_refused {fault : Fault} (hcheck : op.check = .error fault) :
    Advances (c, .ofWrite op.request) (c, .write op (.finished (.ofFault fault))) := by
  have hchecking : Writing.checking.advance c op = (c, .finished (.ofFault fault), none) := by
    rw [Writing.advance, hcheck]
  rw [Task.ofWrite, Operation.operation?_request]
  exact advances_of_advance rfl rfl hchecking

theorem advances_of_reading {key : String} {stage stage' : Reading}
    (hdemand : stage.demand key = .step) (hadvance : stage.advance c key = (c', stage')) :
    Advances (c, .read key stage) (c', .read key stage') := by
  refine .single ⟨hdemand, rfl, ?_⟩
  rw [Task.advance, hadvance]

/-- A key that is cached is answered at once. -/
theorem advance_hit {key value : String} (hcheck : checkKey key = .ok ())
    (hhit : (c.cache.get key).1 = some value) : Reading.lookup.advance c key =
      ({ c with cache := (c.cache.get key).2 }, .finished (.value key value)) := by
  rw [Reading.advance, hcheck,
    show c.cache.get key = (some value, (c.cache.get key).2) from Prod.ext hhit rfl]

/-- For a key that is not cached the ring has to be full. -/
theorem advance_miss {key : String} (hcheck : checkKey key = .ok ())
    (hmiss : (c.cache.get key).1 = none) : Reading.lookup.advance c key = (c, .admission) := by
  rw [Reading.advance, hcheck,
    show c.cache.get key = (none, (c.cache.get key).2) from Prod.ext hmiss rfl]

/-- A key that is not cached is asked for, if the ring is full. -/
theorem advances_asking {key : String} (hcheck : checkKey key = .ok ())
    (hmiss : (c.cache.get key).1 = none) (hfull : c.ring.isFull = true) :
    Advances (c, .ofRead key) (c, .read key (.asking c.epoch (c.cohort key))) := by
  have hadmission : Reading.admission.advance c key = (c, .noting) := by
    rw [Reading.advance, if_pos hfull]
  have hnoting : Reading.noting.advance c key = (c, .routing c.epoch) := rfl
  have hrouting : (Reading.routing c.epoch).advance c key =
      (c, .asking c.epoch (c.cohort key)) := rfl
  exact (advances_of_reading rfl (advance_miss hcheck hmiss)).trans <|
    (advances_of_reading rfl hadmission).trans <|
    (advances_of_reading rfl hnoting).trans (advances_of_reading rfl hrouting)

end Coordinator

end RingStore
