import RingStore.Proofs.Cache.Pairs
import RingStore.Proofs.Coordinator.Stages
import RingStore.Proofs.Ring.Membership

/-!
# Turns of a task

A request is served by a task, and the steps of other tasks may come between its own. What one step
makes of the coordinator's state: a full ring and the settings stay, the gate is passed and left by
writes only (`Task.Passage`), the epoch counts the writes that were carried out, and the cache
changes for values that were read and for writes that were carried out (`Task.advance_cache`). From
the task that a step leaves, the step can be told.
-/

namespace RingStore

namespace Coordinator

variable {c c' : Coordinator} {key : String} {op : Operation} {m : Member} {q : Request}

/-! ## Full rings -/

/-- The settings stay, and so does a ring that is full. -/
structure Fixed (c c' : Coordinator) : Prop where
  settings : c'.settings = c.settings
  ring : c.ring.isFull = true → c'.ring = c.ring

theorem Fixed.of_eq (hring : c'.ring = c.ring) (hsettings : c'.settings = c.settings) :
    Fixed c c' :=
  ⟨hsettings, fun _ => hring⟩

theorem Fixed.refl (c : Coordinator) : Fixed c c := .of_eq rfl rfl

/-- A ring that is full stays so. -/
theorem Fixed.isFull (h : Fixed c c') (hfull : c.ring.isFull = true) : c'.ring.isFull = true := by
  rw [h.ring hfull, hfull]

/-- On a full ring the members that hold a key stay the same. -/
theorem Fixed.cohort (h : Fixed c c') (hfull : c.ring.isFull = true) (key : String) :
    c'.cohort key = c.cohort key :=
  cohort_eq (h.ring hfull) h.settings key

/-- To register a replica changes nothing but the ring, and a full ring not at all. -/
theorem register_eq (c : Coordinator) (host : String) (port : UInt16) :
    ∃ ring, (c.register host port).2 = { c with ring } ∧
      (c.ring.isFull = true → ring = c.ring) := by
  unfold register
  cases h : c.ring.register host port with
  | ok ring => exact ⟨ring, rfl, fun hfull => Ring.insert_of_isFull hfull h⟩
  | error f => exact ⟨c.ring, rfl, fun _ => rfl⟩

/-! ## The gate -/

/-- The write has passed the gate, and has not left. -/
def Writing.inside : Writing → Bool
  | routing | voting _ _ _ | deciding _ _ | settling | leaving _ => true
  | checking | admission | entering | finished _ => false

namespace Task

variable {t : Task}

def inside : Task → Bool
  | write _ stage => stage.inside
  | _ => false

/-- The write was carried out and noted. -/
def settled : Task → Bool
  | write _ (.leaving r) | write _ (.finished r) => r == .success
  | _ => false

/-- No fault is answered as a success. -/
theorem ofFault_ne_success (f : Fault) : (Response.ofFault f == .success) = false := by
  rw [beq_eq_false_iff_ne]
  intro h
  have hfault := Response.isSuccess_ofFault f
  rw [h] at hfault
  exact absurd hfault (by decide)

theorem settled_finished (op : Operation) (f : Fault) :
    settled (.write op (.finished (.ofFault f))) = false := ofFault_ne_success f

theorem settled_leaving (op : Operation) (f : Fault) :
    settled (.write op (.leaving (.ofFault f))) = false := ofFault_ne_success f

/-- Other tasks than writes change neither the settings nor the gate nor the epoch, and the ring
only while it is not full. -/
theorem advance_of_not_write (c : Coordinator) (ht : ∀ op stage, t ≠ .write op stage) :
    ∃ ring cache, (t.advance c).1 = { c with ring, cache } ∧
      (c.ring.isFull = true → ring = c.ring) ∧
      ∀ op stage, (t.advance c).2.1 ≠ .write op stage := by
  cases t with
  | write op stage => exact absurd rfl (ht op stage)
  | register host port =>
    obtain ⟨ring, heq, hring⟩ := register_eq c host port
    exact ⟨ring, c.cache, heq, hring, by simp [advance]⟩
  | read key stage =>
    refine ⟨c.ring, (stage.advance c key).1.cache, ?_, fun _ => rfl, by simp [advance]⟩
    cases stage with
    | lookup =>
      simp only [advance, Reading.advance]
      split
      · rfl
      · split <;> rfl
    | filling epoch k value =>
      simp only [advance, Reading.advance]
      split <;> rfl
    | asking epoch left => cases left <;> rfl
    | admission | noting | routing epoch | finished r => rfl
  | trying left report =>
    cases left <;> exact ⟨c.ring, c.cache, rfl, fun _ => rfl, by simp [advance]⟩
  | survey now | finished r => exact ⟨c.ring, c.cache, rfl, fun _ => rfl, by simp [advance]⟩

/-- Nobody but a write is inside the gate. -/
theorem inside_of_not_write (ht : ∀ op stage, t ≠ .write op stage) : t.inside = false := by
  cases t with
  | write op stage => exact absurd rfl (ht op stage)
  | read key stage | register host port | survey now | trying left report | finished r => rfl

/-- Nothing but a write is ever settled. -/
theorem settled_of_not_write (ht : ∀ op stage, t ≠ .write op stage) : t.settled = false := by
  cases t with
  | write op stage => exact absurd rfl (ht op stage)
  | read key stage | register host port | survey now | trying left report | finished r => rfl

/-- No step changes the settings or a ring that is full. -/
theorem advance_fixed (c : Coordinator) (t : Task) : Fixed c (t.advance c).1 := by
  by_cases ht : ∃ op stage, t = .write op stage
  · obtain ⟨op, stage, rfl⟩ := ht
    obtain ⟨hring, hsettings⟩ := Writing.advance_fixed c op stage
    exact .of_eq hring hsettings
  · obtain ⟨ring, cache, heq, hring, -⟩ :=
      advance_of_not_write c fun op stage heq => ht ⟨op, stage, heq⟩
    rw [heq]
    exact ⟨rfl, hring⟩

/-- How a step of a task relates to the gate: it keeps its side of it, or it comes in when nobody is
inside, or it leaves. -/
inductive Passage (busy : Bool) (t : Task) (busy' : Bool) (t' : Task) : Prop
  | stays (hbusy : busy' = busy) (hside : t'.inside = t.inside)
  | comes (hfree : busy = false) (hbusy : busy' = true) (hside : t.inside = false)
  | leaves (hfrom : t.inside = true) (hside : t'.inside = false)

/-- A step keeps its side of the gate, comes in when nobody is inside, or leaves. -/
theorem advance_passage (c : Coordinator) (t : Task) :
    Passage c.busy t (t.advance c).1.busy (t.advance c).2.1 := by
  by_cases ht : ∃ op stage, t = .write op stage
  · obtain ⟨op, stage, rfl⟩ := ht
    cases stage with
    | checking =>
      simp only [advance, Writing.advance]
      split <;> exact .stays rfl rfl
    | admission =>
      simp only [advance, Writing.advance]
      split <;> exact .stays rfl rfl
    | entering =>
      simp only [advance, Writing.advance]
      split
      · exact .stays rfl rfl
      · exact .comes (by simpa using ‹¬c.busy = true›) rfl rfl
    | voting asked left unanimous => cases left <;> exact .stays rfl rfl
    | deciding commit left => cases left <;> cases commit <;> exact .stays rfl rfl
    | leaving r => exact .leaves rfl rfl
    | routing | settling | finished r => exact .stays rfl rfl
  · have ht' : ∀ op stage, t ≠ .write op stage := fun op stage heq => ht ⟨op, stage, heq⟩
    obtain ⟨ring, cache, heq, -, hside⟩ := advance_of_not_write c ht'
    rw [heq]
    exact .stays rfl (by rw [inside_of_not_write hside, inside_of_not_write ht'])

/-- The epoch goes up when a write comes to be settled. -/
theorem advance_epoch (c : Coordinator) (t : Task) :
    ((t.advance c).1.epoch = c.epoch ∧ (t.advance c).2.1.settled = t.settled) ∨
      ((t.advance c).1.epoch = c.epoch + 1 ∧ t.settled = false ∧
        (t.advance c).2.1.settled = true) := by
  by_cases ht : ∃ op stage, t = .write op stage
  · obtain ⟨op, stage, rfl⟩ := ht
    cases stage with
    | checking =>
      simp only [advance, Writing.advance]
      split
      · exact .inl ⟨rfl, settled_finished op _⟩
      · exact .inl ⟨rfl, rfl⟩
    | admission =>
      simp only [advance, Writing.advance]
      split
      · exact .inl ⟨trivial, rfl⟩
      · exact .inl ⟨trivial, settled_finished op _⟩
    | entering =>
      simp only [advance, Writing.advance]
      split
      · exact .inl ⟨rfl, settled_finished op _⟩
      · exact .inl ⟨rfl, rfl⟩
    | voting asked left unanimous => cases left <;> exact .inl ⟨rfl, rfl⟩
    | deciding commit left =>
      cases commit with
      | true => cases left <;> exact .inl ⟨rfl, rfl⟩
      | false =>
        cases left with
        | nil => exact .inl ⟨rfl, settled_leaving op _⟩
        | cons x left => exact .inl ⟨rfl, rfl⟩
    | settling => exact .inr ⟨rfl, by simp [settled], by simp [advance, Writing.advance, settled]⟩
    | routing | leaving r | finished r => exact .inl ⟨rfl, rfl⟩
  · have ht' : ∀ op stage, t ≠ .write op stage := fun op stage heq => ht ⟨op, stage, heq⟩
    obtain ⟨ring, cache, heq, -, hside⟩ := advance_of_not_write c ht'
    rw [heq]
    exact .inl ⟨rfl, by rw [settled_of_not_write hside, settled_of_not_write ht']⟩

/-- To meet a member takes nobody through the gate. -/
theorem inside_contacted (t : Task) (met : Contact) : (t.contacted met).1.inside = t.inside := by
  cases t with
  | write op stage =>
    cases stage with
    | voting asked left unanimous => cases left <;> rfl
    | deciding commit left => cases left <;> rfl
    | checking | admission | entering | routing | settling | leaving r | finished r => rfl
  | read key stage | register host port | survey now | trying left report | finished r => rfl

/-- To meet a member settles nothing. -/
theorem settled_contacted (t : Task) (met : Contact) :
    (t.contacted met).1.settled = t.settled := by
  cases t with
  | write op stage =>
    cases stage with
    | voting asked left unanimous => cases left <;> rfl
    | deciding commit left => cases left <;> rfl
    | checking | admission | entering | routing | settling | leaving r | finished r => rfl
  | read key stage | register host port | survey now | trying left report | finished r => rfl

/-! ## What a step makes of the cache -/

/-- A step of a task leaves the pairs of the cache as they are, but for a value that was read and
for the key of a write that was carried out. -/
theorem advance_cache (c : Coordinator) (t : Task) :
    (t.advance c).1.cache = c.cache ∨ (∃ key, (t.advance c).1.cache = (c.cache.get key).2) ∨
      (∃ key k value, t = .read key (.filling c.epoch k value) ∧
        (t.advance c).1.cache = c.cache.put k value) ∨
      ∃ op, t = .write op .settling ∧ (t.advance c).1.cache = (c.settle op).cache := by
  cases t with
  | read key stage =>
    cases stage with
    | lookup =>
      simp only [advance, Reading.advance]
      split
      · exact .inl rfl
      · split
        · rename_i heq
          exact .inr (.inl ⟨key, by rw [heq]⟩)
        · exact .inl rfl
    | filling epoch k value =>
      simp only [advance, Reading.advance]
      split
      · rename_i hepoch
        subst hepoch
        exact .inr (.inr (.inl ⟨key, k, value, rfl, rfl⟩))
      · exact .inl rfl
    | asking epoch left => cases left <;> exact .inl rfl
    | admission | noting | routing epoch | finished r => exact .inl rfl
  | write op stage =>
    cases stage with
    | checking | entering =>
      simp only [advance, Writing.advance]
      split <;> exact .inl rfl
    | voting asked left unanimous => cases left <;> exact .inl rfl
    | deciding commit left => cases left <;> cases commit <;> exact .inl rfl
    | settling => exact .inr (.inr (.inr ⟨op, rfl, rfl⟩))
    | admission | routing | leaving r | finished r => exact .inl rfl
  | register host port =>
    obtain ⟨ring, heq, -⟩ := register_eq c host port
    refine .inl ?_
    show (c.register host port).2.cache = c.cache
    rw [heq]
  | trying left report => cases left <;> exact .inl rfl
  | survey now | finished r => exact .inl rfl

/-- A write that was carried out leaves no key twice in the cache. -/
theorem distinct_settle (hc : c.cache.Distinct) (op : Operation) :
    (c.settle op).cache.Distinct := by
  cases op with
  | put key value => exact hc.put key value
  | del key => exact hc.erase key

/-- No step leaves a key twice in the cache. -/
theorem distinct_advance (hc : c.cache.Distinct) (t : Task) : (t.advance c).1.cache.Distinct := by
  rcases advance_cache c t with heq | ⟨key, heq⟩ | ⟨key, k, value, -, heq⟩ | ⟨op, -, heq⟩
  · rwa [heq]
  · rw [heq]
    exact hc.get key
  · rw [heq]
    exact hc.put k value
  · rw [heq]
    exact distinct_settle hc op

/-! ## The task that a step leaves -/

/-- A step that leaves a read was one of that read. -/
theorem eq_read_of_advance {stage : Reading} (h : (t.advance c).2.1 = .read key stage) :
    ∃ stage', t = .read key stage' ∧ stage = (stage'.advance c key).2 := by
  cases t with
  | read key' stage' =>
    obtain ⟨rfl, rfl⟩ := Task.read.inj h
    exact ⟨stage', rfl, rfl⟩
  | trying left report => cases left <;> exact absurd h (by simp [advance])
  | write op stage | register host port | survey now | finished r =>
    exact absurd h (by simp [advance])

/-- A step that leaves a write was one of that write. -/
theorem eq_write_of_advance {stage : Writing} (h : (t.advance c).2.1 = .write op stage) :
    ∃ stage', t = .write op stage' ∧ stage = (stage'.advance c op).2.1 := by
  cases t with
  | write op' stage' =>
    obtain ⟨rfl, rfl⟩ := Task.write.inj h
    exact ⟨stage', rfl, rfl⟩
  | trying left report => cases left <;> exact absurd h (by simp [advance])
  | read key stage | register host port | survey now | finished r =>
    exact absurd h (by simp [advance])

/-- A read that has met a member was a read of the same key. -/
theorem eq_read_of_contacted {stage : Reading} {met : Contact}
    (h : (t.contacted met).1 = .read key stage) :
    ∃ stage', t = .read key stage' ∧ stage = stage'.contacted met := by
  cases t with
  | read key' stage' =>
    obtain ⟨rfl, rfl⟩ := Task.read.inj h
    exact ⟨stage', rfl, rfl⟩
  | write op stage | register host port | survey now | trying left report | finished r =>
    exact absurd h (by simp [contacted])

/-- A write that has met a member was a write of the same operation. -/
theorem eq_write_of_contacted {stage : Writing} {met : Contact}
    (h : (t.contacted met).1 = .write op stage) :
    ∃ stage', t = .write op stage' ∧ stage = (stage'.contacted met).1 := by
  cases t with
  | write op' stage' =>
    obtain ⟨rfl, rfl⟩ := Task.write.inj h
    exact ⟨stage', rfl, rfl⟩
  | read key stage | register host port | survey now | trying left report | finished r =>
    exact absurd h (by simp [contacted])

/-- Who wants to know whether a member can be reached is looking for those that can. -/
theorem eq_trying_of_demand (h : t.demand = .probe m) :
    ∃ left report, t = .trying (m :: left) report := by
  cases t with
  | trying left report =>
    cases left with
    | nil => exact absurd h (by simp [demand])
    | cons x left =>
      obtain rfl := Demand.probe.inj h
      exact ⟨left, report, rfl⟩
  | read key stage =>
    cases stage with
    | asking epoch left => cases left <;> exact absurd h (by simp [demand, Reading.demand])
    | lookup | admission | noting | routing epoch | filling epoch k value | finished r =>
      exact absurd h (by simp [demand, Reading.demand])
  | write op stage =>
    cases stage with
    | voting asked left unanimous =>
      cases left <;> exact absurd h (by simp [demand, Writing.demand])
    | deciding commit left => cases left <;> exact absurd h (by simp [demand, Writing.demand])
    | checking | admission | entering | routing | settling | leaving r | finished r =>
      exact absurd h (by simp [demand, Writing.demand])
  | register host port | survey now | finished r => exact absurd h (by simp [demand])

end Task

end Coordinator

end RingStore
