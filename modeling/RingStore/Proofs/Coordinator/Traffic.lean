import RingStore.Proofs.Coordinator.Turns
import RingStore.Proofs.Store.Contents

/-!
# Requests at the same time

A coordinator serves any number of requests at the same time, each by a task of its own, and the
steps of the tasks come in any order. Members answer reads with what they have committed, or not at
all, and carry an operation out when the decision to do so reaches them (`Meets`).

In every such run at most one write is past the gate, the epoch counts the writes that were carried
out, and a member that is no longer sent the decision to carry an operation out has done so
(`Orderly`).
-/

namespace RingStore

namespace Coordinator

variable {c c' : Coordinator} {key : String} {op : Operation} {m : Member} {q : Request}

/-- A coordinator with the tasks that serve its requests, in the order in which the requests came,
and what every member has committed. -/
structure Traffic where
  coordinator : Coordinator
  tasks : List Task
  held : Member → Store.Contents

namespace Traffic

/-- How a member that has committed `M` meets what a task asks, and what it has committed then. A
value is answered only if it is committed, and the decision to carry an operation out is
acknowledged only if the operation is carried out. -/
inductive Meets (M : Store.Contents) : Task → Contact → Store.Contents → Prop
  | read {key : String} {stage : Reading} {met : Contact}
    (h : ∀ k value, met = .answered (.value k value) → k = key ∧ M key = some value) :
    Meets M (.read key stage) met M
  | vote {op : Operation} {asked left : List Member} {unanimous : Bool} {met : Contact} :
    Meets M (.write op (.voting asked left unanimous)) met M
  | carriedOut {op : Operation} {left : List Member} {met : Contact} :
    Meets M (.write op (.deciding true left)) met (op.effect M)
  | missed {op : Operation} {left : List Member} {met : Contact} (h : met ≠ .answered .ack) :
    Meets M (.write op (.deciding true left)) met M
  | dropped {op : Operation} {left : List Member} {met : Contact} :
    Meets M (.write op (.deciding false left)) met M

/-- One step, with the task that takes it. -/
inductive Step (s : Traffic) : Option Task → Traffic → Prop
  /-- A request comes in. -/
  | request (now : String) (q : Request) :
    Step s none { s with tasks := s.tasks ++ [.ofRequest now q] }
  /-- A task takes a step on the coordinator's state. -/
  | advance {i : Nat} {t : Task} (ht : s.tasks[i]? = some t) (h : t.demand = .step) :
    Step s (some t)
      { s with
        coordinator := (t.advance s.coordinator).1
        tasks := s.tasks.set i (t.advance s.coordinator).2.1 }
  /-- A task tries to put a request to a member. -/
  | contact {i : Nat} {t : Task} {m : Member} {q : Request} {met : Contact} {M : Store.Contents}
    (ht : s.tasks[i]? = some t) (h : t.demand = .contact m q) (hmeets : Meets (s.held m) t met M) :
    Step s (some t)
      { s with tasks := s.tasks.set i (t.contacted met).1, held := Function.update s.held m M }
  /-- A task tries to connect to a member. -/
  | probe {i : Nat} {t : Task} {m : Member} (ht : s.tasks[i]? = some t) (h : t.demand = .probe m)
    (up : Bool) : Step s (some t) { s with tasks := s.tasks.set i (t.probed up) }

/-- What steps can come to. -/
def Run : Traffic → Traffic → Prop := Relation.ReflTransGen fun s s' => ∃ moved, Step s moved s'

/-- The number of writes that were carried out and noted. -/
def settled (s : Traffic) : Nat := s.tasks.countP Task.settled

/-- Only a write that is past the gate changes what a member has committed. -/
theorem Meets.update_eq_or_inside {held : Member → Store.Contents} {m : Member} {t : Task}
    {met : Contact} {M : Store.Contents} (h : Meets (held m) t met M) :
    Function.update held m M = held ∨ t.inside = true := by
  cases h with
  | read _ => exact .inl (Function.update_eq_self m held)
  | vote | carriedOut | missed | dropped => exact .inr rfl

variable {s s' : Traffic} {first : UInt64} {t t' : Task} {held' : Member → Store.Contents} {i : Nat}

/-! ## What is sure of each task -/

/-- The epoch was noted when at most `n` writes had been carried out. -/
def Noted (first : UInt64) (n : Nat) (epoch : UInt64) : Prop := ∃ j ≤ n, epoch = first + .ofNat j

/-- The operation is within the limits, and the ring is full. -/
structure Admitted (c : Coordinator) (op : Operation) : Prop where
  check : op.check = .ok ()
  full : c.ring.isFull = true

/-- Every member that holds the key has the operation carried out, but for those that are left. -/
def Delivered (c : Coordinator) (held : Member → Store.Contents) (op : Operation)
    (left : List Member) : Prop :=
  ∀ m ∈ c.cohort op.key, m ∉ left → held m op.key = op.value?

/-- What is sure of a reading task. -/
def ReadSound (first : UInt64) (n : Nat) (c : Coordinator) (key : String) : Reading → Prop
  | .lookup | .admission | .finished _ => True
  | .noting => c.ring.isFull = true
  | .routing epoch => c.ring.isFull = true ∧ Noted first n epoch
  | .asking epoch left => c.ring.isFull = true ∧ Noted first n epoch ∧ left ⊆ c.cohort key
  | .filling epoch k _ => c.ring.isFull = true ∧ Noted first n epoch ∧ k = key

/-- What is sure of a writing task. -/
def WriteSound (c : Coordinator) (held : Member → Store.Contents) (op : Operation) : Writing → Prop
  | .checking | .leaving _ | .finished _ => True
  | .admission => op.check = .ok ()
  | .entering | .routing => Admitted c op
  | .voting asked _ _ => Admitted c op ∧ asked = c.cohort op.key
  | .deciding commit left => Admitted c op ∧ (commit = true → Delivered c held op left)
  | .settling => Admitted c op ∧ Delivered c held op []

variable {n n' : Nat} {held : Member → Store.Contents} {stage : Reading} {wstage : Writing}
  {left : List Member} {met : Contact} {M : Store.Contents}

theorem Noted.mono {epoch : UInt64} (h : Noted first n epoch) (hn : n ≤ n') :
    Noted first n' epoch := by
  obtain ⟨j, hj, heq⟩ := h
  exact ⟨j, by omega, heq⟩

theorem Admitted.fixed (h : Admitted c op) (hc : Fixed c c') : Admitted c' op :=
  ⟨h.check, hc.isFull h.full⟩

/-- Who has the decision has it still when others have taken a step. -/
theorem Delivered.fixed (h : Delivered c held op left) (hc : Fixed c c')
    (hfull : c.ring.isFull = true) : Delivered c' held op left := by
  unfold Delivered
  rw [hc.cohort hfull]
  exact h

/-- A read stays sound when others have taken a step. -/
theorem ReadSound.fixed (h : ReadSound first n c key stage) (hc : Fixed c c') (hn : n ≤ n') :
    ReadSound first n' c' key stage := by
  cases stage with
  | lookup | admission | finished r => trivial
  | noting => exact hc.isFull h
  | routing epoch => exact ⟨hc.isFull h.1, h.2.mono hn⟩
  | asking epoch left =>
    obtain ⟨hfull, hnoted, hleft⟩ := h
    exact ⟨hc.isFull hfull, hnoted.mono hn, by rwa [hc.cohort hfull]⟩
  | filling epoch k value => exact ⟨hc.isFull h.1, h.2.1.mono hn, h.2.2⟩

/-- A read stays sound through its own steps. -/
theorem ReadSound.advance (h : ReadSound first n c key stage)
    (hepoch : c.epoch = first + .ofNat n) :
    ReadSound first n c key (stage.advance c key).2 := by
  cases stage with
  | lookup =>
    simp only [Reading.advance]
    split
    · trivial
    · split <;> trivial
  | admission =>
    simp only [Reading.advance]
    split
    · assumption
    · trivial
  | noting => exact ⟨h, n, Nat.le_refl n, hepoch⟩
  | routing epoch => exact ⟨h.1, h.2, List.Subset.refl _⟩
  | asking epoch left =>
    cases left with
    | nil => trivial
    | cons x left => exact h
  | filling epoch k value => trivial
  | finished r => trivial

/-- Asking goes on with the next member, unless the answer is a value. -/
theorem contacted_asking (epoch : UInt64) (x : Member) (left : List Member) (met : Contact) :
    (∃ k value, met = .answered (.value k value) ∧
      (Reading.asking epoch (x :: left)).contacted met = .filling epoch k value) ∨
    (Reading.asking epoch (x :: left)).contacted met = .asking epoch left := by
  cases met with
  | unreachable | lost => exact .inr rfl
  | answered r =>
    cases r with
    | value k value => exact .inl ⟨k, value, rfl, rfl⟩
    | report message | voteCommit | voteAbort message | ack => exact .inr rfl

/-- A reading that meets a member asks it. -/
theorem demand_eq_contact {x : Member} (h : stage.demand key = .contact x q) :
    ∃ epoch left, stage = .asking epoch (x :: left) := by
  cases stage with
  | asking epoch left =>
    cases left with
    | nil => exact absurd h (by simp [Reading.demand])
    | cons y left =>
      simp only [Reading.demand, Demand.contact.injEq] at h
      exact ⟨epoch, left, by rw [h.1]⟩
  | lookup | admission | noting | routing epoch | filling epoch k value | finished r =>
    exact absurd h (by simp [Reading.demand])

/-- A read stays sound when it has met a member. -/
theorem ReadSound.contacted (h : ReadSound first n c key stage) {x : Member} {M' : Store.Contents}
    (hdemand : stage.demand key = .contact x q) (hmeets : Meets M (.read key stage) met M') :
    ReadSound first n c key (stage.contacted met) := by
  obtain ⟨epoch, left, rfl⟩ := demand_eq_contact hdemand
  obtain ⟨hfull, hnoted, hleft⟩ := h
  rcases contacted_asking epoch x left met with ⟨k, value, hmet, heq⟩ | heq
  · rw [heq]
    cases hmeets with
    | read hvalue => exact ⟨hfull, hnoted, (hvalue k value hmet).1⟩
  · rw [heq]
    exact ⟨hfull, hnoted, (List.cons_subset.1 hleft).2⟩

/-- A write stays sound when others have taken a step. -/
theorem WriteSound.fixed (h : WriteSound c held op wstage) (hc : Fixed c c') :
    WriteSound c' held op wstage := by
  cases wstage with
  | checking | leaving r | finished r => trivial
  | admission => exact h
  | entering | routing => exact Admitted.fixed h hc
  | voting asked left unanimous =>
    obtain ⟨hadmitted, rfl⟩ := h
    exact ⟨hadmitted.fixed hc, (hc.cohort hadmitted.full op.key).symm⟩
  | deciding commit left => exact ⟨h.1.fixed hc, fun hcommit => (h.2 hcommit).fixed hc h.1.full⟩
  | settling => exact ⟨h.1.fixed hc, h.2.fixed hc h.1.full⟩

/-- What is sure of a write that is not inside does not depend on the members. -/
theorem WriteSound.of_not_inside (h : WriteSound c held op wstage) (hside : wstage.inside = false) :
    WriteSound c held' op wstage := by
  cases wstage with
  | checking | admission | entering | finished r => exact h
  | routing | voting asked left unanimous | deciding commit left | settling | leaving r =>
    exact absurd hside (by simp [Writing.inside])

/-- A write stays sound through its own steps. -/
theorem WriteSound.advance (h : WriteSound c held op wstage) :
    WriteSound c held op (wstage.advance c op).2.1 := by
  cases wstage with
  | checking =>
    simp only [Writing.advance]
    split
    · trivial
    · assumption
  | admission =>
    simp only [Writing.advance]
    split
    · exact ⟨h, ‹_›⟩
    · trivial
  | entering =>
    simp only [Writing.advance]
    split
    · trivial
    · exact h
  | routing => exact ⟨h, rfl⟩
  | voting asked left unanimous =>
    cases left with
    | cons x left => exact h
    | nil =>
      -- nobody has been sent the decision yet
      obtain ⟨hadmitted, rfl⟩ := h
      exact ⟨hadmitted, fun _ m hm hleft => absurd hm hleft⟩
  | deciding commit left =>
    cases left with
    | cons x left => cases commit <;> exact h
    | nil =>
      cases commit with
      | true => exact ⟨h.1, h.2 rfl⟩
      | false => trivial
  | settling | leaving r | finished r => trivial

/-- A member that acknowledges the decision to carry the operation out has done so. -/
theorem Delivered.contacted {x : Member} (h : Delivered c held op (x :: left))
    (hM : M = op.effect (held x) ∨ met ≠ .answered .ack) :
    Delivered c (Function.update held x M) op
      (if met = .answered .ack then left else x :: left) := by
  intro m hm hleft
  by_cases hx : m = x
  · subst hx
    by_cases hack : met = .answered .ack
    · obtain rfl := hM.resolve_right fun hne => hne hack
      rw [Function.update_self]
      exact Function.update_self ..
    · rw [if_neg hack] at hleft
      exact absurd List.mem_cons_self hleft
  · rw [Function.update_of_ne hx]
    apply h m hm
    rw [List.mem_cons, not_or]
    refine ⟨hx, ?_⟩
    split at hleft
    · exact hleft
    · exact fun hmem => hleft (List.mem_cons_of_mem x hmem)

/-- A write stays sound when it has met a member. -/
theorem WriteSound.contacted {x : Member} (h : WriteSound c held op wstage)
    (hdemand : wstage.demand op = .contact x q) (hmeets : Meets (held x) (.write op wstage) met M) :
    WriteSound c (Function.update held x M) op (wstage.contacted met).1 := by
  rcases Writing.demand_eq_contact hdemand with
    ⟨asked, left, unanimous, rfl, -⟩ | ⟨commit, left, rfl, -⟩
  · exact h
  · refine ⟨h.1, fun hcommit => ?_⟩
    subst hcommit
    cases hmeets with
    | carriedOut => exact (h.2 rfl).contacted (.inl rfl)
    | missed hmet => exact (h.2 rfl).contacted (.inr hmet)

/-! ## What is sure in every run -/

/-- The shared state and the members are as the tasks have left them. -/
structure Orderly (first : UInt64) (s : Traffic) : Prop where
  distinct : s.coordinator.cache.Distinct
  /-- The epoch counts the writes that were carried out, modulo 2^64. -/
  epoch : s.coordinator.epoch = first + .ofNat s.settled
  busy : ∀ (i : Nat) (t : Task), s.tasks[i]? = some t → t.inside = true → s.coordinator.busy = true
  /-- At most one task is past the gate. -/
  alone : ∀ (i j : Nat) (t t' : Task), s.tasks[i]? = some t → s.tasks[j]? = some t' →
    t.inside = true → t'.inside = true → i = j
  reads : ∀ (i : Nat) (key : String) (stage : Reading), s.tasks[i]? = some (.read key stage) →
    ReadSound first s.settled s.coordinator key stage
  writes : ∀ (i : Nat) (op : Operation) (stage : Writing), s.tasks[i]? = some (.write op stage) →
    WriteSound s.coordinator s.held op stage

theorem getElem?_set_cases {l : List Task} {j : Nat} {u : Task}
    (h : (l.set i t')[j]? = some u) : (j = i ∧ u = t') ∨ (j ≠ i ∧ l[j]? = some u) := by
  rw [List.getElem?_set] at h
  split at h
  · rename_i hij
    split at h
    · exact .inl ⟨hij.symm, (Option.some.inj h).symm⟩
    · exact absurd h (by simp)
  · rename_i hij
    exact .inr ⟨Ne.symm hij, h⟩

theorem settled_set (ht : s.tasks[i]? = some t) (hsame : t'.settled = t.settled) :
    (s.tasks.set i t').countP Task.settled = s.settled := by
  obtain ⟨hlt, rfl⟩ := List.getElem?_eq_some_iff.1 ht
  have hle := List.countP_set (p := Task.settled) (a := t') hlt
  rw [hle, hsame]
  have hpos : s.tasks[i].settled = true → 0 < s.tasks.countP Task.settled := fun hset =>
    List.countP_pos_iff.2 ⟨_, List.getElem_mem hlt, hset⟩
  unfold settled
  split
  · have hpos := hpos ‹_›
    omega
  · omega

/-- A write that comes to be settled is one more. -/
theorem settled_set_succ (ht : s.tasks[i]? = some t) (hbefore : t.settled = false)
    (hafter : t'.settled = true) : (s.tasks.set i t').countP Task.settled = s.settled + 1 := by
  obtain ⟨hlt, rfl⟩ := List.getElem?_eq_some_iff.1 ht
  rw [List.countP_set hlt, hbefore, hafter]
  rfl

/-- A task that has moved is not inside if another one is. -/
theorem Orderly.outside (h : Orderly first s) (ht : s.tasks[i]? = some t) {busy' : Bool}
    (hpassage : Task.Passage s.coordinator.busy t busy' t') {j : Nat} {u : Task} (hj : j ≠ i)
    (hu : s.tasks[j]? = some u) (hside : u.inside = true) : t'.inside = false := by
  cases hpassage with
  | stays _ hsame =>
    rw [hsame, Bool.eq_false_iff]
    exact fun hin => hj (h.alone j i u t hu ht hside hin)
  | comes hfree _ _ => exact absurd (h.busy j u hu hside) (by simp [hfree])
  | leaves _ hout => exact hout

/-- The gate is shut as long as a write is inside. -/
theorem Orderly.busy_moved (h : Orderly first s) (ht : s.tasks[i]? = some t) {busy' : Bool}
    (hpassage : Task.Passage s.coordinator.busy t busy' t') {j : Nat} {u : Task}
    (hu : (s.tasks.set i t')[j]? = some u) (hside : u.inside = true) : busy' = true := by
  rcases getElem?_set_cases hu with ⟨rfl, rfl⟩ | ⟨hj, hold⟩
  · cases hpassage with
    | stays hbusy hsame => exact hbusy.trans (h.busy j t ht (hsame ▸ hside))
    | comes _ hbusy _ => exact hbusy
    | leaves _ hout => exact absurd hside (by simp [hout])
  · have hbusy := h.busy j u hold hside
    cases hpassage with
    | stays hbusy' _ => exact hbusy'.trans hbusy
    | comes hfree _ _ => exact absurd hbusy (by simp [hfree])
    | leaves hfrom _ => exact absurd (h.alone j i u t hold ht hside hfrom) hj

/-- A step does not bring a second write inside. -/
theorem Orderly.alone_moved (h : Orderly first s) (ht : s.tasks[i]? = some t) {busy' : Bool}
    (hpassage : Task.Passage s.coordinator.busy t busy' t') {j k : Nat} {u v : Task}
    (hu : (s.tasks.set i t')[j]? = some u) (hv : (s.tasks.set i t')[k]? = some v)
    (hside : u.inside = true) (hside' : v.inside = true) : j = k := by
  rcases getElem?_set_cases hu with ⟨rfl, rfl⟩ | ⟨hj, hu'⟩
  · rcases getElem?_set_cases hv with ⟨rfl, -⟩ | ⟨hk, hv'⟩
    · rfl
    · exact absurd hside (by simp [h.outside ht hpassage hk hv' hside'])
  · rcases getElem?_set_cases hv with ⟨rfl, rfl⟩ | ⟨-, hv'⟩
    · exact absurd hside' (by simp [h.outside ht hpassage hj hu' hside])
    · exact h.alone j k u v hu' hv' hside hside'

/-- A task moves, and the others stay where they are. -/
theorem Orderly.moved (h : Orderly first s) (ht : s.tasks[i]? = some t)
    (hfixed : Fixed s.coordinator c') (hpassage : Task.Passage s.coordinator.busy t c'.busy t')
    (hepoch : (c'.epoch = s.coordinator.epoch ∧ t'.settled = t.settled) ∨
      (c'.epoch = s.coordinator.epoch + 1 ∧ t.settled = false ∧ t'.settled = true))
    (hdistinct : c'.cache.Distinct) (hheld : held' = s.held ∨ t.inside = true)
    (hread : ∀ key stage, t' = .read key stage →
      ReadSound first s.settled s.coordinator key stage)
    (hwrite : ∀ op stage, t' = .write op stage → WriteSound s.coordinator held' op stage) :
    Orderly first ⟨c', s.tasks.set i t', held'⟩ := by
  have hcount : (s.tasks.set i t').countP Task.settled = s.settled ∧
      c'.epoch = s.coordinator.epoch ∨
      (s.tasks.set i t').countP Task.settled = s.settled + 1 ∧
        c'.epoch = s.coordinator.epoch + 1 := by
    rcases hepoch with ⟨heq, hsame⟩ | ⟨heq, hbefore, hafter⟩
    · exact .inl ⟨settled_set ht hsame, heq⟩
    · exact .inr ⟨settled_set_succ ht hbefore hafter, heq⟩
  have hle : s.settled ≤ (s.tasks.set i t').countP Task.settled := by omega
  refine ⟨hdistinct, ?_, fun j u => h.busy_moved ht hpassage,
    fun j k u v => h.alone_moved ht hpassage, ?_, ?_⟩
  · show c'.epoch = first + .ofNat ((s.tasks.set i t').countP Task.settled)
    rcases hcount with ⟨hn, heq⟩ | ⟨hn, heq⟩
    · rw [hn, heq, h.epoch]
    · rw [hn, heq, h.epoch, UInt64.ofNat_add, UInt64.add_assoc]
      rfl
  · intro j key stage hu
    rcases getElem?_set_cases hu with ⟨-, heq⟩ | ⟨-, hold⟩
    · exact (hread key stage heq.symm).fixed hfixed hle
    · exact (h.reads j key stage hold).fixed hfixed hle
  · intro j op stage hu
    rcases getElem?_set_cases hu with ⟨-, heq⟩ | ⟨hj, hold⟩
    · exact (hwrite op stage heq.symm).fixed hfixed
    · have hsound := h.writes j op stage hold
      refine WriteSound.fixed ?_ hfixed
      rcases hheld with rfl | hside
      · exact hsound
      · -- what changed at a member is not what this task delivers
        apply hsound.of_not_inside
        rw [Bool.eq_false_iff]
        exact fun hin => hj (h.alone j i _ t hold ht hin hside)

theorem getElem?_concat_cases {l : List Task} {j : Nat} {u : Task} (h : (l ++ [t])[j]? = some u) :
    (j = l.length ∧ u = t) ∨ l[j]? = some u := by
  rw [List.getElem?_append] at h
  split at h
  · exact .inr h
  · rename_i hj
    obtain ⟨hlt, heq⟩ := List.getElem?_eq_some_iff.1 h
    rw [List.length_singleton] at hlt
    exact .inl ⟨by omega, by simpa using heq.symm⟩

/-- A task that serves a new request has not begun. -/
theorem ofRequest_cases (now : String) (q : Request) :
    (∃ key, Task.ofRequest now q = .read key .lookup) ∨
      (∃ op, Task.ofRequest now q = .write op .checking) ∨
      (∀ key stage, Task.ofRequest now q ≠ .read key stage) ∧
        ∀ op stage, Task.ofRequest now q ≠ .write op stage := by
  cases q with
  | get key => exact .inl ⟨key, rfl⟩
  | put key value => exact .inr (.inl ⟨_, rfl⟩)
  | del key => exact .inr (.inl ⟨_, rfl⟩)
  | register host port | info | commit | abort => exact .inr (.inr (by simp [Task.ofRequest]))

theorem inside_ofRequest (now : String) (q : Request) : (Task.ofRequest now q).inside = false := by
  cases q <;> rfl

theorem settled_ofRequest (now : String) (q : Request) :
    (Task.ofRequest now q).settled = false := by
  cases q <;> rfl

theorem settled_request (s : Traffic) (now : String) (q : Request) :
    settled { s with tasks := s.tasks ++ [.ofRequest now q] } = s.settled := by
  show (s.tasks ++ [Task.ofRequest now q]).countP Task.settled = s.tasks.countP Task.settled
  rw [List.countP_append, List.countP_singleton, settled_ofRequest]
  rfl

/-- A new request disturbs nobody. -/
theorem Orderly.request (h : Orderly first s) (now : String) (q : Request) :
    Orderly first { s with tasks := s.tasks ++ [.ofRequest now q] } := by
  have hout := inside_ofRequest now q
  refine ⟨h.distinct, ?_, ?_, ?_, ?_, ?_⟩
  · rw [settled_request]
    exact h.epoch
  · intro j u hu hside
    rcases getElem?_concat_cases hu with ⟨-, rfl⟩ | hold
    · exact absurd hside (by simp [hout])
    · exact h.busy j u hold hside
  · intro j k u v hu hv hside hside'
    rcases getElem?_concat_cases hu with ⟨-, rfl⟩ | hu'
    · exact absurd hside (by simp [hout])
    · rcases getElem?_concat_cases hv with ⟨-, rfl⟩ | hv'
      · exact absurd hside' (by simp [hout])
      · exact h.alone j k u v hu' hv' hside hside'
  · intro j key stage hu
    rw [settled_request]
    rcases getElem?_concat_cases hu with ⟨-, heq⟩ | hold
    · rcases ofRequest_cases now q with ⟨key', hkey⟩ | ⟨op, hop⟩ | ⟨hread, -⟩
      · rw [hkey, Task.read.injEq] at heq
        rw [heq.2]
        trivial
      · exact absurd (heq.trans hop) (by simp)
      · exact absurd heq.symm (hread key stage)
    · exact h.reads j key stage hold
  · intro j op stage hu
    rcases getElem?_concat_cases hu with ⟨-, heq⟩ | hold
    · rcases ofRequest_cases now q with ⟨key', hkey⟩ | ⟨op', hop⟩ | ⟨-, hwrite⟩
      · exact absurd (heq.trans hkey) (by simp)
      · rw [hop, Task.write.injEq] at heq
        rw [heq.2]
        trivial
      · exact absurd heq.symm (hwrite op stage)
    · exact h.writes j op stage hold

/-- Every step leaves the traffic in order. -/
theorem Orderly.step (h : Orderly first s) {moved : Option Task} (hstep : Step s moved s') :
    Orderly first s' := by
  cases hstep with
  | request now q => exact h.request now q
  | @advance i t ht hdemand =>
    refine h.moved ht (Task.advance_fixed _ t) (Task.advance_passage _ t) (Task.advance_epoch _ t)
      (Task.distinct_advance h.distinct t) (.inl rfl) ?_ ?_
    · intro key stage heq
      obtain ⟨stage, rfl, rfl⟩ := Task.eq_read_of_advance heq
      exact (h.reads i key stage ht).advance h.epoch
    · intro op stage heq
      obtain ⟨stage, rfl, rfl⟩ := Task.eq_write_of_advance heq
      exact (h.writes i op stage ht).advance
  | @contact i t m q met M ht hdemand hmeets =>
    have hpassage : Task.Passage s.coordinator.busy t s.coordinator.busy (t.contacted met).1 :=
      .stays rfl (Task.inside_contacted t met)
    refine h.moved ht (.refl _) hpassage (.inl ⟨rfl, Task.settled_contacted t met⟩) h.distinct
      hmeets.update_eq_or_inside ?_ ?_
    · intro key stage heq
      obtain ⟨stage, rfl, rfl⟩ := Task.eq_read_of_contacted heq
      exact (h.reads i key stage ht).contacted hdemand hmeets
    · intro op stage heq
      obtain ⟨stage, rfl, rfl⟩ := Task.eq_write_of_contacted heq
      exact (h.writes i op stage ht).contacted hdemand hmeets
  | @probe i t m ht hdemand up =>
    obtain ⟨left, report, rfl⟩ := Task.eq_trying_of_demand hdemand
    refine h.moved ht (.refl _) (.stays rfl rfl) (.inl ⟨rfl, rfl⟩) h.distinct (.inl rfl) ?_ ?_
    · simp [Task.probed]
    · simp [Task.probed]

/-- However the traffic goes on, it stays in order. -/
theorem Orderly.run (h : Orderly first s) (hrun : Run s s') : Orderly first s' := by
  induction hrun with
  | refl => exact h
  | tail _ hstep ih =>
    obtain ⟨moved, hstep⟩ := hstep
    exact ih.step hstep

/-- Before the first request. -/
theorem orderly_of_nil (htasks : s.tasks = []) (hcache : s.coordinator.cache.Distinct) :
    Orderly s.coordinator.epoch s := by
  have hnone : ∀ (i : Nat) (t : Task), s.tasks[i]? ≠ some t := by simp [htasks]
  refine ⟨hcache, ?_, fun i t ht => absurd ht (hnone i t),
    fun i _ t _ ht => absurd ht (hnone i t), fun i _ _ ht => absurd ht (hnone i _),
    fun i _ _ ht => absurd ht (hnone i _)⟩
  rw [settled, htasks]
  simp

end Traffic

end Coordinator

end RingStore
