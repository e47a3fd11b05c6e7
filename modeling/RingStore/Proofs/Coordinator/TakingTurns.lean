import RingStore.Proofs.Coordinator.Freshness
import RingStore.Proofs.Coordinator.Transactions

/-!
# Writes take turns

Any number of writes may be called for at the same time, and their steps come in any order among
those of reads and registrations. What the members see is one whole transaction after the other
(`Crowd.TakesTurns`): the gate is taken exactly while a write is past it, and a write that comes to
it meanwhile is turned away without a trace (`Crowd.TurnedAway`).
-/

namespace RingStore

namespace Coordinator

open Traffic (Admitted getElem?_set_cases getElem?_concat_cases)

/-- A coordinator with the tasks that serve its requests, in the order in which the requests came,
and what has been seen of its writes. -/
structure Crowd where
  coordinator : Coordinator
  tasks : List Task
  history : List Sight

namespace Crowd

/-- What is seen at the gate when a task takes a step. -/
def atGate (i : Nat) (t t' : Task) : List Sight :=
  match t.inside, t'.inside with
  | false, true => [.passed i]
  | true, false => [.left i]
  | _, _ => []

/-- What is seen when a task puts a request to a member. Reads are not watched. -/
def atMember (i : Nat) (m : Member) (q : Request) (met : Contact) : Task → List Sight
  | .write _ _ => [.attempt i m q met]
  | _ => []

/-- What a task's step on the coordinator's state leads to. -/
def advanced (s : Crowd) (i : Nat) (t : Task) : Crowd where
  coordinator := (t.advance s.coordinator).1
  tasks := s.tasks.set i (t.advance s.coordinator).2.1
  history := s.history ++ atGate i t (t.advance s.coordinator).2.1

/-- One step. Members may be met in any way. -/
inductive Step (s : Crowd) : Crowd → Prop
  /-- A write is called for; a call for anything else is refused. -/
  | call (q : Request) : Step s { s with tasks := s.tasks ++ [.ofWrite q] }
  /-- A request comes in. -/
  | request (now : String) (q : Request) :
    Step s { s with tasks := s.tasks ++ [.ofRequest now q] }
  /-- A task takes a step on the coordinator's state. -/
  | advance {i : Nat} {t : Task} (ht : s.tasks[i]? = some t) (h : t.demand = .step) :
    Step s (s.advanced i t)
  /-- A task tries to put a request to a member. -/
  | contact {i : Nat} {t : Task} {m : Member} {q : Request} (ht : s.tasks[i]? = some t)
    (h : t.demand = .contact m q) (met : Contact) :
    Step s
      { s with
        tasks := s.tasks.set i (t.contacted met).1
        history := s.history ++ atMember i m q met t }
  /-- A task tries to connect to a member. -/
  | probe {i : Nat} {t : Task} {m : Member} (ht : s.tasks[i]? = some t) (h : t.demand = .probe m)
    (up : Bool) : Step s { s with tasks := s.tasks.set i (t.probed up) }

/-- What steps can come to. -/
def Run : Crowd → Crowd → Prop := Relation.ReflTransGen Step

variable {s s' : Crowd} {past : List Transaction} {c c' : Coordinator} {t t' : Task} {i j : Nat}
  {op : Operation} {stage stage' : Writing} {seen more : List Sight}

/-! ## The invariant -/

/-- A write that has made its checks is within the limits, and has found the ring full. -/
def Ready (c : Coordinator) (op : Operation) : Writing → Prop
  | .admission => op.check = .ok ()
  | .entering => Admitted c op
  | _ => True

/-- Nobody is past the gate, and the gate is free. -/
structure Free (past : List Transaction) (s : Crowd) : Prop where
  idle : s.coordinator.busy = false
  outside : ∀ (i : Nat) (t : Task), s.tasks[i]? = some t → t.inside = false
  history_eq : s.history = past.flatMap Transaction.sights

/-- A write is past the gate, and nobody else is. -/
structure Held (past : List Transaction) (i : Nat) (op : Operation) (stage : Writing)
    (seen : List Sight) (s : Crowd) : Prop where
  busy : s.coordinator.busy = true
  task : s.tasks[i]? = some (.write op stage)
  alone : ∀ (j : Nat) (t : Task), s.tasks[j]? = some t → t.inside = true → j = i
  admitted : Admitted s.coordinator op
  soFar : stage.SoFar s.coordinator i op seen
  history_eq : s.history = past.flatMap Transaction.sights ++ seen

/-- The transactions of the past are whole and their calls have answered, and at most one more is
under way. -/
structure Serial (past : List Transaction) (s : Crowd) : Prop where
  nodup : (past.map Transaction.call).Nodup
  done : ∀ tx ∈ past, tx.Complete s.coordinator ∧
    s.tasks[tx.call]? = some (.write tx.op (.finished tx.response))
  ready : ∀ (i : Nat) (op : Operation) (stage : Writing), s.tasks[i]? = some (.write op stage) →
    Ready s.coordinator op stage
  turn : s.Free past ∨ ∃ i op stage seen, s.Held past i op stage seen

theorem Ready.fixed (h : Ready c op stage) (hc : Fixed c c') : Ready c' op stage := by
  cases stage with
  | entering => exact Admitted.fixed h hc
  | admission => exact h
  | checking | routing | voting _ _ _ | deciding _ _ | settling | leaving _ | finished _ => trivial

theorem Ready.advance (h : Ready c op stage) : Ready c op (stage.advance c op).2.1 := by
  cases stage with
  | checking =>
    simp only [Writing.advance]
    split
    · trivial
    · assumption
  | admission =>
    simp only [Writing.advance]
    split
    · exact ⟨h, ‹_›⟩
    · trivial
  | entering =>
    simp only [Writing.advance]
    split <;> trivial
  | voting asked left unanimous => cases left <;> trivial
  | deciding commit left => cases left <;> cases commit <;> trivial
  | routing | settling | leaving _ | finished _ => trivial

theorem ready_of_inside (h : stage.inside = true) : Ready c op stage := by
  cases stage with
  | routing | voting _ _ _ | deciding _ _ | settling | leaving _ => trivial
  | checking | admission | entering | finished _ => cases h

theorem atGate_of_eq (h : t'.inside = t.inside) : atGate i t t' = [] := by
  unfold atGate
  rw [h]
  cases t.inside <;> rfl

/-- The calls of the past are not those of tasks that still wait for something. -/
theorem Serial.call_ne (h : Serial past s) (ht : s.tasks[i]? = some t)
    (hopen : ∀ r, t.demand ≠ .finished r) {tx : Transaction} (htx : tx ∈ past) : tx.call ≠ i := by
  rintro rfl
  obtain rfl := Option.some.inj (ht.symm.trans (h.done tx htx).2)
  exact hopen _ rfl

/-- A task moves that still waits for something: what is past stays. -/
theorem Serial.done_moved (h : Serial past s) (ht : s.tasks[i]? = some t)
    (hopen : ∀ r, t.demand ≠ .finished r) (hfixed : Fixed s.coordinator c') :
    ∀ tx ∈ past, tx.Complete c' ∧
      (s.tasks.set i t')[tx.call]? = some (.write tx.op (.finished tx.response)) := by
  intro tx htx
  obtain ⟨hcomplete, htask⟩ := h.done tx htx
  refine ⟨hcomplete.fixed hfixed, ?_⟩
  rw [List.getElem?_set_ne (h.call_ne ht hopen htx).symm, htask]

theorem Serial.ready_moved (h : Serial past s) (hfixed : Fixed s.coordinator c')
    (hready : ∀ op stage, t' = .write op stage → Ready s.coordinator op stage) :
    ∀ (j : Nat) (op : Operation) (stage : Writing),
      (s.tasks.set i t')[j]? = some (.write op stage) → Ready c' op stage := by
  intro j op stage hj
  rcases getElem?_set_cases hj with ⟨-, heq⟩ | ⟨-, hold⟩
  · exact (hready op stage heq.symm).fixed hfixed
  · exact (h.ready j op stage hold).fixed hfixed

/-! ## Steps outside the gate -/

theorem Serial.arrive (h : Serial past s) (hout : t.inside = false)
    (hready : ∀ op stage, t = .write op stage → Ready s.coordinator op stage) :
    Serial past { s with tasks := s.tasks ++ [t] } := by
  have hkeep : ∀ (k : Nat) (u : Task), s.tasks[k]? = some u → (s.tasks ++ [t])[k]? = some u := by
    intro k u hk
    rwa [List.getElem?_append_left (List.getElem?_eq_some_iff.1 hk).1]
  refine ⟨h.nodup, fun tx htx => ⟨(h.done tx htx).1, hkeep _ _ (h.done tx htx).2⟩, ?_, ?_⟩
  · intro k op stage hk
    rcases getElem?_concat_cases hk with ⟨-, heq⟩ | hold
    · exact hready op stage heq.symm
    · exact h.ready k op stage hold
  · rcases h.turn with hfree | ⟨i, op, stage, seen, hheld⟩
    · refine .inl ⟨hfree.idle, fun k u hk => ?_, hfree.history_eq⟩
      rcases getElem?_concat_cases hk with ⟨-, rfl⟩ | hold
      · exact hout
      · exact hfree.outside k u hold
    · refine .inr ⟨i, op, stage, seen, hheld.busy, hkeep _ _ hheld.task, fun k u hk hside => ?_,
        hheld.admitted, hheld.soFar, hheld.history_eq⟩
      rcases getElem?_concat_cases hk with ⟨-, rfl⟩ | hold
      · rw [hout] at hside
        cases hside
      · exact hheld.alone k u hold hside

/-- A task that is not past the gate moves and does not pass it. -/
theorem Serial.aside (h : Serial past s) (ht : s.tasks[i]? = some t)
    (hopen : ∀ r, t.demand ≠ .finished r) (hfixed : Fixed s.coordinator c')
    (hbusy : c'.busy = s.coordinator.busy) (hout : t.inside = false) (hout' : t'.inside = false)
    (hready : ∀ op stage, t' = .write op stage → Ready s.coordinator op stage) :
    Serial past ⟨c', s.tasks.set i t', s.history⟩ := by
  refine ⟨h.nodup, h.done_moved ht hopen hfixed, h.ready_moved hfixed hready, ?_⟩
  rcases h.turn with hfree | ⟨j, op, stage, seen, hheld⟩
  · refine .inl ⟨hbusy.trans hfree.idle, fun k u hk => ?_, hfree.history_eq⟩
    rcases getElem?_set_cases hk with ⟨-, rfl⟩ | ⟨-, hold⟩
    · exact hout'
    · exact hfree.outside k u hold
  · have hij : i ≠ j := by
      rintro rfl
      obtain rfl := Option.some.inj (ht.symm.trans hheld.task)
      exact absurd hheld.soFar.inside (by simpa [Task.inside] using hout)
    refine .inr ⟨j, op, stage, seen, hbusy.trans hheld.busy, ?_, fun k u hk hside => ?_,
      hheld.admitted.fixed hfixed, hheld.soFar.fixed hheld.admitted hfixed, hheld.history_eq⟩
    · rw [List.getElem?_set_ne hij, hheld.task]
    · rcases getElem?_set_cases hk with ⟨-, rfl⟩ | ⟨-, hold⟩
      · rw [hout'] at hside
        cases hside
      · exact hheld.alone k u hold hside

/-! ## Steps through the gate -/

/-- A write passes the gate. -/
theorem Serial.enter (h : Serial past s) (ht : s.tasks[i]? = some (.write op .entering))
    (hidle : s.coordinator.busy = false) :
    Serial past ⟨{ s.coordinator with busy := true }, s.tasks.set i (.write op .routing),
      s.history ++ [.passed i]⟩ := by
  have hfixed : Fixed s.coordinator { s.coordinator with busy := true } := .of_eq rfl rfl
  have hlt := (List.getElem?_eq_some_iff.1 ht).1
  refine ⟨h.nodup, h.done_moved ht (by simp [Task.demand, Writing.demand]) hfixed,
    h.ready_moved hfixed ?_, ?_⟩
  · rintro op' stage ⟨⟩
    trivial
  · rcases h.turn with hfree | ⟨j, op', stage, seen, hheld⟩
    · refine .inr ⟨i, op, .routing, [.passed i], rfl, List.getElem?_set_self hlt,
        fun k u hk hside => ?_, (h.ready i op _ ht).fixed hfixed, rfl,
        congrArg (· ++ [Sight.passed i]) hfree.history_eq⟩
      rcases getElem?_set_cases hk with ⟨rfl, -⟩ | ⟨-, hold⟩
      · rfl
      · rw [hfree.outside k u hold] at hside
        cases hside
    · exact absurd hheld.busy (by simp [hidle])

/-- The write that is past the gate goes on. -/
theorem Serial.goOn (h : Serial past s) (hheld : s.Held past i op stage seen)
    (hfixed : Fixed s.coordinator c') (hbusy : c'.busy = s.coordinator.busy)
    (hsoFar : stage'.SoFar s.coordinator i op (seen ++ more)) :
    Serial past ⟨c', s.tasks.set i (.write op stage'), s.history ++ more⟩ := by
  have hlt := (List.getElem?_eq_some_iff.1 hheld.task).1
  have hopen : ∀ r, (Task.write op stage).demand ≠ .finished r := by
    intro r hdemand
    obtain rfl := Writing.eq_finished_of_demand hdemand
    exact hheld.soFar
  refine ⟨h.nodup, h.done_moved hheld.task hopen hfixed, h.ready_moved hfixed ?_,
    .inr ⟨i, op, stage', seen ++ more, hbusy.trans hheld.busy, List.getElem?_set_self hlt,
      fun k u hk hside => ?_, hheld.admitted.fixed hfixed, hsoFar.fixed hheld.admitted hfixed,
      ?_⟩⟩
  · rintro op' stage'' ⟨⟩
    exact ready_of_inside hsoFar.inside
  · rcases getElem?_set_cases hk with ⟨rfl, -⟩ | ⟨-, hold⟩
    · rfl
    · exact hheld.alone k u hold hside
  · show s.history ++ more = _
    rw [hheld.history_eq, List.append_assoc]

/-- The write that is past the gate leaves, and its transaction is whole. -/
theorem Serial.leave {r : Response} (h : Serial past s)
    (hheld : s.Held past i op (.leaving r) seen) :
    ∃ past, Serial past ⟨{ s.coordinator with busy := false },
      s.tasks.set i (.write op (.finished r)), s.history ++ [.left i]⟩ := by
  have hfixed : Fixed s.coordinator { s.coordinator with busy := false } := .of_eq rfl rfl
  have hlt := (List.getElem?_eq_some_iff.1 hheld.task).1
  have hopen : ∀ r', (Task.write op (.leaving r)).demand ≠ .finished r' := by
    simp [Task.demand, Writing.demand]
  obtain ⟨tx, hcomplete, rfl, rfl, rfl, hsights⟩ : Writing.AboutToLeave s.coordinator i op seen r :=
    hheld.soFar
  refine ⟨past ++ [tx], ?_, ?_, h.ready_moved hfixed ?_, .inl ⟨rfl, fun k u hk => ?_, ?_⟩⟩
  · rw [List.map_append, List.nodup_append]
    refine ⟨h.nodup, List.nodup_singleton _, ?_⟩
    intro call hcall call' hcall'
    obtain ⟨tx', htx', rfl⟩ := List.mem_map.1 hcall
    obtain rfl := List.mem_singleton.1 hcall'
    exact h.call_ne hheld.task hopen htx'
  · intro tx' htx'
    rcases List.mem_append.1 htx' with hold | hnew
    · exact h.done_moved hheld.task hopen hfixed tx' hold
    · obtain rfl := List.mem_singleton.1 hnew
      exact ⟨hcomplete.fixed hfixed, List.getElem?_set_self hlt⟩
  · rintro op' stage ⟨⟩
    trivial
  · rcases getElem?_set_cases hk with ⟨-, rfl⟩ | ⟨hne, hold⟩
    · rfl
    · rw [Bool.eq_false_iff]
      exact fun hside => hne (hheld.alone k u hold hside)
  · show s.history ++ [.left tx.call] = _
    rw [hheld.history_eq, List.append_assoc, hsights]
    simp

/-! ## Every step -/

/-- The write that is past the gate is the one that holds it. -/
theorem Serial.held (h : Serial past s) (ht : s.tasks[i]? = some (.write op stage))
    (hside : stage.inside = true) : ∃ seen, s.Held past i op stage seen := by
  rcases h.turn with hfree | ⟨j, op', stage', seen, hheld⟩
  · have hout : stage.inside = false := hfree.outside i _ ht
    rw [hside] at hout
    cases hout
  · obtain rfl := hheld.alone i _ ht hside
    obtain ⟨rfl, rfl⟩ := Task.write.inj (Option.some.inj (ht.symm.trans hheld.task))
    exact ⟨seen, hheld⟩

theorem Serial.advance_inside (h : Serial past s) (ht : s.tasks[i]? = some (.write op stage))
    (hside : stage.inside = true) (hdemand : stage.demand op = .step) :
    ∃ past, Serial past (s.advanced i (.write op stage)) := by
  obtain ⟨seen, hheld⟩ := h.held ht hside
  rcases hheld.soFar.advance hheld.admitted hdemand with ⟨hsoFar, hbusy⟩ | ⟨r, rfl⟩
  · have hgate : atGate i (.write op stage) (.write op (stage.advance s.coordinator op).2.1) = [] :=
      atGate_of_eq (hsoFar.inside.trans hside.symm)
    simp only [advanced, Task.advance, hgate]
    exact ⟨past, h.goOn hheld (Task.advance_fixed _ (.write op stage)) hbusy
      (by rwa [List.append_nil])⟩
  · exact h.leave hheld

theorem Serial.advance_outside (h : Serial past s) (ht : s.tasks[i]? = some t)
    (hdemand : t.demand = .step) (hbusy : (t.advance s.coordinator).1.busy = s.coordinator.busy)
    (hout : t.inside = false) (hout' : (t.advance s.coordinator).2.1.inside = false) :
    Serial past (s.advanced i t) := by
  have hready : ∀ op stage, (t.advance s.coordinator).2.1 = .write op stage →
      Ready s.coordinator op stage := by
    intro op stage heq
    obtain ⟨stage', rfl, rfl⟩ := Task.eq_write_of_advance heq
    exact (h.ready i op stage' ht).advance
  rw [advanced, atGate_of_eq (hout'.trans hout.symm), List.append_nil]
  exact h.aside ht (by simp [hdemand]) (Task.advance_fixed _ t) hbusy hout hout' hready

theorem eq_write_of_inside (h : t.inside = true) :
    ∃ op stage, t = .write op stage ∧ stage.inside = true := by
  cases t with
  | write op stage => exact ⟨op, stage, rfl, h⟩
  | read _ _ | register _ _ | survey _ | trying _ _ | finished _ => cases h

/-- The gate is taken only by a write that has found it free. -/
theorem eq_entering_of_busy (hfree : c.busy = false) (hbusy : (t.advance c).1.busy = true)
    (hout : t.inside = false) : ∃ op, t = .write op .entering := by
  by_cases hwrite : ∃ op stage, t = .write op stage
  · obtain ⟨op, stage, rfl⟩ := hwrite
    cases stage with
    | entering => exact ⟨op, rfl⟩
    | checking =>
      simp only [Task.advance, Writing.advance] at hbusy
      split at hbusy <;> exact absurd hbusy (by simp [hfree])
    | admission | finished _ => exact absurd hbusy (by simp [Task.advance, Writing.advance, hfree])
    | routing | voting _ _ _ | deciding _ _ | settling | leaving _ => cases hout
  · obtain ⟨ring, cache, heq, -⟩ :=
      Task.advance_of_not_write c fun op stage heq => hwrite ⟨op, stage, heq⟩
    rw [heq] at hbusy
    exact absurd hbusy (by simp [hfree])

/-- A step of any task leaves the history a row of transactions. -/
theorem Serial.advance (h : Serial past s) (ht : s.tasks[i]? = some t)
    (hdemand : t.demand = .step) :
    ∃ past, Serial past (s.advanced i t) := by
  cases hside : t.inside with
  | true =>
    obtain ⟨op, stage, rfl, hside⟩ := eq_write_of_inside hside
    exact h.advance_inside ht hside hdemand
  | false =>
    cases Task.advance_passage s.coordinator t with
    | stays hbusy hside' =>
      exact ⟨past, h.advance_outside ht hdemand hbusy hside (hside'.trans hside)⟩
    | comes hfree hbusy _ =>
      obtain ⟨op, rfl⟩ := eq_entering_of_busy hfree hbusy hside
      have hadvance : Writing.entering.advance s.coordinator op =
          ({ s.coordinator with busy := true }, .routing, none) := by simp [Writing.advance, hfree]
      simp only [advanced, Task.advance, hadvance]
      exact ⟨past, h.enter ht hfree⟩
    | leaves hfrom _ => exact absurd hfrom (by simp [hside])

theorem Serial.contact {m : Member} {q : Request} (h : Serial past s) (ht : s.tasks[i]? = some t)
    (hdemand : t.demand = .contact m q) (met : Contact) :
    Serial past { s with
      tasks := s.tasks.set i (t.contacted met).1
      history := s.history ++ atMember i m q met t } := by
  cases t with
  | write op stage =>
    have hside : stage.inside = true := by
      rcases Writing.demand_eq_contact hdemand with ⟨_, _, _, rfl, -⟩ | ⟨_, _, rfl, -⟩ <;> rfl
    obtain ⟨seen, hheld⟩ := h.held ht hside
    exact h.goOn hheld (.refl _) rfl (hheld.soFar.contacted hdemand met)
  | read key stage =>
    show Serial past
      ⟨s.coordinator, s.tasks.set i (.read key (stage.contacted met)), s.history ++ []⟩
    rw [List.append_nil]
    exact h.aside ht (by simp [hdemand]) (.refl _) rfl rfl rfl (by simp)
  | trying left report => cases left <;> cases hdemand
  | register _ _ | survey _ | finished _ => cases hdemand

theorem inside_ofWrite (q : Request) : (Task.ofWrite q).inside = false := by
  unfold Task.ofWrite
  cases q.operation? <;> rfl

theorem ready_ofWrite {q : Request} (h : Task.ofWrite q = .write op stage) : Ready c op stage := by
  unfold Task.ofWrite at h
  cases hop : q.operation? with
  | none =>
    rw [hop] at h
    cases h
  | some op' =>
    rw [hop] at h
    cases h
    trivial

theorem ready_ofRequest {now : String} {q : Request} (h : Task.ofRequest now q = .write op stage) :
    Ready c op stage := by
  cases q with
  | put key value => exact ready_ofWrite (q := .put key value) h
  | del key => exact ready_ofWrite (q := .del key) h
  | get key | register host port | info | commit | abort => cases h

/-- Whatever the step, the history stays a row of transactions. -/
theorem Serial.step (h : Serial past s) (hstep : Step s s') : ∃ past, Serial past s' := by
  cases hstep with
  | call q => exact ⟨past, h.arrive (inside_ofWrite q) fun _ _ => ready_ofWrite⟩
  | request now q =>
    exact ⟨past, h.arrive (Traffic.inside_ofRequest now q) fun _ _ => ready_ofRequest⟩
  | advance ht hdemand => exact h.advance ht hdemand
  | contact ht hdemand met => exact ⟨past, h.contact ht hdemand met⟩
  | @probe i t m ht hdemand up =>
    obtain ⟨left, report, rfl⟩ := Task.eq_trying_of_demand hdemand
    exact ⟨past, h.aside ht (by simp [hdemand]) (.refl _) rfl rfl rfl (by simp [Task.probed])⟩

/-- In any run the history is a row of transactions. -/
theorem Serial.run (h : Serial past s) (hrun : Run s s') : ∃ past, Serial past s' := by
  induction hrun with
  | refl => exact ⟨past, h⟩
  | tail _ hstep ih =>
    obtain ⟨past, h⟩ := ih
    exact h.step hstep

/-! ## One whole transaction after the other -/

/-- The call has passed the gate and not left. -/
def Inside (s : Crowd) (i : Nat) : Prop := ∃ t, s.tasks[i]? = some t ∧ t.inside = true

/-- The gate is taken exactly while a call is past it. What has been seen is one whole transaction
after the other, each of a call of its own that has answered, and the beginning of one more while a
call is past the gate. -/
structure TakesTurns (s : Crowd) : Prop where
  gate : s.coordinator.busy = true ↔ ∃ i, s.Inside i
  row : ∃ (past : List Transaction) (seen : List Sight),
    s.history = past.flatMap Transaction.sights ++ seen ∧ (past.map Transaction.call).Nodup ∧
    (∀ tx ∈ past, tx.Complete s.coordinator ∧
      s.tasks[tx.call]? = some (.write tx.op (.finished tx.response))) ∧
    ((seen = [] ∧ ∀ i, ¬ s.Inside i) ∨
      ∃ (i : Nat) (op : Operation) (stage : Writing), s.tasks[i]? = some (.write op stage) ∧
        (∀ j, s.Inside j ↔ j = i) ∧ Writing.Begun s.coordinator i op seen)

theorem Free.not_inside (h : s.Free past) : ¬ s.Inside i := by
  rintro ⟨t, ht, hside⟩
  rw [h.outside i t ht] at hside
  cases hside

theorem Held.inside_iff (h : s.Held past i op stage seen) : s.Inside j ↔ j = i := by
  constructor
  · rintro ⟨t, ht, hside⟩
    exact h.alone j t ht hside
  · rintro rfl
    exact ⟨_, h.task, h.soFar.inside⟩

/-- In a row of transactions the writes take turns. -/
theorem Serial.takesTurns (h : Serial past s) : s.TakesTurns := by
  rcases h.turn with hfree | ⟨i, op, stage, seen, hheld⟩
  · refine ⟨⟨fun hbusy => ?_, fun ⟨_, hside⟩ => absurd hside hfree.not_inside⟩, past, [], ?_,
      h.nodup, h.done, .inl ⟨rfl, fun _ => hfree.not_inside⟩⟩
    · rw [hfree.idle] at hbusy
      cases hbusy
    · rw [hfree.history_eq, List.append_nil]
  · exact ⟨⟨fun _ => ⟨i, hheld.inside_iff.2 rfl⟩, fun _ => hheld.busy⟩, past, seen,
      hheld.history_eq, h.nodup, h.done, .inr ⟨i, op, stage, hheld.task, fun _ => hheld.inside_iff,
        hheld.soFar.begun hheld.admitted⟩⟩

theorem serial_of_run {start : Crowd} (htasks : start.tasks = []) (hhistory : start.history = [])
    (hfree : start.coordinator.busy = false) (hrun : Run start s) : ∃ past, Serial past s := by
  have hstart : Serial [] start := by
    refine ⟨List.nodup_nil, by simp, by simp [htasks], .inl ⟨hfree, by simp [htasks], ?_⟩⟩
    rw [hhistory]
    rfl
  exact hstart.run hrun

/-! ## Calls that are turned away -/

/-- The write has not come past the gate, and may yet come to it. -/
def approaching : Writing → Bool
  | .checking | .admission | .entering => true
  | _ => false

/-- The write is on its way to the gate, or has been turned away there. -/
def Aside (stage : Writing) : Prop :=
  approaching stage = true ∨ stage = .finished (.ofFault .invalidRequest)

/-- Steps during which a call stays past the gate. -/
def While (i : Nat) : Crowd → Crowd → Prop :=
  Relation.ReflTransGen fun s s' => Step s s' ∧ s'.Inside i

theorem While.run (h : While i s s') : Run s s' :=
  Relation.ReflTransGen.mono (fun _ _ hstep => hstep.1) _ _ h

/-- The steps of the write lead to the answer that the request is not valid, and the next one leaves
the coordinator as it is. Nothing has been seen of the write; once it has answered, nothing ever
will, and its answer stays. -/
structure TurnedAway (i : Nat) (op : Operation) (stage : Writing) (s : Crowd) : Prop where
  task : s.tasks[i]? = some (.write op stage)
  answers : Advances (s.coordinator, .write op stage)
    (s.coordinator, .write op (.finished (.ofFault .invalidRequest)))
  unchanged : (stage.advance s.coordinator op).1 = s.coordinator
  unseen : ∀ x ∈ s.history, x.call ≠ i
  forever : stage = .finished (.ofFault .invalidRequest) → ∀ s', Run s s' →
    s'.tasks[i]? = s.tasks[i]? ∧ ∀ x ∈ s'.history, x.call ≠ i

theorem Aside.not_inside (h : Aside stage) : stage.inside = false := by
  rcases h with h | rfl
  · cases stage with
    | checking | admission | entering | finished _ => rfl
    | routing | voting _ _ _ | deciding _ _ | settling | leaving _ => cases h
  · rfl

/-- At a gate that is taken a write is turned away, and leaves the coordinator as it is. -/
theorem Aside.advance (h : Aside stage) (hadmitted : Admitted c op) (hbusy : c.busy = true) :
    (stage.advance c op).1 = c ∧ Aside (stage.advance c op).2.1 := by
  rcases h with h | rfl
  · cases stage with
    | checking => simp [Writing.advance, hadmitted.check, Aside, approaching]
    | admission => simp [Writing.advance, hadmitted.full, Aside, approaching]
    | entering => simp [Writing.advance, hbusy, Aside]
    | routing | voting _ _ _ | deciding _ _ | settling | leaving _ | finished _ => cases h
  · exact ⟨rfl, .inr rfl⟩

/-- A write that comes while another is inside is turned away. -/
theorem Aside.advances (h : Aside stage) (hadmitted : Admitted c op) (hbusy : c.busy = true) :
    Advances (c, .write op stage) (c, .write op (.finished (.ofFault .invalidRequest))) := by
  have hchecking : Writing.checking.advance c op = (c, .admission, none) := by
    simp [Writing.advance, hadmitted.check]
  have hadmission : Writing.admission.advance c op = (c, .entering, none) := by
    simp [Writing.advance, hadmitted.full]
  have hentering : Writing.entering.advance c op =
      (c, .finished (.ofFault .invalidRequest), none) := by simp [Writing.advance, hbusy]
  have hrefused := advances_of_advance rfl rfl hentering
  have hentered := advances_of_advance rfl rfl hadmission
  rcases h with h | rfl
  · cases stage with
    | checking => exact (advances_of_advance rfl rfl hchecking).trans (hentered.trans hrefused)
    | admission => exact hentered.trans hrefused
    | entering => exact hrefused
    | routing | voting _ _ _ | deciding _ _ | settling | leaving _ | finished _ => cases h
  · exact .refl

/-- Nothing has been seen of a write that has not passed the gate. -/
theorem Serial.unseen (h : Serial past s) (ht : s.tasks[i]? = some (.write op stage))
    (haside : Aside stage) : ∀ x ∈ s.history, x.call ≠ i := by
  have hpast : ∀ x ∈ past.flatMap Transaction.sights, x.call ≠ i := by
    rintro x hx rfl
    obtain ⟨tx, htx, hsight⟩ := List.mem_flatMap.1 hx
    rw [Transaction.call_of_mem_sights hsight, (h.done tx htx).2] at ht
    obtain ⟨-, rfl⟩ := Task.write.inj (Option.some.inj ht)
    rcases haside with hside | hside
    · cases hside
    · exact tx.response_ne_invalidRequest (Writing.finished.inj hside)
  rcases h.turn with hfree | ⟨j, op', stage', seen, hheld⟩
  · rwa [hfree.history_eq]
  · rw [hheld.history_eq]
    intro x hx
    rcases List.mem_append.1 hx with hx | hx
    · exact hpast x hx
    · obtain ⟨tx, -, rfl, -, rest, -, hsights⟩ := hheld.soFar.begun hheld.admitted
      have hsight : x ∈ tx.sights := hsights ▸ List.mem_append_left rest hx
      rw [Transaction.call_of_mem_sights hsight]
      rintro rfl
      obtain ⟨-, rfl⟩ := Task.write.inj (Option.some.inj (ht.symm.trans hheld.task))
      exact absurd hheld.soFar.inside (by simp [haside.not_inside])

theorem Step.fixed (h : Step s s') : Fixed s.coordinator s'.coordinator := by
  cases h with
  | @advance i t ht hdemand => exact Task.advance_fixed _ t
  | call _ | request _ _ | contact _ _ _ | probe _ _ _ => exact .refl _

theorem Step.of_write (c' : Coordinator) (stage stage' : Writing) {notice : Option Notice}
    (ht : s.tasks[i]? = some (.write op stage)) (hdemand : stage.demand op = .step)
    (hadvance : stage.advance s.coordinator op = (c', stage', notice)) :
    Step s ⟨c', s.tasks.set i (.write op stage'),
      s.history ++ atGate i (.write op stage) (.write op stage')⟩ := by
  have hstep := Step.advance ht hdemand
  simp only [advanced, Task.advance, hadvance] at hstep
  exact hstep

theorem getElem?_set_moved {tasks : List Task} {u : Task} (h : tasks[i]? = some t) :
    (tasks.set j u)[i]? = some t ∨ tasks[j]? = some t ∧ (tasks.set j u)[i]? = some u := by
  by_cases hij : j = i
  · subst hij
    exact .inr ⟨h, List.getElem?_set_self (List.getElem?_eq_some_iff.1 h).1⟩
  · rw [List.getElem?_set_ne hij]
    exact .inl h

/-- What a step does to a task. -/
theorem Step.task (h : Step s s') (ht : s.tasks[i]? = some t) :
    s'.tasks[i]? = some t ∨
      (t.demand = .step ∧ s'.tasks[i]? = some (t.advance s.coordinator).2.1) ∨
      (∃ m q met, t.demand = .contact m q ∧ s'.tasks[i]? = some (t.contacted met).1) ∨
      ∃ m up, t.demand = .probe m ∧ s'.tasks[i]? = some (t.probed up) := by
  have hkeep : ∀ u : Task, (s.tasks ++ [u])[i]? = some t := fun u => by
    rwa [List.getElem?_append_left (List.getElem?_eq_some_iff.1 ht).1]
  cases h with
  | call q => exact .inl (hkeep _)
  | request now q => exact .inl (hkeep _)
  | @advance j u hu hdemand =>
    rcases getElem?_set_moved (j := j) (u := (u.advance s.coordinator).2.1) ht with h | ⟨hj, h⟩
    · exact .inl h
    · obtain rfl := Option.some.inj (hj.symm.trans hu)
      exact .inr (.inl ⟨hdemand, h⟩)
  | @contact j u m q hu hdemand met =>
    rcases getElem?_set_moved (j := j) (u := (u.contacted met).1) ht with h | ⟨hj, h⟩
    · exact .inl h
    · obtain rfl := Option.some.inj (hj.symm.trans hu)
      exact .inr (.inr (.inl ⟨m, q, met, hdemand, h⟩))
  | @probe j u m hu hdemand up =>
    rcases getElem?_set_moved (j := j) (u := u.probed up) ht with h | ⟨hj, h⟩
    · exact .inl h
    · obtain rfl := Option.some.inj (hj.symm.trans hu)
      exact .inr (.inr (.inr ⟨m, up, hdemand, h⟩))

/-- A task that has answered stays as it is. -/
theorem Run.finished {r : Response} (h : Run s s') (ht : s.tasks[i]? = some t)
    (hdemand : t.demand = .finished r) : s'.tasks[i]? = some t := by
  induction h with
  | refl => exact ht
  | tail _ hstep ih =>
    rcases hstep.task ih with h | ⟨hstep, -⟩ | ⟨_, _, _, hcontact, -⟩ | ⟨_, _, hprobe, -⟩
    · exact h
    · cases hdemand.symm.trans hstep
    · cases hdemand.symm.trans hcontact
    · cases hdemand.symm.trans hprobe

theorem Serial.turnedAway (h : Serial past s) (hside : s.Inside j)
    (ht : s.tasks[i]? = some (.write op stage)) (haside : Aside stage)
    (hadmitted : Admitted s.coordinator op) : TurnedAway i op stage s := by
  have hbusy : s.coordinator.busy = true := h.takesTurns.gate.2 ⟨j, hside⟩
  refine ⟨ht, haside.advances hadmitted hbusy, (haside.advance hadmitted hbusy).1,
    h.unseen ht haside, ?_⟩
  rintro rfl s' hrun
  have ht' := hrun.finished ht rfl
  obtain ⟨past', h'⟩ := h.run hrun
  exact ⟨ht'.trans ht.symm, h'.unseen ht' haside⟩

/-- While another call stays past the gate, a write comes to the gate and is turned away. -/
theorem Serial.aside_step (h : Serial past s) (hstep : Step s s') (hside : s.Inside j)
    (ht : s.tasks[i]? = some (.write op stage)) (haside : Aside stage)
    (hadmitted : Admitted s.coordinator op) :
    ∃ stage', s'.tasks[i]? = some (.write op stage') ∧ Aside stage' := by
  have hbusy : s.coordinator.busy = true := h.takesTurns.gate.2 ⟨j, hside⟩
  rcases hstep.task ht with h' | ⟨-, h'⟩ | ⟨_, _, met, hcontact, -⟩ | ⟨_, _, hprobe, -⟩
  · exact ⟨stage, h', haside⟩
  · exact ⟨_, h', (haside.advance hadmitted hbusy).2⟩
  · have hout := haside.not_inside
    rcases Writing.demand_eq_contact hcontact with ⟨_, _, _, rfl, -⟩ | ⟨_, _, rfl, -⟩ <;> cases hout
  · obtain ⟨_, _, heq⟩ := Task.eq_trying_of_demand hprobe
    cases heq

theorem Serial.turnedAway_while (h : Serial past s) (hside : s.Inside j)
    (ht : s.tasks[i]? = some (.write op stage)) (haside : Aside stage)
    (hadmitted : Admitted s.coordinator op) (hwhile : While j s s') :
    ∃ stage', TurnedAway i op stage' s' := by
  have hreached : ∃ past stage', Serial past s' ∧ s'.Inside j ∧
      s'.tasks[i]? = some (.write op stage') ∧ Aside stage' ∧ Admitted s'.coordinator op := by
    induction hwhile with
    | refl => exact ⟨past, stage, h, hside, ht, haside, hadmitted⟩
    | tail _ hstep ih =>
      obtain ⟨past, stage, h, hside, ht, haside, hadmitted⟩ := ih
      obtain ⟨past', h'⟩ := h.step hstep.1
      obtain ⟨stage', ht', haside'⟩ := h.aside_step hstep.1 hside ht haside hadmitted
      exact ⟨past', stage', h', hstep.2, ht', haside', hadmitted.fixed hstep.1.fixed⟩
  obtain ⟨past', stage', h', hside', ht', haside', hadmitted'⟩ := hreached
  exact ⟨stage', h'.turnedAway hside' ht' haside' hadmitted'⟩

/-- Writes take turns, in whatever order the steps of all calls come and however the members are
met. A write within the limits that has not come to the gate of a full ring while another one is
past it is turned away, for as long as the other one stays. -/
theorem writes_take_turns {start : Crowd} (htasks : start.tasks = [])
    (hhistory : start.history = []) (hfree : start.coordinator.busy = false) (hrun : Run start s) :
    s.TakesTurns ∧
      ∀ i j op stage, s.Inside j → s.tasks[i]? = some (.write op stage) → approaching stage = true →
        op.check = .ok () → s.coordinator.ring.isFull = true →
        ∀ s', While j s s' → ∃ stage', TurnedAway i op stage' s' := by
  obtain ⟨past, h⟩ := serial_of_run htasks hhistory hfree hrun
  refine ⟨h.takesTurns, ?_⟩
  intro i j op stage hside ht happroaching hcheck hfull s' hwhile
  exact h.turnedAway_while hside ht (.inl happroaching) ⟨hcheck, hfull⟩ hwhile

/-- A write passes the gate and asks for votes. Another one that comes meanwhile is turned away, and
the first one is carried out. -/
theorem writes_take_turns_of_two : ∃ s s' s'' : Crowd,
    Run ⟨Traffic.lone, [], []⟩ s ∧ s.Inside 0 ∧ While 0 s s' ∧ Run s' s'' ∧
      s''.tasks = [.write (.put "k" "1") (.finished .success),
        .write (.put "k" "2") (.finished (.ofFault .invalidRequest))] ∧
      s''.TakesTurns ∧ ∃ stage, TurnedAway 1 (.put "k" "2") stage s' := by
  let x : Member := ⟨0, "localhost", 4001⟩
  let c : Coordinator := { Traffic.lone with busy := true }
  let first : Task := .write (.put "k" "1") (.voting [x] [x] true)
  let refused : Task := .write (.put "k" "2") (.finished (.ofFault .invalidRequest))
  have hcohort : c.cohort "k" = [x] := by decide
  have hrun : Run ⟨Traffic.lone, [], []⟩
      ⟨c, [first, .write (.put "k" "2") .checking], [.passed 0]⟩ := by
    refine .head (.call (.put "k" "1")) ?_
    refine .head (.of_write (i := 0) Traffic.lone _ _ rfl rfl rfl) ?_
    refine .head (.of_write (i := 0) Traffic.lone _ _ rfl rfl rfl) ?_
    refine .head (.of_write (i := 0) c _ _ rfl rfl rfl) ?_
    have hvoting : Writing.routing.advance c (.put "k" "1") = (c, .voting [x] [x] true, none) := by
      rw [← hcohort]
      rfl
    exact .head (.of_write (i := 0) c _ _ rfl rfl hvoting) (.single (.call (.put "k" "2")))
  have hside : ∀ t : Task, Inside ⟨c, [first, t], [.passed 0]⟩ 0 := fun t => ⟨first, rfl, rfl⟩
  have hwhile : While 0 ⟨c, [first, .write (.put "k" "2") .checking], [.passed 0]⟩
      ⟨c, [first, refused], [.passed 0]⟩ := by
    refine .head ⟨.of_write (i := 1) c .checking .admission rfl rfl rfl, hside _⟩ ?_
    refine .head ⟨.of_write (i := 1) c .admission .entering rfl rfl rfl, hside _⟩ ?_
    exact .single ⟨.of_write (i := 1) c .entering _ rfl rfl rfl, hside _⟩
  have hlast : Run ⟨c, [first, refused], [.passed 0]⟩
      ⟨{ c.settle (.put "k" "1") with busy := false },
        [.write (.put "k" "1") (.finished .success), refused],
        [.passed 0, .attempt 0 x (.put "k" "1") (.answered .voteCommit),
          .attempt 0 x .commit (.answered .ack), .left 0]⟩ := by
    refine .head (.contact (i := 0) (t := first) rfl rfl (.answered .voteCommit)) ?_
    refine .head (.of_write (i := 0) c (.voting [x] [] true) _ rfl rfl rfl) ?_
    refine .head (.contact (i := 0) (t := .write (.put "k" "1") (.deciding true [x])) rfl rfl
      (.answered .ack)) ?_
    refine .head (.of_write (i := 0) c (.deciding true []) _ rfl rfl rfl) ?_
    refine .head (.of_write (i := 0) (c.settle (.put "k" "1")) .settling _ rfl rfl rfl) ?_
    exact .single (.of_write (i := 0) _ (.leaving .success) _ rfl rfl rfl)
  exact ⟨_, _, _, hrun, hside _, hwhile, hlast, rfl,
    (writes_take_turns rfl rfl rfl ((hrun.trans hwhile.run).trans hlast)).1,
    (writes_take_turns rfl rfl rfl hrun).2 1 0 _ _ (hside _) rfl rfl (by decide) (by decide) _
      hwhile⟩

end Crowd

end Coordinator

end RingStore
