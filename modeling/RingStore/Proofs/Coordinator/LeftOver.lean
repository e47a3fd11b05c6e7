import RingStore.Proofs.Coordinator.AllOrNothing
import RingStore.Proofs.Coordinator.Releasing
import RingStore.Proofs.Ring.Cohort

/-!
# Writes on members that wait for another decision

A coordinator that was replaced may leave members behind that wait for its decision. The next write
on them is voted down by each of these, and its decision to drop, which names no operation, drops
what they wait for. So it ends with a fault and changes no value, and the write after it finds no
member that waits. What carries this through a write is what its stage promises of each member of
the cohort (`Writing.Pledge`).

A write that is refused before it reaches a member frees none.
-/

namespace RingStore

namespace Coordinator

open Disk Machine Fleet

variable {settings : Member → ReplicaSettings} {op : Operation} {cohort : List Member}
  {c c' : Coordinator} {f f' before : Fleet} {s s' : System} {x : Member} {answer : Response}
  {Meets : Member → Request → Machine → Contact → Machine → Prop}

/-- One step of the task. How members are met is given. -/
inductive Moves (Meets : Member → Request → Machine → Contact → Machine → Prop) :
    System → System → Prop
  /-- The task takes a step on the coordinator's state. -/
  | advance {c : Coordinator} {t : Task} {f : Fleet} (h : t.demand = .step) :
    Moves Meets ⟨c, t, f⟩ ⟨(t.advance c).1, (t.advance c).2.1, f⟩
  /-- The task puts a request to a member. -/
  | contact {c : Coordinator} {t : Task} {f : Fleet} {x : Member} {q : Request} {met : Contact}
    {m : Machine} (h : t.demand = .contact x q) (hmeets : Meets x q (f x) met m) :
    Moves Meets ⟨c, t, f⟩ ⟨c, (t.contacted met).1, Function.update f x m⟩

/-- What the system can come to. -/
def Runs (Meets : Member → Request → Machine → Contact → Machine → Prop) : System → System → Prop :=
  Relation.ReflTransGen (Moves Meets)

/-- Contacts that succeed are contacts. -/
theorem Moves.exchanges (h : Moves (fun _ => Succeeds) s s') (settings : Member → ReplicaSettings) :
    Moves (fun x => Exchanges (settings x)) s s' := by
  cases h with
  | advance hdemand => exact .advance hdemand
  | contact hdemand hmeets => exact .contact hdemand (hmeets.exchanges _)

theorem Runs.exchanges (h : Runs (fun _ => Succeeds) s s') (settings : Member → ReplicaSettings) :
    Runs (fun x => Exchanges (settings x)) s s' :=
  h.lift id fun _ _ hstep => hstep.exchanges settings

theorem Advances.runs {t t' : Task} (h : Advances (c, t) (c', t')) (f : Fleet) :
    Runs Meets ⟨c, t, f⟩ ⟨c', t', f⟩ := by
  refine h.lift (fun p => (⟨p.1, p.2, f⟩ : System)) ?_
  rintro ⟨c, t⟩ p ⟨hdemand, -, rfl⟩
  exact .advance hdemand

/-! ## What a stage promises -/

namespace Writing

/-- No write is under way before the write is admitted, and none when it has ended. -/
def Outside : Writing → Prop
  | checking | admission | entering | finished _ => True
  | routing | voting .. | deciding .. | settling | leaving _ => False

/-- How a write ends that was admitted: as it should, if no member was `stuck` in a decision that it
waited for, or with a fault. No member waits then. -/
def Ended (settings : ReplicaSettings) (M : Store.Contents) (stuck : Prop) (op : Operation)
    (m : Machine) (r : Response) : Prop :=
  (r = .success ∧ ¬ stuck ∧ Released settings (op.effect M) m) ∨
    (r = .ofFault .generic ∧ Released settings M m)

/-- What a stage of a write promises of the machine of a member of the cohort that held `M` before
the write, and was `stuck` if its replica waited for a decision. -/
def Pledge (settings : ReplicaSettings) (M : Store.Contents) (stuck : Prop) (op : Operation)
    (x : Member) (m : Machine) : Writing → Prop
  | checking | admission | entering | routing =>
    Contains settings M m ∧ (stuck → m.pending? ≠ none)
  | voting _ left unanimous =>
    Contains settings M m ∧ (stuck → m.pending? ≠ none) ∧
      (unanimous = true → x ∈ left ∨ ¬ stuck ∧ Held settings M op m)
  | deciding true left =>
    ¬ stuck ∧ Bidden settings M op m ∧ (x ∈ left ∨ Released settings (op.effect M) m)
  | deciding false left => Contains settings M m ∧ (x ∈ left ∨ Released settings M m)
  | settling => ¬ stuck ∧ Released settings (op.effect M) m
  | leaving r | finished r => Ended settings M stuck op m r

variable {stage : Writing} {set : ReplicaSettings} {M : Store.Contents} {m m' : Machine}
  {stuck : Prop} {met : Contact} {q : Request}

/-- A step of the write keeps its promise to each member of the cohort. -/
theorem Pledge.advance (h : stage.Pledge set M stuck op x m) (hproper : stage.Proper op cohort)
    (hcohort : c.cohort op.key = cohort) (hx : x ∈ cohort) (hcheck : op.check = .ok ())
    (hfull : c.ring.isFull = true) (hidle : stage.Outside → c.busy = false) :
    (stage.advance c op).2.1.Pledge set M stuck op x m := by
  cases stage with
  | checking =>
    rw [Writing.advance, hcheck]
    exact h
  | admission =>
    rw [Writing.advance, hfull]
    exact h
  | entering =>
    rw [Writing.advance, hidle trivial]
    exact h
  | routing => exact ⟨h.1, h.2, fun _ => .inl (hcohort ▸ hx)⟩
  | voting asked left unanimous =>
    obtain ⟨-, rfl, -⟩ := hproper
    cases left with
    | cons y left => exact h
    | nil =>
      cases unanimous with
      | true =>
        obtain ⟨hfresh, hheld⟩ := (h.2.2 rfl).resolve_left (by simp)
        exact ⟨hfresh, .inl hheld, .inl hx⟩
      | false => exact ⟨h.1, .inl hx⟩
  | deciding commit left =>
    cases left with
    | cons y left => cases commit <;> exact h
    | nil =>
      cases commit with
      | true => exact ⟨h.1, h.2.2.resolve_left (by simp)⟩
      | false => exact .inr ⟨rfl, h.2.resolve_left (by simp)⟩
  | settling => exact .inl ⟨rfl, h⟩
  | leaving r | finished r => exact h

/-- The member that is met keeps the promise of the next stage. -/
theorem Pledge.of_meets (h : stage.Pledge set M stuck op x m) (hs : set.Serviceable)
    (hdemand : stage.demand op = .contact x q) (hmeets : Exchanges set q m met m') :
    (stage.contacted met).1.Pledge set M stuck op x m' := by
  rcases demand_eq_contact hdemand with ⟨asked, left, unanimous, rfl, rfl⟩
    | ⟨commit, left, rfl, rfl⟩
  · obtain ⟨hcontains, hstuck, -⟩ := h
    obtain ⟨hcontains', hstill, hvoted⟩ := hcontains.exchanges_vote hs hmeets
    refine ⟨hcontains', fun hwas => hstill (hstuck hwas), fun hall => .inr ?_⟩
    simp only [Bool.and_eq_true, beq_iff_eq] at hall
    obtain ⟨hnone, hheld⟩ := hvoted hall.2
    exact ⟨fun hwas => hstuck hwas hnone, hheld⟩
  · have hleft : ∀ {P : Prop}, (met = .answered .ack → P) →
        x ∈ (if met = .answered .ack then left else x :: left) ∨ P := by
      intro P hP
      by_cases hmet : met = .answered .ack
      · exact .inr (hP hmet)
      · rw [if_neg hmet]
        exact .inl List.mem_cons_self
    cases commit with
    | true =>
      obtain ⟨hbidden, hack⟩ := Bidden.exchanges_commit h.2.1 hs hmeets
      exact ⟨h.1, hbidden, hleft hack⟩
    | false =>
      obtain ⟨hcontains, hack⟩ := Contains.exchanges_abort h.1 hs hmeets
      exact ⟨hcontains, hleft hack⟩

/-- The other members keep the promise too. -/
theorem Pledge.contacted (h : stage.Pledge set M stuck op x m) {y : Member} (hxy : x ≠ y)
    (hdemand : stage.demand op = .contact y q) :
    (stage.contacted met).1.Pledge set M stuck op x m := by
  have hleft : ∀ left, x ∈ y :: left → x ∈ left := fun left hx =>
    (List.mem_cons.1 hx).resolve_left hxy
  rcases demand_eq_contact hdemand with ⟨asked, left, unanimous, rfl, rfl⟩
    | ⟨commit, left, rfl, rfl⟩
  · refine ⟨h.1, h.2.1, fun hall => ?_⟩
    simp only [Bool.and_eq_true] at hall
    exact (h.2.2 hall.1).imp_left (hleft left)
  · have hstep : ∀ {P : Prop}, x ∈ y :: left ∨ P →
        x ∈ (if met = .answered .ack then left else y :: left) ∨ P := by
      intro P hP
      split
      · exact hP.imp_left (hleft left)
      · exact hP
    cases commit with
    | true => exact ⟨h.1, h.2.1, hstep h.2.2⟩
    | false => exact ⟨h.1, hstep h.2⟩

end Writing

/-! ## One write -/

/-- A write on the members as they were `before` is under way, and keeps its promises. -/
structure Carrying (settings : Member → ReplicaSettings) (before : Fleet) (op : Operation)
    (c : Coordinator) (s : System) : Prop where
  ring_eq : s.coordinator.ring = c.ring
  settings_eq : s.coordinator.settings = c.settings
  stage : ∃ stage, s.task = .write op stage ∧ stage.Proper op (c.cohort op.key) ∧
    (stage.Outside → s.coordinator.busy = false) ∧
    ∀ x ∈ c.cohort op.key, stage.Pledge (settings x) (before.stored settings x)
      ((before x).pending? ≠ none) op x (s.fleet x)

/-- A write that is admitted keeps others out until it ends. -/
theorem Writing.Outside.advance {stage : Writing} (hcheck : op.check = .ok ())
    (hidle : stage.Outside → c.busy = false) (h : (stage.advance c op).2.1.Outside) :
    (stage.advance c op).1.busy = false := by
  cases stage with
  | checking =>
    rw [Writing.advance, hcheck]
    exact hidle trivial
  | admission => exact hidle trivial
  | entering =>
    rw [Writing.advance, hidle trivial] at h
    exact absurd h not_false
  | routing | settling => exact absurd h not_false
  | voting asked left unanimous => cases left <;> exact absurd h not_false
  | deciding commit left => cases left <;> cases commit <;> exact absurd h not_false
  | leaving r => rfl
  | finished r => exact hidle trivial

/-- Every step of the system keeps the promises of the write. -/
theorem Carrying.step (h : Carrying settings before op c s)
    (hs : ∀ x ∈ c.cohort op.key, (settings x).Serviceable) (hcheck : op.check = .ok ())
    (hfull : c.ring.isFull = true) (hstep : Moves (fun x => Exchanges (settings x)) s s') :
    Carrying settings before op c s' := by
  obtain ⟨hring, hsettings, stage, htask, hproper, hidle, hpledge⟩ := h
  cases hstep with
  | @advance c' t f hdemand =>
    subst htask
    have hcohort : c'.cohort op.key = c.cohort op.key := cohort_eq hring hsettings op.key
    have hfull' : c'.ring.isFull = true := (congrArg Ring.isFull hring).trans hfull
    obtain ⟨hring', hsettings'⟩ := Writing.advance_fixed c' op stage
    exact ⟨hring'.trans hring, hsettings'.trans hsettings, _, rfl, hproper.advance hcohort,
      Writing.Outside.advance hcheck hidle, fun x hx =>
        (hpledge x hx).advance hproper hcohort hx hcheck hfull' hidle⟩
  | @contact c' t f y q met m hdemand hmeets =>
    subst htask
    have hy : y ∈ c.cohort op.key := by
      rcases Writing.demand_eq_contact hdemand with
        ⟨asked, left, unanimous, rfl, -⟩ | ⟨commit, left, rfl, -⟩
      · exact hproper.2.2 List.mem_cons_self
      · exact hproper List.mem_cons_self
    refine ⟨hring, hsettings, _, rfl, hproper.contacted met, fun houtside => ?_, fun x => ?_⟩
    · rcases Writing.demand_eq_contact hdemand with
        ⟨asked, left, unanimous, rfl, -⟩ | ⟨commit, left, rfl, -⟩ <;>
          exact absurd houtside not_false
    · exact of_update (P := fun x m => x ∈ c.cohort op.key →
          (stage.contacted met).1.Pledge (settings x) (before.stored settings x)
            ((before x).pending? ≠ none) op x m)
        (fun _ => (hpledge y hy).of_meets (hs y hy) hdemand hmeets)
        fun hxy hx => (hpledge x hx).contacted hxy hdemand

theorem Carrying.run (h : Carrying settings before op c s)
    (hs : ∀ x ∈ c.cohort op.key, (settings x).Serviceable) (hcheck : op.check = .ok ())
    (hfull : c.ring.isFull = true) (hrun : Runs (fun x => Exchanges (settings x)) s s') :
    Carrying settings before op c s' := by
  induction hrun with
  | refl => exact h
  | tail _ hstep ih => exact ih.step hs hcheck hfull hstep

/-- When a write ends that was admitted, no member of the cohort waits for a decision. -/
theorem ended_of_runs (hs : ∀ x ∈ c.cohort op.key, (settings x).Serviceable)
    (hcheck : op.check = .ok ()) (hfull : c.ring.isFull = true) (hidle : c.busy = false)
    (husable : ∀ x ∈ c.cohort op.key, Usable (settings x) (f x)) {t : Task}
    (hrun : Runs (fun x => Exchanges (settings x)) ⟨c, .ofWrite op.request, f⟩ ⟨c', t, f'⟩)
    (hend : t.demand = .finished answer) :
    c'.ring = c.ring ∧ c'.settings = c.settings ∧ c'.busy = false ∧ ∀ x ∈ c.cohort op.key,
      Writing.Ended (settings x) (f.stored settings x) ((f x).pending? ≠ none) op (f' x)
        answer := by
  have hstart : Carrying settings f op c ⟨c, .ofWrite op.request, f⟩ :=
    ⟨rfl, rfl, .checking, by simp [Task.ofWrite], trivial, fun _ => hidle, fun x hx =>
      ⟨(husable x hx).contains, fun hstuck => hstuck⟩⟩
  obtain ⟨hring, hsettings, stage, rfl, -, hidle', hpledge⟩ := hstart.run hs hcheck hfull hrun
  obtain rfl := Writing.eq_finished_of_demand hend
  exact ⟨hring, hsettings, hidle' trivial, hpledge⟩

/-! ## Writes whose contacts succeed -/

section Succeeding

variable {left asked : List Member} {unanimous commit : Bool}

/-- What a write comes to when all contacts succeed: every member that is asked votes for it, if
none waits for a decision and each is asked once. -/
def Writing.Smooth (settings : Member → ReplicaSettings) (f : Fleet) (cohort : List Member) :
    Writing → Prop
  | checking | admission | entering | routing => ∀ x ∈ cohort, ∃ M, Released (settings x) M (f x)
  | voting _ left unanimous =>
    unanimous = true ∧ left.Nodup ∧ ∀ x ∈ left, ∃ M, Released (settings x) M (f x)
  | deciding commit _ => commit = true
  | settling => True
  | leaving r | finished r => r = .success

theorem Writing.Smooth.advance {stage : Writing} (h : stage.Smooth settings f cohort)
    (hcohort : c.cohort op.key = cohort) (hnodup : cohort.Nodup) (hcheck : op.check = .ok ())
    (hfull : c.ring.isFull = true) (hidle : stage.Outside → c.busy = false) :
    (stage.advance c op).2.1.Smooth settings f cohort := by
  cases stage with
  | checking =>
    rw [Writing.advance, hcheck]
    exact h
  | admission =>
    rw [Writing.advance, hfull]
    exact h
  | entering =>
    rw [Writing.advance, hidle trivial]
    exact h
  | routing =>
    obtain rfl := hcohort
    exact ⟨rfl, hnodup, h⟩
  | voting asked left unanimous =>
    cases left with
    | cons y left => exact h
    | nil => exact h.1
  | deciding commit left =>
    obtain rfl : commit = true := h
    cases left with
    | cons y left => rfl
    | nil => exact trivial
  | settling => rfl
  | leaving r | finished r => exact h

theorem Writing.Smooth.contacted {stage : Writing} (h : stage.Smooth settings f cohort)
    (hproper : stage.Proper op cohort) (hs : ∀ x ∈ cohort, (settings x).Serviceable)
    {q : Request} {met : Contact} {m : Machine} (hdemand : stage.demand op = .contact x q)
    (hmeets : Succeeds q (f x) met m) :
    (stage.contacted met).1.Smooth settings (Function.update f x m) cohort := by
  rcases Writing.demand_eq_contact hdemand with
    ⟨asked, left, unanimous, rfl, rfl⟩ | ⟨commit, left, rfl, rfl⟩
  · obtain ⟨rfl, hnodup, hreleased⟩ := h
    obtain ⟨hx, hnodup⟩ := List.nodup_cons.1 hnodup
    obtain ⟨M, hM⟩ := hreleased x List.mem_cons_self
    obtain ⟨rfl, -⟩ := hM.succeeds_vote (hs x (hproper.2.2 List.mem_cons_self)) hproper.1 hmeets
    refine ⟨rfl, hnodup, fun y hy => ?_⟩
    rw [Function.update_of_ne (ne_of_mem_of_not_mem hy hx)]
    exact hreleased y (List.mem_cons_of_mem _ hy)
  · exact h

/-- A write whose contacts succeed is successful, if no member waits for a decision. -/
theorem success_of_runs (hs : ∀ x ∈ c.cohort op.key, (settings x).Serviceable)
    (hnodup : (c.cohort op.key).Nodup) (hcheck : op.check = .ok ()) (hfull : c.ring.isFull = true)
    (hidle : c.busy = false)
    (hreleased : ∀ x ∈ c.cohort op.key, ∃ M, Released (settings x) M (f x)) {t : Task}
    (hrun : Runs (fun _ => Succeeds) ⟨c, .ofWrite op.request, f⟩ ⟨c', t, f'⟩)
    (hend : t.demand = .finished answer) : answer = .success := by
  have husable : ∀ x ∈ c.cohort op.key, Usable (settings x) (f x) := fun x hx => by
    obtain ⟨M, hM⟩ := hreleased x hx
    exact hM.usable
  have hstart : Carrying settings f op c ⟨c, .ofWrite op.request, f⟩ :=
    ⟨rfl, rfl, .checking, by simp [Task.ofWrite], trivial, fun _ => hidle, fun x hx =>
      ⟨(husable x hx).contains, fun hstuck => hstuck⟩⟩
  have hsmooth : ∀ s, Runs (fun _ => Succeeds) ⟨c, .ofWrite op.request, f⟩ s →
      Carrying settings f op c s ∧ ∀ stage, s.task = .write op stage →
        stage.Smooth settings s.fleet (c.cohort op.key) := by
    intro s hrun
    induction hrun with
    | refl =>
      refine ⟨hstart, fun stage htask => ?_⟩
      rw [Task.ofWrite, Operation.operation?_request] at htask
      obtain ⟨-, rfl⟩ := Task.write.inj htask
      exact hreleased
    | tail _ hstep ih =>
      obtain ⟨hcarrying, hsmooth⟩ := ih
      refine ⟨hcarrying.step hs hcheck hfull (hstep.exchanges settings), fun stage' htask' => ?_⟩
      obtain ⟨hring, hsettings, stage, htask, hproper, hidle, -⟩ := hcarrying
      cases hstep with
      | @advance c' t f hdemand =>
        subst htask
        obtain ⟨-, rfl⟩ := Task.write.inj htask'
        exact (hsmooth stage rfl).advance (cohort_eq hring hsettings op.key) hnodup hcheck
          ((congrArg Ring.isFull hring).trans hfull) hidle
      | @contact c' t f y q met m hdemand hmeets =>
        subst htask
        obtain ⟨-, rfl⟩ := Task.write.inj htask'
        exact (hsmooth stage rfl).contacted hproper hs hdemand hmeets
  obtain ⟨hcarrying, hsmooth⟩ := hsmooth _ hrun
  obtain ⟨-, -, stage, rfl, -⟩ := hcarrying
  obtain rfl := Writing.eq_finished_of_demand hend
  exact hsmooth _ rfl

/-- All members that are left are asked for their votes. -/
theorem exists_runs_voting (hs : ∀ x ∈ cohort, (settings x).Serviceable)
    (hcheck : op.check = .ok ()) (c : Coordinator) (asked : List Member) (unanimous : Bool)
    (hleft : left ⊆ cohort) {f : Fleet} (hready : ∀ x ∈ cohort, Ready (settings x) (f x)) :
    ∃ unanimous' f', Runs (fun _ => Succeeds) ⟨c, .write op (.voting asked left unanimous), f⟩
        ⟨c, .write op (.voting asked [] unanimous'), f'⟩ ∧
      ∀ x ∈ cohort, Ready (settings x) (f' x) := by
  induction left generalizing unanimous f with
  | nil => exact ⟨unanimous, f, .refl, hready⟩
  | cons y left ih =>
    obtain ⟨hy, hleft⟩ := List.cons_subset.1 hleft
    obtain ⟨met, m, hmeets⟩ := (hready y hy).exists_succeeds op.request
    have hready' : ∀ x ∈ cohort, Ready (settings x) (Function.update f y m x) := fun x =>
      of_update (P := fun x m => x ∈ cohort → Ready (settings x) m)
        (fun _ => (hready y hy).succeeds_vote (hs y hy) hcheck hmeets) fun _ => hready x
    obtain ⟨unanimous', f', hrun, hready'⟩ :=
      ih (unanimous && met == .answered .voteCommit) hleft hready'
    exact ⟨unanimous', f', .head (.contact rfl hmeets) hrun, hready'⟩

/-- All members that are left are told the decision. -/
theorem exists_runs_deciding (hs : ∀ x ∈ cohort, (settings x).Serviceable) (c : Coordinator)
    (commit : Bool) (hleft : left ⊆ cohort) {f : Fleet}
    (hready : ∀ x ∈ cohort, Ready (settings x) (f x)) :
    ∃ f', Runs (fun _ => Succeeds) ⟨c, .write op (.deciding commit left), f⟩
      ⟨c, .write op (.deciding commit []), f'⟩ := by
  induction left generalizing f with
  | nil => exact ⟨f, .refl⟩
  | cons y left ih =>
    obtain ⟨hy, hleft⟩ := List.cons_subset.1 hleft
    obtain ⟨met, m, hmeets⟩ := (hready y hy).exists_succeeds (decisionRequest commit)
    obtain ⟨rfl, hready'⟩ := (hready y hy).succeeds_decision (hs y hy) hmeets
    obtain ⟨f', hrun⟩ := ih hleft (f := Function.update f y m) fun x =>
      of_update (P := fun x m => x ∈ cohort → Ready (settings x) m) (fun _ => hready')
        fun _ => hready x
    exact ⟨f', .head (.contact rfl hmeets) hrun⟩

/-- A write that is admitted ends if all contacts succeed, whatever its members wait for. -/
theorem exists_runs_finished (hs : ∀ x ∈ c.cohort op.key, (settings x).Serviceable)
    (hcheck : op.check = .ok ()) (hfull : c.ring.isFull = true) (hidle : c.busy = false)
    (hready : ∀ x ∈ c.cohort op.key, Ready (settings x) (f x)) :
    ∃ c' f' answer, Runs (fun _ => Succeeds) ⟨c, .ofWrite op.request, f⟩
      ⟨c', .write op (.finished answer), f'⟩ := by
  have hbegin : Runs (fun _ => Succeeds) _ _ := (advances_voting hcheck hfull hidle).runs f
  obtain ⟨unanimous, f₁, hvoting, hready₁⟩ := exists_runs_voting hs hcheck { c with busy := true }
    (c.cohort op.key) true (List.Subset.refl _) hready
  have hdecided := Relation.ReflTransGen.tail hvoting (.advance rfl)
  obtain ⟨f₂, hdeciding⟩ : ∃ f₂, Runs (fun _ => Succeeds)
      ⟨{ c with busy := true }, .write op (.deciding unanimous (c.cohort op.key)), f₁⟩
      ⟨{ c with busy := true }, .write op (.deciding unanimous []), f₂⟩ :=
    exists_runs_deciding hs _ unanimous (List.Subset.refl _) hready₁
  have hall := hbegin.trans (hdecided.trans hdeciding)
  cases unanimous with
  | true => exact ⟨_, f₂, _, hall.trans ((advances_success _ op).runs f₂)⟩
  | false => exact ⟨_, f₂, _, hall.trans ((advances_dropped _ op).runs f₂)⟩

end Succeeding

/-! ## What a write leaves -/

/-- A write that found a member waiting ended with a fault, and a write that did so changed no
value. No member of its cohort waits for a decision. So a write on these members whose contacts
succeed can end, ends with success, and is carried out. -/
structure Freed (settings : Member → ReplicaSettings) (op : Operation) (c : Coordinator) (f : Fleet)
    (answer : Response) (c' : Coordinator) (f' : Fleet) : Prop where
  faulted : (∃ x ∈ c.cohort op.key, (f x).pending? ≠ none) → answer = .ofFault .generic
  unchanged : answer = .ofFault .generic →
    ∀ x ∈ c.cohort op.key, f'.stored settings x = f.stored settings x
  released : ∀ x ∈ c.cohort op.key, (f' x).replica?.isSome ∧ (f' x).pending? = none
  next : ∀ op' : Operation, op'.check = .ok () → c.cohort op'.key ⊆ c.cohort op.key →
    (∃ c'' f'' answer', Runs (fun _ => Succeeds) ⟨c', .ofWrite op'.request, f'⟩
      ⟨c'', .write op' (.finished answer'), f''⟩) ∧
    ∀ c'' t f'' answer', Runs (fun _ => Succeeds) ⟨c', .ofWrite op'.request, f'⟩ ⟨c'', t, f''⟩ →
      t.demand = .finished answer' → answer' = .success ∧ ∀ x ∈ c.cohort op'.key,
        f''.stored settings x = op'.effect (f'.stored settings x)

/-- **A write frees its members, whatever they waited for.** A write that is admitted ends if its
contacts succeed. Whatever contacts were refused or lost and whatever calls failed on the way, when
it ends no member of its cohort waits for a decision. If one waited when it began, it ends with a
fault, and no member has carried out its operation or the one that it waited with. -/
theorem write_frees (hs : ∀ x ∈ c.ring.members, (settings x).Serviceable) (hring : c.ring.Ordered)
    (hfull : c.ring.isFull = true) (hidle : c.busy = false) (hcheck : op.check = .ok ())
    (hreached : ∀ x ∈ c.ring.members, Reached (settings x) (f x)) :
    ((∀ x ∈ c.cohort op.key, Ready (settings x) (f x)) →
      ∃ c' f' answer, Runs (fun _ => Succeeds) ⟨c, .ofWrite op.request, f⟩
        ⟨c', .write op (.finished answer), f'⟩) ∧
    ∀ c' t f' answer,
      Runs (fun x => Exchanges (settings x)) ⟨c, .ofWrite op.request, f⟩ ⟨c', t, f'⟩ →
      t.demand = .finished answer → Freed settings op c f answer c' f' := by
  have hs' : ∀ key, ∀ x ∈ c.cohort key, (settings x).Serviceable := fun key x hx =>
    hs x (mem_members hx)
  refine ⟨exists_runs_finished (hs' op.key) hcheck hfull hidle, ?_⟩
  intro c' t f' answer hrun hend
  obtain ⟨hring', hsettings', hidle', hended⟩ := ended_of_runs (hs' op.key) hcheck hfull hidle
    (fun x hx => (hreached x (mem_members hx)).usable (hs' op.key x hx)) hrun hend
  have hreleased : ∀ x ∈ c.cohort op.key, ∃ M, Released (settings x) M (f' x) := by
    intro x hx
    rcases hended x hx with ⟨-, -, h⟩ | ⟨-, h⟩
    · exact ⟨_, h⟩
    · exact ⟨_, h⟩
  refine ⟨?_, ?_, ?_, ?_⟩
  · rintro ⟨x, hx, hstuck⟩
    rcases hended x hx with ⟨-, hfresh, -⟩ | ⟨hanswer, -⟩
    · exact absurd hstuck hfresh
    · exact hanswer
  · rintro rfl x hx
    rcases hended x hx with ⟨hanswer, -⟩ | ⟨-, h⟩
    · exact absurd hanswer (by decide)
    · exact h.stored_eq
  · intro x hx
    obtain ⟨M, hM⟩ := hreleased x hx
    exact ⟨hM.isSome, hM.pending_eq⟩
  · intro op' hcheck' hsubset
    have hcohort : c'.cohort op'.key = c.cohort op'.key := cohort_eq hring' hsettings' op'.key
    rw [← hcohort] at hsubset ⊢
    have hs'' : ∀ x ∈ c'.cohort op'.key, (settings x).Serviceable := fun x hx =>
      hs' _ x (hsubset hx)
    have hfull' : c'.ring.isFull = true := (congrArg Ring.isFull hring').trans hfull
    have hnodup : (c'.cohort op'.key).Nodup := by
      rw [hcohort]
      exact hring.nodup_cohort _ _
    refine ⟨exists_runs_finished hs'' hcheck' hfull' hidle' fun x hx => ?_, ?_⟩
    · obtain ⟨M, hM⟩ := hreleased x (hsubset hx)
      exact hM.ready
    · intro c'' t f'' answer' hrun' hend'
      obtain rfl := success_of_runs hs'' hnodup hcheck' hfull' hidle'
        (fun x hx => hreleased x (hsubset hx)) hrun' hend'
      refine ⟨rfl, fun x hx => ?_⟩
      obtain ⟨-, -, -, hended'⟩ := ended_of_runs hs'' hcheck' hfull' hidle' (fun x hx => by
        obtain ⟨M, hM⟩ := hreleased x (hsubset hx)
        exact hM.usable) (hrun'.exchanges settings) hend'
      rcases hended' x hx with ⟨-, -, h⟩ | ⟨hanswer, -⟩
      · exact h.stored_eq
      · exact absurd hanswer (by decide)

/-! ## A member that was left behind -/

/-- A replica that was opened on an empty disk, and one that has also voted. -/
theorem exists_left_behind {settings : ReplicaSettings} (hs : settings.Serviceable)
    (hcheck : op.check = .ok ()) :
    ∃ m m', Reached settings m ∧ Ready settings m ∧
      Reached settings m' ∧ Ready settings m' ∧ m'.pending? = some op := by
  obtain ⟨r, d, hopen, hat⟩ := (at_off settings.kept_empty).opens hs
  have hopenable : Replica.Openable settings Disk.empty :=
    ⟨_, [], Replica.readable_nil, settings.kept_empty.stocked⟩
  have hreached : Reached settings ⟨d, some r⟩ :=
    ⟨_, hopenable, .single (.switched (.on hopen))⟩
  have hphase : r.phase = .ready := hat.sound.phase_eq
  have hsize : r.journal.size + 1 < Journal.recordBound := by
    rw [hat.sound.journal_eq]
    exact (show 1 < Journal.recordBound by decide)
  obtain ⟨M, hreleased⟩ : ∃ M, Released settings M ⟨d, some r⟩ := by
    rcases hreached.usable hs with ⟨M, op', rs, n, h⟩ | ⟨M, rs, n, h⟩
    · exact absurd (hphase.symm.trans h.phase_eq) (by simp)
    · exact ⟨M, r, rs, n, rfl, h⟩
  obtain ⟨met, m', hmeets⟩ := hreleased.ready.exists_succeeds op.request
  have hready := hreleased.ready.succeeds_vote hs hcheck hmeets
  obtain ⟨-, r', hr', hengaged⟩ := hreleased.succeeds_vote hs hcheck hmeets
  have hheld : Held settings M op m' := ⟨r', _, _, hr', hengaged⟩
  refine ⟨_, m', hreached, hreleased.ready, ?_, hready, hheld.pending_eq⟩
  obtain ⟨start, hstart, hrun⟩ := hreached
  cases hmeets with
  | answered hroom hserve =>
    exact ⟨start, hstart, hrun.tail (.served hsize (Action.fares_of_run hserve))⟩

/-- One of two members was left behind with an operation. A write on both drops it and ends with a
fault, and the next one ends with success. -/
theorem write_frees_pair :
    ∃ (c c' : Coordinator) (f f' : Fleet), c.ring = pair ∧
      (∃ x ∈ c.cohort "k", (f x).pending? = some (.put "k" "v")) ∧
      Runs (fun _ => Succeeds) ⟨c, .ofWrite (.put "k" "w"), f⟩
        ⟨c', .write (.put "k" "w") (.finished (.ofFault .generic)), f'⟩ ∧
      Freed (fun _ => .ofDataDir "data") (.put "k" "w") c f (.ofFault .generic) c' f' := by
  have hs : (ReplicaSettings.ofDataDir "data").Serviceable := ⟨rfl, _, rfl⟩
  obtain ⟨cache, -⟩ := hs.cache
  obtain ⟨m, m', hreached, hready, hreached', hready', hpending⟩ :=
    exists_left_behind hs (show (Operation.put "k" "v").check = .ok () by decide)
  let f : Fleet := fun x => if x.id = 0 then m' else m
  have hf : ∀ {P : Machine → Prop}, P m → P m' → ∀ x, P (f x) := by
    intro P hm hm' x
    show P (if x.id = 0 then m' else m)
    split
    · exact hm'
    · exact hm
  have hring : pair.Ordered := by
    simp [Ring.Ordered, pair]
  let c : Coordinator := ⟨.standard, pair, cache, false, 0⟩
  have hreached : ∀ x ∈ c.ring.members, Reached (.ofDataDir "data") (f x) := fun x _ =>
    hf hreached hreached' x
  have hcheck : (Operation.put "k" "w").check = .ok () := by decide
  have hfrees :=
    write_frees (fun _ _ => hs) (show c.ring.Ordered from hring) rfl rfl hcheck hreached
  obtain ⟨c', f', answer, hrun⟩ := hfrees.1 fun x _ => hf hready hready' x
  have hfreed := hfrees.2 c' _ f' answer (hrun.exchanges _) rfl
  have hzero : (⟨0, "localhost", 4001⟩ : Member) ∈ c.cohort "k" := by
    show _ ∈ pair.cohort "k" 2
    decide
  have hstuck : (f ⟨0, "localhost", 4001⟩).pending? = some (.put "k" "v") := hpending
  obtain rfl : answer = .ofFault .generic := hfreed.faulted ⟨_, hzero, by simp [hstuck]⟩
  exact ⟨_, c', f, f', rfl, ⟨_, hzero, hstuck⟩, hrun, hfreed⟩

/-- A write that is over a limit reaches no member, and frees none. -/
theorem refused_frees_none :
    ∃ (c : Coordinator) (f : Fleet) (t : Task) (value : String), c.ring = pair ∧
      c.ring.isFull = true ∧ c.busy = false ∧ (∀ x, Reached (.ofDataDir "data") (f x)) ∧
      Runs (fun _ => Succeeds) ⟨c, .ofWrite (.put "k" value), f⟩ ⟨c, t, f⟩ ∧
      t.demand = .finished (.ofFault .valueTooLong) ∧
      Response.ofFault .valueTooLong ≠ .ofFault .generic ∧
      ∀ x, (f x).pending? = some (.put "k" "v") := by
  have hs : (ReplicaSettings.ofDataDir "data").Serviceable := ⟨rfl, _, rfl⟩
  obtain ⟨cache, -⟩ := hs.cache
  obtain ⟨-, m', -, -, hreached', -, hpending⟩ :=
    exists_left_behind hs (show (Operation.put "k" "v").check = .ok () by decide)
  let long := String.ofList (List.replicate 1025 'x')
  have hcheck : (Operation.put "k" long).check = .error .valueTooLong := by decide +kernel
  exact ⟨⟨.standard, pair, cache, false, 0⟩, fun _ => m', _, long, rfl, rfl, rfl,
    fun _ => hreached', (advances_refused hcheck).runs _, rfl, by decide, fun _ => hpending⟩

end Coordinator

end RingStore
