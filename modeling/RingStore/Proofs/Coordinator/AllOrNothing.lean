import RingStore.Proofs.Coordinator.Meeting
import RingStore.Proofs.Coordinator.Stages

/-!
# Writes are all or nothing

A coordinator carries out one write after the other, while the machines of the members go on and off
at any time and each contact with a member may fail in any way. When a write ends, either all
members of the key's cohort have carried it out or none has, no other member has changed, and no
member waits for a decision. What carries this through a write is what its stage promises of each
member of the cohort (`Writing.Promise`).
-/

namespace RingStore

namespace Coordinator

open Machine Fleet

/-- A task of a coordinator, and the machines of the members. -/
structure System where
  coordinator : Coordinator
  task : Task
  fleet : Fleet

variable {settings : Member → ReplicaSettings} {before : Member → Store.Contents} {op : Operation}
  {cohort : List Member} {c c' : Coordinator} {f f' : Fleet} {s s' : System} {x : Member}

/-- One step of the task, or a machine that goes on or off. -/
inductive Step (settings : Member → ReplicaSettings) : System → System → Prop
  /-- The task takes a step on the coordinator's state. -/
  | advance {c : Coordinator} {t : Task} {f : Fleet} (h : t.demand = .step) :
    Step settings ⟨c, t, f⟩ ⟨(t.advance c).1, (t.advance c).2.1, f⟩
  /-- The task puts a request to a member. -/
  | contact {c : Coordinator} {t : Task} {f : Fleet} {x : Member} {q : Request} {met : Contact}
    {m : Machine} (h : t.demand = .contact x q) (hmeets : Meets q (f x) met m) :
    Step settings ⟨c, t, f⟩ ⟨c, (t.contacted met).1, Function.update f x m⟩
  /-- The machine of a member goes on or off. -/
  | switched {c : Coordinator} {t : Task} {f : Fleet} {x : Member} {m : Machine}
    (h : Switched (settings x) (f x) m) :
    Step settings ⟨c, t, f⟩ ⟨c, t, Function.update f x m⟩

/-! ## What a stage promises -/

namespace Writing

/-- What a stage of a write promises of the machine of a member of the cohort that held `M` before
the write. -/
def Promise (settings : ReplicaSettings) (M : Store.Contents) (op : Operation) (x : Member)
    (m : Machine) : Writing → Prop
  | checking | admission | entering | routing => Calm settings M m
  | voting _ left unanimous =>
    Asked settings M op m ∧ (unanimous = true → x ∈ left ∨ Waiting settings M op m)
  | deciding true left => Due settings M op m ∧ (x ∈ left ∨ Calm settings (op.effect M) m)
  | deciding false left => Asked settings M op m ∧ (x ∈ left ∨ Calm settings M m)
  | settling => Calm settings (op.effect M) m
  | leaving r | finished r => Calm settings (if r.isSuccess then op.effect M else M) m

variable {stage : Writing} {set : ReplicaSettings} {M : Store.Contents} {m m' : Machine}
  {met : Contact} {q : Request}

theorem Promise.switched (h : stage.Promise set M op x m) (hs : set.Serviceable)
    (hstep : Switched set m m') : stage.Promise set M op x m' := by
  cases stage with
  | checking | admission | entering | routing | settling | leaving r | finished r =>
    exact Calm.switched h hs hstep
  | voting asked left unanimous =>
    exact ⟨h.1.switched hs hstep, fun hall => (h.2 hall).imp_right fun hw => hw.switched hs hstep⟩
  | deciding commit left =>
    cases commit with
    | true => exact ⟨h.1.switched hs hstep, h.2.imp_right fun hc => hc.switched hs hstep⟩
    | false => exact ⟨h.1.switched hs hstep, h.2.imp_right fun hc => hc.switched hs hstep⟩

theorem calm_of_fault (h : Calm set M m) (f : Fault) :
    Calm set (if (Response.ofFault f).isSuccess then op.effect M else M) m := by
  rwa [Response.isSuccess_ofFault]

/-- A step of the write keeps its promise to each member of the cohort. -/
theorem Promise.advance (h : stage.Promise set M op x m) (hproper : stage.Proper op cohort)
    (hcohort : c.cohort op.key = cohort) (hx : x ∈ cohort) :
    (stage.advance c op).2.1.Promise set M op x m := by
  cases stage with
  | checking =>
    simp only [Writing.advance]
    split
    · exact calm_of_fault h _
    · exact h
  | admission =>
    simp only [Writing.advance]
    split
    · exact h
    · exact calm_of_fault h _
  | entering =>
    simp only [Writing.advance]
    split
    · exact calm_of_fault h _
    · exact h
  | routing => exact ⟨.inl h, fun _ => .inl (hcohort ▸ hx)⟩
  | voting asked left unanimous =>
    obtain ⟨-, rfl, -⟩ := hproper
    cases left with
    | cons y left => exact h
    | nil =>
      cases unanimous with
      | true => exact ⟨.inl ((h.2 rfl).resolve_left (by simp)), .inl hx⟩
      | false => exact ⟨h.1, .inl hx⟩
  | deciding commit left =>
    cases left with
    | cons y left => cases commit <;> exact h
    | nil =>
      cases commit with
      | true => exact h.2.resolve_left (by simp)
      | false => exact calm_of_fault (h.2.resolve_left (by simp)) _
  | settling => exact h
  | leaving r | finished r => exact h

/-- The member that is met keeps the promise of the next stage. -/
theorem Promise.of_meets (h : stage.Promise set M op x m) (hproper : stage.Proper op cohort)
    (hs : set.Serviceable) (hfree : op.ZeroFree) (hdemand : stage.demand op = .contact x q)
    (hmeets : Meets q m met m') : (stage.contacted met).1.Promise set M op x m' := by
  rcases demand_eq_contact hdemand with ⟨asked, left, unanimous, rfl, rfl⟩
    | ⟨commit, left, rfl, rfl⟩
  · rcases h.1 with hcalm | hwaiting
    · obtain ⟨hasked, hvoted⟩ := hcalm.asked hs hproper.1 hfree hmeets
      refine ⟨hasked, fun hall => .inr (hvoted ?_)⟩
      simp only [Bool.and_eq_true, beq_iff_eq] at hall
      exact hall.2
    · -- a member that has voted refuses to vote again, and keeps to its vote
      have hwaiting' := hwaiting.asked hs hfree hmeets
      exact ⟨.inr hwaiting', fun _ => .inr hwaiting'⟩
  · cases commit with
    | true =>
      obtain ⟨hdue, hack⟩ := Due.committed h.1 hs hmeets
      refine ⟨hdue, ?_⟩
      by_cases hmet : met = .answered .ack
      · exact .inr (hack hmet)
      · rw [if_neg hmet]
        exact .inl List.mem_cons_self
    | false =>
      obtain ⟨hasked, hack⟩ := Asked.aborted h.1 hs hmeets
      refine ⟨hasked, ?_⟩
      by_cases hmet : met = .answered .ack
      · exact .inr (hack hmet)
      · rw [if_neg hmet]
        exact .inl List.mem_cons_self

/-- The other members keep the promise too. -/
theorem Promise.contacted (h : stage.Promise set M op x m) {y : Member} (hxy : x ≠ y)
    (hdemand : stage.demand op = .contact y q) : (stage.contacted met).1.Promise set M op x m := by
  have hleft : ∀ left, x ∈ y :: left → x ∈ left := fun left hx =>
    (List.mem_cons.1 hx).resolve_left hxy
  rcases demand_eq_contact hdemand with ⟨asked, left, unanimous, rfl, rfl⟩
    | ⟨commit, left, rfl, rfl⟩
  · refine ⟨h.1, fun hall => ?_⟩
    simp only [Bool.and_eq_true] at hall
    exact (h.2 hall.1).imp_left (hleft left)
  · have hstep : ∀ {P : Prop}, x ∈ y :: left ∨ P →
        x ∈ (if met = .answered .ack then left else y :: left) ∨ P := by
      intro P hP
      split
      · exact hP.imp_left (hleft left)
      · exact hP
    cases commit with
    | true => exact ⟨h.1, hstep h.2⟩
    | false => exact ⟨h.1, hstep h.2⟩

end Writing

/-! ## One write -/

/-- A write on the members' contents is under way, and keeps its promises. -/
structure Transacting (settings : Member → ReplicaSettings) (before : Member → Store.Contents)
    (op : Operation) (c : Coordinator) (s : System) : Prop where
  ring_eq : s.coordinator.ring = c.ring
  settings_eq : s.coordinator.settings = c.settings
  stage : ∃ stage, s.task = .write op stage ∧ stage.Proper op (c.cohort op.key) ∧
    ∀ x ∈ c.cohort op.key, stage.Promise (settings x) (before x) op x (s.fleet x)
  others : ∀ x ∈ c.ring.members, x ∉ c.cohort op.key → Calm (settings x) (before x) (s.fleet x)

/-- Every step of the system keeps the promises of the write. -/
theorem Transacting.step (h : Transacting settings before op c s)
    (hs : ∀ x ∈ c.ring.members, (settings x).Serviceable) (hfree : op.ZeroFree)
    (hstep : Step settings s s') : Transacting settings before op c s' := by
  obtain ⟨hring, hsettings, ⟨stage, htask, hproper, hpromise⟩, hothers⟩ := h
  cases hstep with
  | @advance c' t f hdemand =>
    subst htask
    have hcohort : c'.cohort op.key = c.cohort op.key := cohort_eq hring hsettings op.key
    obtain ⟨hring', hsettings'⟩ := Writing.advance_fixed c' op stage
    exact
      { ring_eq := hring'.trans hring
        settings_eq := hsettings'.trans hsettings
        stage := ⟨_, rfl, hproper.advance hcohort, fun x hx =>
          (hpromise x hx).advance hproper hcohort hx⟩
        others := hothers }
  | @contact c' t f y q met m hdemand hmeets =>
    subst htask
    have hy : y ∈ c.cohort op.key := by
      rcases Writing.demand_eq_contact hdemand with
        ⟨asked, left, unanimous, rfl, -⟩ | ⟨commit, left, rfl, -⟩
      · exact hproper.2.2 List.mem_cons_self
      · exact hproper List.mem_cons_self
    refine ⟨hring, hsettings, ⟨_, rfl, hproper.contacted met, fun x => ?_⟩, fun x => ?_⟩
    · exact of_update (P := fun x m => x ∈ c.cohort op.key →
          (stage.contacted met).1.Promise (settings x) (before x) op x m)
        (fun _ => (hpromise y hy).of_meets hproper (hs y (mem_members hy)) hfree hdemand hmeets)
        fun hxy hx => (hpromise x hx).contacted hxy hdemand
    · exact of_update (P := fun x m => x ∈ c.ring.members → x ∉ c.cohort op.key →
          Calm (settings x) (before x) m)
        (fun _ hout => absurd hy hout) fun _ => hothers x
  | @switched c' t f y m hswitched =>
    refine ⟨hring, hsettings, ⟨stage, htask, hproper, fun x => ?_⟩, fun x => ?_⟩
    · exact of_update (P := fun x m => x ∈ c.cohort op.key →
          stage.Promise (settings x) (before x) op x m)
        (fun hy => (hpromise y hy).switched (hs y (mem_members hy)) hswitched) fun _ => hpromise x
    · exact of_update (P := fun x m => x ∈ c.ring.members → x ∉ c.cohort op.key →
          Calm (settings x) (before x) m)
        (fun hy hout => (hothers y hy hout).switched (hs y hy) hswitched) fun _ => hothers x

/-- What the system can come to. -/
def Run (settings : Member → ReplicaSettings) : System → System → Prop :=
  Relation.ReflTransGen (Step settings)

theorem Transacting.run (h : Transacting settings before op c s)
    (hs : ∀ x ∈ c.ring.members, (settings x).Serviceable) (hfree : op.ZeroFree)
    (hrun : Run settings s s') : Transacting settings before op c s' := by
  induction hrun with
  | refl => exact h
  | tail _ hstep ih => exact ih.step hs hfree hstep

/-- What a member holds after a write. -/
def outcome (before : Member → Store.Contents) (op : Operation) (cohort : List Member)
    (r : Response) (x : Member) : Store.Contents :=
  if x ∈ cohort ∧ r.isSuccess = true then op.effect (before x) else before x

/-- When a write ends, all members are calm again. -/
theorem calm_of_run (hs : ∀ x ∈ c.ring.members, (settings x).Serviceable) (hfree : op.ZeroFree)
    (hcalm : ∀ x ∈ c.ring.members, Calm (settings x) (before x) (f x)) {t : Task} {r : Response}
    (hrun : Run settings ⟨c, .ofWrite op.request, f⟩ ⟨c', t, f'⟩) (hend : t.demand = .finished r) :
    c'.ring = c.ring ∧ c'.settings = c.settings ∧ ∀ x ∈ c.ring.members,
      Calm (settings x) (outcome before op (c.cohort op.key) r x) (f' x) := by
  have hstart : Transacting settings before op c ⟨c, .ofWrite op.request, f⟩ :=
    { ring_eq := rfl
      settings_eq := rfl
      stage := ⟨.checking, by simp [Task.ofWrite], trivial, fun x hx => hcalm x (mem_members hx)⟩
      others := fun x hx _ => hcalm x hx }
  obtain ⟨hring, hsettings, ⟨stage, rfl, -, hpromise⟩, hothers⟩ := hstart.run hs hfree hrun
  refine ⟨hring, hsettings, fun x hx => ?_⟩
  obtain rfl := Writing.eq_finished_of_demand hend
  by_cases hin : x ∈ c.cohort op.key
  · simp only [outcome, hin, true_and]
    exact hpromise x hin
  · rw [outcome, if_neg (fun h => hin h.1)]
    exact hothers x hx hin

/-! ## One write after the other -/

/-- A write that ended, with the machines as it found them and as it left them. -/
structure Call where
  /-- What it was asked to carry out. -/
  op : Operation
  /-- The machines when it began. -/
  before : Fleet
  response : Response
  /-- The machines when it ended. -/
  after : Fleet

/-- The writes that a coordinator was called for, in their order, each begun when the one before had
ended. -/
inductive Calls (settings : Member → ReplicaSettings) (c : Coordinator) (f : Fleet) :
    List Call → Coordinator → Fleet → Prop
  | none : Calls settings c f [] c f
  | call {calls : List Call} {c' c'' : Coordinator} {f' f'' : Fleet} {op : Operation} {t : Task}
    {r : Response} (h : Calls settings c f calls c' f')
    (hrun : Run settings ⟨c', .ofWrite op.request, f'⟩ ⟨c'', t, f''⟩)
    (hend : t.demand = .finished r) : Calls settings c f (calls ++ [⟨op, f', r, f''⟩]) c'' f''

/-- The members of the key's cohort all hold the same for it. -/
def Agree (settings : Member → ReplicaSettings) (c : Coordinator) (key : String) (f : Fleet) :
    Prop :=
  ∀ x ∈ c.cohort key, ∀ y ∈ c.cohort key, f.stored settings x key = f.stored settings y key

/-- All members of the cohort have carried a successful write out. Any other write has changed
nothing, no write changes another member, and afterwards no member waits for a decision. -/
structure Call.Atomic (settings : Member → ReplicaSettings) (c : Coordinator) (call : Call) :
    Prop where
  carried : call.response.isSuccess = true → ∀ x ∈ c.cohort call.op.key,
    call.after.stored settings x = call.op.effect (call.before.stored settings x)
  dropped : call.response.isSuccess = false → ∀ x ∈ c.ring.members,
    call.after.stored settings x = call.before.stored settings x
  others : ∀ x ∈ c.ring.members, x ∉ c.cohort call.op.key →
    call.after.stored settings x = call.before.stored settings x
  decided : ∀ x ∈ c.ring.members, (call.after x).Decided (settings x)

theorem atomic_of_calm {r : Response}
    (hbefore : ∀ x ∈ c.ring.members, Calm (settings x) (before x) (f x))
    (hafter : ∀ x ∈ c.ring.members,
      Calm (settings x) (outcome before op (c.cohort op.key) r x) (f' x))
    (hs : ∀ x ∈ c.ring.members, (settings x).Serviceable) :
    Call.Atomic settings c ⟨op, f, r, f'⟩ where
  carried := fun hr x hx => by
    have hmem := mem_members hx
    rw [stored_of_calm (hafter x hmem), stored_of_calm (hbefore x hmem), outcome, if_pos ⟨hx, hr⟩]
  dropped := fun hr x hx => by
    rw [stored_of_calm (hafter x hx), stored_of_calm (hbefore x hx), outcome,
      if_neg fun h => by simp [hr] at h]
  others := fun x hx hout => by
    rw [stored_of_calm (hafter x hx), stored_of_calm (hbefore x hx), outcome,
      if_neg fun h => hout h.1]
  decided := fun x hx => (hafter x hx).decided (hs x hx)

/-- A write leaves the members that agreed on a key in agreement, and brings them to agree on its
own key if it was successful. -/
theorem Call.Atomic.agree {call : Call} (h : call.Atomic settings c) {key : String}
    (hagree : Agree settings c key call.before ∨
      call.op.key = key ∧ call.response.isSuccess = true) : Agree settings c key call.after := by
  intro x hx y hy
  by_cases hsuccess : call.op.key = key ∧ call.response.isSuccess = true
  · obtain ⟨rfl, hr⟩ := hsuccess
    rw [h.carried hr x hx, h.carried hr y hy, Operation.effect, Operation.effect,
      Function.update_self, Function.update_self]
  · have hkept : ∀ z ∈ c.cohort key,
        call.after.stored settings z key = call.before.stored settings z key := by
      intro z hz
      by_cases hr : call.response.isSuccess = true
      · have hkey : key ≠ call.op.key := fun heq => hsuccess ⟨heq.symm, hr⟩
        by_cases hin : z ∈ c.cohort call.op.key
        · rw [h.carried hr z hin, Operation.effect, Function.update_of_ne hkey]
        · rw [h.others z (mem_members hz) hin]
      · rw [h.dropped (by simpa using hr) z (mem_members hz)]
    rw [hkept x hx, hkept y hy]
    exact hagree.resolve_right hsuccess x hx y hy

/-- What is so after any number of writes. -/
structure Served (settings : Member → ReplicaSettings) (c : Coordinator) (f : Fleet)
    (calls : List Call) (c' : Coordinator) (f' : Fleet) : Prop where
  ring_eq : c'.ring = c.ring
  settings_eq : c'.settings = c.settings
  calm : ∃ M : Member → Store.Contents, ∀ x ∈ c.ring.members, Calm (settings x) (M x) (f' x)
  atomic : ∀ call ∈ calls, call.Atomic settings c
  agree : ∀ key, Agree settings c key f ∨
    (∃ call ∈ calls, call.op.key = key ∧ call.response.isSuccess = true) → Agree settings c key f'

theorem Calls.served {calls : List Call} (h : Calls settings c f calls c' f')
    (hs : ∀ x ∈ c.ring.members, (settings x).Serviceable)
    (hcalm : ∃ M : Member → Store.Contents, ∀ x ∈ c.ring.members, Calm (settings x) (M x) (f x))
    (hfree : ∀ call ∈ calls, call.op.ZeroFree) : Served settings c f calls c' f' := by
  induction h with
  | none => exact ⟨rfl, rfl, hcalm, by simp, by simp⟩
  | @call calls c' c'' f' f'' op t r _ hrun hend ih =>
    have hserved := ih fun call hcall => hfree call (List.mem_append_left _ hcall)
    have hop : op.ZeroFree := hfree ⟨op, f', r, f''⟩ (by simp)
    obtain ⟨M, hM⟩ := hserved.calm
    rw [← hserved.ring_eq] at hs hM
    obtain ⟨hring, hsettings, hafter⟩ := calm_of_run hs hop hM hrun hend
    rw [cohort_eq hserved.ring_eq hserved.settings_eq] at hafter
    rw [hserved.ring_eq] at hs hM hafter hring
    have hatomic := atomic_of_calm hM hafter hs
    refine ⟨hring, hsettings.trans hserved.settings_eq, ⟨_, hafter⟩, fun call hcall => ?_,
      fun key hkey => hatomic.agree ?_⟩
    · rcases List.mem_append.1 hcall with hcall | hcall
      · exact hserved.atomic call hcall
      · obtain rfl := List.mem_singleton.1 hcall
        exact hatomic
    · rcases hkey with hstart | ⟨call, hcall, hkey⟩
      · exact .inl (hserved.agree key (.inl hstart))
      · rcases List.mem_append.1 hcall with hcall | hcall
        · exact .inl (hserved.agree key (.inr ⟨call, hcall, hkey⟩))
        · obtain rfl := List.mem_singleton.1 hcall
          exact .inr hkey

/-- Writes are all or nothing, whatever becomes of contacts and machines. The members of a key's
cohort hold the same for the key as soon as a write on it was successful, and before if they did
when the first write began. -/
theorem all_or_nothing {calls : List Call}
    (hopened : ∀ x ∈ c.ring.members, (f x).Opened (settings x))
    (hfree : ∀ call ∈ calls, call.op.ZeroFree) (hcalls : Calls settings c f calls c' f') :
    (∀ call ∈ calls, call.Atomic settings c) ∧
      ∀ key, Agree settings c key f ∨
        (∃ call ∈ calls, call.op.key = key ∧ call.response.isSuccess = true) →
          Agree settings c key f' := by
  have hs : ∀ x ∈ c.ring.members, (settings x).Serviceable := fun x hx => (hopened x hx).serviceable
  have hcalm :
      ∃ M : Member → Store.Contents, ∀ x ∈ c.ring.members, Calm (settings x) (M x) (f x) := by
    refine ⟨fun x => f.stored settings x, fun x hx => ?_⟩
    obtain ⟨M, hM⟩ := (hopened x hx).calm
    show Calm (settings x) (f.stored settings x) (f x)
    rwa [stored_of_calm hM]
  have hserved := hcalls.served hs hcalm hfree
  exact ⟨hserved.atomic, hserved.agree⟩

/-! ## Writes that go well -/

theorem Advances.run {t t' : Task} (h : Advances (c, t) (c', t'))
    (settings : Member → ReplicaSettings) (f : Fleet) :
    Run settings ⟨c, t, f⟩ ⟨c', t', f⟩ := by
  refine h.lift (fun p => (⟨p.1, p.2, f⟩ : System)) ?_
  rintro ⟨c, t⟩ p ⟨hdemand, -, rfl⟩
  exact .advance hdemand

/-- All members that are left vote for the operation, if each of them runs and is asked once. -/
theorem exists_run_voting (hs : ∀ x, (settings x).Serviceable) (hcheck : op.check = .ok ())
    (hfree : op.ZeroFree) (c : Coordinator) (cohort : List Member) {left : List Member}
    (hleft : left.Nodup) {f : Fleet}
    (hcalm : ∀ x ∈ left, (f x).replica?.isSome ∧ Calm (settings x) (before x) (f x)) :
    ∃ f', Run settings ⟨c, .write op (.voting cohort left true), f⟩
        ⟨c, .write op (.voting cohort [] true), f'⟩ ∧
      (∀ x ∈ left, (f' x).replica?.isSome ∧ Waiting (settings x) (before x) op (f' x)) ∧
      ∀ x ∉ left, f' x = f x := by
  induction left generalizing f with
  | nil => exact ⟨f, .refl, by simp, fun _ _ => rfl⟩
  | cons y left ih =>
    obtain ⟨hy, hleft⟩ := List.nodup_cons.1 hleft
    obtain ⟨hon, hcalm'⟩ := hcalm y List.mem_cons_self
    obtain ⟨m, hmeets, hon', hwaiting⟩ := hcalm'.votes hon (hs y) hcheck hfree
    obtain ⟨f', hrun, hvoted, hsame⟩ := ih hleft (f := Function.update f y m) fun x hx => by
      rw [Function.update_of_ne (ne_of_mem_of_not_mem hx hy)]
      exact hcalm x (List.mem_cons_of_mem _ hx)
    refine ⟨f', .head (.contact rfl hmeets) hrun, fun x hx => ?_, fun x hx => ?_⟩
    · rcases List.mem_cons.1 hx with rfl | hx
      · rw [hsame x hy, Function.update_self]
        exact ⟨hon', hwaiting⟩
      · exact hvoted x hx
    · obtain ⟨hxy, hx⟩ := not_or.1 (mt List.mem_cons.2 hx)
      rw [hsame x hx, Function.update_of_ne hxy]

/-- All members that are left carry the operation out, if each of them runs and is told once. -/
theorem exists_run_deciding (hs : ∀ x, (settings x).Serviceable) (c : Coordinator)
    {left : List Member} (hleft : left.Nodup) {f : Fleet}
    (hwaiting : ∀ x ∈ left, (f x).replica?.isSome ∧ Waiting (settings x) (before x) op (f x)) :
    ∃ f', Run settings ⟨c, .write op (.deciding true left), f⟩
      ⟨c, .write op (.deciding true []), f'⟩ := by
  induction left generalizing f with
  | nil => exact ⟨f, .refl⟩
  | cons y left ih =>
    obtain ⟨hy, hleft⟩ := List.nodup_cons.1 hleft
    obtain ⟨hon, hwaiting'⟩ := hwaiting y List.mem_cons_self
    obtain ⟨m, hmeets, -⟩ := hwaiting'.commits hon (hs y)
    obtain ⟨f', hrun⟩ := ih hleft (f := Function.update f y m) fun x hx => by
      rw [Function.update_of_ne (ne_of_mem_of_not_mem hx hy)]
      exact hwaiting x (List.mem_cons_of_mem _ hx)
    exact ⟨f', .head (.contact rfl hmeets) hrun⟩

/-- A write within the limits can succeed if the ring is full, no other write is under way, and all
members of the cohort run. -/
theorem exists_run_success (op : Operation) (hs : ∀ x, (settings x).Serviceable)
    (hcheck : op.check = .ok ()) (hfree : op.ZeroFree) (hfull : c.ring.isFull = true)
    (hidle : c.busy = false)
    (hcohort : (c.cohort op.key).Nodup)
    (hcalm : ∀ x ∈ c.cohort op.key, (f x).replica?.isSome ∧
      Calm (settings x) (before x) (f x)) :
    ∃ c' f', Run settings ⟨c, .ofWrite op.request, f⟩ ⟨c', .write op (.finished .success), f'⟩ := by
  obtain ⟨f₁, hvoting, hvoted, -⟩ := exists_run_voting hs hcheck hfree { c with busy := true }
    (c.cohort op.key) hcohort hcalm
  obtain ⟨f₂, hdeciding⟩ := exists_run_deciding hs { c with busy := true } hcohort hvoted
  have hbegin := (advances_voting hcheck hfull hidle).run settings f
  have hdecided := Relation.ReflTransGen.tail hvoting (.advance rfl)
  have hend := (advances_success { c with busy := true } op).run settings f₂
  exact ⟨_, f₂, hbegin.trans (hdecided.trans (hdeciding.trans hend))⟩

/-- A full ring of two members. -/
def pair : Ring := ⟨2, [⟨0, "localhost", 4001⟩, ⟨1, "localhost", 4002⟩]⟩

theorem pair_cohort : pair.cohort "k" 2 = pair.members := by decide

/-- Two replicas begin with nothing, and both carry a write out. -/
theorem all_or_nothing_of_put :
    ∃ (c c' : Coordinator) (f f' : Fleet), c.ring = pair ∧
      (∀ x ∈ c.ring.members, (f x).Opened (.ofDataDir "data")) ∧
      Calls (fun _ => .ofDataDir "data") c f [⟨.put "k" "v", f, .success, f'⟩] c' f' ∧
      ∀ x ∈ c.ring.members, f'.stored (fun _ => .ofDataDir "data") x "k" = some "v" := by
  have hs : (ReplicaSettings.ofDataDir "data").Serviceable := ⟨rfl, _, rfl⟩
  obtain ⟨cache, -⟩ := hs.cache
  obtain ⟨m, hopened, hon, hcalm⟩ := exists_opened hs (ReplicaSettings.kept_empty _) (by simp)
  obtain ⟨c', f', hrun⟩ := exists_run_success (c := ⟨.standard, pair, cache, false, 0⟩)
    (f := fun _ => m) (.put "k" "v") (fun _ => hs) (by decide) (by decide) rfl rfl
    (show (pair.cohort "k" 2).Nodup by decide) fun _ _ => ⟨hon, hcalm⟩
  have hcalls := Calls.none.call hrun rfl
  have hfree : ∀ call ∈ [Call.mk (.put "k" "v") (fun _ => m) .success f'], call.op.ZeroFree := by
    intro call hcall
    obtain rfl := List.mem_singleton.1 hcall
    show (Operation.put "k" "v").ZeroFree
    decide
  have hatomic := (all_or_nothing (fun _ _ => hopened) hfree hcalls).1 _ (List.mem_singleton.2 rfl)
  refine ⟨_, c', _, f', rfl, fun _ _ => hopened, hcalls, fun x hx => ?_⟩
  have hin : x ∈ (⟨.standard, pair, cache, false, 0⟩ : Coordinator).cohort "k" := by
    rw [← pair_cohort] at hx
    exact hx
  have hcarried : f'.stored (fun _ => .ofDataDir "data") x = _ := hatomic.carried rfl x hin
  rw [hcarried, Operation.effect]
  exact Function.update_self _ _ _

/-- A write beyond the limits changes nothing. -/
theorem calls_refused {fault : Fault} (hcheck : op.check = .error fault) :
    Calls settings c f [⟨op, f, .ofFault fault, f⟩] c f :=
  Calls.none.call (t := .write op (.finished (.ofFault fault)))
    ((advances_refused hcheck).run settings f) rfl

/-- Replicas that did not agree when they were opened still do not after a write that was
refused. -/
theorem cohort_may_disagree :
    ∃ (c c' : Coordinator) (f f' : Fleet) (value : String), c.ring = pair ∧
      (∀ x ∈ c.ring.members, (f x).Opened (.ofDataDir "data")) ∧
      (Operation.put "k" value).ZeroFree ∧
      Calls (fun _ => .ofDataDir "data") c f
        [⟨.put "k" value, f, .ofFault .valueTooLong, f'⟩] c' f' ∧
      ¬ Agree (fun _ => .ofDataDir "data") c "k" f' := by
  have hs : (ReplicaSettings.ofDataDir "data").Serviceable := ⟨rfl, _, rfl⟩
  obtain ⟨cache, -⟩ := hs.cache
  obtain ⟨m, hopened, -, hcalm⟩ := exists_opened hs (ReplicaSettings.kept_empty _) (by simp)
  obtain ⟨m', hopened', hcalm'⟩ := exists_opened_with hs (.put "k" "v") (by decide) (by decide)
  let f : Fleet := fun x => if x.id = 0 then m' else m
  have hf : ∀ x, (f x).Opened (.ofDataDir "data") := by
    intro x
    show Opened _ (if x.id = 0 then m' else m)
    split
    · exact hopened'
    · exact hopened
  let long := String.ofList (List.replicate 1025 'x')
  have hcheck : (Operation.put "k" long).check = .error .valueTooLong := by decide +kernel
  have hfree : (Operation.put "k" long).ZeroFree := by decide +kernel
  refine ⟨⟨.standard, pair, cache, false, 0⟩, _, f, f, long, rfl, fun x _ => hf x, hfree,
    calls_refused hcheck, fun hagree => ?_⟩
  have hzero : (⟨0, "localhost", 4001⟩ : Member) ∈ pair.cohort "k" 2 := by decide
  have hone : (⟨1, "localhost", 4002⟩ : Member) ∈ pair.cohort "k" 2 := by decide
  have hsame := hagree _ hzero _ hone
  rw [stored_of_calm (f := f) (x := ⟨0, "localhost", 4001⟩) hcalm',
    stored_of_calm (f := f) (x := ⟨1, "localhost", 4002⟩) hcalm, Operation.effect] at hsame
  exact absurd ((Function.update_self _ _ _).symm.trans hsame)
    (by simp [Operation.value?, Standing.settle])

end Coordinator

end RingStore
