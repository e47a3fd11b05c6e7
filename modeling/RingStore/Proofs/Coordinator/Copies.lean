import RingStore.Proofs.Coordinator.TwoPhase

/-!
# What success says of the replicas

A write that ends with success was voted for and acknowledged by every member of the cohort,
whatever else happened on the way. This says that there is a copy only if the cohort is not empty.
Setters keep the number of copies at most the number of replicas, but they do not keep it from being
zero; then the cohort is empty, nobody is asked, and every write succeeds
(`reaches_success_of_no_copies`).
-/

namespace RingStore

/-! ## Settings and the copies of a key -/

namespace CoordinatorSettings

/-- Settings that setters make of the standard ones. -/
inductive Built : CoordinatorSettings → Prop
  | standard : Built standard
  | withCapacity {s : CoordinatorSettings} (h : Built s) (capacity : Nat) :
    Built (s.withCapacity capacity)
  | withRedundancy {s : CoordinatorSettings} (h : Built s) (redundancy : Nat) :
    Built (s.withRedundancy redundancy)
  | withCache {s : CoordinatorSettings} (h : Built s) (sets slots : Nat) :
    Built (s.withCache sets slots)
  | withWorkers {s : CoordinatorSettings} (h : Built s) (workers : Nat) :
    Built (s.withWorkers workers)
  | withConnectTimeout {s : CoordinatorSettings} (h : Built s) (ms : Nat) :
    Built (s.withConnectTimeout ms)
  | withResponseTimeout {s : CoordinatorSettings} (h : Built s) (ms : Nat) :
    Built (s.withResponseTimeout ms)
  | withRetries {s : CoordinatorSettings} (h : Built s) (base longest : Nat) :
    Built (s.withRetries base longest)

theorem built_ofCapacity (capacity redundancy : Nat) : (ofCapacity capacity redundancy).Built :=
  (Built.standard.withCapacity capacity).withRedundancy redundancy

theorem Built.redundancy_le {s : CoordinatorSettings} (h : s.Built) :
    s.redundancy ≤ s.capacity := by
  induction h with
  | standard => decide
  | withCapacity h capacity ih => exact Nat.min_le_right _ _
  | withRedundancy h redundancy ih => exact Nat.min_le_right _ _
  | withCache h sets slots ih => exact ih
  | withWorkers h workers ih => exact ih
  | withConnectTimeout h ms ih => exact ih
  | withResponseTimeout h ms ih => exact ih
  | withRetries h base longest ih => exact ih

end CoordinatorSettings

namespace Coordinator

open Course

variable {script : Script} {c c' : Coordinator} {op : Operation} {h h' : List Moment} {x : Member}
  {stage : Writing} {s s' : Course}

/-! ## What is promised of the cohort on the way -/

/-- The member voted to carry the write out. -/
def Consented (h : List Moment) (op : Operation) (x : Member) : Prop :=
  .attempt x op.request (.ok .voteCommit) ∈ h

/-- The member voted to carry the write out, and acknowledged the decision to do so. -/
structure Carried (h : List Moment) (op : Operation) (x : Member) : Prop where
  consented : Consented h op x
  acknowledged : .attempt x .commit (.ok .ack) ∈ h

/-- What has been seen of the cohort at a stage of a write, if all went well so far; the ring is
full from the time on at which that was found. -/
def Writing.Backed (c : Coordinator) (op : Operation) (h : List Moment) : Writing → Prop
  | checking | admission => True
  | entering | routing => c.ring.isFull = true
  | voting asked left unanimous =>
    c.ring.isFull = true ∧ asked = c.cohort op.key ∧
      (unanimous = true → ∀ x ∈ c.cohort op.key, x ∈ left ∨ Consented h op x)
  | deciding true left =>
    c.ring.isFull = true ∧ ∀ x ∈ c.cohort op.key, Consented h op x ∧ (x ∈ left ∨ Carried h op x)
  | deciding false _ => True
  | settling => c.ring.isFull = true ∧ ∀ x ∈ c.cohort op.key, Carried h op x
  | leaving r | finished r =>
    r.isSuccess = true → c.ring.isFull = true ∧ ∀ x ∈ c.cohort op.key, Carried h op x

theorem Consented.mono (hx : Consented h op x) (hsub : h ⊆ h') : Consented h' op x := hsub hx

theorem Carried.mono (hx : Carried h op x) (hsub : h ⊆ h') : Carried h' op x :=
  ⟨hx.consented.mono hsub, hsub hx.acknowledged⟩

theorem Writing.Backed.mono (hb : stage.Backed c op h) (hsub : h ⊆ h') : stage.Backed c op h' := by
  cases stage with
  | checking | admission | entering | routing => exact hb
  | voting asked left unanimous =>
    exact ⟨hb.1, hb.2.1, fun hu x hx => (hb.2.2 hu x hx).imp_right (·.mono hsub)⟩
  | deciding commit left =>
    cases commit with
    | true =>
      refine ⟨hb.1, fun x hx => ?_⟩
      obtain ⟨hconsented, hcarried⟩ := hb.2 x hx
      exact ⟨hconsented.mono hsub, hcarried.imp_right (·.mono hsub)⟩
    | false => trivial
  | settling => exact ⟨hb.1, fun x hx => (hb.2 x hx).mono hsub⟩
  | leaving r | finished r =>
    exact fun hr => ⟨(hb hr).1, fun x hx => ((hb hr).2 x hx).mono hsub⟩

/-- A fault is no success, so that nothing has to be promised. -/
theorem Writing.backed_ofFault (f : Fault) :
    (Writing.finished (.ofFault f)).Backed c op h ∧
      (Writing.leaving (.ofFault f)).Backed c op h := by
  have hnot : (Response.ofFault f).isSuccess ≠ true := by
    rw [Response.isSuccess_ofFault]
    exact Bool.false_ne_true
  exact ⟨fun hr => absurd hr hnot, fun hr => absurd hr hnot⟩

/-- A write that goes on is backed by what was seen. -/
theorem Writing.Backed.advance (hb : stage.Backed c op h) (hring : c'.ring = c.ring)
    (hsettings : c'.settings = c.settings) : (stage.advance c' op).2.1.Backed c op h := by
  cases stage with
  | checking =>
    simp only [Writing.advance]
    split
    · exact (backed_ofFault _).1
    · trivial
  | admission =>
    simp only [Writing.advance]
    split
    · rename_i hfull
      rwa [hring] at hfull
    · exact (backed_ofFault _).1
  | entering =>
    simp only [Writing.advance]
    split
    · exact (backed_ofFault _).1
    · exact hb
  | routing =>
    have hcohort : c'.cohort op.key = c.cohort op.key := cohort_eq hring hsettings _
    exact ⟨hb, hcohort, fun _ x hx => .inl (hcohort ▸ hx)⟩
  | voting asked left unanimous =>
    obtain ⟨hfull, rfl, hvotes⟩ := hb
    cases left with
    | cons y left => exact ⟨hfull, rfl, hvotes⟩
    | nil =>
      cases unanimous with
      | false => trivial
      | true =>
        refine ⟨hfull, fun x hx => ⟨?_, .inl hx⟩⟩
        exact (hvotes rfl x hx).resolve_left (List.not_mem_nil)
  | deciding commit left =>
    cases left with
    | cons y left => cases commit <;> exact hb
    | nil =>
      cases commit with
      | true => exact ⟨hb.1, fun x hx => (hb.2 x hx).2.resolve_left List.not_mem_nil⟩
      | false => exact (backed_ofFault _).2
  | settling => exact fun _ => hb
  | leaving r => exact hb
  | finished r => exact hb

theorem Writing.Backed.contacted {q : Request} {outcome : Except Fault Response}
    (hb : stage.Backed c op h) (hdemand : stage.demand op = .contact x q)
    (hseen : h ++ [.attempt x q outcome] ⊆ h') :
    (stage.contacted (.ofOutcome outcome)).1.Backed c op h' := by
  have hold : h ⊆ h' := fun y hy => hseen (List.mem_append_left _ hy)
  have hnew : .attempt x q outcome ∈ h' := hseen (by simp)
  replace hb := hb.mono hold
  rcases Writing.demand_eq_contact hdemand with ⟨asked, left, unanimous, rfl, rfl⟩ |
    ⟨commit, left, rfl, rfl⟩
  · obtain ⟨hfull, rfl, hvotes⟩ := hb
    refine ⟨hfull, rfl, fun hu y hy => ?_⟩
    obtain ⟨hu', hvote⟩ := Bool.and_eq_true_iff.1 hu
    rcases hvotes hu' y hy with hleft | hconsented
    · rcases List.mem_cons.1 hleft with rfl | hleft
      · obtain rfl := ofOutcome_eq_answered.1 (beq_iff_eq.1 hvote)
        exact .inr hnew
      · exact .inl hleft
    · exact .inr hconsented
  · cases commit with
    | false => trivial
    | true =>
      refine ⟨hb.1, fun y hy => ?_⟩
      obtain ⟨hconsented, hcarried⟩ := hb.2 y hy
      refine ⟨hconsented, ?_⟩
      split
      · rename_i hack
        obtain rfl := ofOutcome_eq_answered.1 hack
        rcases hcarried with hleft | hcarried
        · rcases List.mem_cons.1 hleft with rfl | hleft
          · exact .inr ⟨hconsented, hnew⟩
          · exact .inl hleft
        · exact .inr hcarried
      · exact hcarried

/-- A write on its course: what its stage promises has been seen. -/
structure Course.Backed (c : Coordinator) (op : Operation) (s : Course) : Prop where
  write : ∃ stage, s.task = .write op stage ∧ stage.Backed c op s.history
  ring : s.coordinator.ring = c.ring
  settings : s.coordinator.settings = c.settings

/-- In every step a write is backed by what was seen. -/
theorem Course.Backed.next (hb : s.Backed c op) (script : Script) :
    (s.next script).Backed c op := by
  obtain ⟨⟨stage, hstage, hbacked⟩, hring, hsettings⟩ := hb
  unfold Course.next
  rw [hstage]
  split
  · obtain ⟨hring', hsettings'⟩ := Writing.advance_fixed s.coordinator op stage
    have hafter := hbacked.advance hring hsettings
    exact ⟨⟨_, rfl, hafter.mono (List.subset_append_left _ _)⟩, hring'.trans hring,
      hsettings'.trans hsettings⟩
  · rename_i hdemand
    refine ⟨⟨_, rfl, hbacked.contacted hdemand ?_⟩, hring, hsettings⟩
    simp
  · exact ⟨⟨stage, hstage, hbacked⟩, hring, hsettings⟩
  · exact ⟨⟨stage, hstage, hbacked⟩, hring, hsettings⟩

theorem Course.backed_iterate (script : Script) (c : Coordinator) (op : Operation) (k : Nat) :
    ((next script)^[k] (.ofWrite c op)).Backed c op := by
  induction k with
  | zero =>
    refine ⟨⟨.checking, ?_, trivial⟩, rfl, rfl⟩
    change Task.ofWrite op.request = _
    rw [Task.ofWrite, Operation.operation?_request]
  | succ k ih =>
    rw [Function.iterate_succ_apply']
    exact ih.next script

/-- Success on a ring that was found full: every member of the cohort has carried the write out. -/
theorem Course.Backed.carried {r : Response} (hb : s.Backed c op)
    (hend : s.task.demand = .finished r) (hr : r.isSuccess = true) :
    c.ring.isFull = true ∧ ∀ x ∈ c.cohort op.key, Carried s.history op x := by
  obtain ⟨⟨stage, hstage, hbacked⟩, -, -⟩ := hb
  rw [hstage] at hend
  obtain rfl := Writing.eq_finished_of_demand hend
  exact hbacked hr

/-! ## Writes without copies -/

/-- If there are to be no copies of a key, every write succeeds, and nobody is asked. -/
theorem reaches_success_of_no_copies (hring : c.ring.Ordered) (hfull : c.ring.isFull = true)
    (hfree : c.busy = false) (hcheck : op.check = .ok ()) (hnone : c.settings.redundancy = 0)
    (script : Script) :
    Reaches script (.ofWrite c op)
      ⟨c.settle op, .write op (.finished .success), [.notice .decided]⟩ := by
  have hcohort : c.cohort op.key = [] := by rw [cohort, hnone, Ring.cohort_zero]
  let tries : Member → Nat := fun _ => 0
  have hfirst : ∀ x ∈ c.cohort op.key, script.FirstAck x
      (decisionRequest (script.unanimous (c.cohort op.key) op.request)) (tries x) := by
    simp [hcohort]
  have hreach := reaches_ended hring hfull hfree hcheck hfirst
  have hended : Course.ended script c op tries =
      ⟨c.settle op, .write op (.finished .success), [.notice .decided]⟩ := by
    rw [Course.ended, hcohort]
    rfl
  rwa [hended] at hreach

/-- Settings that setters make of the standard ones, and rings of their capacity: success means that
a replica has voted for the write and has acknowledged that it carried it out, under any script, if
and only if there are to be copies at all. -/
theorem success_held_iff {s : CoordinatorSettings} (hs : s.Built) :
    (∀ (c : Coordinator) (op : Operation) (script : Script) (k : Nat) (r : Response),
      c.settings = s → c.ring.Built s.capacity →
      ((next script)^[k] (.ofWrite c op)).task.demand = .finished r → r.isSuccess = true →
      ∃ x ∈ c.ring.members, Carried ((next script)^[k] (.ofWrite c op)).history op x) ↔
    s.redundancy ≠ 0 := by
  constructor
  · intro hheld hnone
    obtain ⟨ring, hbuilt, hfull⟩ := Ring.exists_built_full s.capacity
    obtain ⟨cache, -⟩ := Cache.exists_create (show 0 < 1 by decide) (show 2 ≤ 2 by decide)
    let c : Coordinator := ⟨s, ring, cache, false, 0⟩
    let script : Script := fun _ _ _ => .error .generic
    obtain ⟨k, hk⟩ : Reaches script (.ofWrite c (.del "k")) _ :=
      reaches_success_of_no_copies hbuilt.ordered hfull rfl (by decide) hnone script
    have hend : ((next script)^[k] (.ofWrite c (.del "k"))).task.demand = .finished .success := by
      rw [hk]
      rfl
    obtain ⟨x, -, hcarried⟩ := hheld c (.del "k") script k .success rfl hbuilt hend (by decide)
    rw [hk] at hcarried
    exact absurd hcarried.consented (by simp [Consented])
  · intro hcopies c op script k r hsettings hbuilt hend hr
    have hcapacity : s.capacity ≠ 0 := by
      have hle := hs.redundancy_le
      omega
    obtain ⟨hfull, hall⟩ := (backed_iterate script c op k).carried hend hr
    have hsize : c.ring.size ≠ 0 := by
      have heq : c.ring.size = c.ring.capacity := by simpa [Ring.isFull] using hfull
      rw [heq, hbuilt.capacity_eq]
      exact hcapacity
    have hcohort : c.cohort op.key ≠ [] :=
      Ring.cohort_ne_nil hsize (hsettings ▸ hcopies) op.key
    obtain ⟨x, hx⟩ := List.exists_mem_of_ne_nil _ hcohort
    exact ⟨x, mem_members hx, hall x hx⟩

/-- Every member votes for a write and acknowledges every decision. -/
def agreeing : Script := fun _ q _ => if q = .commit ∨ q = .abort then .ok .ack else .ok .voteCommit

/-- With the standard settings, somebody holds what was written. -/
theorem success_held_of_standard :
    ∃ (c : Coordinator) (s : Course) (x : Member), c.settings = .standard ∧ x ∈ c.ring.members ∧
      Reaches agreeing (.ofWrite c (.put "k" "v")) s ∧ s.task.demand = .finished .success ∧
      Carried s.history (.put "k" "v") x := by
  obtain ⟨ring, hbuilt, hfull⟩ := Ring.exists_built_full 2
  obtain ⟨cache, -⟩ := Cache.exists_create (show 0 < 4 by decide) (show 2 ≤ 4 by decide)
  let c : Coordinator := ⟨.standard, ring, cache, false, 0⟩
  let tries : Member → Nat := fun _ => 0
  have hall : agreeing.unanimous (c.cohort "k") (.put "k" "v") = true :=
    Script.unanimous_iff.2 fun x _ => rfl
  have hfirst : ∀ x ∈ c.cohort "k", agreeing.FirstAck x
      (decisionRequest (agreeing.unanimous (c.cohort "k") (.put "k" "v"))) (tries x) := by
    intro x _
    rw [hall]
    exact ⟨rfl, fun k hk => absurd hk (Nat.not_lt_zero k)⟩
  obtain ⟨k, hk⟩ : Reaches agreeing (.ofWrite c (.put "k" "v")) _ :=
    reaches_ended hbuilt.ordered hfull rfl (by decide) hfirst
  have hend :
      ((next agreeing)^[k] (.ofWrite c (.put "k" "v"))).task.demand = .finished .success := by
    rw [hk]
    change Demand.finished (if agreeing.unanimous (c.cohort "k") (.put "k" "v") then _ else _) = _
    rw [hall]
    rfl
  have hheld := (success_held_iff .standard).2 (by decide)
  obtain ⟨x, hx, hcarried⟩ := hheld c (.put "k" "v") agreeing k .success rfl hbuilt hend (by decide)
  exact ⟨c, _, x, rfl, hx, ⟨k, rfl⟩, hend, hcarried⟩

/-- With one replica and no copies, a write succeeds that nobody holds. -/
theorem success_held_nowhere :
    ∃ (c : Coordinator) (s : Course), c.settings = .ofCapacity 1 0 ∧ c.settings.Built ∧
      c.ring.Built 1 ∧ Reaches agreeing (.ofWrite c (.put "k" "v")) s ∧
      s.task.demand = .finished .success ∧ ∀ x, ¬ Carried s.history (.put "k" "v") x := by
  obtain ⟨ring, hbuilt, hfull⟩ := Ring.exists_built_full 1
  obtain ⟨cache, -⟩ := Cache.exists_create (show 0 < 4 by decide) (show 2 ≤ 4 by decide)
  let c : Coordinator := ⟨.ofCapacity 1 0, ring, cache, false, 0⟩
  have hreach : Reaches agreeing (.ofWrite c (.put "k" "v")) _ :=
    reaches_success_of_no_copies hbuilt.ordered hfull rfl (by decide) rfl agreeing
  have hsettings := CoordinatorSettings.built_ofCapacity 1 0
  refine ⟨c, _, rfl, hsettings, hbuilt, hreach, rfl, fun x hcarried => ?_⟩
  exact absurd hcarried.consented (by simp [Consented])

end Coordinator

end RingStore
