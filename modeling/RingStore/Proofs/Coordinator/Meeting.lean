import RingStore.Coordinator.Writing
import RingStore.Proofs.Replica.Machine
import Mathlib.Logic.Function.Basic

/-!
# How a member of a cohort is met

An attempt to put a request to a replica ends as a contact. The request may be lost before the
replica gets it or the answer after, and the machine may go off while the replica serves the
request. Through a write on contents `M` a machine is

* `Calm` if its replica waits for no decision,
* `Waiting` if its vote on the operation is in the journal, without a decision,
* `Due` if the operation is or will be carried out.

Each notion is kept when the machine goes on and off, and each contact leads from one to the next
(`Waiting.asked`, `Calm.asked`, `Calm.told`, `Due.committed`, `Asked.aborted`). Where the replica
runs and is heard the contact can be had: it votes (`Calm.votes`), carries out what it has voted on
(`Waiting.commits`), and acknowledges a decision that it does not wait for (`Calm.acknowledges`).
-/

namespace RingStore

open Disk Coordinator

theorem Standing.Passes.of_unchanged {M M' : Store.Contents} {L L' : Standing} {q : Request}
    (h : L.Passes M q L' M') (hballot : L.ballot q = none) (hserve : L.serve q = L) :
    L' = L ∧ (M' = M ∨ M' = L.settle M) := by
  cases h with
  | before => exact ⟨rfl, .inl rfl⟩
  | cleared hop => exact absurd hop (by simp [hballot])
  | logged => exact ⟨hserve, .inl rfl⟩
  | after => exact ⟨hserve, .inr (by rw [hserve])⟩

namespace Machine

variable {settings : ReplicaSettings} {M : Store.Contents} {L : Standing} {op : Operation}
  {q : Request} {m m' : Machine} {met : Contact}

/-- An attempt to put a request to the replica of a machine, with how it ends. -/
inductive Meets (q : Request) : Machine → Contact → Machine → Prop
  /-- No connection comes about. -/
  | refused {m : Machine} : Meets q m .unreachable m
  /-- The request is lost. -/
  | requestLost {m : Machine} : Meets q m .lost m
  /-- The replica serves the request and is heard. -/
  | answered {d d' : Disk} {r r' : Replica} {now : String} {answer : Response}
    (h : (r.serve now q).run d = ((answer, r'), d')) :
    Meets q ⟨d, some r⟩ (.answered answer) ⟨d', some r'⟩
  /-- The replica serves the request, and its answer is lost. -/
  | answerLost {d d' : Disk} {r r' : Replica} {now : String} {answer : Response}
    (h : (r.serve now q).run d = ((answer, r'), d')) : Meets q ⟨d, some r⟩ .lost ⟨d', some r'⟩
  /-- The machine goes off while the replica serves the request. -/
  | cut {d e : Disk} {r : Replica} {now : String} (h : e ∈ (r.serve now q).trail d) :
    Meets q ⟨d, some r⟩ .lost ⟨e, none⟩

/-- Only an answer tells that the request was served to the end. -/
theorem At.meets (h : At settings M L m) (hs : settings.Serviceable) (hq : q.ZeroFree)
    (hmeets : Meets q m met m') :
    ∃ L' M', L.Passes M q L' M' ∧ At settings M' L' m' ∧
      ∀ answer, met = .answered answer →
        L' = L.serve q ∧ M' = (L.serve q).settle M ∧ Replica.Answered L q answer := by
  cases hmeets with
  | refused | requestLost => exact ⟨L, M, .before, h, by simp⟩
  | answered hserve =>
    obtain ⟨hat, hanswer⟩ := h.served hs hq hserve
    refine ⟨_, _, .after, hat, fun answer heq => ⟨rfl, rfl, ?_⟩⟩
    obtain rfl := Contact.answered.inj heq
    exact hanswer
  | answerLost hserve => exact ⟨_, _, .after, (h.served hs hq hserve).1, by simp⟩
  | cut hcut =>
    obtain ⟨L', M', hpasses, hat⟩ := h.cut hs hq hcut
    exact ⟨L', M', hpasses, hat, by simp⟩

/-! ## The notions, and going on and off -/

/-- The machine holds the contents, and its replica waits for no decision. -/
def Calm (settings : ReplicaSettings) (M : Store.Contents) (m : Machine) : Prop :=
  ∃ L, At settings M L m ∧ L.settle M = M ∧ ∀ op, L ≠ .voted op

/-- The machine holds the contents, and its replica waits for the decision on the operation. -/
def Waiting (settings : ReplicaSettings) (M : Store.Contents) (op : Operation) (m : Machine) :
    Prop :=
  At settings M (.voted op) m

/-- The replica of the machine has voted on the operation, or not yet. -/
def Asked (settings : ReplicaSettings) (M : Store.Contents) (op : Operation) (m : Machine) : Prop :=
  Calm settings M m ∨ Waiting settings M op m

/-- The operation can be carried out on the contents, or will be once the machine is on, or is. -/
def Due (settings : ReplicaSettings) (M : Store.Contents) (op : Operation) (m : Machine) : Prop :=
  Waiting settings M op m ∨ At settings M (.committed op) m ∨ Calm settings (op.effect M) m

theorem calm_of_committed (h : At settings (op.effect M) (.committed op) m) :
    Calm settings (op.effect M) m := ⟨_, h, op.effect_effect M, by simp⟩

theorem calm_of_aborted (h : At settings M (.aborted op) m) : Calm settings M m :=
  ⟨_, h, rfl, by simp⟩

/-- No replica waits for a decision: neither the one that runs, nor the one that can be opened,
which then also finds the contents that are there. -/
def Decided (settings : ReplicaSettings) (m : Machine) : Prop :=
  match m.replica? with
  | some r => r.phase.pending? = none
  | none => ∃ r d, (Replica.openWith settings).run.run m.disk = (.ok r, d) ∧
    r.phase.pending? = none ∧ settings.stored d = settings.stored m.disk

theorem Calm.decided (h : Calm settings M m) (hs : settings.Serviceable) : m.Decided settings := by
  obtain ⟨L, hat, hM, hL⟩ := h
  have hpending : L.phase.pending? = none := by
    cases L with
    | voted op => exact absurd rfl (hL op)
    | idle | committed op | aborted op => rfl
  rcases m with ⟨d, _ | r⟩
  · obtain ⟨r, e, hopen, hat'⟩ := hat.opens hs
    refine ⟨r, e, hopen, ?_, ?_⟩
    · rw [hat'.sound.phase_eq, hpending]
    · rw [hat'.1.stored_eq, hat.1.stored_eq, hM]
  · show r.phase.pending? = none
    rw [hat.sound.phase_eq, hpending]

/-- A calm machine that goes on or off is calm. -/
theorem Calm.switched (h : Calm settings M m) (hs : settings.Serviceable)
    (hstep : Switched settings m m') : Calm settings M m' := by
  obtain ⟨L, hat, hM, hL⟩ := h
  rcases hat.switched hs hstep with hbefore | hafter
  · exact ⟨L, hbefore, hM, hL⟩
  · rw [hM] at hafter
    exact ⟨L, hafter, hM, hL⟩

/-- A machine that waits for a decision still waits for it when it goes on or off. -/
theorem Waiting.switched (h : Waiting settings M op m) (hs : settings.Serviceable)
    (hstep : Switched settings m m') : Waiting settings M op m' := by
  rcases At.switched h hs hstep with hbefore | hafter
  · exact hbefore
  · exact hafter

theorem Asked.switched (h : Asked settings M op m) (hs : settings.Serviceable)
    (hstep : Switched settings m m') : Asked settings M op m' :=
  h.imp (fun hcalm => hcalm.switched hs hstep) fun hwaiting => hwaiting.switched hs hstep

theorem Due.switched (h : Due settings M op m) (hs : settings.Serviceable)
    (hstep : Switched settings m m') : Due settings M op m' := by
  rcases h with hwaiting | hcommitted | hcalm
  · exact .inl (hwaiting.switched hs hstep)
  · rcases hcommitted.switched hs hstep with hbefore | hafter
    · exact .inr (.inl hbefore)
    · exact .inr (.inr (calm_of_committed hafter))
  · exact .inr (.inr (hcalm.switched hs hstep))

/-! ## Contacts -/

theorem zeroFree_request (h : op.ZeroFree) : op.request.ZeroFree := by
  intro op' hop'
  rw [Operation.operation?_request] at hop'
  obtain rfl := Option.some.inj hop'
  exact h

theorem operation?_decisionRequest (commit : Bool) :
    (decisionRequest commit).operation? = none := by
  cases commit <;> rfl

theorem zeroFree_decisionRequest (commit : Bool) : (decisionRequest commit).ZeroFree := by
  intro op hop
  rw [operation?_decisionRequest] at hop
  exact absurd hop (by simp)

/-- Asking a machine that waits already changes nothing for it. -/
theorem Waiting.asked (h : Waiting settings M op m) (hs : settings.Serviceable)
    (hfree : op.ZeroFree) (hmeets : Meets op.request m met m') : Waiting settings M op m' := by
  obtain ⟨L', M', hpasses, hat, -⟩ := At.meets h hs (zeroFree_request hfree) hmeets
  have hserve : (Standing.voted op).serve op.request = .voted op := by
    cases op <;> rfl
  obtain ⟨rfl, hM'⟩ := hpasses.of_unchanged rfl hserve
  rcases hM' with rfl | rfl
  · exact hat
  · exact hat

/-- A calm machine that is asked has voted or not, and waits for the decision if its vote arrived.
-/
theorem Calm.asked (h : Calm settings M m) (hs : settings.Serviceable) (hcheck : op.check = .ok ())
    (hfree : op.ZeroFree) (hmeets : Meets op.request m met m') :
    Asked settings M op m' ∧ (met = .answered .voteCommit → Waiting settings M op m') := by
  obtain ⟨L, hat, hM, hL⟩ := h
  have hballot : L.ballot op.request = some op :=
    Standing.ballot_eq_some.2 ⟨hL, op.operation?_request, hcheck⟩
  have hserve := Standing.serve_of_ballot hballot
  obtain ⟨L', M', hpasses, hat', hanswer⟩ := hat.meets hs (zeroFree_request hfree) hmeets
  rw [hserve] at hanswer
  refine ⟨?_, fun hmet => ?_⟩
  · cases hpasses with
    | before => exact .inl ⟨L, hat', hM, hL⟩
    | cleared => exact .inl ⟨.idle, hat', rfl, by simp⟩
    | logged | after =>
      rw [hserve] at hat'
      exact .inr hat'
  · obtain ⟨rfl, rfl, -⟩ := hanswer _ hmet
    exact hat'

/-- A replica that waits for no decision acknowledges any, and stays as it is. -/
theorem Calm.told (h : Calm settings M m) (hs : settings.Serviceable) {commit : Bool}
    (hmeets : Meets (decisionRequest commit) m met m') : Calm settings M m' := by
  obtain ⟨L, hat, hM, hL⟩ := h
  have hballot : L.ballot (decisionRequest commit) = none :=
    Standing.ballot_of_operation_none (operation?_decisionRequest commit)
  obtain ⟨L', M', hpasses, hat', -⟩ := hat.meets hs (zeroFree_decisionRequest commit) hmeets
  obtain ⟨rfl, hM'⟩ :=
    hpasses.of_unchanged hballot (Standing.serve_of_ballot_none hballot (.inr hL))
  rcases hM' with rfl | rfl
  · exact ⟨L', hat', hM, hL⟩
  · rw [hM] at hat'
    exact ⟨L', hat', hM, hL⟩

/-- A machine that COMMIT is due to has the effect of the operation once it acknowledges. -/
theorem Due.committed (h : Due settings M op m) (hs : settings.Serviceable)
    (hmeets : Meets (decisionRequest true) m met m') :
    Due settings M op m' ∧ (met = .answered .ack → Calm settings (op.effect M) m') := by
  have hcommitted : (Standing.committed op).serve (decisionRequest true) = .committed op := rfl
  rcases h with hwaiting | hat | hcalm
  · obtain ⟨L', M', hpasses, hat', hanswer⟩ :=
      At.meets hwaiting hs (zeroFree_decisionRequest true) hmeets
    refine ⟨?_, fun hmet => ?_⟩
    · cases hpasses with
      | before => exact .inl hat'
      | cleared hop => exact absurd hop (by simp [Standing.ballot])
      | logged => exact .inr (.inl hat')
      | after => exact .inr (.inr (calm_of_committed hat'))
    · obtain ⟨rfl, rfl, -⟩ := hanswer _ hmet
      exact calm_of_committed hat'
  · -- the decision is in the journal already, and opening the replica carries it out
    obtain ⟨L', M', hpasses, hat', hanswer⟩ := hat.meets hs (zeroFree_decisionRequest true) hmeets
    refine ⟨?_, fun hmet => ?_⟩
    · obtain ⟨rfl, rfl | rfl⟩ := hpasses.of_unchanged rfl hcommitted
      · exact .inr (.inl hat')
      · exact .inr (.inr (calm_of_committed hat'))
    · obtain ⟨rfl, rfl, -⟩ := hanswer _ hmet
      exact calm_of_committed hat'
  · exact ⟨.inr (.inr (hcalm.told hs hmeets)), fun _ => hcalm.told hs hmeets⟩

/-- A machine that was asked is calm again once it acknowledges ABORT. -/
theorem Asked.aborted (h : Asked settings M op m) (hs : settings.Serviceable)
    (hmeets : Meets (decisionRequest false) m met m') :
    Asked settings M op m' ∧ (met = .answered .ack → Calm settings M m') := by
  rcases h with hcalm | hwaiting
  · exact ⟨.inl (hcalm.told hs hmeets), fun _ => hcalm.told hs hmeets⟩
  · obtain ⟨L', M', hpasses, hat, hanswer⟩ :=
      At.meets hwaiting hs (zeroFree_decisionRequest false) hmeets
    refine ⟨?_, fun hmet => ?_⟩
    · cases hpasses with
      | before => exact .inr hat
      | cleared hop => exact absurd hop (by simp [Standing.ballot])
      | logged | after => exact .inl (calm_of_aborted hat)
    · obtain ⟨rfl, rfl, -⟩ := hanswer _ hmet
      exact calm_of_aborted hat

/-! ## Replicas that were opened -/

/-- The replica was opened on a directory fit for it, and waits for no decision. -/
structure Opened (settings : ReplicaSettings) (m : Machine) : Prop where
  serviceable : settings.Serviceable
  opened : ∃ d r, settings.WellKept d ∧
    (Replica.openWith settings).run.run d = (.ok r, m.disk) ∧ m.replica? = some r ∧
    r.phase.pending? = none

theorem Opened.calm (h : Opened settings m) : ∃ M, Calm settings M m := by
  obtain ⟨d, r, ⟨M, L, hkept⟩, hopen, hr, hpending⟩ := h.opened
  obtain ⟨r', e, hopen', hat⟩ := (at_off hkept).opens h.serviceable
  obtain ⟨heq, he⟩ := Prod.mk.inj (hopen.symm.trans hopen')
  obtain rfl := Except.ok.inj heq
  obtain ⟨disk, replica?⟩ := m
  subst hr he
  refine ⟨_, L, hat, L.settle_settle M, ?_⟩
  rintro op rfl
  rw [hat.sound.phase_eq] at hpending
  exact absurd hpending (by simp [Standing.phase, Phase.pending?])

/-- Opening a directory on which no vote waits for a decision. -/
theorem exists_opened (hs : settings.Serviceable) {d : Disk} (hkept : settings.Kept M L d)
    (hL : ∀ op, L ≠ .voted op) :
    ∃ m, Opened settings m ∧ m.replica?.isSome ∧ Calm settings (L.settle M) m := by
  obtain ⟨r, e, hopen, hat⟩ := (at_off hkept).opens hs
  have hcalm : Calm settings (L.settle M) ⟨e, some r⟩ := ⟨L, hat, L.settle_settle M, hL⟩
  exact ⟨_, ⟨hs, d, r, ⟨M, L, hkept⟩, hopen, rfl, hcalm.decided hs⟩, rfl, hcalm⟩

/-- A replica that runs votes on an operation within the limits. -/
theorem Calm.votes (h : Calm settings M m) (hon : m.replica?.isSome) (hs : settings.Serviceable)
    (hcheck : op.check = .ok ()) (hfree : op.ZeroFree) :
    ∃ m', Meets op.request m (.answered .voteCommit) m' ∧ m'.replica?.isSome ∧
      Waiting settings M op m' := by
  obtain ⟨d, _ | r⟩ := m
  · exact absurd hon (by simp)
  obtain ⟨L, hat, -, hL⟩ := h
  have hballot : L.ballot op.request = some op :=
    Standing.ballot_eq_some.2 ⟨hL, op.operation?_request, hcheck⟩
  rcases hserve : (r.serve "" op.request).run d with ⟨⟨answer, r'⟩, e⟩
  obtain ⟨hat', hanswer⟩ := hat.served hs (zeroFree_request hfree) hserve
  obtain rfl := hanswer.2.2 (by simp [hballot])
  rw [Standing.serve_of_ballot hballot] at hat'
  exact ⟨_, .answered hserve, rfl, hat'⟩

/-- A replica that runs and waits for the decision carries the operation out. -/
theorem Waiting.commits (h : Waiting settings M op m) (hon : m.replica?.isSome)
    (hs : settings.Serviceable) :
    ∃ m', Meets (decisionRequest true) m (.answered .ack) m' ∧ m'.replica?.isSome ∧
      Calm settings (op.effect M) m' := by
  obtain ⟨d, _ | r⟩ := m
  · exact absurd hon (by simp)
  rcases hserve : (r.serve "" (decisionRequest true)).run d with ⟨⟨answer, r'⟩, e⟩
  obtain ⟨hat, hanswer⟩ := At.served h hs (zeroFree_decisionRequest true) hserve
  obtain rfl := hanswer.1 (.inl rfl)
  exact ⟨_, .answered hserve, rfl, calm_of_committed hat⟩

/-- A replica that runs and waits for no decision acknowledges any. -/
theorem Calm.acknowledges (h : Calm settings M m) (hon : m.replica?.isSome)
    (hs : settings.Serviceable) (commit : Bool) :
    ∃ m', Meets (decisionRequest commit) m (.answered .ack) m' ∧ m'.replica?.isSome ∧
      Calm settings M m' := by
  obtain ⟨d, _ | r⟩ := m
  · exact absurd hon (by simp)
  rcases hserve : (r.serve "" (decisionRequest commit)).run d with ⟨⟨answer, r'⟩, e⟩
  have hmeets := Meets.answered hserve
  have hcalm := h.told hs hmeets
  obtain ⟨L, hat, -⟩ := h
  obtain rfl := (hat.served hs (zeroFree_decisionRequest commit) hserve).2.1
    (by cases commit <;> simp [decisionRequest])
  exact ⟨_, hmeets, rfl, hcalm⟩

/-- A replica can be opened on a directory in which an operation was carried out. -/
theorem exists_opened_with (hs : settings.Serviceable) (op : Operation) (hcheck : op.check = .ok ())
    (hfree : op.ZeroFree) :
    ∃ m, Opened settings m ∧ Calm settings (op.effect fun _ => none) m := by
  obtain ⟨m₀, -, hon₀, hcalm₀⟩ := exists_opened hs settings.kept_empty (by simp)
  obtain ⟨m₁, -, hon₁, hwaiting⟩ := hcalm₀.votes hon₀ hs hcheck hfree
  obtain ⟨m₂, -, -, L, hat, hM, hL⟩ := hwaiting.commits hon₁ hs
  obtain ⟨m, hopened, -, hcalm⟩ := exists_opened hs hat.1 hL
  rw [hM] at hcalm
  exact ⟨m, hopened, hcalm⟩

end Machine

/-! ## The machines of all members -/

/-- The machines of the members. -/
abbrev Fleet := Member → Machine

namespace Fleet

variable {f : Fleet} {x : Member}

/-- What a member's store holds for a key. -/
def stored (settings : Member → ReplicaSettings) (f : Fleet) (x : Member) : Store.Contents :=
  (settings x).stored (f x).disk

theorem stored_of_calm {settings : Member → ReplicaSettings} {M : Store.Contents}
    (h : Machine.Calm (settings x) M (f x)) : f.stored settings x = M := by
  obtain ⟨L, hat, -⟩ := h
  exact hat.1.stored_eq

/-- What holds of the machine that changes, and of the others as they were, holds of all. -/
theorem of_update {P : Member → Machine → Prop} {y : Member} {m : Machine} (hy : P y m)
    (hx : x ≠ y → P x (f x)) : P x (Function.update f y m x) := by
  by_cases hxy : x = y
  · subst hxy
    rwa [Function.update_self]
  · rw [Function.update_of_ne hxy]
    exact hx hxy

end Fleet

end RingStore
