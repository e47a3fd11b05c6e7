import RingStore.Coordinator.Writing
import RingStore.Proofs.Replica.LeftBehind

/-!
# How a member that waits is met

While a write goes on, any contact with a member may be refused or lose its answer, and calls of its
replica may fail (`Machine.Exchanges`); only machines do not go on or off. A replica that waits for
a decision is not moved by a request for its vote, and takes the next decision for its own, whatever
operation it was meant for. If no contact is lost and no call fails (`Machine.Succeeds`), a replica
that waits for none votes, and any decision is acknowledged.
-/

namespace RingStore

open Disk Coordinator

namespace Machine

open Replica

variable {settings : ReplicaSettings} {M : Store.Contents} {op op' : Operation} {m m' : Machine}
  {met : Contact} {q : Request} {commit : Bool}

/-! ## Contacts with replicas that run -/

/-- There is room in the journal for the decision that the replica waits for. -/
def Roomy (r : Replica) : Prop :=
  r.phase.pending? ≠ none → r.journal.size + 1 < Journal.recordBound

/-- An attempt to put a request to a replica. It may be refused or lost, and so may the answer, and
while the replica serves it calls may fail. -/
inductive Exchanges (settings : ReplicaSettings) (q : Request) : Machine → Contact → Machine → Prop
  | refused {m : Machine} : Exchanges settings q m .unreachable m
  | requestLost {m : Machine} : Exchanges settings q m .lost m
  | answered {d e : Disk} {r r' : Replica} {now : String} {answer : Response} (hroom : Roomy r)
    (h : Action.Ends (· = settings.storePath) (r.serve now q) d (answer, r') e) :
    Exchanges settings q ⟨d, some r⟩ (.answered answer) ⟨e, some r'⟩
  | answerLost {d e : Disk} {r r' : Replica} {now : String} {answer : Response} (hroom : Roomy r)
    (h : Action.Ends (· = settings.storePath) (r.serve now q) d (answer, r') e) :
    Exchanges settings q ⟨d, some r⟩ .lost ⟨e, some r'⟩

/-- An attempt that succeeds: no call fails while the replica serves the request, and it is
heard. -/
inductive Succeeds (q : Request) : Machine → Contact → Machine → Prop
  | answered {d e : Disk} {r r' : Replica} {now : String} {answer : Response} (hroom : Roomy r)
    (h : (r.serve now q).run d = ((answer, r'), e)) :
    Succeeds q ⟨d, some r⟩ (.answered answer) ⟨e, some r'⟩

theorem Succeeds.exchanges (h : Succeeds q m met m') (settings : ReplicaSettings) :
    Exchanges settings q m met m' := by
  cases h with
  | answered hroom hserve => exact .answered hroom (Action.fares_of_run hserve)

/-- The operation that the machine's replica waits with. -/
def pending? (m : Machine) : Option Operation := m.replica?.bind fun r => r.phase.pending?

/-- The machine holds the contents, and its replica waits for a decision on the operation. -/
def Held (settings : ReplicaSettings) (M : Store.Contents) (op : Operation) (m : Machine) : Prop :=
  ∃ r rs n, m.replica? = some r ∧ r.Engaged settings M op rs n m.disk

/-- The machine holds the contents, and its replica runs and waits for no decision. -/
def Released (settings : ReplicaSettings) (M : Store.Contents) (m : Machine) : Prop :=
  ∃ r rs n, m.replica? = some r ∧ r.Free settings M rs n m.disk

/-- The machine holds the contents, whatever its replica waits for, if it runs. -/
def Contains (settings : ReplicaSettings) (M : Store.Contents) (m : Machine) : Prop :=
  (m.replica? = none ∧ settings.stored m.disk = M) ∨ (∃ op, Held settings M op m) ∨
    Released settings M m

theorem Held.pending_eq (h : Held settings M op m) : m.pending? = some op := by
  obtain ⟨r, rs, n, hr, h⟩ := h
  rw [pending?, hr, Option.bind_some, h.phase_eq]
  rfl

theorem Released.pending_eq (h : Released settings M m) : m.pending? = none := by
  obtain ⟨r, rs, n, hr, h⟩ := h
  rw [pending?, hr]
  exact h.phase_eq

theorem Released.stored_eq (h : Released settings M m) : settings.stored m.disk = M := by
  obtain ⟨r, rs, n, -, h⟩ := h
  exact h.stocked.stored_eq

theorem Released.isSome (h : Released settings M m) : m.replica?.isSome := by
  obtain ⟨r, rs, n, hr, -⟩ := h
  rw [hr]
  rfl

/-- A machine that can be used holds what is on its disk. -/
theorem Usable.contains (h : Usable settings m) : Contains settings (settings.stored m.disk) m := by
  obtain ⟨d, _ | r⟩ := m
  · exact .inl ⟨rfl, rfl⟩
  · rcases h with ⟨M, op, rs, n, h⟩ | ⟨M, rs, n, h⟩
    · obtain rfl : settings.stored d = M := h.stocked.stored_eq
      exact .inr (.inl ⟨op, r, rs, n, rfl, h⟩)
    · obtain rfl : settings.stored d = M := h.stocked.stored_eq
      exact .inr (.inr ⟨r, rs, n, rfl, h⟩)

theorem Released.usable (h : Released settings M m) : Usable settings m := by
  obtain ⟨r, rs, n, hr, h⟩ := h
  obtain ⟨d, replica?⟩ := m
  subst hr
  exact .inr ⟨M, rs, n, h⟩

/-- A contact that is no answer may leave the machine as it is. Otherwise the replica has served the
request, and what it answers is heard, if anything is. -/
theorem Exchanges.same_or_served (h : Exchanges settings q m met m') {r : Replica}
    (hr : m.replica? = some r) :
    (m' = m ∧ ∀ answer, met ≠ .answered answer) ∨ ∃ r' now answer, m'.replica? = some r' ∧ Roomy r ∧
      Action.Ends (· = settings.storePath) (r.serve now q) m.disk (answer, r') m'.disk ∧
      ∀ answer', met = .answered answer' → answer' = answer := by
  cases h with
  | refused | requestLost => exact .inl ⟨rfl, by simp⟩
  | answered hroom hends =>
    obtain rfl := Option.some.inj hr
    exact .inr ⟨_, _, _, rfl, hroom, hends, fun _ heq => (Contact.answered.inj heq).symm⟩
  | answerLost hroom hends =>
    obtain rfl := Option.some.inj hr
    exact .inr ⟨_, _, _, rfl, hroom, hends, by simp⟩

/-- A machine that is off is not moved by any request. -/
theorem Exchanges.of_off (h : Exchanges settings q m met m') (hoff : m.replica? = none) :
    m' = m ∧ ∀ answer, met ≠ .answered answer := by
  cases h with
  | refused | requestLost => exact ⟨rfl, by simp⟩
  | answered | answerLost => exact absurd hoff (by simp)

/-! ## Votes -/

theorem serve_request {r : Replica} (h : r.settings.votes = true) (now : String) (op : Operation) :
    r.serve now op.request = r.vote op := by
  rw [serve_of_votes h]
  cases op <;> rfl

/-- A replica that waits for a decision is not moved by a request for its vote. -/
theorem Held.exchanges_vote (h : Held settings M op m) (hs : settings.Serviceable)
    (hmeets : Exchanges settings op'.request m met m') :
    Held settings M op m' ∧ met ≠ .answered .voteCommit := by
  obtain ⟨r, rs, n, hr, h⟩ := id h
  rcases hmeets.same_or_served hr with ⟨rfl, hmet⟩ | ⟨r', now, answer, hr', -, hends, hmet⟩
  · exact ⟨⟨r, rs, n, hr, h⟩, hmet _⟩
  · rw [serve_request (h.placed.settings_eq ▸ hs.votes)] at hends
    obtain ⟨rfl, rfl, hdisk⟩ := h.ends_vote hends
    exact ⟨⟨r', rs, n, hr', hdisk ▸ h⟩, fun heq => absurd (hmet _ heq) (by simp [Response.ofFault])⟩

/-- A replica that waits for no decision votes, or waits for none still. -/
theorem Released.exchanges_vote (h : Released settings M m) (hs : settings.Serviceable)
    (hmeets : Exchanges settings op.request m met m') :
    Held settings M op m' ∨ (Released settings M m' ∧ met ≠ .answered .voteCommit) := by
  obtain ⟨r, rs, n, hr, h⟩ := id h
  rcases hmeets.same_or_served hr with ⟨rfl, hmet⟩ | ⟨r', now, answer, hr', -, hends, hmet⟩
  · exact .inr ⟨⟨r, rs, n, hr, h⟩, hmet _⟩
  · rw [serve_request (h.placed.settings_eq ▸ hs.votes)] at hends
    rcases h.ends_vote hends with ⟨-, h'⟩ | ⟨hanswer, rs', n', h'⟩
    · exact .inl ⟨r', _, _, hr', h'⟩
    · exact .inr ⟨⟨r', rs', n', hr', h'⟩, fun heq => hanswer (hmet _ heq).symm⟩

theorem Contains.exchanges_vote (h : Contains settings M m) (hs : settings.Serviceable)
    (hmeets : Exchanges settings op.request m met m') :
    Contains settings M m' ∧ (m.pending? ≠ none → m'.pending? ≠ none) ∧
      (met = .answered .voteCommit → m.pending? = none ∧ Held settings M op m') := by
  rcases h with ⟨hoff, hstored⟩ | ⟨op', h⟩ | h
  · obtain ⟨rfl, hmet⟩ := hmeets.of_off hoff
    exact ⟨.inl ⟨hoff, hstored⟩, fun hp => hp, fun heq => absurd heq (hmet _)⟩
  · obtain ⟨h', hmet⟩ := h.exchanges_vote hs hmeets
    exact ⟨.inr (.inl ⟨op', h'⟩), by simp [h'.pending_eq], fun heq => absurd heq hmet⟩
  · have hnone := h.pending_eq
    rcases h.exchanges_vote hs hmeets with h' | ⟨h', hmet⟩
    · exact ⟨.inr (.inl ⟨op, h'⟩), fun hp => absurd hnone hp, fun _ => ⟨hnone, h'⟩⟩
    · exact ⟨.inr (.inr h'), fun hp => absurd hnone hp, fun heq => absurd heq hmet⟩

/-! ## Decisions -/

theorem serve_decision {r : Replica} (h : r.settings.votes = true) (now : String) (commit : Bool) :
    r.serve now (decisionRequest commit) = r.decide commit := by
  rw [serve_of_votes h]
  cases commit <;> rfl

/-- A replica that waits takes any decision for its own. -/
theorem Held.exchanges_decision (h : Held settings M op m) (hs : settings.Serviceable)
    (hmeets : Exchanges settings (decisionRequest commit) m met m') :
    Released settings (decided commit op M) m' ∨
      (met ≠ .answered .ack ∧ ∃ M', (M' = M ∨ M' = decided commit op M) ∧
        Held settings M' op m') := by
  obtain ⟨r, rs, n, hr, h⟩ := id h
  rcases hmeets.same_or_served hr with ⟨rfl, hmet⟩ | ⟨r', now, answer, hr', hroom, hends, hmet⟩
  · exact .inr ⟨hmet _, M, .inl rfl, r, rs, n, hr, h⟩
  · have hroom := hroom (by simp [h.phase_eq, Phase.pending?])
    rw [h.placed.size_eq] at hroom
    rw [serve_decision (h.placed.settings_eq ▸ hs.votes)] at hends
    rcases h.ends_decide hroom hends with ⟨-, rs', h'⟩ | ⟨hanswer, M', rs', n', hM', h'⟩
    · exact .inl ⟨r', rs', _, hr', h'⟩
    · exact .inr ⟨fun heq => hanswer (hmet _ heq).symm, M', hM', r', rs', n', hr', h'⟩

/-- A replica that waits for no decision is not moved by any. -/
theorem Released.exchanges_decision (h : Released settings M m) (hs : settings.Serviceable)
    (hmeets : Exchanges settings (decisionRequest commit) m met m') : Released settings M m' := by
  obtain ⟨r, rs, n, hr, h⟩ := id h
  rcases hmeets.same_or_served hr with ⟨rfl, -⟩ | ⟨r', now, answer, hr', -, hends, -⟩
  · exact ⟨r, rs, n, hr, h⟩
  · rw [serve_decision (h.placed.settings_eq ▸ hs.votes), h.decide_eq] at hends
    obtain ⟨-, rfl, hdisk⟩ := Action.fares_done_pair hends
    exact ⟨r', rs, n, hr', hdisk ▸ h⟩

/-- Whatever the replica waits for, a decision to drop changes no value, and frees it when it is
acknowledged. -/
theorem Contains.exchanges_abort (h : Contains settings M m) (hs : settings.Serviceable)
    (hmeets : Exchanges settings (decisionRequest false) m met m') :
    Contains settings M m' ∧ (met = .answered .ack → Released settings M m') := by
  rcases h with ⟨hoff, hstored⟩ | ⟨op', h⟩ | h
  · obtain ⟨rfl, hmet⟩ := hmeets.of_off hoff
    exact ⟨.inl ⟨hoff, hstored⟩, fun heq => absurd heq (hmet _)⟩
  · rcases h.exchanges_decision hs hmeets with h' | ⟨hmet, M', rfl | rfl, h'⟩
    · exact ⟨.inr (.inr h'), fun _ => h'⟩
    · exact ⟨.inr (.inl ⟨op', h'⟩), fun heq => absurd heq hmet⟩
    · exact ⟨.inr (.inl ⟨op', h'⟩), fun heq => absurd heq hmet⟩
  · have h' := h.exchanges_decision hs hmeets
    exact ⟨.inr (.inr h'), fun _ => h'⟩

/-- The operation waits to be carried out, or was and waits to be acknowledged, or was and is. -/
def Bidden (settings : ReplicaSettings) (M : Store.Contents) (op : Operation) (m : Machine) :
    Prop :=
  Held settings M op m ∨ Held settings (op.effect M) op m ∨ Released settings (op.effect M) m

theorem Bidden.exchanges_commit (h : Bidden settings M op m) (hs : settings.Serviceable)
    (hmeets : Exchanges settings (decisionRequest true) m met m') :
    Bidden settings M op m' ∧ (met = .answered .ack → Released settings (op.effect M) m') := by
  have hagain : decided true op (op.effect M) = op.effect M := op.effect_effect M
  rcases h with h | h | h
  · rcases h.exchanges_decision hs hmeets with h' | ⟨hmet, M', rfl | rfl, h'⟩
    · exact ⟨.inr (.inr h'), fun _ => h'⟩
    · exact ⟨.inl h', fun heq => absurd heq hmet⟩
    · exact ⟨.inr (.inl h'), fun heq => absurd heq hmet⟩
  · rcases h.exchanges_decision hs hmeets with h' | ⟨hmet, M', rfl | rfl, h'⟩
    · rw [hagain] at h'
      exact ⟨.inr (.inr h'), fun _ => h'⟩
    · exact ⟨.inr (.inl h'), fun heq => absurd heq hmet⟩
    · rw [hagain] at h'
      exact ⟨.inr (.inl h'), fun heq => absurd heq hmet⟩
  · have h' := h.exchanges_decision hs hmeets
    exact ⟨.inr (.inr h'), fun _ => h'⟩

/-! ## Contacts that succeed -/

/-- The replica runs, and there is room for the decision that it waits for. -/
def Ready (settings : ReplicaSettings) (m : Machine) : Prop :=
  ∃ r, m.replica? = some r ∧ r.Running settings m.disk ∧ Roomy r

theorem Released.ready (h : Released settings M m) : Ready settings m := by
  obtain ⟨r, rs, n, hr, h⟩ := h
  exact ⟨r, hr, .inr ⟨M, rs, n, h⟩, fun hpending => absurd h.phase_eq hpending⟩

/-- An attempt can succeed. -/
theorem Ready.exists_succeeds (h : Ready settings m) (q : Request) :
    ∃ met m', Succeeds q m met m' := by
  obtain ⟨r, hr, -, hroom⟩ := h
  obtain ⟨d, replica?⟩ := m
  subst hr
  rcases hserve : (r.serve "" q).run d with ⟨⟨answer, r'⟩, e⟩
  exact ⟨_, _, .answered hroom hserve⟩

theorem Succeeds.served (h : Succeeds q m met m') {r : Replica} (hr : m.replica? = some r) :
    ∃ r' now answer, m'.replica? = some r' ∧ met = .answered answer ∧
      (r.serve now q).run m.disk = ((answer, r'), m'.disk) := by
  cases h with
  | answered hroom hserve =>
    obtain rfl := Option.some.inj hr
    exact ⟨_, _, _, rfl, rfl, hserve⟩

/-- A replica that waits for no decision votes for an operation within the limits. -/
theorem Released.succeeds_vote (h : Released settings M m) (hs : settings.Serviceable)
    (hcheck : op.check = .ok ()) (hmeets : Succeeds op.request m met m') :
    met = .answered .voteCommit ∧ ∃ r', m'.replica? = some r' ∧
      r'.Engaged settings M op [.ofVote op] 1 m'.disk := by
  obtain ⟨r, rs, n, hr, h⟩ := h
  obtain ⟨r', now, answer, hr', rfl, hrun⟩ := hmeets.served hr
  rw [serve_request (h.placed.settings_eq ▸ hs.votes)] at hrun
  obtain ⟨-, hvote, h'⟩ := h.ensures_vote hcheck
  rw [hrun] at hvote h'
  exact ⟨congrArg _ hvote, r', hr', h'⟩

theorem Ready.succeeds_vote (h : Ready settings m) (hs : settings.Serviceable)
    (hcheck : op.check = .ok ()) (hmeets : Succeeds op.request m met m') : Ready settings m' := by
  obtain ⟨r, hr, ⟨M, op', rs, n, h⟩ | ⟨M, rs, n, h⟩, hroom⟩ := h
  · obtain ⟨r', now, answer, hr', rfl, hrun⟩ := hmeets.served hr
    rw [serve_request (h.placed.settings_eq ▸ hs.votes)] at hrun
    have hends : Action.Ends (fun _ => False) _ _ _ _ := Action.fares_of_run hrun
    obtain ⟨-, rfl, hdisk⟩ := h.ends_vote hends
    exact ⟨r', hr', .inl ⟨M, op', rs, n, hdisk ▸ h⟩, hroom⟩
  · have hreleased : Released settings M m := ⟨r, rs, n, hr, h⟩
    obtain ⟨-, r', hr', h'⟩ := hreleased.succeeds_vote hs hcheck hmeets
    refine ⟨r', hr', .inl ⟨M, op, _, _, h'⟩, fun _ => ?_⟩
    rw [h'.placed.size_eq]
    decide

/-- A replica acknowledges any decision, if there is room for it. -/
theorem Ready.succeeds_decision (h : Ready settings m) (hs : settings.Serviceable)
    (hmeets : Succeeds (decisionRequest commit) m met m') :
    met = .answered .ack ∧ Ready settings m' := by
  obtain ⟨r, hr, ⟨M, op, rs, n, h⟩ | ⟨M, rs, n, h⟩, hroom⟩ := h
  · obtain ⟨r', now, answer, hr', rfl, hrun⟩ := hmeets.served hr
    rw [serve_decision (h.placed.settings_eq ▸ hs.votes)] at hrun
    have hroom := hroom (by simp [h.phase_eq, Phase.pending?])
    rw [h.placed.size_eq] at hroom
    obtain ⟨-, hack, rs', h'⟩ := h.ensures_decide hroom commit
    rw [hrun] at hack h'
    exact ⟨congrArg _ hack, Released.ready ⟨r', rs', _, hr', h'⟩⟩
  · obtain ⟨r', now, answer, hr', rfl, hrun⟩ := hmeets.served hr
    rw [serve_decision (h.placed.settings_eq ▸ hs.votes), h.decide_eq] at hrun
    obtain ⟨heq, hdisk⟩ := Prod.mk.inj hrun
    obtain ⟨rfl, rfl⟩ := Prod.mk.inj heq
    exact ⟨rfl, Released.ready ⟨r, rs, n, hr', hdisk ▸ h⟩⟩

end Machine

end RingStore
