import RingStore.Proofs.Coordinator.Traffic

/-!
# Whole transactions

What is seen of a write at the gate and beyond it. A whole `Transaction` passes the gate, asks every
member that holds the key for its vote, tells each of them the decision until it acknowledges, and
leaves. `SoFar` tells for each stage of a write what has been seen of it by then; a step of the
write leads from one stage to the next (`SoFar.advance`, `SoFar.contacted`), and what has been seen
is always the beginning of a whole transaction (`SoFar.begun`).
-/

namespace RingStore

namespace Coordinator

open Traffic (Admitted)

/-- What is seen of the writes that pass the gate, each with the number of its call. -/
inductive Sight
  /-- The write passes the gate. -/
  | passed (call : Nat)
  /-- The write puts a request to a member, and this is how the member was met. -/
  | attempt (call : Nat) (m : Member) (q : Request) (met : Contact)
  /-- The write leaves, and another one may pass. -/
  | left (call : Nat)
  deriving DecidableEq, Repr

/-- The call that is seen. -/
def Sight.call : Sight → Nat
  | passed call | attempt call _ _ _ | left call => call

/-- A write that has gone all the way. -/
structure Transaction where
  /-- The number of its call. -/
  call : Nat
  op : Operation
  /-- The members that were asked for their votes, and how each was met. -/
  votes : List (Member × Contact)
  /-- The members that were told the decision, and how each was met before it acknowledged. -/
  told : List (Member × List Contact)

namespace Transaction

/-- A vote is asked of each member in turn. -/
def asks (call : Nat) (op : Operation) (votes : List (Member × Contact)) : List Sight :=
  votes.map fun v => .attempt call v.1 op.request v.2

/-- The decision is put to a member again and again. -/
def tries (call : Nat) (commit : Bool) (m : Member) (mets : List Contact) : List Sight :=
  mets.map (.attempt call m (decisionRequest commit))

/-- The decision is put to each member in turn until it acknowledges. -/
def tells (call : Nat) (commit : Bool) (told : List (Member × List Contact)) : List Sight :=
  told.flatMap fun d => tries call commit d.1 (d.2 ++ [.answered .ack])

/-- All members voted to carry the operation out. -/
def unanimous (votes : List (Member × Contact)) : Bool := votes.all (·.2 == .answered .voteCommit)

/-- The operation was carried out. -/
def commit (tx : Transaction) : Bool := unanimous tx.votes

/-- What the call answers. -/
def response (tx : Transaction) : Response :=
  if tx.commit then .success else .ofFault .generic

/-- All that is seen of the transaction, in this order. -/
def sights (tx : Transaction) : List Sight :=
  .passed tx.call ::
    (asks tx.call tx.op tx.votes ++ tells tx.call tx.commit tx.told ++ [.left tx.call])

/-- All members that hold the key were asked and told, each in its turn, and none was told again
after it had acknowledged. -/
structure Complete (c : Coordinator) (tx : Transaction) : Prop where
  admitted : Admitted c tx.op
  asked : tx.votes.map Prod.fst = c.cohort tx.op.key
  delivered : tx.told.map Prod.fst = c.cohort tx.op.key
  failed : ∀ d ∈ tx.told, Contact.answered .ack ∉ d.2

variable {c c' : Coordinator} {tx : Transaction} {call : Nat} {op : Operation}

theorem Complete.fixed (h : tx.Complete c) (hc : Fixed c c') : tx.Complete c' := by
  have hcohort := hc.cohort h.admitted.full tx.op.key
  exact ⟨h.admitted.fixed hc, hcohort ▸ h.asked, hcohort ▸ h.delivered, h.failed⟩

/-- No transaction ends with the answer that turns a write away. -/
theorem response_ne_invalidRequest (tx : Transaction) :
    tx.response ≠ .ofFault .invalidRequest := by
  unfold response
  split <;> decide

theorem unanimous_concat (votes : List (Member × Contact)) (m : Member) (met : Contact) :
    unanimous (votes ++ [(m, met)]) = (unanimous votes && met == .answered .voteCommit) := by
  simp [unanimous]

theorem asks_concat (votes : List (Member × Contact)) (m : Member) (met : Contact) :
    asks call op (votes ++ [(m, met)]) =
      asks call op votes ++ [.attempt call m op.request met] := by
  simp [asks]

theorem tries_concat (commit : Bool) (m : Member) (mets : List Contact) (met : Contact) :
    tries call commit m (mets ++ [met]) =
      tries call commit m mets ++ [.attempt call m (decisionRequest commit) met] := by
  simp [tries]

theorem tells_append (commit : Bool) (told told' : List (Member × List Contact)) :
    tells call commit (told ++ told') = tells call commit told ++ tells call commit told' := by
  simp [tells]

theorem tells_singleton (commit : Bool) (m : Member) (mets : List Contact) :
    tells call commit [(m, mets)] = tries call commit m (mets ++ [.answered .ack]) := by
  simp [tells]

theorem call_of_mem_sights {x : Sight} (h : x ∈ tx.sights) : x.call = tx.call := by
  unfold sights at h
  simp only [List.mem_cons, List.mem_append, List.not_mem_nil, or_false] at h
  rcases h with rfl | (hvote | htold) | rfl
  · rfl
  · obtain ⟨v, -, rfl⟩ := List.mem_map.1 hvote
    rfl
  · obtain ⟨d, -, hd⟩ := List.mem_flatMap.1 htold
    obtain ⟨met, -, rfl⟩ := List.mem_map.1 hd
    rfl
  · rfl

end Transaction

open Transaction

namespace Writing

variable {c c' : Coordinator} {call : Nat} {op : Operation} {seen : List Sight} {stage : Writing}
  {r : Response}

/-- All has been seen of a transaction but that it leaves, with this response. -/
def AboutToLeave (c : Coordinator) (call : Nat) (op : Operation) (seen : List Sight)
    (r : Response) : Prop :=
  ∃ tx : Transaction, tx.Complete c ∧ tx.call = call ∧ tx.op = op ∧ tx.response = r ∧
    seen ++ [.left call] = tx.sights

/-- The decision has been put to the first member that is left. -/
def pressed (call : Nat) (commit : Bool) : List Member → List Contact → List Sight
  | [], _ => []
  | m :: _, mets => tries call commit m mets

/-- The votes that were asked for, and the decision that follows from them; the members that have
been told it; and how the first member that is left has been met since. -/
structure Telling (c : Coordinator) (call : Nat) (op : Operation) (seen : List Sight)
    (commit : Bool) (left : List Member) (votes : List (Member × Contact))
    (told : List (Member × List Contact)) (mets : List Contact) : Prop where
  asked : votes.map Prod.fst = c.cohort op.key
  decision : commit = unanimous votes
  delivered : told.map Prod.fst ++ left = c.cohort op.key
  failed : ∀ d ∈ told, Contact.answered .ack ∉ d.2
  pressing : Contact.answered .ack ∉ mets
  seen_eq : seen = .passed call ::
    (asks call op votes ++ tells call commit told ++ pressed call commit left mets)

/-- What has been seen of a write that has come to a stage past the gate. -/
def SoFar (c : Coordinator) (call : Nat) (op : Operation) (seen : List Sight) : Writing → Prop
  | routing => seen = [.passed call]
  | voting asked left all => asked = c.cohort op.key ∧ ∃ votes : List (Member × Contact),
      votes.map Prod.fst ++ left = c.cohort op.key ∧ all = unanimous votes ∧
        seen = .passed call :: asks call op votes
  | deciding commit left => ∃ votes told mets, Telling c call op seen commit left votes told mets
  | settling => AboutToLeave c call op seen .success
  | leaving r => AboutToLeave c call op seen r
  | checking | admission | entering | finished _ => False

/-- A transaction that is under way is inside the gate. -/
theorem SoFar.inside (h : SoFar c call op seen stage) : stage.inside = true := by
  cases stage with
  | routing | voting _ _ _ | deciding _ _ | settling | leaving _ => rfl
  | checking | admission | entering | finished _ => exact h.elim

theorem AboutToLeave.fixed (h : AboutToLeave c call op seen r) (hc : Fixed c c') :
    AboutToLeave c' call op seen r := by
  obtain ⟨tx, htx, hrest⟩ := h
  exact ⟨tx, htx.fixed hc, hrest⟩

/-- A change of the others leaves a transaction where it is. -/
theorem SoFar.fixed (h : SoFar c call op seen stage) (hadmitted : Admitted c op) (hc : Fixed c c') :
    SoFar c' call op seen stage := by
  have hcohort := hc.cohort hadmitted.full op.key
  cases stage with
  | routing => exact h
  | voting asked left all =>
    unfold SoFar
    rw [hcohort]
    exact h
  | deciding commit left =>
    obtain ⟨votes, told, mets, htelling⟩ := h
    exact ⟨votes, told, mets, hcohort ▸ htelling.asked, htelling.decision,
      hcohort ▸ htelling.delivered, htelling.failed, htelling.pressing, htelling.seen_eq⟩
  | settling | leaving r => exact AboutToLeave.fixed h hc
  | checking | admission | entering | finished _ => exact h.elim

/-- All members have acknowledged the decision. -/
theorem Telling.aboutToLeave {commit : Bool} {votes : List (Member × Contact)}
    {told : List (Member × List Contact)} {mets : List Contact}
    (h : Telling c call op seen commit [] votes told mets) (hadmitted : Admitted c op) :
    AboutToLeave c call op seen (if commit then .success else .ofFault .generic) := by
  obtain rfl := h.decision
  refine ⟨⟨call, op, votes, told⟩, ⟨hadmitted, h.asked, ?_, h.failed⟩, rfl, rfl, rfl, ?_⟩
  · have hdelivered := h.delivered
    rwa [List.append_nil] at hdelivered
  · rw [h.seen_eq]
    simp [sights, Transaction.commit, pressed]

theorem pressed_nil (call : Nat) (commit : Bool) (left : List Member) :
    pressed call commit left [] = [] := by cases left <;> rfl

/-- The first member that is left acknowledges, and the next one has not been met. -/
theorem Telling.acknowledged {commit : Bool} {m : Member} {left : List Member}
    {votes : List (Member × Contact)} {told : List (Member × List Contact)} {mets : List Contact}
    (h : Telling c call op seen commit (m :: left) votes told mets) :
    Telling c call op
      (seen ++ [.attempt call m (decisionRequest commit) (.answered .ack)]) commit left
      votes (told ++ [(m, mets)]) [] := by
  refine ⟨h.asked, h.decision, by simpa using h.delivered, ?_, by simp, ?_⟩
  · intro d hd
    rcases List.mem_append.1 hd with hd | hd
    · exact h.failed d hd
    · rw [List.mem_singleton.1 hd]
      exact h.pressing
  · rw [h.seen_eq, tells_append, tells_singleton, tries_concat, pressed_nil]
    simp [pressed]

/-- Nobody has been told the decision that follows from the votes. -/
theorem telling_of_votes {votes : List (Member × Contact)}
    (hasked : votes.map Prod.fst = c.cohort op.key) :
    Telling c call op (.passed call :: asks call op votes) (unanimous votes) (c.cohort op.key) votes
      [] [] :=
  ⟨hasked, rfl, rfl, by simp, by simp, by simp [tells, pressed_nil]⟩

/-- A step on the coordinator's state shows nothing, up to the one by which the write leaves. -/
theorem SoFar.advance (h : SoFar c call op seen stage) (hadmitted : Admitted c op)
    (hdemand : stage.demand op = .step) :
    (SoFar c call op seen (stage.advance c op).2.1 ∧ (stage.advance c op).1.busy = c.busy) ∨
      ∃ r, stage = .leaving r := by
  cases stage with
  | routing => exact .inl ⟨⟨rfl, [], rfl, rfl, h⟩, rfl⟩
  | voting asked left all =>
    cases left with
    | cons m left => cases hdemand
    | nil =>
      obtain ⟨rfl, votes, hasked, rfl, rfl⟩ := h
      rw [List.append_nil] at hasked
      exact .inl ⟨⟨votes, [], [], telling_of_votes hasked⟩, rfl⟩
  | deciding commit left =>
    cases left with
    | cons m left => cases hdemand
    | nil =>
      obtain ⟨votes, told, mets, htelling⟩ := h
      cases commit with
      | true => exact .inl ⟨htelling.aboutToLeave hadmitted, rfl⟩
      | false => exact .inl ⟨htelling.aboutToLeave hadmitted, rfl⟩
  | settling => exact .inl ⟨h, rfl⟩
  | leaving r => exact .inr ⟨r, rfl⟩
  | checking | admission | entering | finished _ => exact h.elim

/-- A write that meets a member shows this. -/
theorem SoFar.contacted (h : SoFar c call op seen stage) {m : Member} {q : Request}
    (hdemand : stage.demand op = .contact m q) (met : Contact) :
    SoFar c call op (seen ++ [.attempt call m q met]) (stage.contacted met).1 := by
  rcases demand_eq_contact hdemand with ⟨asked, left, all, rfl, rfl⟩ | ⟨commit, left, rfl, rfl⟩
  · obtain ⟨rfl, votes, hasked, rfl, rfl⟩ := h
    refine ⟨rfl, votes ++ [(m, met)], ?_, (unanimous_concat votes m met).symm, ?_⟩
    · simpa using hasked
    · rw [asks_concat, List.cons_append]
  · obtain ⟨votes, told, mets, htelling⟩ := h
    by_cases hack : met = .answered .ack
    · subst hack
      simp only [Writing.contacted, if_true]
      exact ⟨votes, told ++ [(m, mets)], [], htelling.acknowledged⟩
    · simp only [Writing.contacted, if_neg hack]
      refine ⟨votes, told, mets ++ [met], htelling.asked, htelling.decision, htelling.delivered,
        htelling.failed, ?_, ?_⟩
      · simp [htelling.pressing, Ne.symm hack]
      · rw [htelling.seen_eq]
        simp [pressed, tries_concat]

/-! ## The beginning of a whole transaction -/

/-- What has been seen is the beginning of a whole transaction, and not all of it. -/
def Begun (c : Coordinator) (call : Nat) (op : Operation) (seen : List Sight) : Prop :=
  ∃ tx : Transaction, tx.Complete c ∧ tx.call = call ∧ tx.op = op ∧
    ∃ rest, rest ≠ [] ∧ seen ++ rest = tx.sights

theorem AboutToLeave.begun (h : AboutToLeave c call op seen r) : Begun c call op seen := by
  obtain ⟨tx, htx, hcall, hop, -, hsights⟩ := h
  exact ⟨tx, htx, hcall, hop, _, by simp, hsights⟩

/-- The members that are left could acknowledge. -/
theorem Telling.begun {commit : Bool} {left : List Member} {votes : List (Member × Contact)}
    {told : List (Member × List Contact)} {mets : List Contact}
    (h : Telling c call op seen commit left votes told mets) (hadmitted : Admitted c op) :
    Begun c call op seen := by
  induction left generalizing told mets seen with
  | nil => exact (h.aboutToLeave hadmitted).begun
  | cons m left ih =>
    obtain ⟨tx, htx, hcall, hop, rest, -, hsights⟩ := ih h.acknowledged
    exact ⟨tx, htx, hcall, hop, _ :: rest, by simp, by simpa using hsights⟩

/-- The members that are left could be lost. -/
theorem begun_of_votes {left : List Member} {votes : List (Member × Contact)}
    (hasked : votes.map Prod.fst ++ left = c.cohort op.key) (hadmitted : Admitted c op) :
    Begun c call op (.passed call :: asks call op votes) := by
  induction left generalizing votes with
  | nil =>
    rw [List.append_nil] at hasked
    exact (telling_of_votes hasked).begun hadmitted
  | cons m left ih =>
    have hnext : (votes ++ [(m, Contact.lost)]).map Prod.fst ++ left = c.cohort op.key := by
      simpa using hasked
    obtain ⟨tx, htx, hcall, hop, rest, -, hsights⟩ := ih hnext
    refine ⟨tx, htx, hcall, hop, .attempt call m op.request .lost :: rest, by simp, ?_⟩
    simpa [asks_concat] using hsights

/-- What was seen of a transaction under way is the beginning of a transaction. -/
theorem SoFar.begun (h : SoFar c call op seen stage) (hadmitted : Admitted c op) :
    Begun c call op seen := by
  cases stage with
  | routing =>
    obtain rfl : seen = .passed call :: asks call op [] := h
    exact begun_of_votes rfl hadmitted
  | voting asked left all =>
    obtain ⟨-, votes, hasked, -, rfl⟩ := h
    exact begun_of_votes hasked hadmitted
  | deciding commit left =>
    obtain ⟨votes, told, mets, htelling⟩ := h
    exact htelling.begun hadmitted
  | settling | leaving r => exact AboutToLeave.begun h
  | checking | admission | entering | finished _ => exact h.elim

end Writing

end Coordinator

end RingStore
