import RingStore.Proofs.Coordinator.Meeting
import RingStore.Proofs.Coordinator.Stages

/-!
# Messages that come late

A coordinator carries out one transaction after the other, and every request that it sends is a
message that the member handles at most once, at any time after it was sent. The coordinator may
give up waiting for the answer and move on, also to later transactions, while the message is still
in flight. The trace of a run tells what happened in its order. Members do not see which transaction
a message belongs to: the number that messages bear here is for the trace alone.

A member carries an operation out when it handles the decision to do so while it waits for one on
the operation. The decision then belongs to the operation's own transaction, or one of two messages
was late: the decision of an earlier transaction, or the request for the vote
(`Orderly.carried_out`).
-/

namespace RingStore

namespace Coordinator

open Machine Fleet

/-- A request that a transaction sends to a member. -/
structure Message where
  /-- The number of the transaction. -/
  transaction : Nat
  /-- The member that it is sent to. -/
  member : Member
  request : Request

/-- What a trace tells of. -/
inductive Event
  /-- A transaction begins. -/
  | began (t : Nat)
  /-- The coordinator takes the decision of a transaction. -/
  | decided (t : Nat) (commit : Bool)
  /-- A member handles a message. -/
  | handled (msg : Message) (answer : Response)

/-- A coordinator with the transaction under way, the machines of the members, and the messages that
are in flight. -/
structure Exchange where
  coordinator : Coordinator
  /-- The task of the transaction. -/
  task : Task
  /-- The number of the transaction. -/
  number : Nat
  fleet : Fleet
  inFlight : List Message

variable {c c' : Coordinator} {t n : Nat} {x y : Member} {op : Operation} {q : Request}
  {trace trace' : List Event} {s s' s'' : Exchange} {msg : Message} {answer : Response}

namespace Exchange

/-- Nothing was sent yet. -/
def start (c : Coordinator) (f : Fleet) : Exchange := ⟨c, .finished .success, 0, f, []⟩

/-- One step of the exchange, with the event that it makes, if it makes one. -/
inductive Step : Exchange → Option Event → Exchange → Prop
  /-- The next transaction begins. -/
  | begin {s : Exchange} {r : Response} {op : Operation} (h : s.task.demand = .finished r)
    (hop : op.ZeroFree) :
    Step s (some (.began (s.number + 1)))
      { s with task := .ofWrite op.request, number := s.number + 1 }
  /-- The task takes a step on the coordinator's state. -/
  | advance {s : Exchange} (h : s.task.demand = .step) :
    Step s (s.task.verdict?.map (.decided s.number))
      { s with
        coordinator := (s.task.advance s.coordinator).1
        task := (s.task.advance s.coordinator).2.1 }
  /-- No connection to a member comes about. -/
  | unreachable {s : Exchange} {x : Member} {q : Request} (h : s.task.demand = .contact x q) :
    Step s none { s with task := (s.task.contacted .unreachable).1 }
  /-- A message is sent, and the coordinator gives up waiting for the answer. -/
  | sent {s : Exchange} {x : Member} {q : Request} (h : s.task.demand = .contact x q) :
    Step s none
      { s with task := (s.task.contacted .lost).1, inFlight := ⟨s.number, x, q⟩ :: s.inFlight }
  /-- A message is sent, handled and answered. -/
  | answered {s : Exchange} {x : Member} {q : Request} {answer : Response} {m : Machine}
    (h : s.task.demand = .contact x q) (hmeets : Meets q (s.fleet x) (.answered answer) m) :
    Step s (some (.handled ⟨s.number, x, q⟩ answer))
      { s with
        task := (s.task.contacted (.answered answer)).1
        fleet := Function.update s.fleet x m }
  /-- A message in flight is handled, and its answer goes nowhere. -/
  | delivered {s : Exchange} {before after : List Message} {msg : Message} {answer : Response}
    {m : Machine} (h : s.inFlight = before ++ msg :: after)
    (hmeets : Meets msg.request (s.fleet msg.member) (.answered answer) m) :
    Step s (some (.handled msg answer))
      { s with fleet := Function.update s.fleet msg.member m, inFlight := before ++ after }

/-- What the exchange can come to, with the trace. -/
inductive Run (s : Exchange) : List Event → Exchange → Prop
  | start : Run s [] s
  | step {trace : List Event} {event : Option Event} {s' s'' : Exchange} (h : Run s trace s')
    (hstep : Step s' event s'') : Run s (trace ++ event.toList) s''

theorem Run.quiet (h : Run s trace s') (hstep : Step s' none s'') : Run s trace s'' := by
  simpa using h.step hstep

end Exchange

/-! ## What a member waits for and has carried out -/

/-- What a trace tells of one member. -/
structure Ledger where
  /-- The operation that the member waits for the decision on, with the transaction that asked. -/
  waiting? : Option (Nat × Operation)
  /-- The operations that the member has carried out, in their order, with their transactions. -/
  carried : List (Nat × Operation)

/-- The ledger of a member after one more event. -/
def Ledger.note (x : Member) (l : Ledger) : Event → Ledger
  | .handled msg answer =>
    if msg.member = x then
      match msg.request, answer with
      | .commit, _ => ⟨none, l.carried ++ l.waiting?.toList⟩
      | .abort, _ => ⟨none, l.carried⟩
      | q, .voteCommit => ⟨q.operation?.map (msg.transaction, ·), l.carried⟩
      | _, _ => l
    else l
  | _ => l

/-- The ledger of a member after a trace. -/
def ledger (trace : List Event) (x : Member) : Ledger := trace.foldl (Ledger.note x) ⟨none, []⟩

theorem ledger_concat (trace : List Event) (e : Event) (x : Member) :
    ledger (trace ++ [e]) x = (ledger trace x).note x e := List.foldl_append

/-- What a member waits for comes from its last vote. -/
theorem waiting?_note {l : Ledger} {e : Event} (h : (l.note x e).waiting? = some (t, op)) :
    e = .handled ⟨t, x, op.request⟩ .voteCommit ∨
      l.waiting? = some (t, op) ∧ ∀ t' q, e ≠ .handled ⟨t', x, q⟩ .voteCommit := by
  cases e with
  | began t' | decided t' commit => exact .inr ⟨h, by simp⟩
  | handled msg answer =>
    obtain ⟨t', y, q⟩ := msg
    by_cases hy : y = x
    · subst hy
      simp only [Ledger.note, if_true] at h
      cases q with
      | commit | abort => exact absurd h (by simp)
      | put key value | del key =>
        cases answer with
        | voteCommit =>
          simp only [Request.operation?, Option.map_some, Option.some.injEq, Prod.mk.injEq] at h
          obtain ⟨rfl, rfl⟩ := h
          exact .inl rfl
        | report | value | voteAbort | ack => exact .inr ⟨h, by simp⟩
      | get key | register host port | info =>
        cases answer with
        | voteCommit => exact absurd h (by simp [Request.operation?])
        | report | value | voteAbort | ack => exact .inr ⟨h, by simp⟩
    · simp only [Ledger.note, hy, if_false] at h
      exact .inr ⟨h, by simp [hy]⟩

/-- The member has voted for a transaction. -/
def Voted (trace : List Event) (t : Nat) (x : Member) : Prop :=
  ∃ q, .handled ⟨t, x, q⟩ .voteCommit ∈ trace

/-- A member that waits for a decision has voted for no transaction since. -/
theorem exists_vote_of_waiting (h : (ledger trace x).waiting? = some (t, op)) :
    ∃ before after, trace = before ++ .handled ⟨t, x, op.request⟩ .voteCommit :: after ∧
      ∀ t', ¬ Voted after t' x := by
  induction trace using List.reverseRecOn with
  | nil => exact absurd h (by simp [ledger])
  | append_singleton trace e ih =>
    rw [ledger_concat] at h
    rcases waiting?_note h with rfl | ⟨hwaiting, hother⟩
    · exact ⟨trace, [], rfl, by simp [Voted]⟩
    · obtain ⟨before, after, rfl, hnone⟩ := ih hwaiting
      refine ⟨before, after ++ [e], by simp, ?_⟩
      rintro t' ⟨q, hq⟩
      rcases List.mem_append.1 hq with hq | hq
      · exact hnone t' ⟨q, hq⟩
      · exact hother t' q (List.mem_singleton.1 hq).symm

/-! ## What messages tell of the trace -/

/-- The transaction of a message has begun, and a decision to carry out was taken, after the
member's vote for it. -/
structure Sent (c : Coordinator) (trace : List Event) (msg : Message) : Prop where
  began : .began msg.transaction ∈ trace
  member : msg.member ∈ c.ring.members
  zeroFree : msg.request.ZeroFree
  decided : msg.request = .commit →
    .decided msg.transaction true ∈ trace ∧ Voted trace msg.transaction msg.member

/-- Every message that was handled had been sent. -/
def HandledSent (c : Coordinator) (trace : List Event) : Prop :=
  ∀ before msg answer after, trace = before ++ .handled msg answer :: after → Sent c before msg

theorem Voted.mono (h : Voted trace t x) (hsub : trace ⊆ trace') : Voted trace' t x := by
  obtain ⟨q, hq⟩ := h
  exact ⟨q, hsub hq⟩

theorem Sent.mono (h : Sent c trace msg) (hsub : trace ⊆ trace') : Sent c trace' msg where
  began := hsub h.began
  member := h.member
  zeroFree := h.zeroFree
  decided := fun hcommit => ⟨hsub (h.decided hcommit).1, (h.decided hcommit).2.mono hsub⟩

theorem HandledSent.concat (h : HandledSent c trace) {e : Event}
    (he : ∀ msg answer, e = .handled msg answer → Sent c trace msg) :
    HandledSent c (trace ++ [e]) := by
  intro before msg answer after hsplit
  rcases List.eq_nil_or_concat after with rfl | ⟨after, e', rfl⟩
  · obtain ⟨rfl, heq⟩ := List.append_inj' hsplit rfl
    exact he msg answer (List.singleton_inj.1 heq)
  · rw [List.concat_eq_append, ← List.cons_append, ← List.append_assoc] at hsplit
    obtain ⟨rfl, -⟩ := List.append_inj' hsplit rfl
    exact h before msg answer after rfl

/-- An operation is carried out after its transaction was decided, or the decision is one of an
earlier transaction, or the member was asked for its vote when a later transaction had begun. -/
theorem HandledSent.carried_out (h : HandledSent c trace) {before after : List Event} {t' : Nat}
    (htrace : trace = before ++ .handled ⟨t', x, .commit⟩ answer :: after)
    (hwaiting : (ledger before x).waiting? = some (t, op)) :
    .decided t true ∈ before ∨ (t' < t ∧ .began t ∈ before) ∨
      (t < t' ∧ ∃ first rest, before = first ++ .handled ⟨t, x, op.request⟩ .voteCommit :: rest ∧
        .began t' ∈ first) := by
  obtain ⟨hdecided, q, hvote⟩ := (h _ _ _ _ htrace).decided rfl
  obtain ⟨first, rest, rfl, hlast⟩ := exists_vote_of_waiting hwaiting
  rw [List.append_assoc, List.cons_append] at htrace
  have hsent := h _ _ _ _ htrace
  rcases Nat.lt_trichotomy t' t with hlt | rfl | hlt
  · exact .inr (.inl ⟨hlt, by simp [hsent.began]⟩)
  · exact .inl hdecided
  · refine .inr (.inr ⟨hlt, first, rest, rfl, ?_⟩)
    -- the member voted for the decided transaction before the vote that it waits on
    have hfirst : .handled ⟨t', x, q⟩ .voteCommit ∈ first := by
      rcases List.mem_append.1 hvote with hfirst | hrest
      · exact hfirst
      · rcases List.mem_cons.1 hrest with heq | hrest
        · simp only [Event.handled.injEq, Message.mk.injEq] at heq
          omega
        · exact absurd ⟨q, hrest⟩ (hlast t')
    obtain ⟨earlier, later, rfl⟩ := List.append_of_mem hfirst
    rw [List.append_assoc, List.cons_append] at htrace
    have hsent' := h _ _ _ _ htrace
    exact List.mem_append_left _ hsent'.began

/-! ## What every step keeps -/

/-- A transaction is undecided until the votes are in, and then decided to be carried out only if
every member of the cohort has voted for it. -/
def Writing.Tallied (trace : List Event) (t : Nat) : Writing → Prop
  | checking | admission | entering | routing => ∀ commit, .decided t commit ∉ trace
  | voting cohort left unanimous => (∀ commit, .decided t commit ∉ trace) ∧
    (unanimous = true → ∀ x ∈ cohort, x ∈ left ∨ Voted trace t x)
  | deciding true left => .decided t true ∈ trace ∧ ∀ x ∈ left, Voted trace t x
  | deciding false _ | settling | leaving _ | finished _ => True

namespace Writing

variable {stage : Writing} {met : Contact}

theorem Tallied.mono (h : stage.Tallied trace t) (hsub : trace ⊆ trace')
    (hundecided : ∀ commit, .decided t commit ∈ trace' → .decided t commit ∈ trace) :
    stage.Tallied trace' t := by
  cases stage with
  | checking | admission | entering | routing => exact fun commit hin => h commit (hundecided _ hin)
  | voting cohort left unanimous =>
    exact ⟨fun commit hin => h.1 commit (hundecided _ hin), fun hall x hx =>
      (h.2 hall x hx).imp_right fun hvoted => hvoted.mono hsub⟩
  | deciding commit left =>
    cases commit with
    | true => exact ⟨hsub h.1, fun x hx => (h.2 x hx).mono hsub⟩
    | false => trivial
  | settling | leaving r | finished r => trivial

theorem Tallied.advance (h : stage.Tallied trace t)
    (hverdict : (Task.write op stage).verdict? = none) :
    (stage.advance c op).2.1.Tallied trace t := by
  cases stage with
  | checking =>
    simp only [Writing.advance]
    split
    · trivial
    · exact h
  | admission =>
    simp only [Writing.advance]
    split
    · exact h
    · trivial
  | entering =>
    simp only [Writing.advance]
    split
    · trivial
    · exact h
  | routing => exact ⟨h, fun _ x hx => .inl hx⟩
  | voting cohort left unanimous =>
    cases left with
    | cons y left => exact h
    | nil => exact absurd hverdict (by simp [Task.verdict?])
  | deciding commit left =>
    cases left with
    | cons y left => cases commit <;> exact h
    | nil => cases commit <;> trivial
  | settling | leaving r | finished r => trivial

/-- The decision to carry out is taken when all have voted. -/
theorem Tallied.decide {commit : Bool} (h : stage.Tallied trace t)
    (hverdict : (Task.write op stage).verdict? = some commit) :
    (∀ commit, .decided t commit ∉ trace) ∧
      (stage.advance c op).2.1.Tallied (trace ++ [.decided t commit]) t := by
  cases stage with
  | voting cohort left unanimous =>
    cases left with
    | cons y left => exact absurd hverdict (by simp [Task.verdict?])
    | nil =>
      obtain rfl : unanimous = commit := by simpa [Task.verdict?] using hverdict
      refine ⟨h.1, ?_⟩
      cases unanimous with
      | true =>
        refine ⟨by simp, fun x hx => ?_⟩
        exact ((h.2 rfl x hx).resolve_left (by simp)).mono (List.subset_append_left _ _)
      | false => trivial
  | checking | admission | entering | routing | deciding commit left | settling | leaving r
  | finished r => exact absurd hverdict (by simp [Task.verdict?])

/-- The member that was met has voted for the transaction if it answered so. -/
theorem Tallied.contacted (h : stage.Tallied trace t) (hdemand : stage.demand op = .contact x q)
    (hvote : met = .answered .voteCommit → Voted trace t x) :
    (stage.contacted met).1.Tallied trace t := by
  rcases demand_eq_contact hdemand with ⟨asked, left, unanimous, rfl, rfl⟩
    | ⟨commit, left, rfl, rfl⟩
  · refine ⟨h.1, fun hall y hy => ?_⟩
    simp only [Bool.and_eq_true, beq_iff_eq] at hall
    rcases h.2 hall.1 y hy with hleft | hvoted
    · rcases List.mem_cons.1 hleft with rfl | hleft
      · exact .inr (hvote hall.2)
      · exact .inl hleft
    · exact .inr hvoted
  · cases commit with
    | true =>
      refine ⟨h.1, fun y hy => h.2 y ?_⟩
      by_cases hmet : met = .answered .ack
      · rw [if_pos hmet] at hy
        exact List.mem_cons_of_mem _ hy
      · rwa [if_neg hmet] at hy
    | false => trivial

end Writing

/-- The task of a transaction has come to a stage of its write that the trace bears out. -/
structure Underway (c : Coordinator) (trace : List Event) (s : Exchange) (op : Operation)
    (stage : Writing) : Prop where
  task_eq : s.task = .write op stage
  zeroFree : op.ZeroFree
  proper : stage.Proper op (c.cohort op.key)
  began : .began s.number ∈ trace
  tallied : stage.Tallied trace s.number

/-- What the trace of a run tells of where the exchange has come to. -/
structure Orderly (c : Coordinator) (trace : List Event) (s : Exchange) : Prop where
  ring_eq : s.coordinator.ring = c.ring
  settings_eq : s.coordinator.settings = c.settings
  task : (∃ r, s.task = .finished r) ∨ ∃ op stage, Underway c trace s op stage
  number : ∀ t commit, .decided t commit ∈ trace → t ≤ s.number
  decided : ∀ t, .decided t true ∈ trace → .decided t false ∉ trace
  inFlight : ∀ msg ∈ s.inFlight, Sent c trace msg
  handled : HandledSent c trace

theorem Underway.sent {stage : Writing} (h : Underway c trace s op stage)
    (hdemand : s.task.demand = .contact x q) : Sent c trace ⟨s.number, x, q⟩ := by
  rw [h.task_eq] at hdemand
  have htallied := h.tallied
  have hproper := h.proper
  rcases Writing.demand_eq_contact hdemand with
    ⟨asked, left, unanimous, rfl, rfl⟩ | ⟨commit, left, rfl, rfl⟩
  · exact
      { began := h.began
        member := mem_members (hproper.2.2 List.mem_cons_self)
        zeroFree := zeroFree_request h.zeroFree
        decided := fun hcommit => by
          cases op <;> exact absurd hcommit (by simp [Operation.request]) }
  · refine ⟨h.began, mem_members (hproper List.mem_cons_self), zeroFree_decisionRequest commit, ?_⟩
    intro hcommit
    cases commit with
    | true => exact ⟨htallied.1, htallied.2 x List.mem_cons_self⟩
    | false => exact absurd hcommit (by simp [decisionRequest])

theorem Underway.contacted {stage : Writing} {met : Contact} (h : Underway c trace s op stage)
    (hdemand : s.task.demand = .contact x q)
    (hvote : met = .answered .voteCommit → Voted trace s.number x)
    (htask : s'.task = (s.task.contacted met).1) (hnumber : s'.number = s.number) :
    Underway c trace s' op (stage.contacted met).1 := by
  rw [h.task_eq] at hdemand htask
  refine ⟨htask, h.zeroFree, h.proper.contacted met, ?_, ?_⟩
  · rw [hnumber]
    exact h.began
  · rw [hnumber]
    exact h.tallied.contacted hdemand hvote

/-- A message that was handled takes no decision. -/
theorem Underway.handled {stage : Writing} (h : Underway c trace s op stage)
    (hnumber : s'.number = s.number) (htask : s'.task = s.task) :
    Underway c (trace ++ [.handled msg answer]) s' op stage where
  task_eq := htask.trans h.task_eq
  zeroFree := h.zeroFree
  proper := h.proper
  began := by
    rw [hnumber]
    exact List.mem_append_left _ h.began
  tallied := by
    rw [hnumber]
    exact h.tallied.mono (List.subset_append_left _ _) fun commit hin => by simpa using hin

/-- A task that puts a request to a member is that of a write under way. -/
theorem Orderly.underway (h : Orderly c trace s) (hdemand : s.task.demand = .contact x q) :
    ∃ op stage, Underway c trace s op stage := by
  rcases h.task with ⟨r, htask⟩ | hunderway
  · rw [htask] at hdemand
    exact absurd hdemand (by simp [Task.demand])
  · exact hunderway

/-- A trace stays in order when a message is handled that was sent. -/
theorem Orderly.concat_handled (h : Orderly c trace s) (hsent : Sent c trace msg)
    (hcoordinator : s'.coordinator = s.coordinator) (hnumber : s'.number = s.number)
    (hflight : s'.inFlight ⊆ s.inFlight)
    (htask : (∃ r, s'.task = .finished r) ∨
      ∃ op stage, Underway c (trace ++ [.handled msg answer]) s' op stage) :
    Orderly c (trace ++ [.handled msg answer]) s' where
  ring_eq := by rw [hcoordinator, h.ring_eq]
  settings_eq := by rw [hcoordinator, h.settings_eq]
  task := htask
  number := fun t commit hin => by
    rw [hnumber]
    exact h.number t commit (by simpa using hin)
  decided := fun t hin => by
    have hnot := h.decided t (by simpa using hin)
    simpa using hnot
  inFlight := fun msg hmsg => (h.inFlight msg (hflight hmsg)).mono (List.subset_append_left _ _)
  handled := h.handled.concat fun msg' answer' heq => by
    obtain ⟨rfl, -⟩ := Event.handled.inj heq
    exact hsent

theorem Orderly.begin (h : Orderly c trace s) (hop : op.ZeroFree) :
    Orderly c (trace ++ [.began (s.number + 1)])
      { s with task := .ofWrite op.request, number := s.number + 1 } where
  ring_eq := h.ring_eq
  settings_eq := h.settings_eq
  task := by
    refine .inr ⟨op, .checking, by simp [Task.ofWrite], hop, trivial, by simp, fun commit hin => ?_⟩
    have hle := h.number (s.number + 1) commit (by simpa using hin)
    omega
  number := fun t commit hin => by
    have hle := h.number t commit (by simpa using hin)
    show t ≤ s.number + 1
    omega
  decided := fun t hin => by
    have hnot := h.decided t (by simpa using hin)
    simpa using hnot
  inFlight := fun msg hmsg => (h.inFlight msg hmsg).mono (List.subset_append_left _ _)
  handled := h.handled.concat fun _ _ heq => absurd heq (by simp)

theorem Orderly.advance (h : Orderly c trace s) (hdemand : s.task.demand = .step) :
    Orderly c (trace ++ (s.task.verdict?.map (.decided s.number)).toList)
      { s with
        coordinator := (s.task.advance s.coordinator).1
        task := (s.task.advance s.coordinator).2.1 } := by
  rcases h.task with ⟨r, htask⟩ | ⟨op, stage, hunderway⟩
  · rw [htask] at hdemand
    exact absurd hdemand (by simp [Task.demand])
  obtain ⟨hring, hsettings⟩ := Writing.advance_fixed s.coordinator op stage
  have hcohort := cohort_eq h.ring_eq h.settings_eq op.key
  rw [hunderway.task_eq]
  cases hverdict : (Task.write op stage).verdict? with
  | none =>
    rw [Option.map_none, Option.toList_none, List.append_nil]
    refine ⟨hring.trans h.ring_eq, hsettings.trans h.settings_eq,
      .inr ⟨op, _, rfl, hunderway.zeroFree, hunderway.proper.advance hcohort, hunderway.began,
        hunderway.tallied.advance hverdict⟩,
      h.number, h.decided, h.inFlight, h.handled⟩
  | some commit =>
    obtain ⟨hundecided, htallied⟩ := hunderway.tallied.decide (c := s.coordinator) hverdict
    exact
      { ring_eq := hring.trans h.ring_eq
        settings_eq := hsettings.trans h.settings_eq
        task := .inr ⟨op, _, rfl, hunderway.zeroFree, hunderway.proper.advance hcohort,
          List.mem_append_left _ hunderway.began, htallied⟩
        number := fun t commit' hin => by
          rcases List.mem_append.1 hin with hin | hin
          · exact h.number t commit' hin
          · obtain ⟨rfl, -⟩ := Event.decided.inj (List.mem_singleton.1 hin)
            exact Nat.le_refl _
        decided := fun t htrue hfalse => by
          rcases List.mem_append.1 htrue with htrue | htrue
          · rcases List.mem_append.1 hfalse with hfalse | hfalse
            · exact h.decided t htrue hfalse
            · obtain ⟨rfl, -⟩ := Event.decided.inj (List.mem_singleton.1 hfalse)
              exact hundecided true htrue
          · obtain ⟨rfl, rfl⟩ := Event.decided.inj (List.mem_singleton.1 htrue)
            rcases List.mem_append.1 hfalse with hfalse | hfalse
            · exact hundecided false hfalse
            · exact absurd (Event.decided.inj (List.mem_singleton.1 hfalse)).2 (by simp)
        inFlight := fun msg hmsg => (h.inFlight msg hmsg).mono (List.subset_append_left _ _)
        handled := h.handled.concat fun _ _ heq => absurd heq (by simp) }

/-- Every step keeps the trace in order. -/
theorem Orderly.step {event : Option Event} (h : Orderly c trace s)
    (hstep : Exchange.Step s event s') : Orderly c (trace ++ event.toList) s' := by
  cases hstep with
  | begin _ hop => exact h.begin hop
  | advance hdemand => exact h.advance hdemand
  | unreachable hdemand =>
    obtain ⟨op, stage, hunderway⟩ := h.underway hdemand
    have htask : Underway c trace { s with task := (s.task.contacted .unreachable).1 } op _ :=
      hunderway.contacted hdemand (by simp) rfl rfl
    rw [Option.toList_none, List.append_nil]
    exact ⟨h.ring_eq, h.settings_eq, .inr ⟨op, _, htask⟩, h.number, h.decided, h.inFlight,
      h.handled⟩
  | @sent x q hdemand =>
    obtain ⟨op, stage, hunderway⟩ := h.underway hdemand
    have htask : Underway c trace { s with
        task := (s.task.contacted .lost).1, inFlight := ⟨s.number, x, q⟩ :: s.inFlight } op _ :=
      hunderway.contacted hdemand (by simp) rfl rfl
    rw [Option.toList_none, List.append_nil]
    refine ⟨h.ring_eq, h.settings_eq, .inr ⟨op, _, htask⟩, h.number, h.decided, ?_, h.handled⟩
    intro msg hmsg
    rcases List.mem_cons.1 hmsg with rfl | hmsg
    · exact hunderway.sent hdemand
    · exact h.inFlight msg hmsg
  | @answered x q answer m hdemand hmeets =>
    obtain ⟨op, stage, hunderway⟩ := h.underway hdemand
    have hhandled : Underway c (trace ++ [.handled ⟨s.number, x, q⟩ answer]) s op stage :=
      hunderway.handled rfl rfl
    refine h.concat_handled (hunderway.sent hdemand) rfl rfl (List.Subset.refl _)
      (.inr ⟨op, _, hhandled.contacted hdemand ?_ rfl rfl⟩)
    intro hmet
    obtain rfl := Contact.answered.inj hmet
    exact ⟨q, by simp⟩
  | @delivered before after msg answer m hflight hmeets =>
    have hsent : Sent c trace msg := h.inFlight msg (by simp [hflight])
    refine h.concat_handled hsent rfl rfl ?_ ?_
    · intro msg' hmsg'
      rw [hflight]
      rcases List.mem_append.1 hmsg' with hmsg' | hmsg'
      · exact List.mem_append_left _ hmsg'
      · exact List.mem_append_right _ (List.mem_cons_of_mem _ hmsg')
    · rcases h.task with hfinished | ⟨op, stage, hunderway⟩
      · exact .inl hfinished
      · exact .inr ⟨op, stage, hunderway.handled rfl rfl⟩

theorem orderly_start (c : Coordinator) (f : Fleet) : Orderly c [] (Exchange.start c f) where
  ring_eq := rfl
  settings_eq := rfl
  task := .inl ⟨_, rfl⟩
  number := by simp
  decided := by simp
  inFlight := by simp [Exchange.start]
  handled := fun before msg answer after hsplit => absurd hsplit (by simp)

theorem Orderly.run {f : Fleet} (h : Exchange.Run (.start c f) trace s) : Orderly c trace s := by
  induction h with
  | start => exact orderly_start c f
  | step _ hstep ih => exact ih.step hstep

end Coordinator

end RingStore
