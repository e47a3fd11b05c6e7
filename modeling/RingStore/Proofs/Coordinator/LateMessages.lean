import RingStore.Proofs.Coordinator.Exchange

/-!
# What late messages can do

The stores of the members hold what their ledgers tell that they have carried out. A late message
can make a member carry out an operation whose transaction was not decided, or was decided to be
dropped, but only across transactions: the decision of an earlier transaction meets the vote of a
later one, or a vote is asked for when a later transaction has begun.

Both ways are open. A decision that was sent twice can come when the member has voted in a
transaction that was dropped (`exists_run_redelivered`, `exists_run_late_decision`). A request for a
vote can outlive a transaction that was dropped because nobody was heard (`exists_run_dropped`), and
come between the two decisions of a later one (`exists_run_late_vote`): the operation is then
carried out that was dropped (`late_vote_carries_out_dropped`).
-/

namespace RingStore

namespace Coordinator

open Machine Fleet Standing

variable {settings : Member → ReplicaSettings} {c : Coordinator} {f : Fleet} {t n : Nat}
  {x y : Member} {op : Operation} {q : Request} {trace : List Event} {s s' : Exchange}
  {msg : Message} {answer : Response} {l : Ledger} {m m' : Machine} {set : ReplicaSettings}
  {M : Store.Contents}

/-- The member's replica runs and waits as the ledger tells, and its store holds what it held at
first with all operations carried out that the ledger tells of. -/
def Follows (set : ReplicaSettings) (M : Store.Contents) (l : Ledger) (m : Machine) : Prop :=
  ∃ L, At set (carryOut (l.carried.map (·.2)) M) L m ∧
    L.settle (carryOut (l.carried.map (·.2)) M) = carryOut (l.carried.map (·.2)) M ∧
    L.phase.pending? = l.waiting?.map (·.2)

theorem note_vote (hcommit : q ≠ .commit) (habort : q ≠ .abort) :
    l.note x (.handled ⟨t, x, q⟩ .voteCommit) = ⟨q.operation?.map (t, ·), l.carried⟩ := by
  cases q with
  | commit => exact absurd rfl hcommit
  | abort => exact absurd rfl habort
  | get _ | put _ _ | del _ | register _ _ | info => simp [Ledger.note]

theorem note_other (hcommit : q ≠ .commit) (habort : q ≠ .abort) (hanswer : answer ≠ .voteCommit) :
    l.note x (.handled ⟨t, x, q⟩ answer) = l := by
  cases q with
  | commit => exact absurd rfl hcommit
  | abort => exact absurd rfl habort
  | get _ | put _ _ | del _ | register _ _ | info =>
    cases answer with
    | voteCommit => exact absurd rfl hanswer
    | report _ | value _ _ | voteAbort _ | ack => simp [Ledger.note]

theorem note_decision (hq : q = .commit ∨ q = .abort) :
    (l.note x (.handled ⟨t, x, q⟩ answer)).waiting? = none := by
  rcases hq with rfl | rfl <;> simp [Ledger.note]

theorem pending?_serve_decision {L : Standing} (hq : q = .commit ∨ q = .abort) :
    (L.serve q).phase.pending? = none := by
  rcases hq with rfl | rfl <;> cases L <;> rfl

theorem carriedOut_of_ne {L : Standing} (hcommit : q ≠ .commit) : L.carriedOut q = [] := by
  cases L with
  | voted op =>
    cases q with
    | commit => exact absurd rfl hcommit
    | get _ | put _ _ | del _ | register _ _ | info | abort => rfl
  | idle | committed op | aborted op => rfl

/-- What a request makes of the standing is what its handling makes of the ledger. -/
theorem note_handled {L : Standing} (hpending : L.phase.pending? = l.waiting?.map (·.2))
    (hanswer : Replica.Answered L q answer) :
    (L.serve q).phase.pending? =
        (l.note x (.handled ⟨t, x, q⟩ answer)).waiting?.map (·.2) ∧
      (l.note x (.handled ⟨t, x, q⟩ answer)).carried.map (·.2) =
        l.carried.map (·.2) ++ L.carriedOut q := by
  by_cases hdecision : q = .commit ∨ q = .abort
  · refine ⟨by rw [note_decision hdecision, pending?_serve_decision hdecision, Option.map_none], ?_⟩
    rcases hdecision with rfl | rfl
    · have hcarried : L.carriedOut .commit = L.phase.pending?.toList := by cases L <;> rfl
      rw [hcarried, hpending]
      cases hwaiting : l.waiting? <;> simp [Ledger.note, hwaiting]
    · simp [Ledger.note, carriedOut_of_ne]
  · obtain ⟨hcommit, habort⟩ := not_or.1 hdecision
    rw [carriedOut_of_ne hcommit, List.append_nil]
    cases hballot : L.ballot q with
    | some op =>
      obtain rfl := hanswer.2.2 (by simp [hballot])
      rw [note_vote hcommit habort, serve_of_ballot hballot, (ballot_eq_some.1 hballot).2.1]
      exact ⟨rfl, rfl⟩
    | none =>
      have hother : answer ≠ .voteCommit := fun heq => by simpa [hballot] using hanswer.2.1 heq
      rw [note_other hcommit habort hother, serve_of_ballot_none hballot (.inl ⟨hcommit, habort⟩)]
      exact ⟨hpending, rfl⟩

/-- A machine that answers a message follows the ledger. -/
theorem Follows.handled (h : Follows set M l m) (hs : set.Serviceable) (hq : q.ZeroFree)
    (hmeets : Meets q m (.answered answer) m') :
    Follows set M (l.note x (.handled ⟨t, x, q⟩ answer)) m' := by
  obtain ⟨L, hat, hM, hpending⟩ := h
  cases hmeets with
  | answered hserve =>
    obtain ⟨hat', hanswer⟩ := hat.served hs hq hserve
    obtain ⟨hwaiting, hcarried⟩ := note_handled (x := x) (t := t) hpending hanswer
    rw [settle_serve hM, ← carryOut_append, ← hcarried] at hat'
    refine ⟨_, hat', ?_, hwaiting⟩
    rw [hcarried, carryOut_append, ← settle_serve hM, settle_settle]

theorem note_of_ne (h : y ≠ x) : l.note x (.handled ⟨t, y, q⟩ answer) = l := by
  simp [Ledger.note, h]

/-- Every member of the ring follows its ledger. -/
def AllFollow (settings : Member → ReplicaSettings) (c : Coordinator) (f : Fleet)
    (trace : List Event) (s : Exchange) : Prop :=
  ∀ x ∈ c.ring.members, Follows (settings x) (f.stored settings x) (ledger trace x) (s.fleet x)

theorem AllFollow.handled (h : AllFollow settings c f trace s)
    (hs : ∀ x ∈ c.ring.members, (settings x).Serviceable) (hsent : Sent c trace msg)
    (hmeets : Meets msg.request (s.fleet msg.member) (.answered answer) m)
    (hfleet : s'.fleet = Function.update s.fleet msg.member m) :
    AllFollow settings c f (trace ++ [.handled msg answer]) s' := by
  intro x hx
  rw [hfleet, ledger_concat]
  by_cases hxy : x = msg.member
  · subst hxy
    rw [Function.update_self]
    exact (h _ hx).handled (hs _ hx) hsent.zeroFree hmeets
  · rw [Function.update_of_ne hxy, note_of_ne (Ne.symm hxy)]
    exact h x hx

/-- Whatever the step, every machine of the ring follows its ledger. -/
theorem AllFollow.step {event : Option Event} (h : AllFollow settings c f trace s)
    (hs : ∀ x ∈ c.ring.members, (settings x).Serviceable) (horderly : Orderly c trace s)
    (hstep : Exchange.Step s event s') : AllFollow settings c f (trace ++ event.toList) s' := by
  cases hstep with
  | begin _ _ =>
    intro x hx
    rw [Option.toList_some, ledger_concat]
    exact h x hx
  | advance _ =>
    intro x hx
    cases s.task.verdict? with
    | none =>
      rw [Option.map_none, Option.toList_none, List.append_nil]
      exact h x hx
    | some commit =>
      rw [Option.map_some, Option.toList_some, ledger_concat]
      exact h x hx
  | unreachable _ | sent _ =>
    rw [Option.toList_none, List.append_nil]
    exact h
  | answered hdemand hmeets =>
    obtain ⟨op, stage, hunderway⟩ := horderly.underway hdemand
    exact h.handled hs (hunderway.sent hdemand) hmeets rfl
  | @delivered before after msg answer m hflight hmeets =>
    exact h.handled hs (horderly.inFlight msg (by simp [hflight])) hmeets rfl

theorem follows_of_calm (h : Calm set M m) : Follows set M ⟨none, []⟩ m := by
  obtain ⟨L, hat, hM, hL⟩ := h
  refine ⟨L, hat, hM, ?_⟩
  cases L with
  | voted op => exact absurd rfl (hL op)
  | idle | committed op | aborted op => rfl

theorem allFollow_start (hopened : ∀ x ∈ c.ring.members, (f x).Opened (settings x)) :
    AllFollow settings c f [] (.start c f) := by
  intro x hx
  obtain ⟨M, hcalm⟩ := (hopened x hx).calm
  rw [stored_of_calm hcalm]
  exact follows_of_calm hcalm

/-- In any run from opened machines, every one follows its ledger. -/
theorem AllFollow.run (hopened : ∀ x ∈ c.ring.members, (f x).Opened (settings x))
    (h : Exchange.Run (.start c f) trace s) : AllFollow settings c f trace s := by
  induction h with
  | start => exact allFollow_start hopened
  | step hrun hstep ih =>
    exact ih.step (fun x hx => (hopened x hx).serviceable) (.run hrun) hstep

/-- However late messages are handled, a member's store holds what it held at first with the
operations carried out that the member was told to while it waited on them. Each of these operations
belongs to a transaction that was decided before to be carried out, and never to be dropped, unless
the decision that the member was told is one of an earlier transaction, and is handled when the
operation's own has begun, or the member was asked for its vote on the operation when a later
transaction, whose decision it is, had begun. -/
theorem carries_out_decided (settings : Member → ReplicaSettings)
    (hopened : ∀ x ∈ c.ring.members, (f x).Opened (settings x))
    (hrun : Exchange.Run (.start c f) trace s) (hx : x ∈ c.ring.members) :
    s.fleet.stored settings x =
        carryOut ((ledger trace x).carried.map (·.2)) (f.stored settings x) ∧
      ∀ before after t' answer t op,
        trace = before ++ .handled ⟨t', x, .commit⟩ answer :: after →
        (ledger before x).waiting? = some (t, op) →
        (.decided t true ∈ before ∧ .decided t false ∉ trace) ∨
          (t' < t ∧ .began t ∈ before) ∨
          (t < t' ∧ ∃ first rest,
            before = first ++ .handled ⟨t, x, op.request⟩ .voteCommit :: rest ∧
              .began t' ∈ first) := by
  have horderly := Orderly.run hrun
  refine ⟨?_, fun before after t' answer t op htrace hwaiting => ?_⟩
  · obtain ⟨L, hat, -⟩ := AllFollow.run hopened hrun x hx
    exact hat.1.stored_eq
  · rcases horderly.handled.carried_out htrace hwaiting with hdecided | hlate
    · refine .inl ⟨hdecided, horderly.decided t ?_⟩
      rw [htrace]
      exact List.mem_append_left _ hdecided
    · exact .inr hlate

/-! ## Runs with late messages -/

/-- A coordinator goes on by itself in an exchange too. -/
theorem Advances.exchange {p p' : Coordinator × Task} (h : Advances p p') {F : List Message}
    (hrun : Exchange.Run s trace ⟨p.1, p.2, n, f, F⟩) :
    Exchange.Run s trace ⟨p'.1, p'.2, n, f, F⟩ := by
  induction h with
  | refl => exact hrun
  | tail _ hstep ih =>
    obtain ⟨hdemand, hverdict, rfl⟩ := hstep
    simpa [hverdict] using ih.step (.advance hdemand)

/-- A transaction with one member, to which the decision is sent twice: the first time the
coordinator gives up waiting, and the message stays in flight. -/
theorem exists_run_redelivered (op : Operation) (hs : set.Serviceable) (hcheck : op.check = .ok ())
    (hfree : op.ZeroFree) (hfull : c.ring.isFull = true) (hidle : c.busy = false)
    (hcohort : c.cohort op.key = [x]) (hon : (f x).replica?.isSome) (hcalm : Calm set M (f x)) :
    ∃ f', (f' x).replica?.isSome ∧ Calm set (op.effect M) (f' x) ∧
      Exchange.Run (.start c f)
        [.began 1, .handled ⟨1, x, op.request⟩ .voteCommit, .decided 1 true,
          .handled ⟨1, x, .commit⟩ .ack]
        ⟨{ Coordinator.settle { c with busy := true } op with busy := false },
          .write op (.finished .success), 1, f', [⟨1, x, .commit⟩]⟩ := by
  obtain ⟨m, hmeets, hon, hwaiting⟩ := hcalm.votes hon hs hcheck hfree
  obtain ⟨m', hmeets', hon', hcalm'⟩ := hwaiting.commits hon hs
  have hmeets'' : Meets .commit (Function.update f x m x) (.answered .ack) m' := by
    rwa [Function.update_self]
  have hbegun : Exchange.Run (.start c f) [.began 1] ⟨c, .ofWrite op.request, 1, f, []⟩ :=
    Exchange.Run.start.step (.begin rfl hfree)
  have hvoting := (advances_voting hcheck hfull hidle).exchange hbegun
  rw [hcohort] at hvoting
  have hvoted : Exchange.Run (.start c f)
      [.began 1, .handled ⟨1, x, op.request⟩ .voteCommit]
      ⟨{ c with busy := true }, .write op (.voting [x] [] true), 1, Function.update f x m, []⟩ :=
    hvoting.step (.answered rfl hmeets)
  have hdecided : Exchange.Run (.start c f)
      [.began 1, .handled ⟨1, x, op.request⟩ .voteCommit, .decided 1 true]
      ⟨{ c with busy := true }, .write op (.deciding true [x]), 1, Function.update f x m,
        [⟨1, x, .commit⟩]⟩ :=
    (hvoted.step (.advance rfl)).quiet (.sent rfl)
  have hacked : Exchange.Run (.start c f)
      [.began 1, .handled ⟨1, x, op.request⟩ .voteCommit, .decided 1 true,
        .handled ⟨1, x, .commit⟩ .ack]
      ⟨{ c with busy := true }, .write op (.deciding true []), 1,
        Function.update (Function.update f x m) x m', [⟨1, x, .commit⟩]⟩ :=
    hdecided.step (.answered rfl hmeets'')
  refine ⟨_, ?_, ?_, (advances_success { c with busy := true } op).exchange hacked⟩
  · rwa [Function.update_self]
  · rwa [Function.update_self]

theorem step_delivered {F : List Message} (h : s.inFlight = msg :: F)
    (hmeets : Meets msg.request (s.fleet msg.member) (.answered answer) m) :
    Exchange.Step s (some (.handled msg answer))
      { s with fleet := Function.update s.fleet msg.member m, inFlight := F } :=
  .delivered (show s.inFlight = [] ++ msg :: F from h) hmeets

/-- A transaction whose only member is asked for its vote but not heard, so that it is dropped. The
member votes all the same, and then handles the decision of an earlier transaction. -/
theorem exists_run_late_decision (op : Operation) {t' : Nat} (hs : set.Serviceable)
    (hcheck : op.check = .ok ()) (hfree : op.ZeroFree) (hfull : c.ring.isFull = true)
    (hidle : c.busy = false) (hcohort : c.cohort op.key = [x]) (hon : (f x).replica?.isSome)
    (hcalm : Calm set M (f x)) {task : Task} {r : Response} (htask : task.demand = .finished r)
    (hrun : Exchange.Run s trace ⟨c, task, n, f, [⟨t', x, .commit⟩]⟩) :
    ∃ s', Calm set (op.effect M) (s'.fleet x) ∧
      Exchange.Run s (trace ++ [.began (n + 1)] ++ [.decided (n + 1) false] ++
        [.handled ⟨n + 1, x, op.request⟩ .voteCommit] ++ [.handled ⟨t', x, .commit⟩ .ack]) s' := by
  obtain ⟨m, hmeets, hon, hwaiting⟩ := hcalm.votes hon hs hcheck hfree
  obtain ⟨m', hmeets', hon', hcalm'⟩ := hwaiting.commits hon hs
  have hmeets'' : Meets .commit (Function.update f x m x) (.answered .ack) m' := by
    rwa [Function.update_self]
  have hbegun : Exchange.Run s (trace ++ [.began (n + 1)])
      ⟨c, .ofWrite op.request, n + 1, f, [⟨t', x, .commit⟩]⟩ :=
    hrun.step (.begin htask hfree)
  have hvoting := (advances_voting hcheck hfull hidle).exchange hbegun
  rw [hcohort] at hvoting
  have hsent : Exchange.Run s (trace ++ [.began (n + 1)]) ⟨{ c with busy := true },
      .write op (.voting [x] [] false), n + 1, f, [⟨n + 1, x, op.request⟩, ⟨t', x, .commit⟩]⟩ :=
    hvoting.quiet (.sent rfl)
  have hdecided := hsent.step (.advance rfl)
  have hvoted := hdecided.step (step_delivered rfl hmeets)
  have hacked := hvoted.step (step_delivered rfl hmeets'')
  refine ⟨_, ?_, hacked⟩
  show Calm set (op.effect M) (Function.update (Function.update f x m) x m' x)
  rwa [Function.update_self]

/-- A transaction that is dropped because its only member was not heard, with the request for the
vote still in flight when the member has acknowledged. -/
theorem exists_run_dropped (op : Operation) (hs : set.Serviceable) (hcheck : op.check = .ok ())
    (hfree : op.ZeroFree)
    (hfull : c.ring.isFull = true) (hidle : c.busy = false) (hcohort : c.cohort op.key = [x])
    (hon : (f x).replica?.isSome) (hcalm : Calm set M (f x)) :
    ∃ f', (f' x).replica?.isSome ∧ Calm set M (f' x) ∧
      Exchange.Run (.start c f) [.began 1, .decided 1 false, .handled ⟨1, x, .abort⟩ .ack]
        ⟨{ c with busy := false }, .write op (.finished (.ofFault .generic)), 1, f',
          [⟨1, x, op.request⟩]⟩ := by
  obtain ⟨m, hmeets, hon', hcalm'⟩ := hcalm.acknowledges hon hs false
  have hbegun : Exchange.Run (.start c f) [.began 1] ⟨c, .ofWrite op.request, 1, f, []⟩ :=
    Exchange.Run.start.step (.begin rfl hfree)
  have hvoting := (advances_voting hcheck hfull hidle).exchange hbegun
  rw [hcohort] at hvoting
  have hsent : Exchange.Run (.start c f) [.began 1] ⟨{ c with busy := true },
      .write op (.voting [x] [] false), 1, f, [⟨1, x, op.request⟩]⟩ :=
    hvoting.quiet (.sent rfl)
  have hacked : Exchange.Run (.start c f) [.began 1, .decided 1 false, .handled ⟨1, x, .abort⟩ .ack]
      ⟨{ c with busy := true }, .write op (.deciding false []), 1, Function.update f x m,
        [⟨1, x, op.request⟩]⟩ :=
    (hsent.step (.advance rfl)).step (.answered rfl hmeets)
  refine ⟨_, ?_, ?_, (advances_dropped { c with busy := true } op).exchange hacked⟩
  · rwa [Function.update_self]
  · rwa [Function.update_self]

/-- A transaction whose decision is sent twice to its only member. Between the two the member
handles a request for its vote from an earlier transaction. -/
theorem exists_run_late_vote (op op' : Operation) {t' : Nat} (hs : set.Serviceable)
    (hcheck : op.check = .ok ()) (hfree : op.ZeroFree) (hcheck' : op'.check = .ok ())
    (hfree' : op'.ZeroFree) (hfull : c.ring.isFull = true) (hidle : c.busy = false)
    (hcohort : c.cohort op.key = [x]) (hon : (f x).replica?.isSome) (hcalm : Calm set M (f x))
    {task : Task} {r : Response} (htask : task.demand = .finished r)
    (hrun : Exchange.Run s trace ⟨c, task, n, f, [⟨t', x, op'.request⟩]⟩) :
    ∃ s', Calm set (op'.effect (op.effect M)) (s'.fleet x) ∧
      Exchange.Run s (trace ++ [.began (n + 1)] ++ [.handled ⟨n + 1, x, op.request⟩ .voteCommit] ++
        [.decided (n + 1) true] ++ [.handled ⟨n + 1, x, .commit⟩ .ack] ++
        [.handled ⟨t', x, op'.request⟩ .voteCommit] ++ [.handled ⟨n + 1, x, .commit⟩ .ack]) s' := by
  obtain ⟨m₁, hmeets₁, hon₁, hwaiting₁⟩ := hcalm.votes hon hs hcheck hfree
  obtain ⟨m₂, hmeets₂, hon₂, hcalm₂⟩ := hwaiting₁.commits hon₁ hs
  obtain ⟨m₃, hmeets₃, hon₃, hwaiting₃⟩ := hcalm₂.votes hon₂ hs hcheck' hfree'
  obtain ⟨m₄, hmeets₄, hon₄, hcalm₄⟩ := hwaiting₃.commits hon₃ hs
  have hbegun : Exchange.Run s (trace ++ [.began (n + 1)])
      ⟨c, .ofWrite op.request, n + 1, f, [⟨t', x, op'.request⟩]⟩ :=
    hrun.step (.begin htask hfree)
  have hvoting := (advances_voting hcheck hfull hidle).exchange hbegun
  rw [hcohort] at hvoting
  have hvoted := hvoting.step (.answered rfl hmeets₁)
  have hdecided := (hvoted.step (.advance rfl)).quiet (.sent rfl)
  have hcarried := hdecided.step (step_delivered (m := m₂) rfl (by simpa using hmeets₂))
  have hlate := hcarried.step (step_delivered (m := m₃) rfl (by simpa using hmeets₃))
  have hagain := hlate.step (.answered (m := m₄) rfl (by simpa using hmeets₄))
  exact ⟨_, by simpa using hcalm₄, hagain⟩

/-- A ring of one member. -/
def single : Ring := ⟨1, [⟨0, "localhost", 4001⟩]⟩

/-- The decision is sent twice, and carried out when it is handled in time. -/
theorem carries_out_decided_of_put :
    ∃ (c : Coordinator) (f : Fleet) (trace : List Event) (s : Exchange), c.ring = single ∧
      (∀ x ∈ c.ring.members, (f x).Opened (.ofDataDir "data")) ∧
      Exchange.Run (.start c f) trace s ∧ ∀ x ∈ c.ring.members,
        s.fleet.stored (fun _ => .ofDataDir "data") x "a" = some "1" ∧
          .decided 1 true ∈ trace ∧ .decided 1 false ∉ trace := by
  have hs : (ReplicaSettings.ofDataDir "data").Serviceable := ⟨rfl, _, rfl⟩
  obtain ⟨cache, -⟩ := hs.cache
  obtain ⟨m, hopened, hon, hcalm⟩ := exists_opened hs (ReplicaSettings.kept_empty _) (by simp)
  let c : Coordinator := ⟨.ofCapacity 1 1, single, cache, false, 0⟩
  have hcohort : c.cohort "a" = [⟨0, "localhost", 4001⟩] := show single.cohort "a" 1 = _ by decide
  obtain ⟨f', -, -, hrun⟩ := exists_run_redelivered (c := c) (f := fun _ => m) (.put "a" "1") hs
    (by decide) (by decide) rfl rfl hcohort hon hcalm
  refine ⟨c, fun _ => m, _, _, rfl, fun _ _ => hopened, hrun, fun x hx => ?_⟩
  obtain ⟨hstored, hdecided⟩ := carries_out_decided (fun _ => .ofDataDir "data")
    (fun _ _ => hopened) hrun hx
  obtain rfl : x = ⟨0, "localhost", 4001⟩ := List.mem_singleton.1 hx
  rcases hdecided [_, _, _] [] 1 .ack 1 (.put "a" "1") rfl rfl with ⟨-, hnot⟩ | hlate | hlate
  · refine ⟨?_, by simp, hnot⟩
    rw [hstored]
    rfl
  · exact absurd hlate.1 (by simp)
  · exact absurd hlate.1 (by simp)

/-- A late decision makes a member carry out an operation whose transaction was decided to be
dropped. -/
theorem late_decision_carries_out_dropped :
    ∃ (c : Coordinator) (f : Fleet) (before : List Event) (s : Exchange) (x : Member),
      c.ring = single ∧ x ∈ c.ring.members ∧
      (∀ y ∈ c.ring.members, (f y).Opened (.ofDataDir "data")) ∧
      Exchange.Run (.start c f) (before ++ [.handled ⟨1, x, .commit⟩ .ack]) s ∧
      (ledger before x).waiting? = some (2, .put "b" "2") ∧ .decided 2 false ∈ before ∧
      f.stored (fun _ => .ofDataDir "data") x "b" = none ∧
      s.fleet.stored (fun _ => .ofDataDir "data") x "b" = some "2" := by
  have hs : (ReplicaSettings.ofDataDir "data").Serviceable := ⟨rfl, _, rfl⟩
  obtain ⟨cache, -⟩ := hs.cache
  obtain ⟨m, hopened, hon, hcalm⟩ := exists_opened hs (ReplicaSettings.kept_empty _) (by simp)
  let c : Coordinator := ⟨.ofCapacity 1 1, single, cache, false, 0⟩
  let x : Member := ⟨0, "localhost", 4001⟩
  have hcohort : c.cohort "a" = [x] := show single.cohort "a" 1 = _ by decide
  obtain ⟨f', hon', hcalm', hrun⟩ := exists_run_redelivered (c := c) (f := fun _ => m)
    (.put "a" "1") hs (by decide) (by decide) rfl rfl hcohort hon hcalm
  have hcohort' : single.cohort "b" 1 = [x] := by decide
  obtain ⟨s, hcalm'', hrun'⟩ := exists_run_late_decision (.put "b" "2") hs (by decide)
    (by decide) rfl rfl (by exact hcohort') hon' hcalm' rfl hrun
  refine ⟨c, fun _ => m, _, s, x, rfl, List.mem_singleton.2 rfl, fun _ _ => hopened, hrun', rfl,
    by simp, ?_, ?_⟩
  · rw [stored_of_calm (f := fun _ => m) (x := x) hcalm]
    rfl
  · rw [stored_of_calm (x := x) hcalm'']
    rfl

/-- A request for a vote that is late makes a member carry out what was dropped: its vote on the
dropped operation meets the decision of a later transaction, which is sent once more. -/
theorem late_vote_carries_out_dropped :
    ∃ (c : Coordinator) (f : Fleet) (before : List Event) (s : Exchange) (x : Member),
      c.ring = single ∧ x ∈ c.ring.members ∧
      (∀ y ∈ c.ring.members, (f y).Opened (.ofDataDir "data")) ∧
      Exchange.Run (.start c f) (before ++ [.handled ⟨2, x, .commit⟩ .ack]) s ∧
      (ledger before x).waiting? = some (1, .put "a" "1") ∧ .decided 1 false ∈ before ∧
      f.stored (fun _ => .ofDataDir "data") x "a" = none ∧
      s.fleet.stored (fun _ => .ofDataDir "data") x "a" = some "1" := by
  have hs : (ReplicaSettings.ofDataDir "data").Serviceable := ⟨rfl, _, rfl⟩
  obtain ⟨cache, -⟩ := hs.cache
  obtain ⟨m, hopened, hon, hcalm⟩ := exists_opened hs (ReplicaSettings.kept_empty _) (by simp)
  let c : Coordinator := ⟨.ofCapacity 1 1, single, cache, false, 0⟩
  let x : Member := ⟨0, "localhost", 4001⟩
  have hcohort : c.cohort "a" = [x] := show single.cohort "a" 1 = _ by decide
  obtain ⟨f', hon', hcalm', hrun⟩ := exists_run_dropped (c := c) (f := fun _ => m)
    (.put "a" "1") hs (by decide) (by decide) rfl rfl hcohort hon hcalm
  have hcohort' : single.cohort "b" 1 = [x] := by decide
  obtain ⟨s, hcalm'', hrun'⟩ := exists_run_late_vote (.put "b" "2") (.put "a" "1") hs
    (by decide) (by decide) (by decide) (by decide) rfl rfl (by exact hcohort') hon' hcalm' rfl hrun
  refine ⟨c, fun _ => m, _, s, x, rfl, List.mem_singleton.2 rfl, fun _ _ => hopened, hrun', rfl,
    by simp, ?_, ?_⟩
  · rw [stored_of_calm (f := fun _ => m) (x := x) hcalm]
    rfl
  · rw [stored_of_calm (x := x) hcalm'']
    rfl

end Coordinator

end RingStore
