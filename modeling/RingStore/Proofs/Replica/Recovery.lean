import RingStore.Proofs.Replica.Machine

/-!
# Recovery from crashes

A replica's machine runs through a history of incidents: the replica is opened and serves requests,
and it stops at any point, also while it serves a request or is being opened. However the history
goes, the replica can be opened afterwards, and then stands where its journal ends. Its store holds
what it held at the start, with every operation carried out whose decision to do so was
acknowledged, or was in the journal when the replica stopped.
-/

namespace RingStore

open Disk Disk.Attempt

namespace Standing

variable {M : Store.Contents} {L : Standing} {q : Request}

/-- Without a new vote the standing is about the same operation. -/
theorem operation?_serve (h : L.ballot q = none) : (L.serve q).operation? = L.operation? := by
  cases L with
  | voted op => cases q <;> rfl
  | idle | committed op | aborted op => rw [serve_of_ballot_none h (.inr (by simp))]

/-- The last vote, if the last of those before was `first`. -/
def lastVote (first : Option Operation) (votes : List Operation) : Option Operation :=
  votes.getLast?.or first

theorem lastVote_append (first : Option Operation) (votes votes' : List Operation) :
    lastVote first (votes ++ votes') = lastVote (lastVote first votes) votes' := by
  simp only [lastVote, List.getLast?_append, Option.or_assoc]

end Standing

namespace Machine

open Standing

variable {settings : ReplicaSettings} {M N : Store.Contents} {L : Standing} {d e : Disk}
  {r : Replica} {q : Request} {m m' : Machine} {vote : Option Operation}

/-! ## Histories -/

/-- The operation that the replica tells that it voted on. -/
def voted (q : Request) (answer : Response) : List Operation :=
  match answer with
  | .voteCommit => q.operation?.toList
  | _ => []

/-- The operation that is carried out when a decision is acknowledged. -/
def acknowledged (r : Replica) (q : Request) (answer : Response) : List Operation :=
  match r.phase, q, answer with
  | .pending op, .commit, .ack => [op]
  | _, _, _ => []

/-- The operation whose vote was in the journal already when the replica stopped. -/
def recordedVote (settings : ReplicaSettings) (r : Replica) (q : Request) (d : Disk) :
    List Operation :=
  match r.phase.pending?, settings.standing d with
  | none, .voted _ => q.operation?.toList
  | _, _ => []

/-- The operation whose decision to carry out was in the journal already when the replica
stopped. -/
def recordedCommit (settings : ReplicaSettings) (r : Replica) (q : Request) (d : Disk) :
    List Operation :=
  match r.phase, q, settings.standing d with
  | .pending op, .commit, .committed _ => [op]
  | _, _, _ => []

/-- One thing that happens to a machine, with the operations that are voted on and those that are
carried out for good. -/
inductive Incident (settings : ReplicaSettings) :
    Machine → List Operation → List Operation → Machine → Prop
  /-- The machine goes on or off. -/
  | switched {m m' : Machine} (h : Switched settings m m') : Incident settings m [] [] m'
  /-- The replica serves a request. -/
  | served {d d' : Disk} {r r' : Replica} {now : String} {q : Request} {answer : Response}
    (hq : q.ZeroFree) (h : (r.serve now q).run d = ((answer, r'), d')) :
    Incident settings ⟨d, some r⟩ (voted q answer) (acknowledged r q answer) ⟨d', some r'⟩
  /-- The machine goes off while the replica serves a request. -/
  | cut {d e : Disk} {r : Replica} {now : String} {q : Request} (hq : q.ZeroFree)
    (h : e ∈ (r.serve now q).trail d) :
    Incident settings ⟨d, some r⟩ (recordedVote settings r q e) (recordedCommit settings r q e)
      ⟨e, none⟩

/-- What happens to a machine, with the operations that are voted on and those that are carried out
for good, in their order. -/
inductive History (settings : ReplicaSettings) (m : Machine) :
    List Operation → List Operation → Machine → Prop
  | start : History settings m [] [] m
  | step {votes votes' done done' : List Operation} {m' m'' : Machine}
    (h : History settings m votes done m') (hstep : Incident settings m' votes' done' m'') :
    History settings m (votes ++ votes') (done ++ done') m''

/-! ## What every incident keeps -/

/-- The machine is at contents that are `N` once a committed operation is carried out, and at a
standing that is about the last vote. -/
def Stands (settings : ReplicaSettings) (N : Store.Contents) (vote : Option Operation)
    (m : Machine) : Prop :=
  ∃ M L, L.settle M = N ∧ (∀ op, L.operation? = some op → vote = some op) ∧ At settings M L m

theorem voted_eq {answer : Response} (h : Replica.Answered L q answer) :
    voted q answer = (L.ballot q).toList := by
  unfold voted
  cases hballot : L.ballot q with
  | some op =>
    rw [h.2.2 (by simp [hballot]), (ballot_eq_some.1 hballot).2.1]
  | none =>
    have hanswer : answer ≠ .voteCommit := fun heq => by simpa [hballot] using h.2.1 heq
    split
    · exact absurd rfl hanswer
    · rfl

theorem acknowledged_eq (hr : r.phase = L.phase) {answer : Response}
    (hanswer : Replica.Answered L q answer) : acknowledged r q answer = L.carriedOut q := by
  unfold acknowledged
  rw [hr]
  cases L with
  | voted op =>
    cases q with
    | commit =>
      rw [hanswer.1 (.inl rfl)]
      rfl
    | get _ | put _ _ | del _ | register _ _ | info | abort => rfl
  | idle | committed op | aborted op => rfl

/-- A standing that is not the new one tells of no new vote and no new decision. -/
theorem recorded_of_not_new (hr : r.phase = L.phase)
    (hstanding : settings.standing e = L ∨ settings.standing e = .idle) :
    recordedVote settings r q e = [] ∧ recordedCommit settings r q e = [] := by
  unfold recordedVote recordedCommit
  rw [hr]
  rcases hstanding with hstanding | hstanding
  · rw [hstanding]
    cases L with
    | voted op => cases q <;> exact ⟨rfl, rfl⟩
    | idle | committed op | aborted op => exact ⟨rfl, rfl⟩
  · rw [hstanding]
    cases L with
    | voted op => cases q <;> exact ⟨rfl, rfl⟩
    | idle | committed op | aborted op => exact ⟨rfl, rfl⟩

theorem recorded_of_new (hr : r.phase = L.phase) (hstanding : settings.standing e = L.serve q) :
    recordedVote settings r q e = (L.ballot q).toList ∧
      recordedCommit settings r q e = L.carriedOut q := by
  unfold recordedVote recordedCommit
  rw [hr, hstanding]
  cases hballot : L.ballot q with
  | some op =>
    obtain ⟨hL, hq, -⟩ := ballot_eq_some.1 hballot
    rw [serve_of_ballot hballot, hq]
    cases L with
    | voted op' => exact absurd rfl (hL op')
    | idle | committed op' | aborted op' => exact ⟨rfl, rfl⟩
  | none =>
    cases L with
    | voted op => cases q <;> exact ⟨rfl, rfl⟩
    | idle | committed op | aborted op =>
      rw [serve_of_ballot_none hballot (.inr (by simp))]
      exact ⟨rfl, rfl⟩

/-- After a request was served the standing is about the last vote. -/
theorem operation?_serve_eq (hvote : ∀ op, L.operation? = some op → vote = some op) (op : Operation)
    (hop : (L.serve q).operation? = some op) : lastVote vote (L.ballot q).toList = some op := by
  cases hballot : L.ballot q with
  | some op' =>
    rw [serve_of_ballot hballot] at hop
    exact hop
  | none =>
    rw [operation?_serve hballot] at hop
    exact hvote op hop

/-- When the machine goes off while the replica serves a request, the journal tells what will be
carried out. -/
theorem stands_of_passes (hr : r.phase = L.phase) (hM : L.settle M = M)
    (hvote : ∀ op, L.operation? = some op → vote = some op) {L' : Standing} {M' : Store.Contents}
    (hpasses : L.Passes M q L' M') (h : At settings M' L' ⟨e, none⟩) :
    Stands settings (carryOut (recordedCommit settings r q e) M)
      (lastVote vote (recordedVote settings r q e)) ⟨e, none⟩ := by
  have hstanding : settings.standing e = L' := h.1.standing_eq
  cases hpasses with
  | before =>
    obtain ⟨hvotes, hdone⟩ := recorded_of_not_new (q := q) hr (.inl hstanding)
    rw [hvotes, hdone]
    exact ⟨_, _, hM, hvote, h⟩
  | cleared hop =>
    obtain ⟨hvotes, hdone⟩ := recorded_of_not_new (q := q) hr (.inr hstanding)
    rw [hvotes, hdone]
    exact ⟨_, _, rfl, by simp [Standing.operation?], h⟩
  | logged =>
    obtain ⟨hvotes, hdone⟩ := recorded_of_new hr hstanding
    rw [hvotes, hdone]
    exact ⟨_, _, settle_serve hM q, operation?_serve_eq hvote, h⟩
  | after =>
    obtain ⟨hvotes, hdone⟩ := recorded_of_new hr hstanding
    rw [hvotes, hdone]
    exact ⟨_, _, by rw [settle_settle, settle_serve hM], operation?_serve_eq hvote, h⟩

/-- Every incident leaves the machine with what was voted on and carried out. -/
theorem Stands.incident (h : Stands settings N vote m) (hs : settings.Serviceable)
    {votes done : List Operation} (hstep : Incident settings m votes done m') :
    Stands settings (carryOut done N) (lastVote vote votes) m' := by
  obtain ⟨M, L, hN, hvote, hat⟩ := h
  cases hstep with
  | switched hswitched =>
    -- opening carries out again what is committed, and that makes no difference to `N`
    rcases hat.switched hs hswitched with hbefore | hafter
    · exact ⟨M, L, hN, hvote, hbefore⟩
    · exact ⟨_, L, by rw [settle_settle, hN]; rfl, hvote, hafter⟩
  | @served d d' r r' now q answer hq hserve =>
    have hsound := hat.sound
    obtain ⟨hat', hanswer⟩ := hat.served hs hq hserve
    rw [acknowledged_eq hsound.phase_eq hanswer, voted_eq hanswer, ← hN, hsound.settled,
      ← settle_serve hsound.settled]
    exact ⟨_, _, settle_settle _ M, operation?_serve_eq hvote, hat'⟩
  | @cut d e r now q hq hserve =>
    have hsound := hat.sound
    obtain ⟨L', M', hpasses, hat'⟩ := hat.cut hs hq hserve
    rw [← hN, hsound.settled]
    exact stands_of_passes hsound.phase_eq hsound.settled hvote hpasses hat'

theorem Stands.history (h : Stands settings N vote m) (hs : settings.Serviceable)
    {votes done : List Operation} (hrun : History settings m votes done m') :
    Stands settings (carryOut done N) (lastVote vote votes) m' := by
  induction hrun with
  | start => exact h
  | step _ hstep ih =>
    rw [carryOut_append, lastVote_append]
    exact ih.incident hs hstep

theorem stands_of_wellKept (h : settings.WellKept d) :
    Stands settings (settings.contents d) (settings.standing d).operation? ⟨d, none⟩ := by
  obtain ⟨M, L, hkept⟩ := h
  rw [ReplicaSettings.contents, hkept.standing_eq, hkept.stored_eq]
  exact ⟨M, L, rfl, fun _ hop => hop, at_off hkept⟩

/-- However a replica was opened, served requests, and stopped on the way, it can be opened again.
It then waits for the decision on the operation that the last vote was on, if its vote is in the
journal and no decision follows it, and otherwise for none. Its store holds what it held when it
stopped, with this operation carried out if the decision to do so follows the vote. This is what it
held at the start with all operations carried out, in their order, whose decision to do so was
acknowledged, or was in the journal when the replica stopped. -/
theorem recovers_after_history {start : Disk} {votes done : List Operation}
    (hs : settings.Serviceable) (hstart : settings.WellKept start)
    (hrun : History settings ⟨start, none⟩ votes done m) :
    ∃ r d, (Replica.openWith settings).run.run m.disk = (.ok r, d) ∧
      (match settings.standing m.disk with
        | .voted op =>
          lastVote (settings.standing start).operation? votes = some op ∧
          r.phase = .pending op ∧ settings.stored d = settings.stored m.disk
        | .committed op =>
          lastVote (settings.standing start).operation? votes = some op ∧
          r.phase.pending? = none ∧ settings.stored d = op.effect (settings.stored m.disk)
        | .aborted _ | .idle =>
          r.phase.pending? = none ∧ settings.stored d = settings.stored m.disk) ∧
      settings.stored d = carryOut done (settings.contents start) := by
  obtain ⟨M, L, hN, hvote, hkept, -⟩ := (stands_of_wellKept hstart).history hs hrun
  obtain ⟨r, d, hopen, hat⟩ := (at_off hkept).opens hs
  have hstored : settings.stored d = L.settle M := hat.1.stored_eq
  refine ⟨r, d, hopen, ?_, by rw [hstored, hN]⟩
  rw [hkept.standing_eq, hkept.stored_eq, hstored, hat.sound.phase_eq]
  cases L with
  | voted op => exact ⟨hvote op rfl, rfl, rfl⟩
  | committed op => exact ⟨hvote op rfl, rfl, rfl⟩
  | idle | aborted op => exact ⟨rfl, rfl⟩

/-- A replica whose disk was empty, and that went off after it carried a write out. -/
theorem recovers_after_put :
    ∃ m, History (.ofDataDir "data") ⟨Disk.empty, none⟩ [.put "k" "v"] [.put "k" "v"] m ∧
      ∃ r d, (Replica.openWith (.ofDataDir "data")).run.run m.disk = (.ok r, d) ∧
        (ReplicaSettings.ofDataDir "data").stored d "k" = some "v" := by
  have hs : (ReplicaSettings.ofDataDir "data").Serviceable := ⟨rfl, _, rfl⟩
  have hkept := (ReplicaSettings.ofDataDir "data").kept_empty
  obtain ⟨r, d, hopen, hat⟩ := (at_off hkept).opens hs
  have hput : (Request.put "k" "v").ZeroFree := by
    rintro - ⟨⟩
    decide
  rcases hvote : (r.serve "" (.put "k" "v")).run d with ⟨⟨answer, r'⟩, d'⟩
  obtain ⟨hat', hanswer⟩ := hat.served hs hput hvote
  have hcommit : Request.commit.ZeroFree := by
    rintro - ⟨⟩
  rcases hdecide : (r'.serve "" .commit).run d' with ⟨⟨answer', r''⟩, d''⟩
  obtain ⟨-, hanswer'⟩ := hat'.served hs hcommit hdecide
  have hrun := ((History.start.step (.switched (.on hopen))).step (.served hput hvote)).step
    (.served hcommit hdecide)
  rw [acknowledged_eq hat.sound.phase_eq hanswer, acknowledged_eq hat'.sound.phase_eq hanswer',
    voted_eq hanswer, voted_eq hanswer'] at hrun
  obtain ⟨r₀, d₀, hopen₀, -, hstored⟩ := recovers_after_history hs ⟨_, _, hkept⟩ hrun
  refine ⟨_, hrun, r₀, d₀, hopen₀, ?_⟩
  rw [hstored, ReplicaSettings.contents, hkept.standing_eq, hkept.stored_eq]
  rfl

end Machine

end RingStore
