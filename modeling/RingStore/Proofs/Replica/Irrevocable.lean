import RingStore.Proofs.Replica.Machine
import RingStore.Proofs.Replica.Waiting

/-!
# Decisions to carry out are irrevocable

A replica serves requests while calls on its disk may fail, and is switched off and on. What it
acknowledges is what a later opening takes up (`Machine.Dormant.opens`).

This takes a coordinator that does not change its mind: a decision to drop that comes when the
decision to carry out is in the journal is acknowledged, but does not count when the replica is
opened again (`Machine.revokes_commit`).
-/

namespace RingStore

open Disk Disk.Attempt

namespace Machine

open Standing

variable {settings : ReplicaSettings} {N : Store.Contents} {m m' : Machine} {ops : List Operation}

/-! ## Histories in which calls fail -/

/-- The machine goes on or off, or its replica serves a request while calls may fail. It goes with
the operations whose decision to carry out comes into the journal. -/
inductive FaultyStep (settings : ReplicaSettings) : Machine → List Operation → Machine → Prop
  | switched {m m' : Machine} (h : Switched settings m m') : FaultyStep settings m [] m'
  | served {d e : Disk} {r r' : Replica} {q : Request} {answer : Response}
    (h : r.Serves settings q d answer r' e) :
    FaultyStep settings ⟨d, some r⟩ ((settings.standing d).commits (settings.standing e))
      ⟨e, some r'⟩

/-- Steps in a row, with the operations whose decision to carry out comes into the journal. -/
inductive FaultyRun (settings : ReplicaSettings) (m : Machine) : List Operation → Machine → Prop
  | start : FaultyRun settings m [] m
  | step {ops ops' : List Operation} {m' m'' : Machine} (h : FaultyRun settings m ops m')
    (hstep : FaultyStep settings m' ops' m'') : FaultyRun settings m (ops ++ ops') m''

/-- The disk can be opened, and the store then holds `N`. -/
def Dormant (settings : ReplicaSettings) (N : Store.Contents) (d : Disk) : Prop :=
  ∃ (M : Store.Contents) (L : Standing) (later : List Bool), L.settle M = N ∧
    settings.Stocked M (L.log later) d ∧ L.Valid ∧ (L.log later).length < Journal.recordBound

/-- Whether or not the machine runs, its store holds `N` once all that the journal tells of is
carried out. -/
def Settles (settings : ReplicaSettings) (N : Store.Contents) (m : Machine) : Prop :=
  Dormant settings N m.disk ∧ ∀ r, m.replica? = some r → r.Runs settings N m.disk

theorem dormant_of_runs {r : Replica} {d : Disk} (h : r.Runs settings N d) :
    Dormant settings N d := by
  rcases h with ⟨op, L, later, n, h⟩ | ⟨L, later, n, h⟩
  · obtain ⟨M, hM, hhoused⟩ := h.housed
    exact ⟨M, L, later, hM, hhoused.stocked h.room, h.valid, h.room⟩
  · exact ⟨N, L, later, h.settled, h.stocked, h.valid, h.room⟩

theorem settles_on {r : Replica} {d : Disk} (h : r.Runs settings N d) :
    Settles settings N ⟨d, some r⟩ := by
  refine ⟨dormant_of_runs h, fun r' hr => ?_⟩
  obtain rfl := Option.some.inj hr
  exact h

theorem settles_off {d : Disk} (h : Dormant settings N d) : Settles settings N ⟨d, none⟩ :=
  ⟨h, fun _ hr => absurd hr (by simp)⟩

theorem Dormant.opens {d : Disk} (h : Dormant settings N d) (hs : settings.Serviceable) :
    ∃ r d', (Replica.openWith settings).run.run d = (.ok r, d') ∧
      r.phase = (settings.standing d).phase ∧ settings.stored d' = N ∧ r.Runs settings N d' := by
  obtain ⟨cache, hcache⟩ := hs.cache
  obtain ⟨M, L, later, rfl, hstocked, hL, hlen⟩ := h
  obtain ⟨-, r, heq, hresumed⟩ := Replica.ensures_openWith_log hstocked hL hlen hs.votes hcache
  refine ⟨r, _, Prod.ext heq rfl, ?_, ?_, hresumed.runs hL hlen⟩
  · rw [hstocked.standing_eq hL, hresumed.phase_eq]
  · exact (hresumed.housed.stocked hlen).stored_eq

theorem Settles.switched (h : Settles settings N m) (hs : settings.Serviceable)
    (hstep : Switched settings m m') : Settles settings N m' := by
  cases hstep with
  | @on d d' r hopen =>
    obtain ⟨r', e, heq, -, -, hruns⟩ := h.1.opens hs
    obtain ⟨hr, rfl⟩ := Prod.mk.inj (hopen.symm.trans heq)
    obtain rfl := Except.ok.inj hr
    exact settles_on hruns
  | cut hopen =>
    obtain ⟨cache, hcache⟩ := hs.cache
    obtain ⟨M, L, later, rfl, hstocked, hL, hlen⟩ := h.1
    rcases (Replica.ensures_openWith_log hstocked hL hlen hs.votes hcache).1 _ hopen with
      hbefore | hafter
    · exact settles_off ⟨M, L, later, rfl, hbefore, hL, hlen⟩
    · exact settles_off ⟨_, L, later, L.settle_settle M, hafter, hL, hlen⟩
  | off => exact settles_off h.1

theorem Settles.step (h : Settles settings N m) (hs : settings.Serviceable)
    (hstep : FaultyStep settings m ops m') : Settles settings (carryOut ops N) m' := by
  cases hstep with
  | switched hswitched => exact h.switched hs hswitched
  | served hserves => exact settles_on ((h.2 _ rfl).serves hs.votes hserves)

theorem Settles.run (h : Settles settings N m) (hs : settings.Serviceable)
    (hrun : FaultyRun settings m ops m') : Settles settings (carryOut ops N) m' := by
  induction hrun with
  | start => exact h
  | step _ hstep ih =>
    rw [carryOut_append]
    exact ih.step hs hstep

theorem settles_of_wellKept {d : Disk} (h : settings.WellKept d) :
    Settles settings (settings.contents d) ⟨d, none⟩ := by
  obtain ⟨M, L, hkept⟩ := h
  rw [ReplicaSettings.contents, hkept.standing_eq, hkept.stored_eq]
  refine settles_off ⟨M, L, [], rfl, hkept.stocked, hkept.valid, ?_⟩
  rw [L.log_nil]
  exact L.length_records_lt

/-- What becomes of an operation that waits when a request is answered: it goes on waiting, with its
decision to carry out still in the journal if it was there, or the answer acknowledges what the
journal tells. -/
def Upheld (settings : ReplicaSettings) (op : Operation) (d : Disk) (answer : Response)
    (r : Replica) (e : Disk) : Prop :=
  match r.phase with
  | .pending op' =>
    op' = op ∧ answer ≠ .ack ∧
      (settings.standing d = .committed op → settings.standing e = .committed op)
  | .committed => answer = .ack ∧ settings.standing e = .committed op
  | .aborted =>
    answer = .ack ∧ settings.standing d ≠ .committed op ∧ settings.standing e = .aborted op
  | .ready => False

theorem upheld_of_handled {op : Operation} {L : Standing} {d e : Disk} {answer : Response}
    {r : Replica} (hd : settings.standing d = L) (h : Replica.Handled settings N op L answer r e) :
    Upheld settings op d answer r e := by
  unfold Upheld
  cases h with
  | waiting L' later n h' hkept hanswer =>
    rw [h'.phase_eq, h'.standing_eq, hd]
    exact ⟨rfl, hanswer, hkept⟩
  | committed later n hphase h' hanswer =>
    rw [hphase, h'.standing_eq]
    exact ⟨hanswer, rfl⟩
  | aborted later n hL hphase h' hanswer =>
    rw [hphase, h'.standing_eq, hd]
    exact ⟨hanswer, hL op, rfl⟩

/-- However requests are served while calls fail, and however the replica is switched off and on, it
can be opened afterwards. It then stands where its journal ends, and its store holds what it held at
the start with all operations carried out whose decision to do so came into the journal. As long as
it runs and no operation waits, its store holds this already, and no request makes the journal tell
to carry one out. An operation that waits is the one that the journal is about, and every request
upholds its decision. -/
theorem commit_irrevocable {start : Disk} (hs : settings.Serviceable)
    (hstart : settings.WellKept start) (hrun : FaultyRun settings ⟨start, none⟩ ops m) :
    (∃ r d, (Replica.openWith settings).run.run m.disk = (.ok r, d) ∧
      r.phase = (settings.standing m.disk).phase ∧
      settings.stored d = carryOut ops (settings.contents start)) ∧
    ∀ r, m.replica? = some r →
      match r.phase with
      | .pending op =>
        (settings.standing m.disk).operation? = some op ∧
          ∀ q answer r' e, r.Serves settings q m.disk answer r' e →
            Upheld settings op m.disk answer r' e
      | _ =>
        settings.stored m.disk = carryOut ops (settings.contents start) ∧
          ∀ q answer r' e, r.Serves settings q m.disk answer r' e →
            (settings.standing m.disk).commits (settings.standing e) = [] := by
  have hsettles := (settles_of_wellKept hstart).run hs hrun
  constructor
  · obtain ⟨r, d, hopen, hphase, hstored, -⟩ := hsettles.1.opens hs
    exact ⟨r, d, hopen, hphase, hstored⟩
  intro r hr
  rcases hsettles.2 r hr with ⟨op, L, later, n, h⟩ | ⟨L, later, n, h⟩
  · rw [h.phase_eq, h.standing_eq]
    refine ⟨h.about, fun q answer r' e hserves => ?_⟩
    exact upheld_of_handled h.standing_eq (h.serve hs.votes hserves)
  · have hstored := h.stocked.stored_eq
    have hphase := h.phase_ne
    have hnone : ∀ q answer r' e, r.Serves settings q m.disk answer r' e →
        (settings.standing m.disk).commits (settings.standing e) = [] :=
      fun q answer r' e hserves => (h.serves hs.votes hserves).1
    cases hcase : r.phase with
    | pending op => exact absurd hcase (hphase op)
    | ready | committed | aborted => exact ⟨hstored, hnone⟩

/-! ## A decision that cannot be carried out when it comes -/

section Stuck

variable {op : Operation} {L : Standing} {later : List Bool} {n : Nat} {r : Replica} {d : Disk}

/-- A decision to drop is acknowledged, whatever the journal tells of. -/
theorem run_abort (h : r.Waits settings N op L later n d) :
    ∃ M r' e, L.settle M = N ∧ settings.stored d = M ∧
      (r.decide false).run d = ((.ack, r'), e) ∧ r'.phase = .aborted ∧
      settings.Housed M
        (.ofVote op :: List.replicate n (.ofDecision true) ++ [.ofDecision false]) e := by
  obtain ⟨M, hM, hhoused⟩ := h.housed
  have happend := hhoused.ensures_append_at (.ofDecision false) h.long h.short r.journal.cursor
  rw [h.counted] at happend
  have habort : (r.decide false).Ensures (fun _ => True) (fun a e =>
      a = (.ack, { r with
        journal := ⟨settings.journalPath, n + 1 + 1, r.journal.cursor⟩, phase := .aborted }) ∧
      settings.Housed M
        (.ofVote op :: List.replicate n (.ofDecision true) ++ [.ofDecision false]) e) d := by
    rw [Replica.decide_of_pending h.phase_eq, h.placed.journal_eq]
    refine Action.Ensures.bind (happend.mono (fun _ _ => trivial) fun a e _ hQ => hQ) ?_
    rintro - e - ⟨rfl, hlogged⟩
    exact Action.ensures_done.2 ⟨trivial, rfl, hlogged⟩
  obtain ⟨-, hanswer, hlogged⟩ := habort
  exact ⟨M, _, _, hM, (hhoused.stocked h.room).stored_eq, Prod.ext hanswer rfl, rfl, hlogged⟩

/-- An operation waits, and its decision to carry out is counted in the journal. A decision to drop
is then acknowledged and nothing is carried out, and yet the operation is when the replica is opened
again. -/
theorem revokes_commit {start : Disk} (hs : settings.Serviceable) (hstart : settings.WellKept start)
    (hrun : FaultyRun settings ⟨start, none⟩ ops ⟨d, some r⟩) (hphase : r.phase = .pending op)
    (hsize : 2 ≤ r.journal.size) (hroom : r.journal.size + 1 < Journal.recordBound) (now : String) :
    ∃ r' e, (r.serve now .abort).run d = ((.ack, r'), e) ∧ r'.phase = .aborted ∧
      settings.stored e = settings.stored d ∧
      ∃ r'' e', (Replica.openWith settings).run.run e = (.ok r'', e') ∧ r''.phase = .committed ∧
        settings.stored e' = op.effect (settings.stored d) := by
  rcases ((settles_of_wellKept hstart).run hs hrun).2 r rfl with
    ⟨op', L, later, n, h⟩ | ⟨L, later, n, h⟩
  · obtain rfl : op = op' := Phase.pending.inj (hphase.symm.trans h.phase_eq)
    rw [h.placed.size_eq] at hsize hroom
    obtain ⟨k, rfl⟩ : ∃ k, n = k + 1 := ⟨n - 1, by omega⟩
    have hvalid : (committed op).Valid := h.valid_of_about rfl
    obtain ⟨M, r', e, -, hM, habort, hphase', hhoused⟩ := run_abort h
    have hlog : .ofVote op :: List.replicate (k + 1) (.ofDecision true) ++ [.ofDecision false] =
        (committed op).log (List.replicate k true ++ [false]) := by
      simp [log, records, List.replicate_succ]
    have hlen : ((committed op).log (List.replicate k true ++ [false])).length <
        Journal.recordBound := by
      simp only [log, records, List.length_append, List.length_map, List.length_replicate,
        List.length_cons, List.length_nil]
      omega
    rw [hlog] at hhoused
    have hstocked := hhoused.stocked hlen
    obtain ⟨cache, hcache⟩ := hs.cache
    obtain ⟨-, r'', hopen, hresumed⟩ :=
      Replica.ensures_openWith_log hstocked hvalid hlen hs.votes hcache
    have hvotes : r.settings.votes = true := h.placed.settings_eq ▸ hs.votes
    rw [Replica.serve_of_votes hvotes, hM]
    exact ⟨r', e, habort, hphase', hstocked.stored_eq, r'', _, Prod.ext hopen rfl,
      hresumed.phase_eq, (hresumed.housed.stocked hlen).stored_eq⟩
  · exact absurd hphase (h.phase_ne op)

/-- A decision to carry out comes into the journal, and then a file of the store cannot be read. -/
theorem ends_commit_unread {key value : String}
    (h : r.Waits settings N (.put key value) (.voted (.put key value)) later 0 d) {f : DiskFault}
    (hf : f ≠ .notFound) :
    ∃ r' e,
      Action.Ends (· = settings.storePath) (r.decide true) d (.ofFault (.io (.disk f)), r') e ∧
      r'.journal.size = 2 ∧ r'.phase = .pending (.put key value) ∧
      settings.standing e = .committed (.put key value) ∧ settings.stored e = N := by
  obtain ⟨M, rfl, hhoused⟩ := h.housed
  have hhoused : settings.Housed M [.ofVote (.put key value)] d := hhoused
  have hvalid : (committed (.put key value)).Valid := fun op hop => h.valid op hop
  have hbound : 2 < Journal.recordBound := by decide
  obtain ⟨_, e, happend, rfl, hlogged⟩ :=
    Action.Ensures.exists_ends (hhoused.ensures_append (.ofDecision true) r.journal.cursor)
  have hput : Action.Ends (· = settings.storePath) (r.store.put key value).run e
      (.error (.io (.disk f))) e := by
    rw [h.placed.store_eq]
    exact Store.fares_put_unread hlogged.directory (h.valid _ rfl).1 hf
  have hstocked : settings.Stocked M ((committed (.put key value)).log []) e :=
    hlogged.stocked hbound
  refine ⟨{ r with journal := ⟨settings.journalPath, 2, r.journal.cursor⟩ }, e, ?_, rfl, h.phase_eq,
    hstocked.standing_eq hvalid, hstocked.stored_eq⟩
  rw [Replica.decide_of_pending h.phase_eq, h.placed.journal_eq]
  exact happend.bind
    (Action.Fares.bind (Action.Fares.bind (Action.Fares.bind hput .done) .done) .done)

/-- On an empty disk a replica votes on an operation, and the decision to carry it out comes into
the journal, but the operation cannot be carried out. -/
theorem exists_stuck (hs : settings.Serviceable) {key value : String}
    (hcheck : (Operation.put key value).check = .ok ())
    (hfree : (Operation.put key value).ZeroFree) {f : DiskFault} (hf : f ≠ .notFound) :
    ∃ r₁ d₁ r₂ d₂ r₃ d₃,
      (Replica.openWith settings).run.run Disk.empty = (.ok r₁, d₁) ∧
      (r₁.serve "" (.put key value)).run d₁ = ((.voteCommit, r₂), d₂) ∧
      Action.Ends (· = settings.storePath) (r₂.serve "" .commit) d₂
        (.ofFault (.io (.disk f)), r₃) d₃ ∧
      FaultyRun settings ⟨Disk.empty, none⟩ [.put key value] ⟨d₃, some r₃⟩ ∧
      r₃.journal.size = 2 ∧ r₃.phase = .pending (.put key value) ∧
      settings.standing d₃ = .committed (.put key value) ∧
      settings.stored d₃ = fun _ => none := by
  obtain ⟨r₁, d₁, hopen, hat⟩ := (at_off settings.kept_empty).opens hs
  have hq : (Request.put key value).ZeroFree := by
    rintro - ⟨⟩
    exact hfree
  have hballot : Standing.idle.ballot (.put key value) = some (.put key value) :=
    ballot_eq_some.2 ⟨by simp, rfl, hcheck⟩
  rcases hvote : (r₁.serve "" (.put key value)).run d₁ with ⟨⟨answer, r₂⟩, d₂⟩
  obtain ⟨hat₂, -, hanswer⟩ := hat.served hs hq hvote
  obtain rfl : answer = .voteCommit := hanswer.2 (by rw [hballot]; rfl)
  rw [serve_of_ballot hballot] at hat₂
  have hwaits :
      r₂.Waits settings (fun _ => none) (.put key value) (.voted (.put key value)) [] 0 d₂ :=
    hat₂.sound.waits
  obtain ⟨r₃, d₃, hends, hsize, hphase, hstanding, hstored⟩ := ends_commit_unread hwaits hf
  have hvotes : r₂.settings.votes = true := hwaits.placed.settings_eq ▸ hs.votes
  have hcommit : r₂.serve "" .commit = r₂.decide true := Replica.serve_of_votes hvotes ..
  rw [← hcommit] at hends
  have hserves : r₁.Serves settings (.put key value) d₁ .voteCommit r₂ d₂ := by
    refine ⟨hq, ?_, by simp, "", Action.fares_of_run hvote⟩
    rw [hat.sound.journal_eq]
    exact (show 1 < Journal.recordBound by decide)
  have hserves' : r₂.Serves settings .commit d₂ (.ofFault (.io (.disk f))) r₃ d₃ := by
    refine ⟨by rintro - ⟨⟩, ?_, by simp, "", hends⟩
    rw [hwaits.placed.size_eq]
    decide
  have hrun := ((FaultyRun.start.step (.switched (.on hopen))).step (.served hserves)).step
    (.served hserves')
  rw [hat.1.standing_eq, hwaits.standing_eq, hstanding] at hrun
  exact ⟨r₁, d₁, r₂, d₂, r₃, d₃, hopen, hvote, hends, hrun, hsize, hphase, hstanding, hstored⟩

/-- The decision comes while a file cannot be read, and the replica waits with the decision in its
journal. -/
theorem commit_irrevocable_of_unread :
    ∃ r d, FaultyRun (.ofDataDir "data") ⟨Disk.empty, none⟩ [.put "k" "v"] ⟨d, some r⟩ ∧
      r.phase = .pending (.put "k" "v") ∧ (ReplicaSettings.ofDataDir "data").stored d "k" = none ∧
      (∃ r' d', (Replica.openWith (.ofDataDir "data")).run.run d = (.ok r', d') ∧
        r'.phase = .committed ∧ (ReplicaSettings.ofDataDir "data").stored d' "k" = some "v") ∧
      ∀ answer r' e, r.Serves (.ofDataDir "data") .commit d answer r' e →
        Upheld (.ofDataDir "data") (.put "k" "v") d answer r' e := by
  have hs : (ReplicaSettings.ofDataDir "data").Serviceable := ⟨rfl, _, rfl⟩
  have hkept := (ReplicaSettings.ofDataDir "data").kept_empty
  have hfault : DiskFault.isADirectory ≠ .notFound := by decide
  have hcheck : (Operation.put "k" "v").check = .ok () := by decide
  have hfree : (Operation.put "k" "v").ZeroFree := by decide
  obtain ⟨-, -, -, -, r, d, -, -, -, hrun, -, hphase, hstanding, hstored⟩ :=
    exists_stuck hs hcheck hfree hfault
  obtain ⟨⟨r', d', hopen, hphase', hstored'⟩, hrunning⟩ := commit_irrevocable hs ⟨_, _, hkept⟩ hrun
  have hnow := hrunning r rfl
  rw [hphase] at hnow
  refine ⟨r, d, hrun, hphase, by rw [hstored], ⟨r', d', hopen, ?_, ?_⟩, fun answer r'' e =>
    hnow.2 .commit answer r'' e⟩
  · rw [hphase', hstanding]
    rfl
  · rw [hstored', ReplicaSettings.contents, hkept.standing_eq, hkept.stored_eq]
    rfl

/-- The decision to carry out is in the journal when a decision to drop is acknowledged. The
operation is carried out when the replica is opened again. -/
theorem abort_acknowledged_after_commit :
    ∃ r₁ d₁ r₂ d₂ r₃ d₃ r₄ d₄ r₅ d₅,
      (Replica.openWith (.ofDataDir "data")).run.run Disk.empty = (.ok r₁, d₁) ∧
      (r₁.serve "" (.put "k" "v")).run d₁ = ((.voteCommit, r₂), d₂) ∧
      Action.Ends (· = (ReplicaSettings.ofDataDir "data").storePath) (r₂.serve "" .commit) d₂
        (.ofFault (.io (.disk .isADirectory)), r₃) d₃ ∧
      (ReplicaSettings.ofDataDir "data").standing d₃ = .committed (.put "k" "v") ∧
      (r₃.serve "" .abort).run d₃ = ((.ack, r₄), d₄) ∧ r₄.phase = .aborted ∧
      (ReplicaSettings.ofDataDir "data").stored d₄ "k" = none ∧
      (Replica.openWith (.ofDataDir "data")).run.run d₄ = (.ok r₅, d₅) ∧ r₅.phase = .committed ∧
      (ReplicaSettings.ofDataDir "data").stored d₅ "k" = some "v" := by
  have hs : (ReplicaSettings.ofDataDir "data").Serviceable := ⟨rfl, _, rfl⟩
  have hkept := (ReplicaSettings.ofDataDir "data").kept_empty
  have hfault : DiskFault.isADirectory ≠ .notFound := by decide
  have hcheck : (Operation.put "k" "v").check = .ok () := by decide
  have hfree : (Operation.put "k" "v").ZeroFree := by decide
  obtain ⟨r₁, d₁, r₂, d₂, r₃, d₃, hopen, hvote, hends, hrun, hsize, hphase, hstanding, hstored⟩ :=
    exists_stuck hs hcheck hfree hfault
  obtain ⟨r₄, d₄, habort, hphase₄, hstored₄, r₅, d₅, hopen₅, hphase₅, hstored₅⟩ :=
    revokes_commit hs ⟨_, _, hkept⟩ hrun hphase (by omega) (by rw [hsize]; decide) ""
  refine ⟨r₁, d₁, r₂, d₂, r₃, d₃, r₄, d₄, r₅, d₅, hopen, hvote, hends, hstanding, habort, hphase₄,
    ?_, hopen₅, hphase₅, ?_⟩
  · rw [hstored₄, hstored]
  · rw [hstored₅, hstored]
    rfl

end Stuck

end Machine

end RingStore
