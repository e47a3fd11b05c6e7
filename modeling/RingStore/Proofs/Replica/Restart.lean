import RingStore.Proofs.Replica.Durable
import RingStore.Proofs.Replica.PlainMap

/-!
# Replicas that are opened again

A directory is used by one replica after the other (`Session`), each opened with settings of its own
and stopped between two requests. What is durable goes through all of them as `Durable.opened` and
`Durable.serve` say (`Session.ensures_run`, `Session.stocked_disk`). Opening a replica changes
nothing if the last one before it was part of a cohort. Between two replicas that are, others may
have served on their own: their writes to keys that the journal's committed operations are about are
taken back (`Session.stored_after_restart`).
-/

namespace RingStore

open Disk Disk.Attempt

variable {settings settings' : ReplicaSettings} {D : Durable} {d e : Disk} {r : Replica}
  {op : Operation} {q : Request}

namespace Replica

open ReplicaSettings

/-! ## Serving -/

/-- The replica runs on what is durable, with the standing that it takes up when it is opened. -/
def RunsOn (settings : ReplicaSettings) (D : Durable) (r : Replica) (d : Disk) : Prop :=
  r.Resumed settings D.contents (settings.takenUp D.records) D.records d

theorem RunsOn.phase_of_votes (h : r.RunsOn settings D d) (hvotes : settings.votes = true) :
    r.phase = (Standing.ofRecords D.records).phase := by
  rw [h.phase_eq, takenUp_of_votes hvotes]

theorem RunsOn.pending_eq (h : r.RunsOn settings D d) (hvotes : settings.votes = true) :
    r.phase.pending? = D.pending? := by
  rw [h.phase_of_votes hvotes]
  rfl

theorem RunsOn.with_cache (h : r.RunsOn settings D d) (cache : Cache) :
    RunsOn settings D { r with cache } d :=
  ⟨h.settings_eq, h.store_eq, h.journal_eq, h.phase_eq, h.housed⟩

/-- The action leaves a replica that runs on what is durable. -/
def Leaves (settings : ReplicaSettings) (D : Durable) (x : Action (Response × Replica)) (d : Disk) :
    Prop :=
  x.Ensures (fun _ => True) (fun a e => a.2.RunsOn settings D e) d

theorem RunsOn.leaves_done (h : r.RunsOn settings D d) (answer : Response) :
    Leaves settings D (.done (answer, r)) d :=
  Action.ensures_done.2 ⟨trivial, h⟩

theorem RunsOn.get (h : r.RunsOn settings D d) (key : String) :
    Leaves settings D (r.get key) d := by
  obtain ⟨answer, cache, hget, -⟩ := answers_get h.housed h.store_eq key
  exact hget.ensures trivial (h.with_cache cache)

/-- A vote leaves on the disk what the durable side says. -/
theorem RunsOn.vote (h : r.RunsOn settings D d) (hD : D.Legible) (hvotes : settings.votes = true)
    (hop : op.ZeroFree) : Leaves settings (D.vote op) (r.vote op) d := by
  have hpending := h.pending_eq hvotes
  refine ensures_vote_cases h.housed hD.countable.1 h.journal_eq op ?_ ?_ ?_
  · intro op' hwaits
    rw [Durable.vote, ← hpending, hwaits, if_neg (by simp)]
    exact h
  · intro f _ hcheck
    rw [Durable.vote, hcheck, if_neg (by simp)]
    exact h
  · intro e hnone hcheck hafter
    have hphase : (settings.takenUp [.ofVote op]).phase = .pending op := by
      rw [takenUp_of_votes hvotes]
      exact congrArg Standing.phase (Standing.next_ofVote .idle hop)
    rw [Durable.vote, ← hpending, if_pos ⟨hnone, hcheck⟩]
    exact ⟨h.settings_eq, h.store_eq, rfl, hphase.symm, hafter⟩

/-- A decision leaves on the disk what the durable side says, applied or not. -/
theorem RunsOn.decide (h : r.RunsOn settings D d) (hD : D.Legible) (hvotes : settings.votes = true)
    (commit : Bool) : Leaves settings (D.decide commit) (r.decide commit) d := by
  have hpending := h.pending_eq hvotes
  have hphase : ∀ op, r.phase.pending? = some op → settings.takenUp (D.records ++
      [.ofDecision commit]) = (Standing.voted op).next (.ofDecision commit) := by
    intro op hwaits
    rw [takenUp_of_votes hvotes, Standing.ofRecords_concat,
      Standing.pending?_eq_some.1 (hpending.symm.trans hwaits)]
  refine ensures_decide_cases h.housed h.store_eq h.journal_eq
    (fun op hwaits => hD.check_pending (hpending.symm.trans hwaits)) commit ?_ ?_ ?_
  · intro hnone
    rw [Durable.decide, ← hpending, hnone]
    exact h
  · rintro op e hwaits rfl hafter
    rw [Durable.decide, ← hpending, hwaits]
    refine ⟨h.settings_eq, h.store_eq, by simp, ?_, hafter⟩
    rw [hphase op hwaits]
    rfl
  · rintro op e hwaits rfl hafter
    rw [Durable.decide, ← hpending, hwaits]
    refine ⟨h.settings_eq, h.store_eq, by simp, ?_, hafter⟩
    rw [hphase op hwaits]
    rfl

/-- With the effect of an operation in the store, a replica runs on the contents after it. -/
theorem RunsOn.effect (h : r.RunsOn settings D d) {cache : Cache}
    (he : settings.Housed (op.effect D.contents) D.records e) :
    RunsOn settings { D with contents := op.effect D.contents } { r with cache } e :=
  ⟨h.settings_eq, h.store_eq, h.journal_eq, h.phase_eq, he⟩

theorem RunsOn.apply (h : r.RunsOn settings D d) (op : Operation) :
    Leaves settings (D.apply op) ((r.apply op).bind fun a => .done (.ofResult a.1, a.2)) d := by
  unfold Durable.apply
  refine Action.Ensures.bind (ensures_apply_cases h.housed h.store_eq op
    (Q := fun a e => a.2.RunsOn settings (D.apply op) e) ?_ ?_ ?_)
    fun a e _ hQ => Action.ensures_done.2 ⟨trivial, hQ⟩
  · intro f cache hf _
    rw [Durable.apply, hf, if_neg (by simp)]
    exact h.with_cache cache
  · rintro hok ⟨hvalue, hgone⟩
    -- deleting a key that is gone has no effect
    have hsame : op.effect D.contents = D.contents :=
      Function.update_eq_self_iff.2 (hvalue.trans hgone.symm)
    rw [Durable.apply, hok, if_pos rfl, hsame]
    exact h.with_cache _
  · intro e hok _ hafter
    rw [Durable.apply, hok, if_pos rfl]
    exact h.effect hafter

/-- Outside of a cohort a write within the limits succeeds. -/
theorem RunsOn.put_success (h : r.RunsOn settings D d) (halone : settings.votes = false)
    {key value : String} (hcheck : (Operation.put key value).check = .ok ()) (now : String) :
    (r.serve now (.put key value)).Ensures (fun _ => True) (fun a e => a.1 = .success ∧
      a.2.RunsOn settings
        { D with contents := (Operation.put key value).effect D.contents } e) d := by
  have happly := ensures_apply h.housed h.store_eq hcheck (by simp [Operation.value?])
  rw [Replica.serve, h.settings_eq, halone]
  refine Action.Ensures.bind (happly.mono (fun _ _ => trivial) fun a e _ hQ => hQ) ?_
  rintro - e - ⟨rfl, hafter⟩
  exact Action.ensures_done.2 ⟨trivial, rfl, h.effect hafter⟩

/-- Whatever is requested, the disk is left as the durable side says. -/
theorem RunsOn.serve (h : r.RunsOn settings D d) (hD : D.Legible) (now : String)
    (hq : settings.votes = true → q.ZeroFree) :
    Leaves settings (D.serve settings q) (r.serve now q) d := by
  unfold Replica.serve Durable.serve
  rw [h.settings_eq]
  cases hvotes : settings.votes with
  | true =>
    rw [if_pos rfl]
    cases q with
    | get key => exact h.get key
    | put key value => exact h.vote hD hvotes (hq hvotes _ rfl)
    | del key => exact h.vote hD hvotes (hq hvotes _ rfl)
    | commit => exact h.decide hD hvotes true
    | abort => exact h.decide hD hvotes false
    | info | register _ _ => exact h.leaves_done _
  | false =>
    rw [if_neg (by simp)]
    cases q with
    | get key => exact h.get key
    | put key value => exact h.apply (.put key value)
    | del key => exact h.apply (.del key)
    | info | commit | abort | register _ _ => exact h.leaves_done _

/-- Requests one after the other leave the disk as the durable side says. -/
theorem RunsOn.serveAll {requests : List (String × Request)} (h : r.RunsOn settings D d)
    (hD : D.Legible) (hq : settings.votes = true → ∀ request ∈ requests, request.2.ZeroFree) :
    (r.serveAll requests).Ensures (fun _ => True)
      (fun a e => a.2.RunsOn settings (D.serveAll settings requests) e) d := by
  induction requests generalizing r D d with
  | nil => exact Action.ensures_done.2 ⟨trivial, h⟩
  | cons request rest ih =>
    obtain ⟨now, q⟩ := request
    have hfirst : settings.votes = true → q.ZeroFree := fun hvotes =>
      hq hvotes (now, q) List.mem_cons_self
    refine Action.Ensures.bind (h.serve hD now hfirst) ?_
    rintro ⟨answer, r'⟩ e - h'
    refine Action.Ensures.bind (ih h' (hD.serve hfirst) fun hvotes later hlater =>
      hq hvotes later (List.mem_cons_of_mem _ hlater)) ?_
    rintro ⟨answers, r''⟩ e' - h''
    exact Action.ensures_done.2 ⟨trivial, h''⟩

/-! ## Opening -/

/-- Opening a replica, in a cohort or not, carries out what is due and takes up where it stands. -/
theorem ensures_openWith_durable (h : settings.Stocked D.contents D.records d) (hD : D.Legible)
    (hcache : ∃ cache, Cache.create settings.cacheSets settings.cacheSlots = .ok cache) :
    (openWith settings).Ensures (fun _ => True)
      (fun a e => ∃ r, a = .ok r ∧ r.RunsOn settings (D.opened settings) e) d := by
  obtain ⟨cache, hcache⟩ := hcache
  unfold RunsOn Durable.opened
  cases hvotes : settings.votes with
  | true =>
    rw [due_of_votes hvotes, takenUp_of_votes hvotes]
    exact (ensures_openWith_records h hD.countable hD.checked hvotes hcache).mono
      (fun _ _ => trivial) fun a e _ hQ => hQ
  | false =>
    rw [due_of_alone hvotes, takenUp_of_alone hvotes]
    refine Ensures.bind_ok ((ensures_create h hD.countable.1 hcache).mono (fun _ _ => trivial)
      fun a e _ hQ => hQ) ?_
    intro e _ hhoused
    rw [hvotes]
    exact (answers_pure _ e).ensures trivial ⟨_, rfl, rfl, rfl, rfl, rfl, hhoused⟩

end Replica

/-! ## One replica after the other -/

namespace ReplicaSettings

/-- Where the files are depends on the data's directory only. -/
theorem Stocked.of_dataDir {M : Store.Contents} {rs : List Record} (h : settings.Stocked M rs d)
    (hdir : settings'.dataDir = settings.dataDir) : settings'.Stocked M rs d := by
  have hstore : settings'.storePath = settings.storePath := congrArg Path.ofText hdir
  have hjournal : settings'.journalPath = settings.journalPath :=
    congrArg (· ++ [journalName]) hstore
  refine ⟨?_, hjournal ▸ h.journal⟩
  rw [ReplicaSettings.store, hstore]
  exact h.store

end ReplicaSettings

/-- A replica is opened with settings, serves requests and is stopped. -/
structure Session where
  settings : ReplicaSettings
  requests : List (String × Request)

namespace Session

variable {s : Session} {sessions : List Session}

/-- Opens the replica and serves the requests. -/
def run (s : Session) : Attempt (List Response × Replica) := do
  let r ← Replica.openWith s.settings
  (r.serveAll s.requests : Action (List Response × Replica))

/-- The disk after sessions one after the other. -/
def disk (start : Disk) (sessions : List Session) : Disk :=
  sessions.foldl (fun d s => (s.run.run.run d).2) start

/-- The replica uses the directory, its cache can be made, and it votes on no zero byte. -/
structure Fits (dataDir : String) (s : Session) : Prop where
  dataDir_eq : s.settings.dataDir = dataDir
  cache : ∃ cache, Cache.create s.settings.cacheSets s.settings.cacheSlots = .ok cache
  zeroFree : s.settings.votes = true → ∀ request ∈ s.requests, request.2.ZeroFree

/-- What a session makes of what is durable. -/
def leave (s : Session) (D : Durable) : Durable :=
  (D.opened s.settings).serveAll s.settings s.requests

/-- What sessions one after the other make of what is durable. -/
def leaveAll (D : Durable) (sessions : List Session) : Durable :=
  sessions.foldl (fun D s => s.leave D) D

theorem leaveAll_append (D : Durable) (sessions sessions' : List Session) :
    leaveAll D (sessions ++ sessions') = leaveAll (leaveAll D sessions) sessions' :=
  List.foldl_append

/-- A session goes to its end, and leaves what it is to leave. -/
theorem ensures_run (h : settings.Stocked D.contents D.records d) (hD : D.Legible)
    (hs : s.Fits settings.dataDir) :
    s.run.Ensures (fun _ => True)
      (fun a e => ∃ answers r, a = .ok (answers, r) ∧ r.RunsOn s.settings (s.leave D) e) d := by
  have hopen := Replica.ensures_openWith_durable (h.of_dataDir hs.dataDir_eq) hD hs.cache
  refine Ensures.bind hopen ?_ ?_
  · rintro r e - ⟨r', heq, hruns⟩
    obtain rfl := Except.ok.inj heq
    refine Action.Ensures.bind (hruns.serveAll (hD.opened s.settings) hs.zeroFree) ?_
    rintro ⟨answers, r'⟩ e' - hserved
    exact Action.ensures_done.2 ⟨trivial, answers, r', rfl, hserved⟩
  · rintro f e - ⟨r, heq, -⟩
    cases heq

theorem legible_leave (hD : D.Legible) {dataDir : String} (hs : s.Fits dataDir) :
    (s.leave D).Legible :=
  (hD.opened s.settings).serveAll hs.zeroFree

theorem settled_leave {dataDir : String} (hs : s.Fits dataDir) (D : Durable) :
    (s.leave D).Settled s.settings :=
  (Durable.settled_opened s.settings D).serveAll hs.zeroFree

theorem legible_leaveAll (hD : D.Legible) {dataDir : String} (hs : ∀ s ∈ sessions, s.Fits dataDir) :
    (leaveAll D sessions).Legible := by
  induction sessions generalizing D with
  | nil => exact hD
  | cons s rest ih =>
    exact ih (legible_leave hD (hs s List.mem_cons_self)) fun s' hs' =>
      hs s' (List.mem_cons_of_mem s hs')

/-- Sessions outside of a cohort leave the journal as it is. -/
theorem records_leaveAll_of_alone (h : ∀ s ∈ sessions, s.settings.votes = false) (D : Durable) :
    (leaveAll D sessions).records = D.records := by
  induction sessions generalizing D with
  | nil => rfl
  | cons s rest ih =>
    have hfirst : (s.leave D).records = D.records :=
      Durable.records_serveAll_of_alone (h s List.mem_cons_self) _ _
    exact (ih (fun s' hs' => h s' (List.mem_cons_of_mem s hs')) _).trans hfirst

/-- After any sessions the directories hold what the durable side says. -/
theorem stocked_disk {start : Disk} (h : settings.Stocked D.contents D.records start)
    (hD : D.Legible) (hs : ∀ s ∈ sessions, s.Fits settings.dataDir) :
    settings.Stocked (leaveAll D sessions).contents (leaveAll D sessions).records
      (disk start sessions) := by
  induction sessions generalizing D start with
  | nil => exact h
  | cons s rest ih =>
    have hfits := hs s List.mem_cons_self
    have hlegible := legible_leave hD hfits
    obtain ⟨-, answers, r, hrun, hruns⟩ := ensures_run h hD hfits
    have hstocked := (hruns.housed.stocked hlegible.countable.1).of_dataDir hfits.dataDir_eq.symm
    exact ih hstocked hlegible fun s' hs' => hs s' (List.mem_cons_of_mem s hs')

end Session

namespace ReplicaSettings

/-- The operations that are carried out when a replica is opened on a disk. -/
def dueOn (settings : ReplicaSettings) (d : Disk) : List Operation :=
  settings.due (Journal.recordsOn settings.journalPath d)

theorem dueOn_eq (h : settings.Stocked D.contents D.records d) (hD : D.Legible) :
    settings.dueOn d = settings.due D.records := by
  rw [dueOn, Journal.recordsOn_eq h.journal.holds (Nat.lt_succ_self _) hD.countable.2]

end ReplicaSettings

namespace Session

variable {s : Session} {sessions : List Session}

/-- Opening a replica outside of a cohort changes nothing. In a cohort it carries out again what the
journal's records commit. After the last session in the cohort it takes up the phase in which this
session ended, and gives the keys of those operations the values that they had then; so nothing
changes if no session outside of the cohort came between. -/
theorem stored_after_restart {start : Disk} (h : settings.Stocked D.contents D.records start)
    (hD : D.Legible) (hsessions : ∀ s ∈ sessions, s.Fits settings.dataDir)
    (hcache : ∃ cache, Cache.create settings.cacheSets settings.cacheSlots = .ok cache) :
    ∃ r e, (Replica.openWith settings).run.run (disk start sessions) = (.ok r, e) ∧
      (settings.votes = false → settings.stored e = settings.stored (disk start sessions)) ∧
      settings.stored e = Standing.carryOut (settings.dueOn (disk start sessions))
        (settings.stored (disk start sessions)) ∧
      ∀ before s alone, sessions = before ++ s :: alone → s.settings.votes = true →
        (∀ s' ∈ alone, s'.settings.votes = false) →
        ∃ answers r' e', s.run.run.run (disk start before) = (.ok (answers, r'), e') ∧
          (settings.votes = true → r.phase = r'.phase) ∧
          ∀ key, settings.stored e key =
            if key ∈ (settings.dueOn (disk start sessions)).map Operation.key
            then settings.stored e' key else settings.stored (disk start sessions) key := by
  have hstocked := stocked_disk h hD hsessions
  have hlegible := legible_leaveAll hD hsessions
  obtain ⟨-, r, hopen, hruns⟩ := Replica.ensures_openWith_durable hstocked hlegible hcache
  have hstored := hstocked.stored_eq
  have hdue := ReplicaSettings.dueOn_eq hstocked hlegible
  have hafter : settings.stored ((Replica.openWith settings).run.run (disk start sessions)).2 =
      ((leaveAll D sessions).opened settings).contents := Store.value?_eq hruns.housed.store
  refine ⟨r, _, Prod.ext hopen rfl, fun halone => ?_, ?_, ?_⟩
  · rw [hafter, hstored, Durable.opened, ReplicaSettings.due_of_alone halone]
    rfl
  · rw [hafter, hstored, hdue]
    rfl
  rintro before s alone rfl hvotes halone
  have hbefore : ∀ s' ∈ before, s'.Fits settings.dataDir := fun s' hs' =>
    hsessions s' (List.mem_append_left _ hs')
  have hs : s.Fits settings.dataDir := hsessions s (by simp)
  obtain ⟨-, answers, r', hrun, hruns'⟩ :=
    ensures_run (stocked_disk h hD hbefore) (legible_leaveAll hD hbefore) hs
  have hlegible' := legible_leave (legible_leaveAll hD hbefore) hs
  have hrecords : (leaveAll D (before ++ s :: alone)).records =
      (s.leave (leaveAll D before)).records := by
    rw [leaveAll_append]
    exact records_leaveAll_of_alone halone _
  refine ⟨answers, r', _, Prod.ext hrun rfl, fun hvotes' => ?_, fun key => ?_⟩
  · rw [hruns.phase_of_votes hvotes', hruns'.phase_of_votes hvotes, ← hrecords]
    rfl
  · have hstocked' := (hruns'.housed.stocked hlegible'.countable.1).of_dataDir hs.dataDir_eq.symm
    rw [hafter, hstored, hstocked'.stored_eq, hdue]
    exact Durable.contents_opened (settled_leave hs _) hvotes hrecords key

/-- A write to another key, outside of the cohort, outlives opening in the cohort again. -/
theorem stored_after_restart_of_other_key :
    ∃ r e, (Replica.openWith (.ofDataDir "data")).run.run (disk Disk.empty
        [⟨.ofDataDir "data", [("", .put "k" "v"), ("", .commit)]⟩,
          ⟨(ReplicaSettings.ofDataDir "data").withVotes false, [("", .put "l" "w")]⟩]) =
            (.ok r, e) ∧
      r.phase = .committed ∧ (ReplicaSettings.ofDataDir "data").stored e "k" = some "v" ∧
      (ReplicaSettings.ofDataDir "data").stored e "l" = some "w" := by
  let settings : ReplicaSettings := .ofDataDir "data"
  let first : Session := ⟨settings, [("", .put "k" "v"), ("", .commit)]⟩
  let second : Session := ⟨settings.withVotes false, [("", .put "l" "w")]⟩
  let D : Durable := ⟨fun _ => none, []⟩
  have hstart : settings.Stocked D.contents D.records Disk.empty := settings.kept_empty.stocked
  have hD : D.Legible := Durable.legible_of_nil _
  have hfirst : first.Fits settings.dataDir := ⟨rfl, ⟨_, rfl⟩, by decide⟩
  have hsecond : second.Fits settings.dataDir := ⟨rfl, ⟨_, rfl⟩, by decide⟩
  have hboth : ∀ s ∈ [first, second], s.Fits settings.dataDir := by simp [hfirst, hsecond]
  obtain ⟨r, e, hopen, -, hstored, hsplit⟩ := stored_after_restart hstart hD hboth ⟨_, rfl⟩
  obtain ⟨answers, r', e', hrun, hphase, -⟩ := hsplit [] first [second] rfl rfl (by decide)
  obtain ⟨-, answers', r'', hrun', hruns⟩ := ensures_run hstart hD hfirst
  have hstocked := stocked_disk hstart hD hboth
  rw [ReplicaSettings.dueOn_eq hstocked (legible_leaveAll hD hboth), hstocked.stored_eq] at hstored
  refine ⟨r, e, hopen, ?_, ?_, ?_⟩
  · obtain rfl : r' = r'' := by
      have heq := (congrArg Prod.fst hrun).symm.trans hrun'
      exact (Prod.mk.inj (Except.ok.inj heq)).2
    rw [hphase rfl, hruns.phase_of_votes rfl]
    rfl
  · rw [hstored]
    decide
  · rw [hstored]
    decide

/-- A write outside of the cohort is acknowledged. Opening in the cohort takes it back, because the
journal still holds the vote and the decision on an older write to this key. -/
theorem restart_takes_back :
    ∃ r₁ d₁ r₂ d₂ r₃ d₃,
      (Replica.openWith ((ReplicaSettings.ofDataDir "data").withVotes false)).run.run
        (disk Disk.empty [⟨.ofDataDir "data", [("", .put "k" "v"), ("", .commit)]⟩]) =
          (.ok r₁, d₁) ∧
      (r₁.serve "" (.put "k" "w")).run d₁ = ((.success, r₂), d₂) ∧
      (ReplicaSettings.ofDataDir "data").stored d₂ "k" = some "w" ∧
      (Replica.openWith (.ofDataDir "data")).run.run d₂ = (.ok r₃, d₃) ∧
      (ReplicaSettings.ofDataDir "data").stored d₃ "k" = some "v" := by
  let settings : ReplicaSettings := .ofDataDir "data"
  let first : Session := ⟨settings, [("", .put "k" "v"), ("", .commit)]⟩
  let D : Durable := ⟨fun _ => none, []⟩
  have hstart : settings.Stocked D.contents D.records Disk.empty := settings.kept_empty.stocked
  have hD : D.Legible := Durable.legible_of_nil _
  have hfirst : ∀ s ∈ [first], s.Fits settings.dataDir := by
    intro s hs
    obtain rfl := List.mem_singleton.1 hs
    exact ⟨rfl, ⟨_, rfl⟩, by decide⟩
  have hlegible := legible_leaveAll hD hfirst
  have hstocked : (settings.withVotes false).Stocked (leaveAll D [first]).contents
      (leaveAll D [first]).records (disk Disk.empty [first]) :=
    (stocked_disk hstart hD hfirst).of_dataDir rfl
  obtain ⟨-, r₁, hopen₁, hruns₁⟩ := Replica.ensures_openWith_durable hstocked hlegible ⟨_, rfl⟩
  obtain ⟨-, hanswer, hruns₂⟩ := hruns₁.put_success rfl
    (show (Operation.put "k" "w").check = .ok () by decide) ""
  have hstocked₂ : settings.Stocked _ _ _ :=
    (hruns₂.housed.stocked hlegible.countable.1).of_dataDir rfl
  obtain ⟨-, r₃, hopen₃, hruns₃⟩ := Replica.ensures_openWith_durable hstocked₂
    ⟨hlegible.countable, hlegible.checked, hlegible.room⟩ ⟨_, rfl⟩
  refine ⟨r₁, _, _, _, r₃, _, Prod.ext hopen₁ rfl, Prod.ext (Prod.ext hanswer rfl) rfl, ?_,
    Prod.ext hopen₃ rfl, ?_⟩
  · have hstored : settings.stored _ = _ := hstocked₂.stored_eq
    rw [hstored]
    decide
  · have hstored : settings.stored _ = _ := Store.value?_eq hruns₃.housed.store
    rw [hstored]
    decide

end Session

end RingStore
