import RingStore.Proofs.Coordinator.TakingTurns

/-!
# Requests and the ring they meet

Replicas are put on the ring while requests are served. A request that goes to the members has found
the ring full before, and a value is cached only by such a request: so once any request has been
served, the ring is what it will be for good, and every read and every write of a key goes to the
same members, in the same order (`Crowd.Admits`).
-/

namespace RingStore

namespace Coordinator

variable {c c' : Coordinator} {key : String} {op : Operation} {t t' : Task} {cohort : List Member}
  {met : Contact}

/-! ## Requests that were let in -/

/-- The read has found the ring full, or was answered with a value. -/
def Reading.served : Reading → Bool
  | noting | routing _ | asking _ _ | filling _ _ _ | finished (.value _ _) => true
  | lookup | admission | finished _ => false

/-- The write has found the ring full and is under way, or was carried out. -/
def Writing.served : Writing → Bool
  | entering | routing | voting _ _ _ | deciding _ _ | settling | leaving _ => true
  | checking | admission => false
  | finished r => r == .success

/-- The members that the read has yet to ask are the last ones of the cohort. -/
def Reading.KeepsTo (cohort : List Member) : Reading → Prop
  | asking _ left => left <:+ cohort
  | _ => True

/-- The members that the write has yet to meet are the last ones of the cohort, and the decision
goes to all of it. -/
def Writing.KeepsTo (cohort : List Member) : Writing → Prop
  | voting asked left _ => asked = cohort ∧ left <:+ cohort
  | deciding _ left => left <:+ cohort
  | _ => True

/-- A write that goes on still has the last of its cohort to meet. -/
theorem Writing.KeepsTo.advance {stage : Writing} (h : stage.KeepsTo (c.cohort op.key)) :
    (stage.advance c op).2.1.KeepsTo (c.cohort op.key) := by
  cases stage with
  | checking | entering =>
    simp only [Writing.advance]
    split <;> trivial
  | admission =>
    simp only [Writing.advance]
    split <;> trivial
  | routing => exact ⟨rfl, List.suffix_refl _⟩
  | voting asked left unanimous =>
    cases left with
    | cons x left => exact h
    | nil =>
      obtain ⟨rfl, -⟩ := h
      exact List.suffix_refl _
  | deciding commit left =>
    cases left with
    | cons x left => cases commit <;> exact h
    | nil => cases commit <;> trivial
  | settling | leaving r | finished r => trivial

theorem Writing.KeepsTo.contacted {stage : Writing} (h : stage.KeepsTo cohort) (met : Contact) :
    (stage.contacted met).1.KeepsTo cohort := by
  cases stage with
  | voting asked left unanimous =>
    cases left with
    | nil => exact h
    | cons x left => exact ⟨h.1, (List.suffix_cons x left).trans h.2⟩
  | deciding commit left =>
    cases left with
    | nil => exact h
    | cons x left =>
      simp only [Writing.contacted]
      split
      · exact (List.suffix_cons x left).trans h
      · exact h
  | checking | admission | entering | routing | settling | leaving r | finished r => exact h

/-- Meeting a member serves no write. -/
theorem Writing.served_contacted (stage : Writing) (met : Contact) :
    (stage.contacted met).1.served = stage.served := by
  cases stage with
  | voting asked left unanimous => cases left <;> rfl
  | deciding commit left => cases left <;> rfl
  | checking | admission | entering | routing | settling | leaving r | finished r => rfl

theorem Reading.KeepsTo.advance {stage : Reading} (h : stage.KeepsTo (c.cohort key)) :
    (stage.advance c key).2.KeepsTo (c.cohort key) := by
  cases stage with
  | lookup =>
    simp only [Reading.advance]
    split
    · trivial
    · split <;> trivial
  | admission =>
    simp only [Reading.advance]
    split <;> trivial
  | routing epoch => exact List.suffix_refl _
  | asking epoch left =>
    cases left with
    | nil => trivial
    | cons x left => exact h
  | noting | filling epoch k value | finished r => trivial

theorem Reading.KeepsTo.contacted {stage : Reading} (h : stage.KeepsTo cohort) (met : Contact) :
    (stage.contacted met).KeepsTo cohort := by
  cases stage with
  | asking epoch left =>
    cases left with
    | nil => exact h
    | cons x left =>
      rcases Traffic.contacted_asking epoch x left met with ⟨k, value, -, heq⟩ | heq
      · rw [heq]
        trivial
      · rw [heq]
        exact (List.suffix_cons x left).trans h
  | lookup | admission | noting | routing epoch | filling epoch k value | finished r => exact h

theorem Reading.served_contacted (stage : Reading) (met : Contact) :
    (stage.contacted met).served = stage.served := by
  cases stage with
  | asking epoch left =>
    cases left with
    | nil => rfl
    | cons x left =>
      rcases Traffic.contacted_asking epoch x left met with ⟨k, value, -, heq⟩ | heq <;>
        rw [heq] <;> rfl
  | lookup | admission | noting | routing epoch | filling epoch k value | finished r => rfl

/-- A read that finds nothing cached is let in by a full ring only. -/
theorem Reading.advance_of_not_served (stage : Reading) (hmiss : (c.cache.get key).1 = none)
    (h : stage.served = false) : (stage.advance c key).1.cache = c.cache ∧
      ((stage.advance c key).2.served = true → c.ring.isFull = true) := by
  cases stage with
  | lookup =>
    cases hcheck : checkKey key with
    | error f =>
      rw [Reading.advance, hcheck]
      exact ⟨rfl, fun hserved => by cases hserved⟩
    | ok _ =>
      rw [advance_miss hcheck hmiss]
      exact ⟨rfl, fun hserved => by cases hserved⟩
  | admission =>
    refine ⟨rfl, fun hserved => ?_⟩
    simp only [Reading.advance] at hserved
    split at hserved
    · assumption
    · cases hserved
  | finished r => exact ⟨rfl, fun hserved => absurd (h.symm.trans hserved) Bool.false_ne_true⟩
  | noting | routing epoch | asking epoch left | filling epoch k value => cases h

theorem Writing.served_ofFault (f : Fault) : (finished (.ofFault f)).served = false :=
  Task.ofFault_ne_success f

/-- A write is let in by a full ring only. -/
theorem Writing.advance_of_not_served (stage : Writing) (h : stage.served = false) :
    (stage.advance c op).1.cache = c.cache ∧
      ((stage.advance c op).2.1.served = true → c.ring.isFull = true) := by
  cases stage with
  | checking =>
    simp only [Writing.advance]
    split
    · refine ⟨rfl, fun hserved => ?_⟩
      rw [served_ofFault] at hserved
      cases hserved
    · exact ⟨rfl, fun hserved => by cases hserved⟩
  | admission =>
    refine ⟨rfl, fun hserved => ?_⟩
    simp only [Writing.advance] at hserved
    split at hserved
    · assumption
    · rw [served_ofFault] at hserved
      cases hserved
  | finished r => exact ⟨rfl, fun hserved => absurd (h.symm.trans hserved) Bool.false_ne_true⟩
  | entering | routing | voting _ _ _ | deciding _ _ | settling | leaving _ => cases h

/-- A read leaves the ring alone. -/
theorem Reading.advance_ring (c : Coordinator) (key : String) (stage : Reading) :
    (stage.advance c key).1.ring = c.ring := by
  cases stage with
  | lookup =>
    simp only [Reading.advance]
    split
    · rfl
    · split <;> rfl
  | filling epoch k value =>
    simp only [Reading.advance]
    split <;> rfl
  | asking epoch left => cases left <;> rfl
  | admission | noting | routing epoch | finished r => rfl

namespace Task

def served : Task → Bool
  | read _ stage => stage.served
  | write _ stage => stage.served
  | _ => false

/-- A task goes to the members that hold its key, and to nobody else. -/
def KeepsTo (cohort : String → List Member) : Task → Prop
  | read key stage => stage.KeepsTo (cohort key)
  | write op stage => stage.KeepsTo (cohort op.key)
  | _ => True

theorem KeepsTo.advance (h : t.KeepsTo c.cohort) : (t.advance c).2.1.KeepsTo c.cohort := by
  cases t with
  | read key stage => exact Reading.KeepsTo.advance h
  | write op stage => exact Writing.KeepsTo.advance h
  | trying left report => cases left <;> trivial
  | register host port | survey now | finished r => trivial

theorem KeepsTo.contacted {cohort : String → List Member} (h : t.KeepsTo cohort) (met : Contact) :
    (t.contacted met).1.KeepsTo cohort := by
  cases t with
  | read key stage => exact Reading.KeepsTo.contacted h met
  | write op stage => exact Writing.KeepsTo.contacted h met
  | register host port | survey now | trying left report | finished r => trivial

theorem served_contacted (t : Task) (met : Contact) : (t.contacted met).1.served = t.served := by
  cases t with
  | read key stage => exact stage.served_contacted met
  | write op stage => exact stage.served_contacted met
  | register host port | survey now | trying left report | finished r => rfl

/-- Who has not been served has not been sent to anyone. -/
theorem keepsTo_of_not_served {cohort : String → List Member} (h : t.served = false) :
    t.KeepsTo cohort := by
  cases t with
  | read key stage =>
    cases stage with
    | lookup | admission | finished r => trivial
    | noting | routing epoch | asking epoch left | filling epoch k value => cases h
  | write op stage =>
    cases stage with
    | checking | admission | finished r => trivial
    | entering | routing | voting _ _ _ | deciding _ _ | settling | leaving _ => cases h
  | register host port | survey now | trying left report | finished r => trivial

/-- While nothing is cached, a task is served only after it has found the ring full, and nothing is
cached until then. -/
theorem advance_of_not_served (hcold : ∀ key, (c.cache.get key).1 = none) (h : t.served = false) :
    (t.advance c).1.cache = c.cache ∧
      ((t.advance c).2.1.served = true → c.ring.isFull = true) := by
  cases t with
  | read key stage => exact stage.advance_of_not_served (hcold key) h
  | write op stage => exact stage.advance_of_not_served h
  | register host port =>
    obtain ⟨ring, heq, -⟩ := register_eq c host port
    refine ⟨?_, fun hserved => by cases hserved⟩
    show (c.register host port).2.cache = c.cache
    rw [heq]
  | trying left report => cases left <;> exact ⟨rfl, fun hserved => by cases hserved⟩
  | survey now | finished r => exact ⟨rfl, fun hserved => by cases hserved⟩

/-- A step of a task does to the ring what calls do to it. -/
theorem advance_ring (c : Coordinator) (t : Task) :
    ∃ calls, (t.advance c).1.ring = c.ring.afterAll calls := by
  cases t with
  | register host port =>
    refine ⟨[.register host port], ?_⟩
    show (c.register host port).2.ring = c.ring.after (.register host port)
    cases hring : c.ring.attempt (.register host port) with
    | ok ring =>
      have hregister : c.ring.register host port = .ok ring := hring
      rw [Ring.after_of_ok hring, Coordinator.register, hregister]
    | error f =>
      have hregister : c.ring.register host port = .error f := hring
      rw [Ring.after_of_error hring, Coordinator.register, hregister]
  | read key stage => exact ⟨[], stage.advance_ring c key⟩
  | write op stage => exact ⟨[], (Writing.advance_fixed c op stage).1⟩
  | trying left report => cases left <;> exact ⟨[], rfl⟩
  | survey now | finished r => exact ⟨[], rfl⟩

end Task

namespace Crowd

variable {s s' : Crowd} {tasks : List Task} {history : List Sight} {i : Nat}

/-! ## The ring under requests -/

/-- As long as the ring is not full, nothing is cached and nobody is served; and everyone goes to
the members that hold the key. -/
structure Admits (s : Crowd) : Prop where
  cold : s.coordinator.ring.isFull = true ∨ ∀ key, (s.coordinator.cache.get key).1 = none
  full : ∀ t ∈ s.tasks, t.served = true → s.coordinator.ring.isFull = true
  keeps : ∀ t ∈ s.tasks, t.KeepsTo s.coordinator.cohort

/-- A change of the coordinator and of tasks that keeps a full ring, and the cache of any other. -/
theorem Admits.moved (h : s.Admits) (hfixed : Fixed s.coordinator c')
    (hcache : s.coordinator.ring.isFull = true ∨ c'.cache = s.coordinator.cache)
    (htasks : ∀ t ∈ tasks, t ∈ s.tasks ∨
      (t.served = true → s.coordinator.ring.isFull = true) ∧ t.KeepsTo s.coordinator.cohort) :
    Admits ⟨c', tasks, history⟩ := by
  have hserved : ∀ t ∈ tasks, t.served = true → s.coordinator.ring.isFull = true := by
    intro t ht
    rcases htasks t ht with hold | ⟨hnew, -⟩
    · exact h.full t hold
    · exact hnew
  by_cases hfull : s.coordinator.ring.isFull = true
  · have hcohort : c'.cohort = s.coordinator.cohort := funext (hfixed.cohort hfull)
    refine ⟨.inl (hfixed.isFull hfull), fun _ _ _ => hfixed.isFull hfull, fun t ht => ?_⟩
    show t.KeepsTo c'.cohort
    rw [hcohort]
    rcases htasks t ht with hold | ⟨-, hnew⟩
    · exact h.keeps t hold
    · exact hnew
  · refine ⟨.inr ?_, fun t ht hs => absurd (hserved t ht hs) hfull, fun t ht => ?_⟩
    · show ∀ key, (c'.cache.get key).1 = none
      rw [hcache.resolve_left hfull]
      exact h.cold.resolve_left hfull
    · refine Task.keepsTo_of_not_served (Bool.eq_false_iff.2 fun hs => ?_)
      exact hfull (hserved t ht hs)

theorem mem_set_cases {t' u : Task} (h : u ∈ s.tasks.set i t') : u ∈ s.tasks ∨ u = t' :=
  List.mem_or_eq_of_mem_set h

theorem served_ofWrite (q : Request) : (Task.ofWrite q).served = false := by
  unfold Task.ofWrite
  cases q.operation? <;> rfl

theorem served_ofRequest (now : String) (q : Request) : (Task.ofRequest now q).served = false := by
  cases q with
  | put key value => exact served_ofWrite (.put key value)
  | del key => exact served_ofWrite (.del key)
  | get key | register host port | info | commit | abort => rfl

/-- A request comes in that has not been served. -/
theorem Admits.arrive (h : s.Admits) (ht : t.served = false) :
    Admits { s with tasks := s.tasks ++ [t] } := by
  refine h.moved (.refl _) (.inr rfl) fun u hu => ?_
  rcases List.mem_append.1 hu with hold | hnew
  · exact .inl hold
  · obtain rfl := List.mem_singleton.1 hnew
    refine .inr ⟨fun hs => ?_, Task.keepsTo_of_not_served ht⟩
    rw [ht] at hs
    cases hs

theorem Admits.advance (h : s.Admits) (ht : t ∈ s.tasks) : (s.advanced i t).Admits := by
  have hkeeps : (t.advance s.coordinator).2.1.KeepsTo s.coordinator.cohort := (h.keeps t ht).advance
  by_cases hfull : s.coordinator.ring.isFull = true
  · refine h.moved (Task.advance_fixed _ t) (.inl hfull) fun u hu => ?_
    rcases mem_set_cases hu with hold | rfl
    · exact .inl hold
    · exact .inr ⟨fun _ => hfull, hkeeps⟩
  · have hout : t.served = false := Bool.eq_false_iff.2 fun hs => hfull (h.full t ht hs)
    obtain ⟨hcache, hserved⟩ := Task.advance_of_not_served (h.cold.resolve_left hfull) hout
    refine h.moved (Task.advance_fixed _ t) (.inr hcache) fun u hu => ?_
    rcases mem_set_cases hu with hold | rfl
    · exact .inl hold
    · exact .inr ⟨hserved, hkeeps⟩

/-- Whatever a step does, nobody is served before the ring is full. -/
theorem Admits.step (h : s.Admits) (hstep : Step s s') : s'.Admits := by
  cases hstep with
  | call q => exact h.arrive (served_ofWrite q)
  | request now q => exact h.arrive (served_ofRequest now q)
  | advance ht hdemand => exact h.advance (List.mem_of_getElem? ht)
  | @contact i t m q ht hdemand met =>
    have hmem := List.mem_of_getElem? ht
    refine h.moved (.refl _) (.inr rfl) fun u hu => ?_
    rcases mem_set_cases hu with hold | rfl
    · exact .inl hold
    · refine .inr ⟨fun hserved => ?_, (h.keeps t hmem).contacted met⟩
      rw [Task.served_contacted] at hserved
      exact h.full t hmem hserved
  | @probe i t m ht hdemand up =>
    obtain ⟨left, report, rfl⟩ := Task.eq_trying_of_demand hdemand
    refine h.moved (.refl _) (.inr rfl) fun u hu => ?_
    rcases mem_set_cases hu with hold | rfl
    · exact .inl hold
    · refine .inr ⟨fun hserved => ?_, trivial⟩
      cases hserved

/-- In any run nobody is served before the ring is full. -/
theorem Admits.run (h : s.Admits) (hrun : Run s s') : s'.Admits := by
  induction hrun with
  | refl => exact h
  | tail _ hstep ih => exact ih.step hstep

theorem Run.fixed (hrun : Run s s') : Fixed s.coordinator s'.coordinator := by
  induction hrun with
  | refl => exact .refl _
  | tail _ hstep ih =>
    have hnext := hstep.fixed
    exact ⟨hnext.settings.trans ih.settings, fun hfull =>
      (hnext.ring (ih.isFull hfull)).trans (ih.ring hfull)⟩

/-- A step changes the ring through its calls only. -/
theorem Step.ring (hstep : Step s s') :
    ∃ calls, s'.coordinator.ring = s.coordinator.ring.afterAll calls := by
  cases hstep with
  | @advance i t ht hdemand => exact Task.advance_ring _ t
  | call _ | request _ _ | contact _ _ _ | probe _ _ _ => exact ⟨[], rfl⟩

theorem Step.of_advance (c' : Coordinator) (t t' : Task) {notice : Option Notice}
    (ht : s.tasks[i]? = some t) (hdemand : t.demand = .step)
    (hadvance : t.advance s.coordinator = (c', t', notice)) :
    Step s ⟨c', s.tasks.set i t', s.history ++ atGate i t t'⟩ := by
  have hstep := Step.advance ht hdemand
  rwa [advanced, hadvance] at hstep

/-- Requests do to the ring what calls do to it. -/
theorem Run.ring (hrun : Run s s') :
    ∃ calls, s'.coordinator.ring = s.coordinator.ring.afterAll calls := by
  induction hrun with
  | refl => exact ⟨[], rfl⟩
  | tail _ hstep ih =>
    obtain ⟨calls, hcalls⟩ := ih
    obtain ⟨more, hmore⟩ := hstep.ring
    refine ⟨calls ++ more, ?_⟩
    rw [hmore, hcalls, Ring.afterAll_append]

/-- Requests lead to that state of a coordinator. -/
def Reached (c : Coordinator) : Prop :=
  ∃ start s : Crowd, start.tasks = [] ∧ start.history = [] ∧ start.coordinator.busy = false ∧
    Run start s ∧ s.coordinator = c

theorem eq_of_create {settings : CoordinatorSettings} (h : create settings = .ok c) :
    ∃ cache, Cache.create settings.cacheSets settings.cacheSlots = .ok cache ∧
      c = ⟨settings, Ring.create settings.capacity, cache, false, 0⟩ := by
  unfold create at h
  cases hcache : Cache.create settings.cacheSets settings.cacheSlots with
  | error f =>
    rw [hcache] at h
    cases h
  | ok cache =>
    rw [hcache] at h
    exact ⟨cache, rfl, (Except.ok.inj h).symm⟩

theorem admits_of_create {settings : CoordinatorSettings} (h : create settings = .ok c) :
    Admits ⟨c, [], []⟩ := by
  obtain ⟨cache, hcache, rfl⟩ := eq_of_create h
  have hempty := (Cache.create_eq_ok hcache).2
  refine ⟨.inr fun key => ?_, by simp, by simp⟩
  cases hget : (cache.get key).1 with
  | none => rfl
  | some value => exact absurd (Cache.caches_of_get hget) (hempty key value)

/-- Whatever calls are made on a ring, it has its members in order and at most as many as it has
places for, it keeps each of them as it is, and it refuses a call only for want of a place; once it
is full it stays the same. A coordinator's ring is such a ring, however its requests come. Once one
of them has been served the ring is full: everyone who reads or writes a key from then on goes to
the same members, and so do those who are under way. -/
theorem membership_lasts :
    (∀ capacity calls, ((Ring.create capacity).afterAll calls).Steady capacity) ∧
      ∀ settings c s, create settings = .ok c → Run ⟨c, [], []⟩ s →
        (∃ calls, s.coordinator.ring = (Ring.create settings.capacity).afterAll calls) ∧
          ((∃ t ∈ s.tasks, t.served = true) → s.coordinator.ring.isFull = true ∧
            ∀ s', Run s s' → s'.coordinator.ring = s.coordinator.ring ∧
              (∀ key, s'.coordinator.cohort key = s.coordinator.cohort key) ∧
              ∀ t ∈ s'.tasks, t.KeepsTo s.coordinator.cohort) := by
  constructor
  · intro capacity calls
    exact (Ring.Built.create.afterAll calls).steady
  · intro settings c s hcreate hrun
    have hadmits := (admits_of_create hcreate).run hrun
    constructor
    · obtain ⟨cache, -, rfl⟩ := eq_of_create hcreate
      exact hrun.ring
    · rintro ⟨t, ht, hserved⟩
      have hfull := hadmits.full t ht hserved
      refine ⟨hfull, fun s' hlater => ?_⟩
      have hfixed := hlater.fixed
      have hcohort : s'.coordinator.cohort = s.coordinator.cohort := funext (hfixed.cohort hfull)
      refine ⟨hfixed.ring hfull, hfixed.cohort hfull, fun t' ht' => ?_⟩
      rw [← hcohort]
      exact (hadmits.run hlater).keeps t' ht'

/-- A coordinator that was set up for one replica. -/
def awaitingOne : Coordinator :=
  ⟨(CoordinatorSettings.ofCapacity 1 1).withCache 1 2, Ring.create 1,
    ⟨1, Nat.one_pos, Vector.replicate 1 ⟨2, []⟩⟩, false, 0⟩

/-- A replica is put on the ring and a read is let in; another replica is turned away then, and the
read goes to the first one. -/
theorem membership_lasts_of_two : ∃ s s' : Crowd,
    Run ⟨awaitingOne, [], []⟩ s ∧ Run s s' ∧
      s'.tasks = [.finished .success, .read "k" (.asking 0 [.atAddress "a" 1]),
        .finished (.ofFault .generic)] ∧
      s'.coordinator.ring = s.coordinator.ring ∧
      s.coordinator.cohort "k" = [.atAddress "a" 1] ∧
      ∀ t ∈ s'.tasks, t.KeepsTo s.coordinator.cohort := by
  let c : Coordinator := { awaitingOne with ring := ⟨1, [.atAddress "a" 1]⟩ }
  have hregister : (Task.register "a" 1).advance awaitingOne = (c, .finished .success, none) := rfl
  have hlookup : (Task.read "k" .lookup).advance c = (c, .read "k" .admission, none) := by
    rw [Task.advance, advance_miss (by decide) (by decide)]
  have hadmission : (Task.read "k" .admission).advance c = (c, .read "k" .noting, none) := rfl
  have hnoting : (Task.read "k" .noting).advance c = (c, .read "k" (.routing 0), none) := rfl
  have hrefused : (Task.register "b" 2).advance c = (c, .finished (.ofFault .generic), none) := rfl
  have hcohort : c.cohort "k" = [.atAddress "a" 1] := rfl
  have hrouting : (Task.read "k" (.routing 0)).advance c =
      (c, .read "k" (.asking 0 [.atAddress "a" 1]), none) := by rw [← hcohort]; rfl
  have hregistered : Run ⟨awaitingOne, [], []⟩ ⟨c, [.finished .success], []⟩ :=
    .head (.request "" (.register "a" 1))
      (.single (.of_advance (i := 0) c (.register "a" 1) (.finished .success) rfl rfl hregister))
  have hrun : Run ⟨awaitingOne, [], []⟩ ⟨c, [.finished .success, .read "k" .noting], []⟩ := by
    refine hregistered.trans (.head (.request "" (.get "k")) ?_)
    refine .head
      (.of_advance (i := 1) c (.read "k" .lookup) (.read "k" .admission) rfl rfl hlookup) ?_
    exact .single
      (.of_advance (i := 1) c (.read "k" .admission) (.read "k" .noting) rfl rfl hadmission)
  have hlater : Run ⟨c, [.finished .success, .read "k" .noting], []⟩
      ⟨c, [.finished .success, .read "k" (.asking 0 [.atAddress "a" 1]),
        .finished (.ofFault .generic)], []⟩ := by
    refine .head (.request "" (.register "b" 2)) ?_
    refine .head
      (.of_advance (i := 2) c (.register "b" 2) (.finished (.ofFault .generic)) rfl rfl hrefused) ?_
    refine .head
      (.of_advance (i := 1) c (.read "k" .noting) (.read "k" (.routing 0)) rfl rfl hnoting) ?_
    exact .single (.of_advance (i := 1) c (.read "k" (.routing 0)) _ rfl rfl hrouting)
  obtain ⟨-, hserved⟩ := membership_lasts.2 awaitingOne.settings awaitingOne _ rfl hrun
  obtain ⟨-, hlasts⟩ := hserved ⟨.read "k" .noting, by simp, rfl⟩
  obtain ⟨hring, -, hkeeps⟩ := hlasts _ hlater
  exact ⟨_, _, hrun, hlater, rfl, hring, hcohort, hkeeps⟩

end Crowd

end Coordinator

end RingStore
