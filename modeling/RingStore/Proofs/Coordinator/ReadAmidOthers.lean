import RingStore.Proofs.Cache.LossyMap
import RingStore.Proofs.Coordinator.Asking
import RingStore.Proofs.Coordinator.Membership
import Mathlib.Data.Nat.Init

/-!
# A read amid others

Before each step of a read, others may do what they like to the coordinator: go on with tasks of
their own, use the cache, put members on the ring. From the moment that a read has found the ring
full, nothing of this changes which members it asks (`Course.GoesAsking.amid_asked`), and until it
has its answer the read itself leaves the coordinator alone. What it caches depends on the writes
that were carried out meanwhile.
-/

namespace RingStore

namespace Coordinator

/-! ## What others do -/

/-- What is done to the coordinator's state by others. -/
inductive Intervention
  /-- Another task moves on. -/
  | step (t : Task)
  /-- The cache is used. -/
  | cache (x : Cache.Call)
  /-- A member is to be put on the ring. -/
  | ring (call : Ring.Call)

namespace Intervention

def on (c : Coordinator) : Intervention → Coordinator
  | step t => (t.advance c).1
  | cache x => { c with cache := c.cache.perform x }
  | ring call => { c with ring := c.ring.after call }

/-- A write that was carried out is noted. -/
def Commits (i : Intervention) : Prop := ∃ op, i = step (.write op .settling)

end Intervention

/-- The state after one intervention and the next. -/
def afterAll (c : Coordinator) (l : List Intervention) : Coordinator := l.foldl Intervention.on c

variable {c c' : Coordinator} {i : Intervention} {l : List Intervention} {key : String} {t : Task}

theorem Fixed.trans {c'' : Coordinator} (h : Fixed c c') (h' : Fixed c' c'') : Fixed c c'' :=
  ⟨h'.settings.trans h.settings, fun hfull => (h'.ring (h.isFull hfull)).trans (h.ring hfull)⟩

/-- An intervention leaves the settings alone, and a ring that is full. -/
theorem fixed_on (c : Coordinator) (i : Intervention) : Fixed c (i.on c) := by
  cases i with
  | step t => exact t.advance_fixed c
  | cache x => exact .of_eq rfl rfl
  | ring call => exact ⟨rfl, fun hfull => (Ring.extends_after c.ring call).frozen hfull⟩

theorem fixed_afterAll (c : Coordinator) (l : List Intervention) : Fixed c (c.afterAll l) := by
  induction l generalizing c with
  | nil => exact .refl c
  | cons i l ih => exact (fixed_on c i).trans (ih _)

theorem ordered_on (hring : c.ring.Ordered) (i : Intervention) : (i.on c).ring.Ordered := by
  cases i with
  | step t =>
    obtain ⟨calls, hcalls⟩ := t.advance_ring c
    rw [Intervention.on, hcalls]
    exact hring.afterAll calls
  | cache x => exact hring
  | ring call => exact hring.after call

theorem ordered_afterAll (hring : c.ring.Ordered) (l : List Intervention) :
    (c.afterAll l).ring.Ordered := by
  induction l generalizing c with
  | nil => exact hring
  | cons i l ih => exact ih (ordered_on hring i)

/-- Only a write that is noted counts. -/
theorem epoch_advance (hnot : ∀ op, t ≠ .write op .settling) : (t.advance c).1.epoch = c.epoch := by
  by_cases ht : ∃ op stage, t = .write op stage
  · obtain ⟨op, stage, rfl⟩ := ht
    cases stage with
    | settling => exact absurd rfl (hnot op)
    | checking | entering =>
      simp only [Task.advance, Writing.advance]
      split <;> rfl
    | voting asked left unanimous => cases left <;> rfl
    | deciding commit left => cases left <;> cases commit <;> rfl
    | admission | routing | leaving r | finished r => rfl
  · obtain ⟨ring, cache, heq, -, -⟩ :=
      Task.advance_of_not_write c fun op stage heq => ht ⟨op, stage, heq⟩
    rw [heq]

/-- Without a commit the epoch stays. -/
theorem epoch_afterAll (hnone : ∀ i ∈ l, ¬ i.Commits) : (c.afterAll l).epoch = c.epoch := by
  induction l generalizing c with
  | nil => rfl
  | cons i l ih =>
    have hrest := ih (c := i.on c) fun j hj => hnone j (List.mem_cons_of_mem _ hj)
    refine hrest.trans ?_
    have hi := hnone i List.mem_cons_self
    cases i with
    | step t => exact epoch_advance fun op heq => hi ⟨op, congrArg _ heq⟩
    | cache x | ring call => rfl

/-! ## Tasks amid others -/

namespace Course

/-- A task after so many steps, with what others do before each of them. -/
def amid (script : Script) (others : Nat → List Intervention) (s : Course) : Nat → Course
  | 0 => s
  | k + 1 =>
    let s := amid script others s k
    next script { s with coordinator := s.coordinator.afterAll (others k) }

/-- The state that a task meets after so many steps, when others have done what they do. -/
def met (script : Script) (others : Nat → List Intervention) (s : Course) (k : Nat) : Coordinator :=
  (amid script others s k).coordinator.afterAll (others k)

variable {script : Script} {others : Nat → List Intervention} {s : Course} {k : Nat}
  {stage stage' : Reading} {h : List Moment} {epoch : UInt64} {x : Member}
  {left passed : List Member}

theorem amid_advance (hk : amid script others s k = ⟨c, .read key stage, h⟩)
    (hdemand : stage.demand key = .step)
    (hadvance : stage.advance (met script others s k) key = (c', stage')) :
    amid script others s (k + 1) = ⟨c', .read key stage', h⟩ := by
  rw [met, hk] at hadvance
  have htask : (Task.read key stage).demand = .step := hdemand
  rw [amid, hk]
  change next script ⟨c.afterAll (others k), .read key stage, h⟩ = _
  rw [next_advance htask rfl, Task.advance, hadvance]

theorem amid_contact (hk : amid script others s k = ⟨c, .read key (.asking epoch (x :: left)), h⟩)
    (hnew : attempts x (.get key) h = 0) :
    amid script others s (k + 1) =
      ⟨met script others s k,
        .read key ((Reading.asking epoch (x :: left)).contacted
          (.ofOutcome (script x (.get key) 0))),
        h ++ [.attempt x (.get key) (script x (.get key) 0)]⟩ := by
  rw [amid, met, hk]
  exact next_asking hnew

/-- If a step leaves the state alone, what others do then is all that happens to it. -/
theorem met_succ (hk : (amid script others s (k + 1)).coordinator = met script others s k) :
    met script others s (k + 1) = (met script others s k).afterAll (others (k + 1)) := by
  rw [met, hk]

/-- The steps before a moment left the state alone. -/
def QuietUntil (script : Script) (others : Nat → List Intervention) (s : Course) (n : Nat) : Prop :=
  ∀ k < n, (amid script others s (k + 1)).coordinator = met script others s k

theorem QuietUntil.fixed {n : Nat} (hquiet : QuietUntil script others s n) {j : Nat} (hjk : j ≤ k)
    (hk : k ≤ n) : Fixed (met script others s j) (met script others s k) := by
  induction k, hjk using Nat.le_induction with
  | base => exact .refl _
  | succ k hjk ih =>
    have hstep := fixed_afterAll (met script others s k) (others (k + 1))
    rw [← met_succ (hquiet k (by omega))] at hstep
    exact (ih (by omega)).trans hstep

/-- While no write is noted, the epoch stays. -/
theorem QuietUntil.epoch_eq {n : Nat} (hquiet : QuietUntil script others s n) {j : Nat}
    (hjn : j ≤ n) (hnone : ∀ k, j < k → k ≤ n → ∀ i ∈ others k, ¬ i.Commits) :
    (met script others s n).epoch = (met script others s j).epoch := by
  have hupto : ∀ k, j ≤ k → k ≤ n →
      (met script others s k).epoch = (met script others s j).epoch := by
    intro k hjk hk
    induction k, hjk using Nat.le_induction with
    | base => rfl
    | succ k hjk ih =>
      rw [met_succ (hquiet k (by omega)), epoch_afterAll (hnone (k + 1) (by omega) hk)]
      exact ih (by omega)
  exact hupto n hjn (Nat.le_refl n)

/-! ## Reads amid others -/

/-- The read is of a key that is neither too long nor cached, and found the ring full. -/
structure GoesAsking (script : Script) (others : Nat → List Intervention) (s : Course)
    (key : String) : Prop where
  fits : Text.size key ≤ maxKeyBytes
  miss : ((met script others s 0).cache.get key).1 = none
  full : (met script others s 1).ring.isFull = true

theorem amid_miss (hfits : Text.size key ≤ maxKeyBytes)
    (hmiss : ((met script others (.ofRead c key) 0).cache.get key).1 = none) :
    amid script others (.ofRead c key) 1 =
      ⟨met script others (.ofRead c key) 0, .read key .admission, []⟩ := by
  have hstart : amid script others (.ofRead c key) 0 = ⟨c, .read key .lookup, []⟩ := rfl
  exact amid_advance hstart rfl (advance_miss (checkKey_eq_ok.2 hfits) hmiss)

/-- The epoch is noted before the members are found. -/
theorem GoesAsking.routing (hgoes : GoesAsking script others (.ofRead c key) key) :
    amid script others (.ofRead c key) 2 =
        ⟨met script others (.ofRead c key) 1, .read key .noting, []⟩ ∧
      amid script others (.ofRead c key) 3 = ⟨met script others (.ofRead c key) 2,
        .read key (.routing (met script others (.ofRead c key) 2).epoch), []⟩ := by
  have hadmission : Reading.admission.advance (met script others (.ofRead c key) 1) key =
      (met script others (.ofRead c key) 1, .noting) := by
    rw [Reading.advance, if_pos hgoes.full]
  have htwo := amid_advance (amid_miss hgoes.fits hgoes.miss) rfl hadmission
  exact ⟨htwo, amid_advance htwo rfl rfl⟩

/-- Until it asks, a read leaves the coordinator as it met it. -/
theorem GoesAsking.quiet (hgoes : GoesAsking script others (.ofRead c key) key) :
    QuietUntil script others (.ofRead c key) 3 := by
  obtain ⟨htwo, hthree⟩ := hgoes.routing
  intro k hk
  obtain rfl | rfl | rfl : k = 0 ∨ k = 1 ∨ k = 2 := by omega
  · rw [amid_miss hgoes.fits hgoes.miss]
  · rw [htwo]
  · rw [hthree]

/-- The members are found that held the key when the ring was found full. -/
theorem GoesAsking.asking (hgoes : GoesAsking script others (.ofRead c key) key) :
    amid script others (.ofRead c key) 4 = ⟨met script others (.ofRead c key) 3,
      .read key (.asking (met script others (.ofRead c key) 2).epoch
        ((met script others (.ofRead c key) 1).cohort key)), []⟩ := by
  have hfixed := hgoes.quiet.fixed (show 1 ≤ 3 by decide) (Nat.le_refl 3)
  rw [← hfixed.cohort hgoes.full]
  exact amid_advance hgoes.routing.2 rfl rfl

/-- What is seen of asking members. -/
def asked (script : Script) (key : String) (l : List Member) : List Moment :=
  l.map fun y => .attempt y (.get key) (script y (.get key) 0)

theorem attempts_asked (hx : x ∉ passed) : attempts x (.get key) (asked script key passed) = 0 := by
  refine List.countP_eq_zero.2 fun e he => ?_
  obtain ⟨y, hy, rfl⟩ := List.mem_map.1 he
  have hne : y ≠ x := fun heq => hx (heq ▸ hy)
  simp [Moment.isOf, hne]

/-- As long as no member answers with a pair, the next one is asked. -/
theorem GoesAsking.amid_asked (hgoes : GoesAsking script others (.ofRead c key) key)
    (hnodup : (passed ++ left).Nodup)
    (hcohort : (met script others (.ofRead c key) 1).cohort key = passed ++ left)
    (hnone : ∀ y ∈ passed, pair? (script y (.get key) 0) = none) :
    amid script others (.ofRead c key) (passed.length + 4) =
      ⟨met script others (.ofRead c key) (passed.length + 3),
        .read key (.asking (met script others (.ofRead c key) 2).epoch left),
        asked script key passed⟩ := by
  induction passed using List.reverseRecOn generalizing left with
  | nil =>
    have hasking := hgoes.asking
    rw [hcohort] at hasking
    exact hasking
  | append_singleton passed x ih =>
    rw [List.append_assoc, List.singleton_append] at hnodup hcohort
    have hbefore := ih hnodup hcohort fun y hy => hnone y (List.mem_append_left _ hy)
    have hx : x ∉ passed := fun hmem =>
      (List.disjoint_of_nodup_append hnodup) hmem List.mem_cons_self
    have hcontact := amid_contact hbefore (attempts_asked hx)
    rw [contacted_of_no_pair (hnone x (by simp))] at hcontact
    rw [List.length_append, List.length_singleton, Nat.add_right_comm, Nat.add_right_comm _ 1 3,
      hcontact, asked, asked, List.map_append]
    rfl

theorem GoesAsking.quietUntil (hgoes : GoesAsking script others (.ofRead c key) key)
    (hnodup : (passed ++ left).Nodup)
    (hcohort : (met script others (.ofRead c key) 1).cohort key = passed ++ left)
    (hnone : ∀ y ∈ passed, pair? (script y (.get key) 0) = none) :
    QuietUntil script others (.ofRead c key) (passed.length + 4) := by
  intro k hk
  by_cases hearly : k < 3
  · exact hgoes.quiet k hearly
  · obtain ⟨j, rfl⟩ := Nat.exists_eq_add_of_le' (Nat.le_of_not_lt hearly)
    have hlength : (passed.take j).length = j := by
      rw [List.length_take]
      omega
    have hsplit : passed ++ left = passed.take j ++ (passed.drop j ++ left) := by
      rw [← List.append_assoc, List.take_append_drop]
    have hsome := hgoes.amid_asked (hsplit ▸ hnodup) (hcohort.trans hsplit) fun y hy =>
      hnone y (List.mem_of_mem_take hy)
    rw [hlength] at hsome
    rw [hsome]

/-! ## The whole read -/

theorem pair?_eq_none {outcome : Except Fault Response}
    (hnone : ∀ k value, outcome ≠ .ok (.value k value)) : pair? outcome = none := by
  cases outcome with
  | error f => rfl
  | ok r =>
    cases r with
    | value k value => exact absurd rfl (hnone k value)
    | report _ | voteCommit | voteAbort _ | ack => rfl

/-- The first member that answers with a pair is the last one that is asked. -/
theorem GoesAsking.amid_found (hgoes : GoesAsking script others (.ofRead c key) key)
    (hnodup : (passed ++ x :: left).Nodup)
    (hcohort : (met script others (.ofRead c key) 1).cohort key = passed ++ x :: left)
    (hnone : ∀ y ∈ passed, pair? (script y (.get key) 0) = none) {k' value : String}
    (hx : script x (.get key) 0 = .ok (.value k' value)) :
    amid script others (.ofRead c key) (passed.length + 5) =
      ⟨met script others (.ofRead c key) (passed.length + 4),
        .read key (.filling (met script others (.ofRead c key) 2).epoch k' value),
        asked script key (passed ++ [x])⟩ := by
  have hmem : x ∉ passed := fun hmem =>
    (List.disjoint_of_nodup_append hnodup) hmem List.mem_cons_self
  have hcontact := amid_contact (hgoes.amid_asked hnodup hcohort hnone) (attempts_asked hmem)
  have hpair : pair? (script x (.get key) 0) = some (k', value) := by rw [hx]; rfl
  rw [contacted_of_pair hpair] at hcontact
  rw [hcontact, asked, asked, List.map_append]
  rfl

/-- What becomes of a read, for every script and whatever others do. -/
structure ReadsRightly (script : Script) (others : Nat → List Intervention) (s : Course)
    (key : String) : Prop where
  tooLong : maxKeyBytes < Text.size key → amid script others s 1 =
    ⟨met script others s 0, .read key (.finished (.ofFault .keyTooLong)), []⟩
  cached : Text.size key ≤ maxKeyBytes →
    ∀ value, ((met script others s 0).cache.get key).1 = some value → amid script others s 1 =
      ⟨{ met script others s 0 with cache := ((met script others s 0).cache.get key).2 },
        .read key (.finished (.value key value)), []⟩
  unfilled : Text.size key ≤ maxKeyBytes → ((met script others s 0).cache.get key).1 = none →
    (met script others s 1).ring.isFull = false → QuietUntil script others s 2 ∧
      amid script others s 2 =
        ⟨met script others s 1, .read key (.finished (.ofFault .generic)), []⟩
  once : ((met script others s 1).cohort key).Nodup
  /-- A member answers with a pair, which is cached if the epoch is still the one that was noted. -/
  found : GoesAsking script others s key → ∀ before x after,
    (met script others s 1).cohort key = before ++ x :: after →
    (∀ y ∈ before, ∀ k v, script y (.get key) 0 ≠ .ok (.value k v)) →
    ∀ k v, script x (.get key) 0 = .ok (.value k v) →
      QuietUntil script others s (before.length + 5) ∧
      ((∀ j, 2 < j → j ≤ before.length + 5 → ∀ i ∈ others j, ¬ i.Commits) →
        (met script others s (before.length + 5)).epoch = (met script others s 2).epoch) ∧
      amid script others s (before.length + 6) =
        ⟨if (met script others s (before.length + 5)).epoch = (met script others s 2).epoch then
            { met script others s (before.length + 5) with
              cache := (met script others s (before.length + 5)).cache.put k v }
          else met script others s (before.length + 5),
          .read key (.finished (.value k v)), asked script key (before ++ [x])⟩
  /-- No member answers with a pair. -/
  missing : GoesAsking script others s key →
    (∀ y ∈ (met script others s 1).cohort key, ∀ k v, script y (.get key) 0 ≠ .ok (.value k v)) →
      QuietUntil script others s (((met script others s 1).cohort key).length + 5) ∧
      amid script others s (((met script others s 1).cohort key).length + 5) =
        ⟨met script others s (((met script others s 1).cohort key).length + 4),
          .read key (.finished (.ofFault .noSuchKey)),
          asked script key ((met script others s 1).cohort key)⟩

/-- No member is in the cohort twice, whatever happened before the read came to it. -/
theorem nodup_cohort_met (hring : c.ring.Ordered) (script : Script)
    (others : Nat → List Intervention) (key : String) :
    ((met script others (.ofRead c key) 1).cohort key).Nodup := by
  have hfirst : (met script others (.ofRead c key) 0).ring.Ordered := ordered_afterAll hring _
  have hstart : amid script others (.ofRead c key) 0 = ⟨c, .read key .lookup, []⟩ := rfl
  have hlookup := amid_advance hstart rfl rfl
  have hsecond : (met script others (.ofRead c key) 1).ring.Ordered := by
    have hsame := Reading.lookup.advance_ring (met script others (.ofRead c key) 0) key
    rw [met, hlookup]
    refine ordered_afterAll ?_ _
    change (Reading.lookup.advance (met script others (.ofRead c key) 0) key).1.ring.Ordered
    rwa [hsame]
  exact hsecond.nodup_cohort key _

/-- A read asks the members that hold the key in ring order, up to the first that answers with a
pair. -/
theorem read_asks (hring : c.ring.Ordered) (script : Script) (others : Nat → List Intervention)
    (key : String) : ReadsRightly script others (.ofRead c key) key where
  tooLong hlong := by
    have hstart : amid script others (.ofRead c key) 0 = ⟨c, .read key .lookup, []⟩ := rfl
    have hlookup : Reading.lookup.advance (met script others (.ofRead c key) 0) key =
        (met script others (.ofRead c key) 0, .finished (.ofFault .keyTooLong)) := by
      rw [Reading.advance, checkKey, if_pos hlong]
    exact amid_advance hstart rfl hlookup
  cached hfits value hhit := by
    have hstart : amid script others (.ofRead c key) 0 = ⟨c, .read key .lookup, []⟩ := rfl
    exact amid_advance hstart rfl (advance_hit (checkKey_eq_ok.2 hfits) hhit)
  unfilled hfits hmiss hroom := by
    have hadmission : Reading.admission.advance (met script others (.ofRead c key) 1) key =
        (met script others (.ofRead c key) 1, .finished (.ofFault .generic)) := by
      rw [Reading.advance, hroom, if_neg Bool.false_ne_true]
    have hone := amid_miss hfits hmiss
    have htwo := amid_advance hone rfl hadmission
    refine ⟨fun k hk => ?_, htwo⟩
    obtain rfl | rfl : k = 0 ∨ k = 1 := by omega
    · rw [hone]
    · rw [htwo]
  once := nodup_cohort_met hring script others key
  found hgoes before x after hcohort hbefore k v hx := by
    have hnodup := nodup_cohort_met hring script others key
    rw [hcohort] at hnodup
    have hnone : ∀ y ∈ before, pair? (script y (.get key) 0) = none := fun y hy =>
      pair?_eq_none (hbefore y hy)
    have hfound := hgoes.amid_found hnodup hcohort hnone hx
    have hquiet : QuietUntil script others (.ofRead c key) (before.length + 5) := by
      intro j hj
      by_cases hasking : j < before.length + 4
      · exact hgoes.quietUntil hnodup hcohort hnone j hasking
      · obtain rfl : j = before.length + 4 := by omega
        rw [hfound]
    refine ⟨hquiet, hquiet.epoch_eq (by omega), ?_⟩
    refine amid_advance hfound rfl ?_
    rw [Reading.advance]
  missing hgoes hall := by
    have hcohort : (met script others (.ofRead c key) 1).cohort key =
        (met script others (.ofRead c key) 1).cohort key ++ [] := (List.append_nil _).symm
    have hnodup := nodup_cohort_met hring script others key
    rw [hcohort] at hnodup
    have hnone : ∀ y ∈ (met script others (.ofRead c key) 1).cohort key,
        pair? (script y (.get key) 0) = none := fun y hy => pair?_eq_none (hall y hy)
    have hasked := hgoes.amid_asked hnodup hcohort hnone
    have hended := amid_advance hasked rfl rfl
    refine ⟨fun j hj => ?_, hended⟩
    by_cases hasking : j < ((met script others (.ofRead c key) 1).cohort key).length + 4
    · exact hgoes.quietUntil hnodup hcohort hnone j hasking
    · obtain rfl : j = ((met script others (.ofRead c key) 1).cohort key).length + 4 := by omega
      rw [hended]

/-- A coordinator with an empty cache and two members, which both hold every key. -/
def twoMembers : Coordinator :=
  ⟨.ofCapacity 2 2, ⟨2, [⟨0, "a", 1⟩, ⟨1, "b", 2⟩]⟩,
    ⟨1, Nat.one_pos, Vector.replicate 1 ⟨2, []⟩⟩, false, 0⟩

/-- The first member does not answer, and the second one does. -/
def secondAnswers : Script := fun x _ _ =>
  if x.id = 0 then .error .generic else .ok (.value "k" "1")

/-- The read goes on to the second member, while a write begins and the cache is cleared. -/
theorem read_asks_second :
    ∃ others : Nat → List Intervention,
      others 4 = [.step (.write (.put "z" "9") .entering), .cache .clear] ∧
      amid secondAnswers others (.ofRead twoMembers "k") 7 =
        ⟨{ met secondAnswers others (.ofRead twoMembers "k") 6 with
            cache := (met secondAnswers others (.ofRead twoMembers "k") 6).cache.put "k" "1" },
          .read "k" (.finished (.value "k" "1")),
          [.attempt ⟨0, "a", 1⟩ (.get "k") (.error .generic),
            .attempt ⟨1, "b", 2⟩ (.get "k") (.ok (.value "k" "1"))]⟩ := by
  let others : Nat → List Intervention := fun k =>
    if k = 4 then [.step (.write (.put "z" "9") .entering), .cache .clear] else []
  have hring : twoMembers.ring.Ordered := by simp [Ring.Ordered, twoMembers]
  have hreads := read_asks hring secondAnswers others "k"
  have hfits : Text.size "k" ≤ maxKeyBytes := by decide
  have hmiss : ((met secondAnswers others (.ofRead twoMembers "k") 0).cache.get "k").1 = none := by
    decide
  have hmet : met secondAnswers others (.ofRead twoMembers "k") 1 = twoMembers := by
    rw [met, amid_miss hfits hmiss]
    rfl
  have hgoes : GoesAsking secondAnswers others (.ofRead twoMembers "k") "k" :=
    ⟨hfits, hmiss, by rw [hmet]; rfl⟩
  have hcohort : twoMembers.cohort "k" = [⟨0, "a", 1⟩, ⟨1, "b", 2⟩] := by decide
  have hfound := hreads.found hgoes [⟨0, "a", 1⟩] ⟨1, "b", 2⟩ [] (by rw [hmet, hcohort]; rfl)
    (by simp [secondAnswers]) "k" "1" rfl
  obtain ⟨-, hepoch, hend⟩ := hfound
  have hnone : ∀ j, ∀ i ∈ others j, ¬ i.Commits := by
    intro j i hi
    by_cases hj : j = 4
    · subst hj
      have hcases : i = .step (.write (.put "z" "9") .entering) ∨ i = .cache .clear := by
        simpa [others] using hi
      rcases hcases with rfl | rfl <;> simp [Intervention.Commits]
    · simp [others, hj] at hi
  rw [if_pos (hepoch fun j _ _ => hnone j)] at hend
  exact ⟨others, rfl, hend⟩

end Course

end Coordinator

end RingStore
