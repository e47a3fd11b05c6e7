import RingStore.Proofs.Ring.Membership
import RingStore.Proofs.Coordinator.Copies
import Mathlib.Data.List.Chain
import Mathlib.Data.List.Rotate

/-!
# The arc of a key

A part of the ring is led by the member with the least id in it, or with the least id of all if
nobody stands there. The owner of a key leads the ids from its digest on, the one who follows a
member leads the ids above its own, and the cohort of a key begins with its owner and goes from each
member to the one that follows it. Who goes on like this meets every member once and then comes
back.
-/

namespace RingStore

namespace Ring

variable {r : Ring} {m x : Member} {before after : List Member} {count capacity : Nat}
  {test : Int → Prop}

/-! ## Who leads a part of the ring -/

/-- A member with the least id of those that pass the test, or of all if none passes it. -/
def Leads (r : Ring) (test : Int → Prop) (m : Member) : Prop :=
  m ∈ r.members ∧
    ((test m.id ∧ ∀ x ∈ r.members, test x.id → m.id ≤ x.id) ∨
      ((∀ x ∈ r.members, ¬ test x.id) ∧ ∀ x ∈ r.members, m.id ≤ x.id))

/-- Only one member leads. -/
theorem Leads.unique (hr : r.Ordered) (hm : r.Leads test m) (hx : r.Leads test x) : m = x := by
  refine hr.eq_of_id hm.1 hx.1 ?_
  obtain ⟨hmem, hmleast⟩ := hm
  obtain ⟨hxmem, hxleast⟩ := hx
  rcases hmleast with ⟨hmtest, hmleast⟩ | ⟨hnone, hmleast⟩
  · rcases hxleast with ⟨hxtest, hxleast⟩ | ⟨hnone, -⟩
    · have hle := hmleast x hxmem hxtest
      have hge := hxleast m hmem hmtest
      omega
    · exact absurd hmtest (hnone m hmem)
  · rcases hxleast with ⟨hxtest, -⟩ | ⟨-, hxleast⟩
    · exact absurd hxtest (hnone x hxmem)
    · have hle := hmleast x hxmem
      have hge := hxleast m hmem
      omega

/-- In the order of ids, nobody before a member has a greater id. -/
theorem Ordered.id_le (h : r.Ordered) (hsplit : r.members = before ++ m :: after)
    (hx : x ∈ m :: after) : m.id ≤ x.id := by
  unfold Ordered at h
  rw [hsplit, List.pairwise_append, List.pairwise_cons] at h
  rcases List.mem_cons.1 hx with rfl | hx
  · exact Int.le_refl _
  · exact Int.le_of_lt (h.2.1.1 x hx)

variable [DecidablePred test]

theorem Ordered.leads_of_firstFrom (h : r.Ordered) (hfirst : r.firstFrom (test ·) = some m) :
    r.Leads test m := by
  refine ⟨mem_of_firstFrom hfirst, ?_⟩
  rcases Option.or_eq_some_iff.1 hfirst with hfind | ⟨hnone, hhead⟩
  · obtain ⟨hpass, before, after, hsplit, hfail⟩ := List.find?_eq_some_iff_append.1 hfind
    refine .inl ⟨of_decide_eq_true hpass, fun x hx hxpass => ?_⟩
    rw [hsplit, List.mem_append] at hx
    rcases hx with hx | hx
    · have hnot := hfail x hx
      simp [hxpass] at hnot
    · exact h.id_le hsplit hx
  · obtain ⟨after, hsplit⟩ := List.head?_eq_some_iff.1 hhead
    refine .inr ⟨fun x hx => by simpa using List.find?_eq_none.1 hnone x hx, fun x hx => ?_⟩
    have hall : r.members = [] ++ m :: after := hsplit
    rw [hall] at hx
    exact h.id_le hall hx

/-- The first member from a place on, round the ring, is the one that leads. -/
theorem Ordered.firstFrom_eq_some_iff (h : r.Ordered) :
    r.firstFrom (test ·) = some m ↔ r.Leads test m := by
  refine ⟨h.leads_of_firstFrom, fun hm => ?_⟩
  obtain ⟨x, hx⟩ : ∃ x, r.firstFrom (test ·) = some x := by
    have hne : r.members ≠ [] := List.ne_nil_of_mem hm.1
    rw [← Option.isSome_iff_exists, firstFrom, Option.isSome_or, List.isSome_head?.2 hne,
      Bool.or_true]
  rw [hx, Option.some.injEq]
  exact (h.leads_of_firstFrom hx).unique h hm

/-! ## From one member to the next -/

theorem head?_arc (r : Ring) (first : Option Member) (hcount : count ≠ 0) :
    (r.arc count first).head? = first := by
  obtain ⟨n, rfl⟩ := Nat.exists_eq_succ_of_ne_zero hcount
  cases first <;> rfl

/-- An arc goes from each member to the one that follows it. -/
theorem isChain_arc (r : Ring) (count : Nat) (first : Option Member) :
    (r.arc count first).IsChain fun m m' => r.successor? m.id = some m' := by
  induction count generalizing first with
  | zero => exact .nil
  | succ count ih =>
    cases first with
    | none => exact .nil
    | some m =>
      refine List.isChain_cons.2 ⟨fun m' hm' => ?_, ih _⟩
      by_cases hcount : count = 0
      · simp [hcount, arc] at hm'
      · rwa [head?_arc r _ hcount] at hm'

theorem head?_cohort (key : String) (hcount : count ≠ 0) :
    (r.cohort key count).head? = r.owner? key := by
  by_cases hsize : r.size = 0
  · have hnil : r.members = [] := List.eq_nil_of_length_eq_zero hsize
    rw [cohort, hsize, Nat.min_zero, owner?, firstFrom, hnil]
    rfl
  · exact head?_arc r _ (by omega)

theorem Ordered.length_cohort (h : r.Ordered) (key : String) (count : Nat) :
    (r.cohort key count).length = min count r.size := by
  rw [h.cohort_eq_take, List.length_take, (h.walk_perm _).length_eq, size]

theorem Ordered.nodup_ids_cohort (h : r.Ordered) (key : String) (count : Nat) :
    ((r.cohort key count).map Member.id).Nodup := by
  rw [h.cohort_eq_take, List.map_take]
  have hall := ((h.walk_perm (digest key).toInt).map Member.id).nodup_iff.2 h.nodup_ids
  exact hall.sublist (List.take_sublist _ _)

/-! ## Round the ring -/

/-- The member that is `k` steps after a member. -/
def onward (r : Ring) : Nat → Member → Option Member
  | 0, m => some m
  | k + 1, m => (r.successor? m.id).bind (r.onward k)

/-- Each step on the ring turns it by one. -/
theorem Ordered.onward_eq (h : r.Ordered) (hsplit : r.members = before ++ m :: after) (k : Nat) :
    r.onward k m = ((m :: after ++ before).rotate k).head? := by
  induction k generalizing before m after with
  | zero => rw [List.rotate_zero]; rfl
  | succ k ih =>
    rw [onward, h.successor? hsplit, List.cons_append, List.rotate_cons_succ]
    cases after with
    | cons y after =>
      have hnext : r.members = (before ++ [m]) ++ y :: after := by simp [hsplit]
      rw [List.cons_append, List.head?_cons, Option.some_or, Option.bind_some, ih hnext]
      simp
    | nil =>
      cases before with
      | nil => simpa using ih hsplit
      | cons y before =>
        have hnext : r.members = [] ++ y :: (before ++ [m]) := by simpa using hsplit
        rw [List.nil_append, List.head?_cons, Option.some_or, Option.bind_some, ih hnext]
        simp

/-- From a member on, every member is met once, and the way leads back. -/
theorem Ordered.onward_round (h : r.Ordered) (hm : m ∈ r.members) :
    r.onward r.size m = some m ∧
      ∀ x ∈ r.members, ∃! k, k < r.size ∧ r.onward k m = some x := by
  obtain ⟨before, after, hsplit⟩ := List.append_of_mem hm
  have hperm : (m :: after ++ before).Perm r.members := by
    rw [hsplit]
    exact List.perm_append_comm
  have hlength : (m :: after ++ before).length = r.size := hperm.length_eq
  have hstep : ∀ k < r.size, r.onward k m = (m :: after ++ before)[k]? := fun k hk => by
    rw [h.onward_eq hsplit, List.head?_rotate (hlength ▸ hk)]
  constructor
  · rw [h.onward_eq hsplit, ← hlength, List.rotate_length]
    rfl
  · intro x hx
    obtain ⟨k, hk, hget⟩ := List.getElem_of_mem (hperm.mem_iff.2 hx)
    have hkx : (m :: after ++ before)[k]? = some x := by rw [List.getElem?_eq_getElem hk, hget]
    rw [hlength] at hk
    refine ⟨k, ⟨hk, by rw [hstep k hk, hkx]⟩, ?_⟩
    rintro j ⟨hj, hjx⟩
    rw [hstep j hj, ← hkx] at hjx
    exact (List.getElem?_inj (hlength ▸ hj) (hperm.nodup_iff.2 h.nodup)).1 hjx

/-- A list of members is the arc of the ring that begins with the owner of a key: `count` members,
or all of them if there are fewer. -/
structure IsArc (r : Ring) (key : String) (count : Nat) (cohort : List Member) : Prop where
  length : cohort.length = min count r.size
  distinct : (cohort.map Member.id).Nodup
  first : count ≠ 0 → cohort.head? = r.owner? key
  linked : cohort.IsChain fun m m' => r.successor? m.id = some m'

theorem Ordered.isArc_cohort (h : r.Ordered) (key : String) (count : Nat) :
    r.IsArc key count (r.cohort key count) where
  length := h.length_cohort key count
  distinct := h.nodup_ids_cohort key count
  first := head?_cohort key
  linked := isChain_arc r _ _

/-- What is sure of a ring, for every key and however many copies there are to be: the arc of the
key is found exactly if there can be room for that many. -/
structure Round (r : Ring) : Prop where
  cohort : ∀ key count,
    (∃ cohort, r.cohort? key count = some cohort ∧ r.IsArc key count cohort) ↔ count ≤ roomLimit
  owner : ∀ key m, r.owner? key = some m ↔ r.Leads (fun id => (digest key).toInt ≤ id) m
  successor : ∀ x m, r.successor? x = some m ↔ r.Leads (fun id => x < id) m
  tour : ∀ m ∈ r.members, r.onward r.size m = some m ∧
    ∀ x ∈ r.members, ∃! k, k < r.size ∧ r.onward k m = some x

theorem Ordered.round (h : r.Ordered) : r.Round where
  cohort key count := by
    constructor
    · rintro ⟨cohort, hcohort, -⟩
      exact (cohort?_eq_some_iff.1 hcohort).1
    · exact fun hroom => ⟨_, cohort?_eq_some_iff.2 ⟨hroom, rfl⟩, h.isArc_cohort key count⟩
  owner _ _ := h.firstFrom_eq_some_iff
  successor _ _ := h.firstFrom_eq_some_iff
  tour _ := h.onward_round

end Ring

namespace Coordinator

variable {r : Ring} {capacity : Nat}

/-- The cohort of a key is the arc of the ring that begins with its owner, found exactly if there
can be room for as many members as are asked for. On a full ring it has as many as settings want,
however setters made them. -/
theorem cohort_is_arc (h : r.Built capacity) :
    r.Round ∧ ∀ c : Coordinator, c.ring = r → c.settings.Built → c.settings.capacity = capacity →
      c.settings.redundancy ≤ c.settings.capacity ∧
        (r.isFull = true → ∀ key, (c.cohort key).length = c.settings.redundancy ∧
          (r.cohort? key c.settings.redundancy = some (c.cohort key) ↔
            c.settings.redundancy ≤ Ring.roomLimit)) := by
  refine ⟨h.ordered.round, ?_⟩
  rintro c rfl hsettings hcapacity
  have hle := hsettings.redundancy_le
  refine ⟨hle, fun hfull key => ⟨?_, ?_⟩⟩
  · have hsize := Ring.size_of_isFull hfull
    rw [h.capacity_eq, ← hcapacity] at hsize
    rw [cohort, h.ordered.length_cohort, hsize, Nat.min_eq_left hle]
  · rw [Ring.cohort?_eq_some_iff, cohort]
    exact and_iff_left rfl

/-- Three members: at the least id, at the digest of a key, and at the greatest id. -/
def threePlaces : Ring :=
  ⟨3, [⟨-9223372036854775808, "a", 1⟩, ⟨610258952914415519, "b", 2⟩, ⟨9223372036854775807, "c", 3⟩]⟩

theorem built_threePlaces : threePlaces.Built 3 := by
  have hfirst : Ring.Built 3 _ := Ring.Built.create.insert (m := ⟨9223372036854775807, "c", 3⟩) rfl
  have hsecond := hfirst.insert (m := ⟨-9223372036854775808, "a", 1⟩) rfl
  exact hsecond.insert (m := ⟨610258952914415519, "b", 2⟩) rfl

/-- A key whose digest is an id, and two copies of it. -/
theorem cohort_is_arc_of_three :
    threePlaces.Built 3 ∧ threePlaces.isFull = true ∧ threePlaces.Round ∧
      (digest "iamyourfather").toInt = 610258952914415519 ∧
      ∃ c : Coordinator, c.ring = threePlaces ∧ c.settings = .ofCapacity 3 2 ∧ c.settings.Built ∧
        (c.cohort "iamyourfather").map Member.host = ["b", "c"] ∧
        (c.cohort "iamyourfather").length = c.settings.redundancy ∧
        threePlaces.cohort? "iamyourfather" 2 = some (c.cohort "iamyourfather") := by
  have hround := cohort_is_arc built_threePlaces
  obtain ⟨cache, -⟩ := Cache.exists_create (show 0 < 4 by decide) (show 2 ≤ 4 by decide)
  let c : Coordinator := ⟨.ofCapacity 3 2, threePlaces, cache, false, 0⟩
  have hsettings : c.settings.Built := CoordinatorSettings.built_ofCapacity 3 2
  have hfull : threePlaces.isFull = true := rfl
  obtain ⟨hlength, hfound⟩ := (hround.2 c rfl hsettings rfl).2 hfull "iamyourfather"
  have hroom : 2 ≤ Ring.roomLimit := by decide
  refine ⟨built_threePlaces, hfull, hround.1, by decide +kernel, c, rfl, rfl, hsettings, ?_,
    hlength, hfound.2 hroom⟩
  change (threePlaces.cohort "iamyourfather" 2).map Member.host = _
  decide +kernel

/-- Three members are there to be found, and nobody is if so many are asked for that there can be no
room for them. -/
theorem nobody_found_of_three :
    threePlaces.Built 3 ∧ threePlaces.cohort? "iamyourfather" 9223372036854775807 = none ∧
      threePlaces.IsArc "iamyourfather" 9223372036854775807
        (threePlaces.cohort "iamyourfather" 9223372036854775807) ∧
      (threePlaces.cohort "iamyourfather" 9223372036854775807).map Member.host = ["b", "c", "a"] :=
  ⟨built_threePlaces, Ring.cohort?_eq_none_iff.2 (by decide),
    built_threePlaces.ordered.isArc_cohort _ _, by decide +kernel⟩

end Coordinator

end RingStore
