import RingStore.Ring
import Mathlib.Data.List.Nodup

/-!
# Who holds a key

The members of a ring stand in the order of their ids, no id twice, and every way to put a member on
the ring keeps that order. The cohort of a key then is a piece of the ring: the members from the
key's digest on, then those before it, as many of them as there are to be copies.
-/

namespace RingStore

namespace Ring

variable {r r' : Ring} {m : Member} {before after : List Member} {key : String} {count : Nat}

/-- The members stand in the order of their ids. -/
def Ordered (r : Ring) : Prop := r.members.Pairwise fun m m' => m.id < m'.id

theorem Ordered.insert (h : r.Ordered) (hinsert : r.insert m = .ok r') : r'.Ordered := by
  unfold Ring.insert at hinsert
  split at hinsert
  · obtain rfl := Except.ok.inj hinsert
    exact h
  · split at hinsert
    · cases hinsert
    · obtain rfl := Except.ok.inj hinsert
      have hlow : ∀ x ∈ r.members.filter (·.id < m.id), x.id < m.id := by simp
      have hhigh : ∀ y ∈ r.members.filter (m.id < ·.id), m.id < y.id := by simp
      refine List.pairwise_append.2 ⟨h.filter _, List.pairwise_cons.2 ⟨hhigh, h.filter _⟩, ?_⟩
      intro x hx y hy
      have hxm := hlow x hx
      rcases List.mem_cons.1 hy with rfl | hy
      · exact hxm
      · exact Int.lt_trans hxm (hhigh y hy)

/-- A ring that members were put on one after the other. -/
inductive Built (capacity : Nat) : Ring → Prop
  | create : Built capacity (create capacity)
  | insert {r r' : Ring} {m : Member} (h : Built capacity r) (hinsert : r.insert m = .ok r') :
    Built capacity r'

theorem Built.ordered {capacity : Nat} (h : r.Built capacity) : r.Ordered := by
  induction h with
  | create => exact List.Pairwise.nil
  | insert h hinsert ih => exact ih.insert hinsert

theorem capacity_insert (hinsert : r.insert m = .ok r') : r'.capacity = r.capacity := by
  unfold Ring.insert at hinsert
  split at hinsert
  · rw [← Except.ok.inj hinsert]
  · split at hinsert
    · cases hinsert
    · rw [← Except.ok.inj hinsert]

theorem Built.capacity_eq {capacity : Nat} (h : r.Built capacity) : r.capacity = capacity := by
  induction h with
  | create => rfl
  | insert h hinsert ih => rw [capacity_insert hinsert, ih]

/-- A member whose id is beyond all others comes last. -/
theorem insert_last (hroom : r.size < r.capacity) (hlast : ∀ x ∈ r.members, x.id < m.id) :
    r.insert m = .ok { r with members := r.members ++ [m] } := by
  have hnew : r.members.any (·.id == m.id) = false := by
    refine List.any_eq_false.2 fun x hx => ?_
    have hlt := hlast x hx
    simp only [beq_iff_eq]
    omega
  have hlow : r.members.filter (·.id < m.id) = r.members :=
    List.filter_eq_self.2 fun x hx => decide_eq_true (hlast x hx)
  have hhigh : r.members.filter (m.id < ·.id) = [] := by
    refine List.filter_eq_nil_iff.2 fun x hx => ?_
    have hlt := hlast x hx
    simp only [decide_eq_true_eq]
    omega
  rw [Ring.insert, hnew, if_neg Bool.false_ne_true, if_neg (by omega), hlow, hhigh]

/-- A ring of any capacity can be filled. -/
theorem exists_built_full (capacity : Nat) : ∃ r : Ring, r.Built capacity ∧ r.isFull = true := by
  have hfill : ∀ n ≤ capacity, ∃ r : Ring, r.Built capacity ∧ r.size = n ∧
      ∀ x ∈ r.members, x.id < n := by
    intro n hn
    induction n with
    | zero => exact ⟨_, .create, rfl, by simp [Ring.create]⟩
    | succ n ih =>
      obtain ⟨r, hbuilt, hsize, hids⟩ := ih (by omega)
      have hroom : r.size < r.capacity := by
        rw [hbuilt.capacity_eq]
        omega
      have hinsert := insert_last (m := ⟨n, "", 0⟩) hroom hids
      refine ⟨_, hbuilt.insert hinsert, by simp [size, ← hsize], fun x hx => ?_⟩
      rcases List.mem_append.1 hx with hx | hx
      · have hlt := hids x hx
        push_cast
        omega
      · obtain rfl := List.mem_singleton.1 hx
        push_cast
        omega
  obtain ⟨r, hbuilt, hsize, -⟩ := hfill capacity (Nat.le_refl _)
  refine ⟨r, hbuilt, ?_⟩
  rw [isFull, hsize, hbuilt.capacity_eq, beq_self_eq_true]

theorem Ordered.nodup (h : r.Ordered) : r.members.Nodup :=
  h.imp fun hlt heq => by
    subst heq
    exact absurd hlt (Int.lt_irrefl _)

/-- The members after an id are all that follow it in the list. -/
theorem Ordered.successor? (h : r.Ordered) (hsplit : r.members = before ++ m :: after) :
    r.successor? m.id = (after ++ before).head?.or (some m) := by
  unfold Ordered at h
  rw [hsplit, List.pairwise_append, List.pairwise_cons] at h
  obtain ⟨-, ⟨hafter, -⟩, hbefore⟩ := h
  have hskip : before.find? (fun x => decide (m.id < x.id)) = none := by
    refine List.find?_eq_none.2 fun x hx => ?_
    have hlt := hbefore x hx m List.mem_cons_self
    simp only [decide_eq_true_eq]
    omega
  unfold Ring.successor? firstFrom
  rw [hsplit, List.find?_append, hskip, Option.none_or]
  cases after with
  | nil => cases before <;> simp
  | cons y after =>
    have hlt := hafter y List.mem_cons_self
    simp [hlt]

/-- From a member on, the ring is walked round. -/
theorem Ordered.arc (h : r.Ordered) (hsplit : r.members = before ++ m :: after)
    (hcount : count ≤ r.size) :
    r.arc count (some m) = (m :: after ++ before).take count := by
  induction count generalizing before m after with
  | zero => rfl
  | succ count ih =>
    rw [Ring.arc, h.successor? hsplit, List.cons_append, List.take_succ_cons]
    congr 1
    have hlength : count ≤ (after ++ before).length := by
      have hsize : r.size = (before ++ m :: after).length := congrArg List.length hsplit
      simp only [List.length_append, List.length_cons] at hsize ⊢
      omega
    cases after with
    | cons y after =>
      have hnext : r.members = (before ++ [m]) ++ y :: after := by simp [hsplit]
      rw [List.cons_append, List.head?_cons, Option.some_or, ih hnext (by omega),
        ← List.append_assoc, List.take_append_of_le_length hlength]
      rfl
    | nil =>
      cases before with
      | nil =>
        -- there is only one member, and it has been taken
        obtain rfl : count = 0 := by simpa using hlength
        rfl
      | cons y before =>
        have hnext : r.members = [] ++ y :: (before ++ [m]) := by simpa using hsplit
        rw [List.nil_append, List.head?_cons, Option.some_or, ih hnext (by omega), List.append_nil]
        exact List.take_append_of_le_length hlength

/-- Where the digest of a key cuts the ring. -/
theorem Ordered.split (h : r.Ordered) (d : Int) :
    r.members = r.members.filter (·.id < d) ++ r.members.filter (d ≤ ·.id) := by
  unfold Ordered at h
  generalize r.members = members at h
  induction members with
  | nil => rfl
  | cons x l ih =>
    obtain ⟨hx, hl⟩ := List.pairwise_cons.1 h
    by_cases hd : x.id < d
    · have hnot : ¬ d ≤ x.id := by omega
      simpa [hd, hnot] using ih hl
    · have hle : d ≤ x.id := by omega
      have hnone : l.filter (·.id < d) = [] := by
        refine List.filter_eq_nil_iff.2 fun y hy => ?_
        have hlt := hx y hy
        simp only [decide_eq_true_eq]
        omega
      have hall : l.filter (d ≤ ·.id) = l := by
        refine List.filter_eq_self.2 fun y hy => ?_
        have hlt := hx y hy
        simp only [decide_eq_true_eq]
        omega
      simp [hd, hle, hnone, hall]

/-- The members in ring order, beginning at a place on the ring. -/
def walk (r : Ring) (place : Int) : List Member :=
  r.members.filter (place ≤ ·.id) ++ r.members.filter (·.id < place)

theorem Ordered.walk_perm (h : r.Ordered) (place : Int) : (r.walk place).Perm r.members :=
  List.perm_append_comm.trans (.of_eq (h.split place).symm)

theorem Ordered.head?_walk (h : r.Ordered) (place : Int) :
    (r.walk place).head? = r.firstFrom (place ≤ ·) := by
  have hsplit := h.split place
  rw [walk, firstFrom, ← List.head?_filter, List.head?_append]
  -- if nobody stands at the place or after it, those before it are all the members
  cases hfrom : r.members.filter (place ≤ ·.id) with
  | cons m after => rfl
  | nil =>
    rw [hfrom, List.append_nil] at hsplit
    rw [← hsplit]

/-- From the first member on, the arc is the walk that begins there. -/
theorem Ordered.arc_walk (h : r.Ordered) (place : Int) (hcount : count ≤ r.size) :
    r.arc count (r.walk place).head? = (r.walk place).take count := by
  have hsplit := h.split place
  cases hfrom : r.members.filter (place ≤ ·.id) with
  | cons m after =>
    rw [hfrom] at hsplit
    rw [walk, hfrom]
    exact h.arc hsplit hcount
  | nil =>
    rw [hfrom, List.append_nil] at hsplit
    rw [walk, hfrom, List.nil_append, ← hsplit]
    cases hmembers : r.members with
    | nil =>
      have hzero : r.size = 0 := congrArg List.length hmembers
      obtain rfl : count = 0 := by omega
      rfl
    | cons m after =>
      have hfirst : r.members = [] ++ m :: after := hmembers
      rw [List.head?_cons, h.arc hfirst hcount, List.append_nil]

/-- A key is held by the members from its digest on, as many as there are to be copies. -/
theorem Ordered.cohort_eq_take (h : r.Ordered) (key : String) (count : Nat) :
    r.cohort key count = (r.walk (digest key).toInt).take count := by
  have hlength : (r.walk (digest key).toInt).length = r.size := (h.walk_perm _).length_eq
  have howner : r.owner? key = (r.walk (digest key).toInt).head? := (h.head?_walk _).symm
  rw [cohort, howner, h.arc_walk _ (Nat.min_le_right _ _), ← hlength, ← List.take_take,
    List.take_length]

theorem Ordered.nodup_cohort (h : r.Ordered) (key : String) (count : Nat) :
    (r.cohort key count).Nodup := by
  rw [h.cohort_eq_take]
  exact ((h.walk_perm _).nodup_iff.2 h.nodup).sublist (List.take_sublist _ _)

/-! ## Nobody holds a key without copies -/

theorem cohort_zero (r : Ring) (key : String) : r.cohort key 0 = [] := by
  rw [cohort, Nat.zero_min, arc]

theorem cohort_ne_nil (hsize : r.size ≠ 0) (hcount : count ≠ 0) (key : String) :
    r.cohort key count ≠ [] := by
  obtain ⟨n, hn⟩ : ∃ n, min count r.size = n + 1 := Nat.exists_eq_succ_of_ne_zero (by omega)
  obtain ⟨m, hm⟩ : ∃ m, r.owner? key = some m := by
    refine Option.isSome_iff_exists.1 ?_
    have hhead : r.members.head?.isSome := by
      cases hmembers : r.members with
      | nil => exact absurd (congrArg List.length hmembers) hsize
      | cons m after => rfl
    rw [owner?, firstFrom, Option.isSome_or, hhead, Bool.or_true]
  rw [cohort, hn, hm, arc]
  exact List.cons_ne_nil _ _

end Ring

end RingStore
