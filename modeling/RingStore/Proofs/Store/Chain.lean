import RingStore.Store
import RingStore.Proofs.Disk.Entry
import RingStore.Proofs.Wire.RoundTrip
import Mathlib.Logic.Function.Basic
import Std.Data.String.ToNat

/-!
# Chains of slots

The slots of a bucket form a chain: the first ones are taken, without a gap, and no key is in two of
them. Together the chains hold the contents of a store, a value for each key that has one. Putting a
pair into the slot of its key or into the first free one changes the contents at this key only
(`Chain.put`), and so does moving the last pair into the slot of a key that goes (`Chain.delete`).
-/

namespace RingStore

open Disk Disk.Attempt

namespace Store

/-- The value of each key that has one. -/
abbrev Contents := String → Option String

/-- The slots of a bucket hold the contents of a store at the bucket's keys: the first `length`
slots are taken, each by a key of its own. -/
structure Chain (s : Store) (M : Contents) (bucket : Nat) (slots : Nat → Option StoredPair)
    (length : Nat) : Prop where
  taken : ∀ i, (slots i).isSome ↔ i < length
  placed : ∀ i e, slots i = some e → s.bucketOf e.key = bucket
  sound : ∀ i e, slots i = some e → M e.key = some e.value
  complete : ∀ k v, s.bucketOf k = bucket → M k = some v → ∃ i, slots i = some ⟨k, v⟩
  single : ∀ i j e e', slots i = some e → slots j = some e' → e.key = e'.key → i = j

namespace Chain

variable {s : Store} {M : Contents} {bucket n i : Nat} {slots : Nat → Option StoredPair}
  {e : StoredPair} {key value : String}

theorem lt_of_eq_some (h : Chain s M bucket slots n) (hi : slots i = some e) : i < n := by
  rw [← h.taken, hi]
  rfl

/-- A key without a value is in no slot. -/
theorem ne_key_of_none (h : Chain s M bucket slots n) (hM : M key = none) (hi : slots i = some e) :
    e.key ≠ key := by
  rintro rfl
  rw [h.sound i e hi] at hM
  exact absurd hM (by simp)

/-- The chain of another bucket does not see a key's change. -/
theorem update (h : Chain s M bucket slots n) (hkey : s.bucketOf key ≠ bucket)
    (v? : Option String) :
    Chain s (Function.update M key v?) bucket slots n where
  taken := h.taken
  placed := h.placed
  sound := by
    intro i e hi
    rw [Function.update_of_ne, h.sound i e hi]
    rintro rfl
    exact hkey (h.placed i e hi)
  complete := by
    intro k v hk hM
    have hkk : k ≠ key := by
      rintro rfl
      exact hkey hk
    rw [Function.update_of_ne hkk] at hM
    exact h.complete k v hk hM
  single := h.single

/-- The slot at which a pair is put: that of its key, or the first free one. -/
def Fits (slots : Nat → Option StoredPair) (n : Nat) (key : String) (i : Nat) : Prop :=
  (∃ e, slots i = some e ∧ e.key = key) ∨ (i = n ∧ ∀ j e, slots j = some e → e.key ≠ key)

theorem Fits.le (h : Chain s M bucket slots n) (hfits : Fits slots n key i) : i ≤ n := by
  rcases hfits with ⟨e, he, -⟩ | ⟨rfl, -⟩
  · exact Nat.le_of_lt (h.lt_of_eq_some he)
  · exact Nat.le_refl i

/-- No other slot has the key. -/
theorem Fits.eq_of_key (h : Chain s M bucket slots n) (hfits : Fits slots n key i) {j : Nat}
    (hj : slots j = some e) (hkey : e.key = key) : j = i := by
  rcases hfits with ⟨e', he', hkey'⟩ | ⟨-, hfree⟩
  · exact h.single j i e e' hj he' (by rw [hkey, hkey'])
  · exact absurd hkey (hfree j e hj)

theorem put (h : Chain s M bucket slots n) (hkey : s.bucketOf key = bucket)
    (hfits : Fits slots n key i) :
    Chain s (Function.update M key (some value)) bucket
      (Function.update slots i (some ⟨key, value⟩)) (max n (i + 1)) where
  taken := by
    intro j
    have hle := hfits.le h
    by_cases hj : j = i
    · subst hj
      simp only [Function.update_self, Option.isSome_some, true_iff]
      omega
    · rw [Function.update_of_ne hj, h.taken]
      omega
  placed := by
    intro j e hj
    by_cases hji : j = i
    · subst hji
      rw [Function.update_self, Option.some.injEq] at hj
      rw [← hj, hkey]
    · rw [Function.update_of_ne hji] at hj
      exact h.placed j e hj
  sound := by
    intro j e hj
    by_cases hji : j = i
    · subst hji
      rw [Function.update_self, Option.some.injEq] at hj
      rw [← hj, Function.update_self]
    · rw [Function.update_of_ne hji] at hj
      rw [Function.update_of_ne fun heq => hji (hfits.eq_of_key h hj heq), h.sound j e hj]
  complete := by
    intro k v hk hM
    by_cases hkk : k = key
    · subst hkk
      rw [Function.update_self, Option.some.injEq] at hM
      exact ⟨i, by rw [Function.update_self, hM]⟩
    · rw [Function.update_of_ne hkk] at hM
      obtain ⟨j, hj⟩ := h.complete k v hk hM
      refine ⟨j, ?_⟩
      rw [Function.update_of_ne, hj]
      rintro rfl
      rcases hfits with ⟨e, he, hekey⟩ | ⟨rfl, -⟩
      · rw [hj, Option.some.injEq] at he
        exact hkk (by rw [← hekey, ← he])
      · exact absurd (h.lt_of_eq_some hj) (by omega)
  single := by
    have hother : ∀ j e, j ≠ i → Function.update slots i (some ⟨key, value⟩) j = some e →
        slots j = some e ∧ e.key ≠ key := by
      intro j e hji hj
      rw [Function.update_of_ne hji] at hj
      exact ⟨hj, fun heq => hji (hfits.eq_of_key h hj heq)⟩
    intro j j' e e' hj hj' heq
    by_cases hji : j = i
    · by_cases hji' : j' = i
      · rw [hji, hji']
      · rw [hji, Function.update_self, Option.some.injEq] at hj
        exact absurd (by rw [← heq, ← hj]) (hother j' e' hji' hj').2
    · by_cases hji' : j' = i
      · rw [hji', Function.update_self, Option.some.injEq] at hj'
        exact absurd (by rw [heq, ← hj']) (hother j e hji hj).2
      · exact h.single j j' e e' (hother j e hji hj).1 (hother j' e' hji' hj').1 heq

/-- The slots after the last pair was moved into slot `i`. -/
def closed (slots : Nat → Option StoredPair) (last i : Nat) (j : Nat) : Option StoredPair :=
  if j = last then none else if j = i then slots last else slots j

/-- Every pair of the slots afterwards was in a slot before, and another one than slot `i`. -/
theorem of_closed {last j : Nat} (hj : closed slots last i j = some e) :
    ∃ j', slots j' = some e ∧ j' ≠ i ∧ ((j = i ∧ j' = last) ∨ (j ≠ i ∧ j' = j)) := by
  unfold closed at hj
  split at hj
  · exact absurd hj (by simp)
  · rename_i hlast
    split at hj
    · rename_i hji
      exact ⟨last, hj, by omega, .inl ⟨hji, rfl⟩⟩
    · rename_i hji
      exact ⟨j, hj, hji, .inr ⟨hji, rfl⟩⟩

theorem delete (h : Chain s M bucket slots n) (hi : slots i = some e) (hkey : e.key = key) :
    Chain s (Function.update M key none) bucket (closed slots (n - 1) i) (n - 1) where
  taken := by
    have hlt := h.lt_of_eq_some hi
    intro j
    unfold closed
    split
    · simp
      omega
    · split
      · rw [h.taken]
        omega
      · rw [h.taken]
        omega
  placed := by
    intro j e' hj
    obtain ⟨j', hj', -⟩ := of_closed hj
    exact h.placed j' e' hj'
  sound := by
    intro j e' hj
    obtain ⟨j', hj', hne, -⟩ := of_closed hj
    rw [Function.update_of_ne, h.sound j' e' hj']
    intro heq
    exact hne (h.single j' i e' e hj' hi (by rw [heq, hkey]))
  complete := by
    have hlt := h.lt_of_eq_some hi
    intro k v hk hM
    have hkk : k ≠ key := by
      rintro rfl
      rw [Function.update_self] at hM
      exact absurd hM (by simp)
    rw [Function.update_of_ne hkk] at hM
    obtain ⟨j, hj⟩ := h.complete k v hk hM
    have hji : j ≠ i := by
      rintro rfl
      rw [hj, Option.some.injEq] at hi
      exact hkk (by rw [← hkey, ← hi])
    have hjlt := h.lt_of_eq_some hj
    by_cases hlast : j = n - 1
    · exact ⟨i, by rw [closed, if_neg (by omega), if_pos rfl, ← hlast, hj]⟩
    · exact ⟨j, by rw [closed, if_neg hlast, if_neg hji, hj]⟩
  single := by
    intro j j' a a' hj hj' heq
    obtain ⟨k, hk, hne, hcase⟩ := of_closed hj
    obtain ⟨k', hk', hne', hcase'⟩ := of_closed hj'
    have hkk := h.single k k' a a' hk hk' heq
    have hlast : closed slots (n - 1) i (n - 1) = none := by rw [closed, if_pos rfl]
    have hjlast : j ≠ n - 1 := by
      rintro rfl
      rw [hlast] at hj
      exact absurd hj (by simp)
    have hjlast' : j' ≠ n - 1 := by
      rintro rfl
      rw [hlast] at hj'
      exact absurd hj' (by simp)
    omega

end Chain

end Store

end RingStore
