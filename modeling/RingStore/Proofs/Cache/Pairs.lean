import RingStore.Cache
import Mathlib.Data.List.Nodup
import Mathlib.Tactic.Common

/-!
# What a cache holds

A cache holds pairs of keys and values, each in the set of its key. Putting a pair takes every other
pair of its key away and adds no pair but itself (`Cache.caches_put`), whatever is evicted for it;
erasing a key takes its pairs away (`Cache.caches_erase`), for no key is in a set twice
(`Cache.Distinct`). A cache that agrees with some contents therefore goes on to do so when it is
changed along with them. No pair ever stands in the set of another key (`Cache.Placed`).
-/

namespace RingStore

namespace ClockSet

variable {s : ClockSet} {key value : String} {p : String × String}

/-- The pairs of keys and values in a list of entries. -/
def pairsOf (entries : List CacheEntry) : List (String × String) :=
  entries.map fun e => (e.key, e.value)

/-- The pairs of a set. -/
def pairs (s : ClockSet) : List (String × String) := pairsOf s.entries

/-- No key is in the set twice. -/
def Distinct (s : ClockSet) : Prop := (s.pairs.map Prod.fst).Nodup

theorem mem_pairsOf {entries : List CacheEntry} :
    p ∈ pairsOf entries ↔ ∃ e ∈ entries, (e.key, e.value) = p := List.mem_map

/-- A value that is found is in the set. -/
theorem mem_pairs_of_lookup? (h : s.lookup? key = some value) : (key, value) ∈ s.pairs := by
  unfold lookup? at h
  obtain ⟨e, he, rfl⟩ := Option.map_eq_some_iff.1 h
  have hkey : e.key = key := by simpa using List.find?_some he
  exact mem_pairsOf.2 ⟨e, List.mem_of_find?_eq_some he, by rw [hkey]⟩

theorem distinct_of_sublist {l : List (String × String)} (h : s.pairs.Sublist l)
    (hl : (l.map Prod.fst).Nodup) : s.Distinct := (h.map Prod.fst).nodup hl

/-- Reading does not change what is in a set. -/
@[simp] theorem pairs_touch (s : ClockSet) (key : String) : (s.touch key).pairs = s.pairs := by
  unfold pairs pairsOf touch
  rw [List.map_map]
  apply List.map_congr_left
  intro e _
  simp only [Function.comp_apply]
  split <;> rfl

/-- Clearing a bit leaves the pairs as they are. -/
theorem pairsOf_set_unused {entries : List CacheEntry} {hand : Nat} {e : CacheEntry}
    (h : entries[hand]? = some e) :
    pairsOf (entries.set hand { e with used := false }) = pairsOf entries := by
  obtain ⟨hlt, rfl⟩ := List.getElem?_eq_some_iff.1 h
  unfold pairsOf
  rw [List.map_set]
  apply List.ext_getElem
  · simp
  · intro i hi hi'
    rw [List.getElem_set]
    split
    · rename_i heq
      subst heq
      simp
    · rfl

/-- The hand takes nothing but one entry away. -/
theorem pairsOf_sweep_sublist (entries : List CacheEntry) (hand : Nat) :
    (pairsOf (sweep entries hand)).Sublist (pairsOf entries) := by
  fun_induction sweep entries hand with
  | case1 entries hand h => exact List.Sublist.refl _
  | case2 entries hand e h hused ih => rwa [pairsOf_set_unused h] at ih
  | case3 entries hand e h hused => exact (List.eraseIdx_sublist entries hand).map _

/-- The pairs before the new one, if the key was not there. -/
theorem pairs_put_of_not_mem (h : s.entries.any (·.key == key) = false) (value : String) :
    ∃ l, l.Sublist s.pairs ∧ (s.put key value).pairs = l ++ [(key, value)] := by
  unfold put
  rw [h]
  simp only [Bool.false_eq_true, if_false]
  split
  · refine ⟨pairsOf (sweep s.entries 0), pairsOf_sweep_sublist _ _, ?_⟩
    simp [pairs, pairsOf, evict]
  · exact ⟨s.pairs, List.Sublist.refl _, by simp [pairs, pairsOf]⟩

/-- A key that is there gets its new value in its place. -/
theorem pairs_put_of_mem (h : s.entries.any (·.key == key) = true) :
    (s.put key value).pairs = s.pairs.map fun p => if p.1 = key then (key, value) else p := by
  unfold put
  rw [if_pos h]
  unfold pairs pairsOf
  rw [List.map_map, List.map_map]
  apply List.map_congr_left
  intro e _
  by_cases he : e.key = key
  · simp [he]
  · simp [he]

theorem ne_of_mem_pairs (h : s.entries.any (·.key == key) = false) (hp : p ∈ s.pairs) :
    p.1 ≠ key := by
  obtain ⟨e, he, rfl⟩ := mem_pairsOf.1 hp
  intro heq
  have hany : s.entries.any (·.key == key) = true := List.any_eq_true.2 ⟨e, he, by simpa using heq⟩
  rw [hany] at h
  exact absurd h (by simp)

/-- After a pair was put there is no other one of its key, and no new one but itself. -/
theorem mem_pairs_put (hp : p ∈ (s.put key value).pairs) :
    p = (key, value) ∨ (p.1 ≠ key ∧ p ∈ s.pairs) := by
  cases h : s.entries.any (·.key == key) with
  | true =>
    rw [pairs_put_of_mem h] at hp
    obtain ⟨p', hp', rfl⟩ := List.mem_map.1 hp
    by_cases hkey : p'.1 = key
    · exact .inl (if_pos hkey)
    · rw [if_neg hkey]
      exact .inr ⟨hkey, hp'⟩
  | false =>
    obtain ⟨l, hl, heq⟩ := pairs_put_of_not_mem h value
    rw [heq, List.mem_append, List.mem_singleton] at hp
    rcases hp with hp | rfl
    · have hmem := hl.subset hp
      exact .inr ⟨ne_of_mem_pairs h hmem, hmem⟩
    · exact .inl rfl

/-- What is put is in the set. -/
theorem mem_pairs_put_self (s : ClockSet) (key value : String) :
    (key, value) ∈ (s.put key value).pairs := by
  cases h : s.entries.any (·.key == key) with
  | true =>
    obtain ⟨e, he, hkey⟩ := List.any_eq_true.1 h
    rw [pairs_put_of_mem h]
    exact List.mem_map.2
      ⟨(e.key, e.value), mem_pairsOf.2 ⟨e, he, rfl⟩, if_pos (by simpa using hkey)⟩
  | false =>
    obtain ⟨l, -, heq⟩ := pairs_put_of_not_mem h value
    rw [heq]
    exact List.mem_append_right _ (List.mem_singleton.2 rfl)

/-- A put leaves no key twice. -/
theorem Distinct.put (hs : s.Distinct) (key value : String) : (s.put key value).Distinct := by
  unfold Distinct
  cases h : s.entries.any (·.key == key) with
  | true =>
    have hkeys : (s.pairs.map fun p => if p.1 = key then (key, value) else p).map Prod.fst =
        s.pairs.map Prod.fst := by
      rw [List.map_map]
      apply List.map_congr_left
      intro p _
      simp only [Function.comp_apply]
      split
      · rename_i hkey
        exact hkey.symm
      · rfl
    rw [pairs_put_of_mem h, hkeys]
    exact hs
  | false =>
    obtain ⟨l, hl, heq⟩ := pairs_put_of_not_mem h value
    rw [heq, List.map_append, List.map_singleton, List.nodup_append]
    refine ⟨(hl.map Prod.fst).nodup hs, List.nodup_singleton _, ?_⟩
    intro k hk k' hk' hkk
    obtain ⟨p, hp, rfl⟩ := List.mem_map.1 hk
    rw [List.mem_singleton.1 hk'] at hkk
    exact ne_of_mem_pairs h (hl.subset hp) hkk

theorem pairs_erase (s : ClockSet) (key : String) :
    (s.erase key).pairs = s.pairs.eraseP (·.1 == key) := by
  unfold pairs pairsOf erase
  rw [List.eraseP_map]
  rfl

/-- Nor does a removal. -/
theorem Distinct.erase (hs : s.Distinct) (key : String) : (s.erase key).Distinct := by
  apply distinct_of_sublist _ hs
  rw [pairs_erase]
  exact List.eraseP_sublist

/-- After a key was erased there is no pair of it, and no new one. -/
theorem mem_pairs_erase (hs : s.Distinct) (hp : p ∈ (s.erase key).pairs) :
    p.1 ≠ key ∧ p ∈ s.pairs := by
  rw [pairs_erase] at hp
  refine ⟨?_, List.mem_of_mem_eraseP hp⟩
  unfold Distinct at hs
  generalize s.pairs = l at hs hp
  induction l with
  | nil => simp at hp
  | cons p' l ih =>
    rw [List.map_cons, List.nodup_cons] at hs
    by_cases hkey : p'.1 = key
    · rw [List.eraseP_cons_of_pos (by simpa using hkey)] at hp
      intro heq
      exact hs.1 (List.mem_map.2 ⟨p, hp, by rw [heq, hkey]⟩)
    · rw [List.eraseP_cons_of_neg (by simpa using hkey)] at hp
      rcases List.mem_cons.1 hp with rfl | hp
      · exact hkey
      · exact ih hs.2 hp

end ClockSet

namespace Cache

variable {c : Cache} {key key' value w : String} {f : ClockSet → ClockSet}

/-- The pair is in the set of its key. -/
def Caches (c : Cache) (key value : String) : Prop := (key, value) ∈ (c.setOf key).pairs

/-- No key is in a set twice. -/
def Distinct (c : Cache) : Prop := ∀ i : Fin c.count, (c.sets[i]).Distinct

/-- A value that is read is in the cache. -/
theorem caches_of_get (h : (c.get key).1 = some value) : c.Caches key value :=
  ClockSet.mem_pairs_of_lookup? h

theorem get_sets_update (c : Cache) (key : String) (f : ClockSet → ClockSet) (i : Fin c.count) :
    (c.update key f).sets.get i =
      if i = c.indexOf key then f (c.setOf key) else c.sets.get i := by
  show (c.sets.set (c.indexOf key) (f (c.setOf key)))[i.val] = _
  rw [Vector.getElem_set]
  simp only [Fin.ext_iff, eq_comm]
  rfl

/-- A change of the set of a key shows for the keys of that set only. -/
theorem setOf_update (c : Cache) (key : String) (f : ClockSet → ClockSet) (key' : String) :
    (c.update key f).setOf key' =
      if c.indexOf key' = c.indexOf key then f (c.setOf key) else c.setOf key' :=
  get_sets_update c key f (c.indexOf key')

/-- A change of one set leaves no key twice if it does not there. -/
theorem Distinct.update (hc : c.Distinct)
    (hf : (c.setOf key).Distinct → (f (c.setOf key)).Distinct) :
    (c.update key f).Distinct := by
  intro (i : Fin c.count)
  show ((c.update key f).sets.get i).Distinct
  rw [get_sets_update]
  split
  · exact hf (hc _)
  · exact hc i

theorem Distinct.get (hc : c.Distinct) (key : String) : (c.get key).2.Distinct := by
  apply hc.update
  intro hs
  unfold ClockSet.Distinct
  rwa [ClockSet.pairs_touch]

theorem Distinct.put (hc : c.Distinct) (key value : String) : (c.put key value).Distinct :=
  hc.update fun hs => hs.put key value

theorem Distinct.erase (hc : c.Distinct) (key : String) : (c.erase key).Distinct :=
  hc.update fun hs => hs.erase key

theorem setOf_eq_of_indexOf_eq (h : c.indexOf key' = c.indexOf key) : c.setOf key' = c.setOf key :=
  congrArg (fun i => c.sets[i]) h

/-- Reading a key changes no pair. -/
theorem caches_get (h : (c.get key).2.Caches key' w) : c.Caches key' w := by
  unfold Caches get at h
  rw [setOf_update] at h
  split at h
  · rename_i hi
    rw [ClockSet.pairs_touch, ← setOf_eq_of_indexOf_eq hi] at h
    exact h
  · exact h

/-- A key that was put has its new value, and no other key has a new one. -/
theorem caches_put (h : (c.put key value).Caches key' w) :
    (key' = key ∧ w = value) ∨ (key' ≠ key ∧ c.Caches key' w) := by
  unfold Caches put at h
  rw [setOf_update] at h
  split at h
  · rename_i hi
    rcases ClockSet.mem_pairs_put h with heq | ⟨hne, hmem⟩
    · exact .inl (Prod.mk.inj heq)
    · rw [← setOf_eq_of_indexOf_eq hi] at hmem
      exact .inr ⟨hne, hmem⟩
  · rename_i hi
    exact .inr ⟨fun heq => hi (congrArg c.indexOf heq), h⟩

/-- What is put is in the cache. -/
theorem caches_put_self (c : Cache) (key value : String) : (c.put key value).Caches key value := by
  unfold Caches put
  rw [setOf_update, if_pos rfl]
  exact ClockSet.mem_pairs_put_self ..

/-- A key that was erased has no value, and no other key has a new one. -/
theorem caches_erase (hc : c.Distinct) (h : (c.erase key).Caches key' w) :
    key' ≠ key ∧ c.Caches key' w := by
  unfold Caches erase at h
  rw [setOf_update] at h
  split at h
  · rename_i hi
    have hset : (c.setOf key).Distinct := hc _
    obtain ⟨hne, hmem⟩ := ClockSet.mem_pairs_erase hset h
    rw [← setOf_eq_of_indexOf_eq hi] at hmem
    exact ⟨hne, hmem⟩
  · rename_i hi
    exact ⟨fun heq => hi (congrArg c.indexOf heq), h⟩

/-! ## Pairs in the set of their key -/

/-- Every pair is in the set of its key, where it is looked for. -/
def Placed (c : Cache) : Prop := ∀ (i : Fin c.count) p, p ∈ (c.sets[i]).pairs → c.indexOf p.1 = i

/-- What is in some set is in the cache. -/
theorem Placed.caches (hc : c.Placed) {i : Fin c.count} (h : (key, value) ∈ (c.sets[i]).pairs) :
    c.Caches key value := by
  obtain rfl : c.indexOf key = i := hc i (key, value) h
  exact h

/-- Every key stays in the set that it belongs to. -/
theorem Placed.update (hc : c.Placed)
    (hf : ∀ p ∈ (f (c.setOf key)).pairs, p.1 = key ∨ p ∈ (c.setOf key).pairs) :
    (c.update key f).Placed := by
  intro (i : Fin c.count) p hp
  replace hp : p ∈ ((c.update key f).sets.get i).pairs := hp
  show c.indexOf p.1 = i
  rw [get_sets_update] at hp
  split at hp
  · rename_i hi
    subst hi
    rcases hf p hp with hkey | hold
    · rw [hkey]
    · exact hc _ p hold
  · exact hc i p hp

theorem Placed.get (hc : c.Placed) (key : String) : (c.get key).2.Placed :=
  hc.update fun p hp => .inr (by rwa [ClockSet.pairs_touch] at hp)

theorem Placed.put (hc : c.Placed) (key value : String) : (c.put key value).Placed := by
  apply hc.update
  intro p hp
  rcases ClockSet.mem_pairs_put hp with rfl | ⟨-, hold⟩
  · exact .inl rfl
  · exact .inr hold

theorem Placed.erase (hc : c.Placed) (key : String) : (c.erase key).Placed := by
  apply hc.update
  intro p hp
  rw [ClockSet.pairs_erase] at hp
  exact .inr (List.mem_of_mem_eraseP hp)

/-! ## New caches -/

/-- A new cache has empty sets with that many slots each. -/
theorem eq_of_create {count slots : Nat} (h : create count slots = .ok c) :
    ∃ hcount : 0 < count, c = ⟨count, hcount, Vector.replicate count ⟨slots, []⟩⟩ := by
  unfold create at h
  split at h
  · rename_i hcount
    unfold ClockSet.create at h
    split at h
    · exact absurd h (by simp [bind, Except.bind])
    · exact ⟨hcount, (Except.ok.inj h).symm⟩
  · exact absurd h (by simp)

/-- A new cache has nothing in any set. -/
theorem pairs_of_create {count slots : Nat} (h : create count slots = .ok c) (i : Fin c.count) :
    (c.sets[i]).pairs = [] := by
  obtain ⟨hcount, rfl⟩ := eq_of_create h
  simp [ClockSet.pairs, ClockSet.pairsOf]

theorem placed_of_create {count slots : Nat} (h : create count slots = .ok c) : c.Placed := by
  intro i p hp
  rw [pairs_of_create h] at hp
  exact absurd hp (List.not_mem_nil)

/-- A new cache is empty. -/
theorem create_eq_ok {count slots : Nat} (h : create count slots = .ok c) :
    c.Distinct ∧ ∀ key value, ¬ c.Caches key value := by
  refine ⟨fun i => ?_, fun key value hmem => ?_⟩
  · unfold ClockSet.Distinct
    rw [pairs_of_create h]
    exact List.nodup_nil
  · replace hmem : (key, value) ∈ (c.sets[c.indexOf key]).pairs := hmem
    rw [pairs_of_create h] at hmem
    exact absurd hmem (List.not_mem_nil)

/-- A cache can be made of one set or more, with two slots or more. -/
theorem exists_create {count slots : Nat} (hcount : 0 < count) (hslots : 2 ≤ slots) :
    ∃ c, create count slots = .ok c := by
  have hset : ClockSet.create slots = .ok ⟨slots, []⟩ := if_neg (by omega)
  refine ⟨⟨count, hcount, Vector.replicate count ⟨slots, []⟩⟩, ?_⟩
  unfold create
  rw [dif_pos hcount, hset]
  rfl

end Cache

end RingStore
