import RingStore.Proofs.Cache.Pairs
import Mathlib.Data.List.Induction
import Mathlib.Data.List.InsertIdx

/-!
# A cache is a lossy map

A cache may forget a key, but what it answers is the value that the key was given last. It forgets
when it is told to, and when a new key comes into a set that is full: then exactly one entry of this
set goes (`ClockSet.pairs_put_of_full`). No set ever holds more than it has slots for, and nothing
that is done to a key is noticed in any set but its own.
-/

namespace RingStore

namespace ClockSet

variable {s : ClockSet} {key value w : String} {slots : Nat}

/-! ## Looking for a key -/

theorem length_pairs (s : ClockSet) : s.pairs.length = s.size := List.length_map _

/-- A key has one value in a set. -/
theorem Distinct.eq_of_mem (hs : s.Distinct) (h : (key, value) ∈ s.pairs)
    (h' : (key, w) ∈ s.pairs) : value = w := by
  have heq := List.inj_on_of_nodup_map hs h h' rfl
  exact (Prod.mk.inj heq).2

/-- A value is found exactly if it is in the set. -/
theorem lookup?_eq_some_iff (hs : s.Distinct) :
    s.lookup? key = some value ↔ (key, value) ∈ s.pairs := by
  constructor
  · exact mem_pairs_of_lookup?
  · intro h
    obtain ⟨e, he, heq⟩ := mem_pairsOf.1 h
    have hkey : e.key = key := congrArg Prod.fst heq
    have hsome : (s.lookup? key).isSome = true := by
      unfold lookup?
      rw [Option.isSome_map, List.find?_isSome]
      exact ⟨e, he, by simpa using hkey⟩
    obtain ⟨w, hw⟩ := Option.isSome_iff_exists.1 hsome
    rw [hw, hs.eq_of_mem (mem_pairs_of_lookup? hw) h]

theorem any_eq_false_of_lookup? (h : s.lookup? key = none) :
    s.entries.any (·.key == key) = false := by
  unfold lookup? at h
  rw [Option.map_eq_none_iff, List.find?_eq_none] at h
  rw [List.any_eq_false]
  exact h

theorem any_eq_true_of_lookup? (h : s.lookup? key = some value) :
    s.entries.any (·.key == key) = true := by
  obtain ⟨e, he, heq⟩ := mem_pairsOf.1 (mem_pairs_of_lookup? h)
  have hkey : e.key = key := congrArg Prod.fst heq
  exact List.any_eq_true.2 ⟨e, he, by simpa using hkey⟩

/-! ## Making room -/

/-- The hand takes exactly one entry away. -/
theorem exists_pairsOf_sweep (entries : List CacheEntry) {hand : Nat}
    (hhand : hand < entries.length) :
    ∃ i < entries.length, pairsOf (sweep entries hand) = (pairsOf entries).eraseIdx i := by
  fun_induction sweep entries hand with
  | case1 entries hand h =>
    have hle := List.getElem?_eq_none_iff.1 h
    omega
  | case2 entries hand e h hused ih =>
    rw [List.length_set, pairsOf_set_unused h] at ih
    exact ih (Nat.mod_lt _ (by omega))
  | case3 entries hand e h hused => exact ⟨hand, hhand, (List.eraseIdx_map ..).symm⟩

/-- A new key in a full set takes the place of exactly one entry. -/
theorem pairs_put_of_full (hnew : s.lookup? key = none) (hfull : s.size = s.capacity)
    (hpos : 0 < s.size) (value : String) :
    ∃ i < s.size, (s.put key value).pairs = s.pairs.eraseIdx i ++ [(key, value)] := by
  obtain ⟨i, hi, heq⟩ := exists_pairsOf_sweep s.entries hpos
  refine ⟨i, hi, ?_⟩
  have hlength : s.entries.length = s.capacity := hfull
  unfold put
  rw [any_eq_false_of_lookup? hnew]
  simp only [Bool.false_eq_true, if_false, if_pos hlength]
  change pairsOf (sweep s.entries 0 ++ _) = _
  unfold pairsOf at heq ⊢
  rw [List.map_append, heq]
  rfl

/-- A new key in a set with room takes nothing away. -/
theorem pairs_put_of_room (hnew : s.lookup? key = none) (hroom : s.size ≠ s.capacity)
    (value : String) : (s.put key value).pairs = s.pairs ++ [(key, value)] := by
  have hlength : s.entries.length ≠ s.capacity := hroom
  unfold put
  rw [any_eq_false_of_lookup? hnew]
  simp only [Bool.false_eq_true, if_false, if_neg hlength]
  exact List.map_append

/-- A pair stays when another key is put, unless that one is new and the set is full. -/
theorem mem_pairs_put_of_ne {k : String} (hmem : (key, value) ∈ s.pairs) (hne : key ≠ k)
    (hroom : s.lookup? k = none → s.size ≠ s.capacity) (w : String) :
    (key, value) ∈ (s.put k w).pairs := by
  cases hlookup : s.lookup? k with
  | some w' =>
    rw [pairs_put_of_mem (any_eq_true_of_lookup? hlookup)]
    exact List.mem_map.2 ⟨(key, value), hmem, if_neg hne⟩
  | none =>
    rw [pairs_put_of_room hlookup (hroom hlookup)]
    exact List.mem_append_left _ hmem

/-! ## Room -/

/-- The set has that many slots, and no more entries. -/
structure Within (slots : Nat) (s : ClockSet) : Prop where
  capacity : s.capacity = slots
  size_le : s.size ≤ slots

theorem capacity_put (s : ClockSet) (key value : String) :
    (s.put key value).capacity = s.capacity := by
  unfold put
  split
  · rfl
  · simp only
    split <;> rfl

/-- A put keeps a set within its slots. -/
theorem Within.put (h : s.Within slots) (hslots : 0 < slots) (key value : String) :
    (s.put key value).Within slots := by
  obtain ⟨hcapacity, hsize⟩ := h
  refine ⟨(s.capacity_put key value).trans hcapacity, ?_⟩
  rw [← length_pairs]
  cases hlookup : s.lookup? key with
  | some w =>
    rw [pairs_put_of_mem (any_eq_true_of_lookup? hlookup), List.length_map, length_pairs]
    exact hsize
  | none =>
    by_cases hfull : s.size = s.capacity
    · obtain ⟨i, hi, heq⟩ := pairs_put_of_full hlookup hfull (by omega) value
      rw [heq, List.length_append, List.length_eraseIdx_of_lt (by rwa [length_pairs]), length_pairs,
        List.length_singleton]
      omega
    · rw [pairs_put_of_room hlookup hfull, List.length_append, length_pairs, List.length_singleton]
      omega

theorem Within.erase (h : s.Within slots) (key : String) : (s.erase key).Within slots := by
  refine ⟨h.capacity, ?_⟩
  have hle : (s.erase key).size ≤ s.size := List.eraseP_sublist.length_le
  exact Nat.le_trans hle h.size_le

theorem Within.touch (h : s.Within slots) (key : String) : (s.touch key).Within slots := by
  refine ⟨h.capacity, ?_⟩
  rw [← length_pairs, pairs_touch, length_pairs]
  exact h.size_le

end ClockSet

namespace Cache

/-! ## Calls -/

/-- A call on a cache. -/
inductive Call
  | get (key : String)
  | put (key value : String)
  | delete (key : String)
  | clear
  deriving DecidableEq, Repr

namespace Call

/-- The key that the call is about, if it is about one. -/
def key? : Call → Option String
  | get key | put key _ | delete key => some key
  | clear => none

/-- The call settles what the key has from then on. -/
def Overrides (key : String) : Call → Prop
  | get _ => False
  | put k _ | delete k => k = key
  | clear => True

end Call

/-- What a call makes of a cache. A key that is not there is not deleted. -/
def perform (c : Cache) : Call → Cache
  | .get key => (c.get key).2
  | .put key value => c.put key value
  | .delete key => (c.delete key).toOption.getD c
  | .clear => c.clear

/-- What calls make of a cache, one after the other. -/
def performAll (c : Cache) (calls : List Call) : Cache := calls.foldl perform c

/-- The key is found. -/
def Hits (c : Cache) (key : String) : Prop := ∃ value, (c.get key).1 = some value

/-- The key was given this value, and no later call settles what it has. -/
def Latest (calls : List Call) (key value : String) : Prop :=
  ∃ before after, calls = before ++ .put key value :: after ∧ ∀ x ∈ after, ¬ x.Overrides key

/-- The call may take the key away: it deletes the key, or everything, or puts a key that is not
there in the same set, which is full. -/
def Loses (c : Cache) (key : String) : Call → Prop
  | .get _ => False
  | .put k _ => placeOf k c.count = placeOf key c.count ∧ ¬ c.Hits k ∧
      (c.setOf key).size = (c.setOf key).capacity
  | .delete k => k = key
  | .clear => True

/-- Every set holds different keys, all of them its own, and has that many slots. -/
structure Sound (slots : Nat) (c : Cache) : Prop where
  distinct : c.Distinct
  placed : c.Placed
  within : ∀ i : Fin c.count, (c.sets.get i).Within slots

variable {c : Cache} {key k value w : String} {slots : Nat} {x : Call} {f : ClockSet → ClockSet}

theorem performAll_concat (c : Cache) (calls : List Call) (x : Call) :
    c.performAll (calls ++ [x]) = (c.performAll calls).perform x := List.foldl_concat ..

theorem update_eq_self (h : f (c.setOf key) = c.setOf key) : c.update key f = c := by
  have hset : c.sets.set (c.indexOf key) (f (c.setOf key)) = c.sets := by
    rw [h]
    exact Vector.set_getElem_self _
  unfold update
  rw [hset]

/-- A key is deleted if it is in its set, and missed otherwise. -/
theorem delete_eq (c : Cache) (key : String) :
    c.delete key =
      if (c.setOf key).entries.any (·.key == key) then .ok (c.erase key)
      else .error .noSuchKey := by
  unfold delete ClockSet.delete
  split <;> rfl

theorem perform_delete (c : Cache) (key : String) : c.perform (.delete key) = c.erase key := by
  show (c.delete key).toOption.getD c = _
  rw [delete_eq]
  cases hany : (c.setOf key).entries.any (·.key == key) with
  | true => rfl
  | false =>
    have hsame : (c.setOf key).erase key = c.setOf key := by
      unfold ClockSet.erase
      rw [List.eraseP_of_forall_not (List.any_eq_false.1 hany)]
    exact (update_eq_self (f := (·.erase key)) hsame).symm

theorem getElem_sets_clear (c : Cache) (i : Fin c.clear.count) :
    c.clear.sets[i] = (c.sets.get i).clear := Vector.getElem_map ClockSet.clear i.isLt

theorem pairs_clear (c : Cache) (i : Fin c.clear.count) : (c.clear.sets[i]).pairs = [] := by
  rw [getElem_sets_clear]
  rfl

/-- Nothing is left in a cache that was cleared. -/
theorem not_caches_clear (c : Cache) (key value : String) : ¬ c.clear.Caches key value := by
  intro h
  have hmem : (key, value) ∈ (c.clear.sets[c.clear.indexOf key]).pairs := h
  rw [pairs_clear] at hmem
  exact absurd hmem List.not_mem_nil

/-! ## Every call keeps a cache sound -/

theorem within_update (h : ∀ i : Fin c.count, (c.sets.get i).Within slots)
    (hf : (c.setOf key).Within slots → (f (c.setOf key)).Within slots) (i : Fin c.count) :
    ((c.update key f).sets.get i).Within slots := by
  rw [get_sets_update]
  split
  · exact hf (h _)
  · exact h i

theorem Sound.clear (h : c.Sound slots) : c.clear.Sound slots := by
  refine ⟨fun i => ?_, fun i p hp => ?_, fun i => ?_⟩
  · unfold ClockSet.Distinct
    rw [pairs_clear]
    exact List.nodup_nil
  · rw [pairs_clear] at hp
    exact absurd hp List.not_mem_nil
  · have hset : c.clear.sets.get i = (c.sets.get i).clear := getElem_sets_clear c i
    rw [hset]
    exact ⟨(h.within i).capacity, Nat.zero_le _⟩

/-- Every call leaves a cache sound. -/
theorem Sound.perform (h : c.Sound slots) (hslots : 0 < slots) (x : Call) :
    (c.perform x).Sound slots := by
  cases x with
  | get key =>
    exact ⟨h.distinct.get key, h.placed.get key, within_update h.within fun hs => hs.touch key⟩
  | put key value =>
    exact ⟨h.distinct.put key value, h.placed.put key value,
      within_update h.within fun hs => hs.put hslots key value⟩
  | delete key =>
    rw [perform_delete]
    exact ⟨h.distinct.erase key, h.placed.erase key, within_update h.within fun hs => hs.erase key⟩
  | clear => exact h.clear

/-- Whatever is called, a cache stays sound. -/
theorem Sound.performAll (h : c.Sound slots) (hslots : 0 < slots) (calls : List Call) :
    (c.performAll calls).Sound slots := by
  induction calls generalizing c with
  | nil => exact h
  | cons x calls ih => exact ih (h.perform hslots x)

theorem count_perform (c : Cache) (x : Call) : (c.perform x).count = c.count := by
  cases x with
  | delete key =>
    rw [perform_delete]
    rfl
  | get key | put key value | clear => rfl

theorem count_performAll (c : Cache) (calls : List Call) :
    (c.performAll calls).count = c.count := by
  induction calls generalizing c with
  | nil => rfl
  | cons x calls ih => exact (ih (c.perform x)).trans (c.count_perform x)

/-- A new cache is sound. -/
theorem sound_of_create {count : Nat} (h : create count slots = .ok c) : c.Sound slots := by
  refine ⟨(create_eq_ok h).1, placed_of_create h, fun i => ?_⟩
  obtain ⟨hcount, rfl⟩ := eq_of_create h
  have hget : (Vector.replicate count (ClockSet.mk slots []))[i] = ⟨slots, []⟩ :=
    Vector.getElem_replicate i.isLt
  show ((Vector.replicate count (ClockSet.mk slots []))[i]).Within slots
  rw [hget]
  exact ⟨rfl, Nat.zero_le _⟩

/-! ## What is found was put last -/

/-- A key is answered with the value that it has in the cache. -/
theorem Sound.get_eq_some_iff (h : c.Sound slots) :
    (c.get key).1 = some value ↔ c.Caches key value :=
  ClockSet.lookup?_eq_some_iff (h.distinct _)

/-- What a key has after a call, the call gave it, or else the key had it and the call left it
alone. -/
theorem Sound.caches_of_perform (h : c.Sound slots) (hafter : (c.perform x).Caches key value) :
    x = .put key value ∨ ¬ x.Overrides key ∧ c.Caches key value := by
  cases x with
  | get k => exact .inr ⟨id, caches_get hafter⟩
  | put k w =>
    rcases caches_put hafter with ⟨rfl, rfl⟩ | ⟨hne, hbefore⟩
    · exact .inl rfl
    · exact .inr ⟨Ne.symm hne, hbefore⟩
  | delete k =>
    rw [perform_delete] at hafter
    obtain ⟨hne, hbefore⟩ := caches_erase h.distinct hafter
    exact .inr ⟨Ne.symm hne, hbefore⟩
  | clear => exact absurd hafter (c.not_caches_clear key value)

/-- What is in a cache that was empty is what was put last. -/
theorem latest_of_caches (h : c.Sound slots) (hslots : 0 < slots)
    (hempty : ∀ key value, ¬ c.Caches key value) (calls : List Call)
    (hafter : (c.performAll calls).Caches key value) : Latest calls key value := by
  induction calls using List.reverseRecOn with
  | nil => exact absurd hafter (hempty key value)
  | append_singleton calls x ih =>
    rw [performAll_concat] at hafter
    rcases (h.performAll hslots calls).caches_of_perform hafter with rfl | ⟨hother, hbefore⟩
    · exact ⟨calls, [], rfl, by simp⟩
    · obtain ⟨before, after, rfl, hlater⟩ := ih hbefore
      refine ⟨before, after ++ [x], by simp, ?_⟩
      intro y hy
      rcases List.mem_append.1 hy with hy | hy
      · exact hlater y hy
      · rw [List.mem_singleton.1 hy]
        exact hother

/-! ## What is found stays until it is lost -/

/-- A pair that is there stays, unless it is in the set that changes and does not stay there. -/
theorem caches_update (hbefore : c.Caches key value)
    (hf : c.indexOf key = c.indexOf k → (key, value) ∈ (c.setOf k).pairs →
      (key, value) ∈ (f (c.setOf k)).pairs) : (c.update k f).Caches key value := by
  unfold Caches
  rw [setOf_update]
  split
  · rename_i hi
    have hmem : (key, value) ∈ (c.setOf k).pairs := setOf_eq_of_indexOf_eq hi ▸ hbefore
    exact hf hi hmem
  · exact hbefore

/-- What is there stays, unless the call may take its key away. -/
theorem Sound.hits_perform (h : c.Sound slots) (hslots : 0 < slots) (hbefore : c.Caches key value)
    (hkept : ¬ c.Loses key x) : (c.perform x).Hits key := by
  suffices hcached : ∃ w, (c.perform x).Caches key w by
    obtain ⟨w, hw⟩ := hcached
    exact ⟨w, (h.perform hslots x).get_eq_some_iff.2 hw⟩
  cases x with
  | get k =>
    refine ⟨value, caches_update hbefore fun _ hmem => ?_⟩
    rw [ClockSet.pairs_touch]
    exact hmem
  | put k w =>
    by_cases hk : key = k
    · subst hk
      exact ⟨w, caches_put_self c key w⟩
    · refine ⟨value, caches_update hbefore fun hi hmem => ?_⟩
      refine ClockSet.mem_pairs_put_of_ne hmem hk (fun hlookup hfull => ?_) w
      have hmiss : ¬ c.Hits k := by
        rintro ⟨w', hw'⟩
        cases hlookup.symm.trans hw'
      exact hkept ⟨congrArg Fin.val hi.symm, hmiss, by rwa [setOf_eq_of_indexOf_eq hi]⟩
  | delete k =>
    have hne : key ≠ k := fun heq => hkept heq.symm
    rw [perform_delete]
    refine ⟨value, caches_update hbefore fun _ hmem => ?_⟩
    rw [ClockSet.pairs_erase]
    refine (List.mem_eraseP_of_neg ?_).2 hmem
    simpa using hne
  | clear => exact absurd trivial hkept

/-- A key that was there and is gone was lost by one of the calls. -/
theorem Sound.exists_loses (h : c.Sound slots) (hslots : 0 < slots) {calls : List Call}
    (hhit : c.Hits key) (hmiss : ¬ (c.performAll calls).Hits key) :
    ∃ before x after, calls = before ++ x :: after ∧
      (∀ sofar, sofar <+: before → (c.performAll sofar).Hits key) ∧
      (c.performAll before).Loses key x := by
  induction calls generalizing c with
  | nil => exact absurd hhit hmiss
  | cons y calls ih =>
    by_cases hlost : c.Loses key y
    · refine ⟨[], y, calls, rfl, ?_, hlost⟩
      intro sofar hsofar
      rw [List.prefix_nil.1 hsofar]
      exact hhit
    · obtain ⟨value, hvalue⟩ := hhit
      have hnext := h.hits_perform hslots (h.get_eq_some_iff.1 hvalue) hlost
      obtain ⟨before, x, after, rfl, hall, hx⟩ := ih (h.perform hslots y) hnext hmiss
      refine ⟨y :: before, x, after, rfl, ?_, hx⟩
      intro sofar hsofar
      rcases List.prefix_cons_iff.1 hsofar with rfl | ⟨t, rfl, ht⟩
      · exact ⟨value, hvalue⟩
      · exact hall t ht

/-! ## Other sets -/

theorem getElem?_sets_update {i : Nat} (hi : i ≠ placeOf key c.count) :
    (c.update key f).sets[i]? = c.sets[i]? :=
  Vector.getElem?_set_ne (c.indexOf key).isLt (Ne.symm hi)

/-- A call on a key leaves every set alone but the key's own. -/
theorem getElem?_sets_perform {i : Nat} (hx : x.key? = some key) (hi : i ≠ placeOf key c.count) :
    (c.perform x).sets[i]? = c.sets[i]? := by
  cases x with
  | get k | put k value =>
    obtain rfl := Option.some.inj hx
    exact getElem?_sets_update hi
  | delete k =>
    obtain rfl := Option.some.inj hx
    rw [perform_delete]
    exact getElem?_sets_update hi
  | clear => cases hx

/-! ## All calls -/

/-- What a cache of that many sets and slots is after the calls. -/
structure Remembers (count slots : Nat) (calls : List Call) (c : Cache) : Prop where
  /-- What is found is what the key was given last. -/
  latest : ∀ key value, (c.get key).1 = some value → Latest calls key value
  /-- A key is found right after it was put. -/
  put_get : ∀ key value, ((c.put key value).get key).1 = some value
  /-- A new key in a full set takes the place of exactly one entry. -/
  evicts_one : ∀ key value, ¬ c.Hits key → (c.setOf key).size = (c.setOf key).capacity →
    ∃ i < slots, ((c.put key value).setOf key).pairs =
      (c.setOf key).pairs.eraseIdx i ++ [(key, value)]
  distinct : ∀ (i : Nat) s, c.sets[i]? = some s → (s.pairs.map Prod.fst).Nodup
  placed : ∀ (i : Nat) s, c.sets[i]? = some s → ∀ p ∈ s.pairs, placeOf p.1 count = i
  bounded : ∀ (i : Nat) s, c.sets[i]? = some s → s.capacity = slots ∧ s.size ≤ slots
  /-- A call on a key leaves every set alone but the key's own. -/
  elsewhere : ∀ (x : Call) key, x.key? = some key → ∀ i : Nat, i ≠ placeOf key count →
    (c.perform x).sets[i]? = c.sets[i]?

/-- In a full set the new key comes behind the others, and one of them goes. -/
theorem Sound.pairs_put_of_full (h : c.Sound slots) (hslots : 0 < slots) (hmiss : ¬ c.Hits key)
    (hfull : (c.setOf key).size = (c.setOf key).capacity) (value : String) :
    ∃ i < slots, ((c.put key value).setOf key).pairs =
      (c.setOf key).pairs.eraseIdx i ++ [(key, value)] := by
  have hwithin : (c.setOf key).Within slots := h.within _
  have hcapacity := hwithin.capacity
  have hnew : (c.setOf key).lookup? key = none :=
    Option.eq_none_iff_forall_ne_some.2 fun w hw => hmiss ⟨w, hw⟩
  obtain ⟨i, hi, heq⟩ := ClockSet.pairs_put_of_full hnew hfull (by omega) value
  refine ⟨i, by omega, ?_⟩
  have hset : (c.put key value).setOf key = (c.setOf key).put key value := by
    unfold put
    rw [setOf_update, if_pos rfl]
  rw [hset, heq]

/-- A cache remembers what was put last until it loses it. -/
theorem Sound.remembers (h : c.Sound slots) (hslots : 0 < slots) {calls : List Call}
    (hlatest : ∀ key value, c.Caches key value → Latest calls key value) :
    c.Remembers c.count slots calls where
  latest key value hhit := hlatest key value (h.get_eq_some_iff.1 hhit)
  put_get key value :=
    (h.perform hslots (.put key value)).get_eq_some_iff.2 (caches_put_self c key value)
  evicts_one key value hmiss hfull := h.pairs_put_of_full hslots hmiss hfull value
  distinct i s hs := by
    obtain ⟨hi, rfl⟩ := Vector.getElem?_eq_some_iff.1 hs
    exact h.distinct ⟨i, hi⟩
  placed i s hs p hp := by
    obtain ⟨hi, rfl⟩ := Vector.getElem?_eq_some_iff.1 hs
    exact congrArg Fin.val (h.placed ⟨i, hi⟩ p hp)
  bounded i s hs := by
    obtain ⟨hi, rfl⟩ := Vector.getElem?_eq_some_iff.1 hs
    exact ⟨(h.within ⟨i, hi⟩).capacity, (h.within ⟨i, hi⟩).size_le⟩
  elsewhere x key hx i hi := getElem?_sets_perform hx hi

/-- A cache remembers what it was told last, and forgets a key only when it is told to or when a new
key comes into the full set of the key: a key that is found after some calls, and not after some
more, was found until one of these that may take it away. -/
theorem remembers_until_lost {count slots : Nat} (hcount : 0 < count) (hslots : 2 ≤ slots) :
    ∃ c, create count slots = .ok c ∧ ∀ calls,
      (c.performAll calls).Remembers count slots calls ∧
      ∀ key more, (c.performAll calls).Hits key → ¬ (c.performAll (calls ++ more)).Hits key →
        ∃ before x after, more = before ++ x :: after ∧
          (∀ sofar, sofar <+: before → (c.performAll (calls ++ sofar)).Hits key) ∧
          (c.performAll (calls ++ before)).Loses key x := by
  obtain ⟨c, hcreate⟩ := exists_create hcount hslots
  have hpos : 0 < slots := by omega
  have hsound := sound_of_create hcreate
  have happend :
      ∀ calls more, c.performAll (calls ++ more) = (c.performAll calls).performAll more :=
    fun _ _ => List.foldl_append
  refine ⟨c, hcreate, fun calls => ⟨?_, fun key more hhit hmiss => ?_⟩⟩
  · have hcount : (c.performAll calls).count = count := by
      obtain ⟨_, rfl⟩ := eq_of_create hcreate
      exact count_performAll _ calls
    rw [← hcount]
    refine (hsound.performAll hpos calls).remembers hpos fun key value hcached => ?_
    exact latest_of_caches hsound hpos (create_eq_ok hcreate).2 calls hcached
  · simp only [happend] at hmiss ⊢
    exact (hsound.performAll hpos calls).exists_loses hpos hhit hmiss

/-- A cache of one set with two slots. -/
def twoSlots : Cache := ⟨1, Nat.one_pos, Vector.replicate 1 ⟨2, []⟩⟩

/-- Three keys come to two slots. The second one is lost, because the first one was read
meanwhile. -/
theorem remembers_until_lost_of_three :
    (twoSlots.performAll [.put "a" "1", .put "b" "2", .get "a"]).Hits "b" ∧
      ¬ (twoSlots.performAll [.put "a" "1", .put "b" "2", .get "a", .put "c" "3"]).Hits "b" ∧
      (twoSlots.performAll [.put "a" "1", .put "b" "2", .get "a"]).Loses "b" (.put "c" "3") ∧
      (twoSlots.performAll [.put "a" "1", .put "b" "2", .get "a", .put "c" "3"]).Remembers 1 2
        [.put "a" "1", .put "b" "2", .get "a", .put "c" "3"] := by
  obtain ⟨c, hcreate, hcalls⟩ := remembers_until_lost (show 0 < 1 by decide) (show 2 ≤ 2 by decide)
  obtain rfl : twoSlots = c := Except.ok.inj hcreate
  have hhit : (twoSlots.performAll [.put "a" "1", .put "b" "2", .get "a"]).Hits "b" :=
    ⟨"2", by decide⟩
  have hmiss : ¬ (twoSlots.performAll
      [.put "a" "1", .put "b" "2", .get "a", .put "c" "3"]).Hits "b" := by
    rintro ⟨value, hvalue⟩
    have hnone : ((twoSlots.performAll
        [.put "a" "1", .put "b" "2", .get "a", .put "c" "3"]).get "b").1 = none := by
      decide +kernel
    rw [hnone] at hvalue
    cases hvalue
  refine ⟨hhit, hmiss, ?_, (hcalls _).1⟩
  obtain ⟨before, x, after, hsplit, -, hloses⟩ := (hcalls _).2 "b" [.put "c" "3"] hhit hmiss
  cases before with
  | nil =>
    obtain ⟨rfl, -⟩ := List.cons.inj hsplit
    exact hloses
  | cons y before => exact absurd (congrArg List.length hsplit) (by simp)

end Cache

end RingStore
