import RingStore.Proofs.Cache.LossyMap

/-!
# Which entry goes

The hand starts at the oldest entry. It passes the entries that were read and clears their bits, and
the first entry that it finds unread is the one that goes (`ClockSet.sweepFor_passed`). If every
entry was read, the hand comes round to the oldest one and finds its bit clear
(`ClockSet.sweepFor_round`). It never goes round twice. Reading a key and writing one that is there
change no entry but that of the key.
-/

namespace RingStore

namespace ClockSet

variable {s : ClockSet} {entries before after : List CacheEntry} {e : CacheEntry}
  {key value : String} {slots : Nat}

/-! ## The way of the hand -/

/-- An entry whose bit is clear. -/
def cleared (e : CacheEntry) : CacheEntry := { e with used := false }

/-- The sweep of a hand that gives up when it has looked at so many entries. -/
def sweepFor : Nat → List CacheEntry → Nat → Option (List CacheEntry)
  | 0, _, _ => none
  | looks + 1, entries, hand =>
    match entries[hand]? with
    | none => some entries
    | some e =>
      if e.used then sweepFor looks (entries.set hand (cleared e)) ((hand + 1) % entries.length)
      else some (entries.eraseIdx hand)

/-- A hand that did not give up did what any hand does. -/
theorem sweep_of_sweepFor {looks hand : Nat} {l : List CacheEntry}
    (h : sweepFor looks entries hand = some l) : sweep entries hand = l := by
  induction looks generalizing entries hand with
  | zero => cases h
  | succ looks ih =>
    rw [sweepFor] at h
    rw [sweep]
    split at h
    · rename_i hnone
      split
      · exact Option.some.inj h
      · rename_i hsome
        rw [hnone] at hsome
        cases hsome
    · rename_i e he
      split
      · rename_i hnone
        rw [he] at hnone
        cases hnone
      · rename_i e' he'
        obtain rfl : e = e' := Option.some.inj (he.symm.trans he')
        split at h
        · rename_i hused
          rw [if_pos hused]
          exact ih h
        · rename_i hclear
          rw [if_neg hclear]
          exact Option.some.inj h

/-- The hand passes entries that were read, and clears their bits. -/
theorem sweepFor_pass (before : List CacheEntry) {passed rest : List CacheEntry} (looks : Nat)
    (hused : ∀ x ∈ passed, x.used = true) (hrest : rest ≠ []) :
    sweepFor (passed.length + looks) (before ++ (passed ++ rest)) before.length =
      sweepFor looks (before ++ (passed.map cleared ++ rest)) (before.length + passed.length) := by
  induction passed generalizing before with
  | nil => simp
  | cons x passed ih =>
    have hx : x.used = true := hused x List.mem_cons_self
    have hnext := ih (before ++ [cleared x]) fun y hy => hused y (List.mem_cons_of_mem _ hy)
    have hlooks : (x :: passed).length + looks = passed.length + looks + 1 := by
      rw [List.length_cons]
      omega
    -- something is left behind the entries passed, so the hand is not yet round
    have hpos : 0 < rest.length := List.length_pos_of_ne_nil hrest
    have hmod : (before.length + 1) % (before ++ (x :: passed ++ rest)).length =
        before.length + 1 := by
      refine Nat.mod_eq_of_lt ?_
      simp only [List.length_append, List.length_cons]
      omega
    have hget : (before ++ (x :: passed ++ rest))[before.length]? = some x := by simp
    have hset : (before ++ (x :: passed ++ rest)).set before.length (cleared x) =
        before ++ [cleared x] ++ (passed ++ rest) := by simp
    rw [hlooks, sweepFor, hget]
    simp only [hx, if_true]
    rw [hmod, hset]
    simpa [Nat.add_assoc, Nat.add_comm 1] using hnext

/-- The first unread entry goes. -/
theorem sweepFor_passed (looks : Nat) (hused : ∀ x ∈ before, x.used = true) (he : e.used = false) :
    sweepFor (before.length + (looks + 1)) (before ++ e :: after) 0 =
      some (before.map cleared ++ after) := by
  have hpass := sweepFor_pass [] (looks + 1) hused (List.cons_ne_nil e after)
  simp only [List.nil_append, List.length_nil, Nat.zero_add] at hpass
  have hget : (before.map cleared ++ e :: after)[before.length]? = some e := by simp
  have herase : (before.map cleared ++ e :: after).eraseIdx before.length =
      before.map cleared ++ after := by
    rw [List.eraseIdx_append_of_length_le (by simp)]
    simp
  rw [hpass, sweepFor, hget]
  simp only [he, Bool.false_eq_true, if_false]
  rw [herase]

/-- If every entry was read, the first one goes. -/
theorem sweepFor_round (looks : Nat) (hne : entries ≠ []) (hused : ∀ x ∈ entries, x.used = true) :
    sweepFor (entries.length + (looks + 1)) entries 0 = some (entries.tail.map cleared) := by
  obtain ⟨front, last, rfl⟩ : ∃ front last, entries = front ++ [last] :=
    ⟨_, _, (List.dropLast_append_getLast hne).symm⟩
  have hfront : ∀ x ∈ front, x.used = true := fun x hx => hused x (List.mem_append_left _ hx)
  have hlast : last.used = true := hused last (by simp)
  have hpass := sweepFor_pass [] (looks + 2) hfront (List.cons_ne_nil last [])
  simp only [List.nil_append, List.length_nil, Nat.zero_add] at hpass
  have hlooks : (front ++ [last]).length + (looks + 1) = front.length + (looks + 2) := by
    rw [List.length_append, List.length_singleton]
    omega
  have hget : (front.map cleared ++ [last])[front.length]? = some last := by simp
  have hset : (front.map cleared ++ [last]).set front.length (cleared last) =
      (front ++ [last]).map cleared := by simp
  have hmod : (front.length + 1) % (front.map cleared ++ [last]).length = 0 := by simp
  rw [hlooks, hpass, sweepFor, hget]
  simp only [hlast, if_true]
  rw [hmod, hset]
  -- now every bit is clear
  cases hentries : front ++ [last] with
  | nil => simp at hentries
  | cons x rest => simp [sweepFor, cleared]

/-- The first entry that was not read. -/
theorem exists_first_unread (h : ¬ ∀ x ∈ entries, x.used = true) :
    ∃ before e after, entries = before ++ e :: after ∧ (∀ x ∈ before, x.used = true) ∧
      e.used = false := by
  have hsome : (entries.find? (!·.used)).isSome := by
    simpa [List.find?_isSome] using h
  obtain ⟨e, he⟩ := Option.isSome_iff_exists.1 hsome
  obtain ⟨hunread, before, after, hsplit, hbefore⟩ := List.find?_eq_some_iff_append.1 he
  exact ⟨before, e, after, hsplit, fun x hx => by simpa using hbefore x hx, by simpa using hunread⟩

/-- Making room in a set ends within two rounds. -/
theorem sweepFor_two_rounds (hpos : 0 < s.size) :
    sweepFor (2 * s.size) s.entries 0 = some s.evict.entries := by
  have hsize : s.entries.length = s.size := rfl
  obtain ⟨l, hl⟩ : ∃ l, sweepFor (2 * s.size) s.entries 0 = some l := by
    by_cases hused : ∀ x ∈ s.entries, x.used = true
    · have hround := sweepFor_round (s.size - 1) (List.ne_nil_of_length_pos hpos) hused
      have hlooks : s.entries.length + (s.size - 1 + 1) = 2 * s.size := by omega
      exact ⟨_, hlooks ▸ hround⟩
    · obtain ⟨before, e, after, hsplit, hbefore, he⟩ := exists_first_unread hused
      have hlength : s.size = before.length + (after.length + 1) := by
        rw [size, hsplit, List.length_append, List.length_cons]
      have hpassed : sweepFor _ (before ++ e :: after) 0 = _ :=
        sweepFor_passed (before.length + 2 * after.length + 1) hbefore he
      have hlooks : before.length + (before.length + 2 * after.length + 1 + 1) = 2 * s.size := by
        omega
      rw [hlooks, ← hsplit] at hpassed
      exact ⟨_, hpassed⟩
  rw [hl, evict, sweep_of_sweepFor hl]

/-! ## Putting and getting -/

theorem put_of_full (hnew : s.lookup? key = none) (hfull : s.size = s.capacity) (value : String) :
    s.put key value = { s with entries := s.evict.entries ++ [⟨key, value, false⟩] } := by
  have hlength : s.entries.length = s.capacity := hfull
  rw [put, any_eq_false_of_lookup? hnew]
  simp only [Bool.false_eq_true, if_false, if_pos hlength]
  rfl

/-- The one entry of a key. -/
theorem Distinct.split (hs : s.Distinct) (hkey : s.lookup? key = some value) :
    ∃ before e after, s.entries = before ++ e :: after ∧ e.key = key ∧ e.value = value ∧
      ∀ x ∈ before ++ after, x.key ≠ key := by
  obtain ⟨e, he, heq⟩ := mem_pairsOf.1 (mem_pairs_of_lookup? hkey)
  obtain ⟨rfl, rfl⟩ := Prod.mk.inj heq
  obtain ⟨before, after, hsplit⟩ := List.append_of_mem he
  refine ⟨before, e, after, hsplit, rfl, rfl, fun x hx hxe => ?_⟩
  have hkeys : ((before ++ e :: after).map CacheEntry.key).Nodup := by
    rw [Distinct, pairs, pairsOf, List.map_map, hsplit] at hs
    exact hs
  rw [List.map_append, List.map_cons, List.nodup_middle, ← List.map_append] at hkeys
  have hfirst : e.key ∉ (before ++ after).map CacheEntry.key := hkeys.notMem
  exact hfirst (hxe ▸ List.mem_map_of_mem hx)

theorem map_eq_self {f : CacheEntry → CacheEntry} (hother : ∀ x ∈ entries, x.key ≠ key) :
    (entries.map fun x => if x.key == key then f x else x) = entries := by
  refine (List.map_congr_left fun x hx => ?_).trans (List.map_id entries)
  have hne := hother x hx
  simp [hne]

/-- What is done to every entry of a key is done to one entry. -/
theorem map_entry {f : CacheEntry → CacheEntry} (hother : ∀ x ∈ before ++ after, x.key ≠ e.key) :
    ((before ++ e :: after).map fun x => if x.key == e.key then f x else x) =
      before ++ f e :: after := by
  have hbefore := map_eq_self (f := f) fun x hx => hother x (List.mem_append_left _ hx)
  have hafter := map_eq_self (f := f) fun x hx => hother x (List.mem_append_right _ hx)
  rw [List.map_append, List.map_cons, hbefore, hafter, beq_self_eq_true, if_pos rfl]

/-- The clock rule for a set and a pair to be put. -/
structure ClockRule (s : ClockSet) (key value : String) : Prop where
  /-- Two rounds are enough to make room. -/
  ends : s.lookup? key = none → s.size = s.capacity →
    sweepFor (2 * s.size) s.entries 0 = some s.evict.entries
  /-- The first unread entry goes, and only those before it lose their bits. -/
  firstUnread : s.lookup? key = none → s.size = s.capacity → (∃ x ∈ s.entries, x.used = false) →
    ∃ before e after, s.entries = before ++ e :: after ∧ (∀ x ∈ before, x.used = true) ∧
      e.used = false ∧ s.put key value =
        { s with entries := before.map cleared ++ after ++ [⟨key, value, false⟩] }
  /-- If there is none, the oldest goes, and all others lose their bits. -/
  allRead : s.lookup? key = none → s.size = s.capacity → (∀ x ∈ s.entries, x.used = true) →
    ∃ e after, s.entries = e :: after ∧
      s.put key value = { s with entries := after.map cleared ++ [⟨key, value, false⟩] }
  /-- A key that is there keeps its place, and so does every other entry. -/
  present : ∀ w, s.lookup? key = some w →
    ∃ before e after, s.entries = before ++ e :: after ∧ e.key = key ∧ e.value = w ∧
      s.put key value = { s with entries := before ++ ⟨key, value, false⟩ :: after } ∧
      s.get key = (some w, { s with entries := before ++ { e with used := true } :: after })
  absent : s.lookup? key = none → s.get key = (none, s)

theorem clockRule (hs : s.Distinct) (hcapacity : 0 < s.capacity) (key value : String) :
    s.ClockRule key value where
  ends _ hfull := sweepFor_two_rounds (by omega)
  firstUnread hnew hfull hsome := by
    have hnot : ¬ ∀ x ∈ s.entries, x.used = true := by
      obtain ⟨x, hx, hunread⟩ := hsome
      intro hall
      rw [hall x hx] at hunread
      cases hunread
    obtain ⟨before, e, after, hsplit, hbefore, he⟩ := exists_first_unread hnot
    have hswept : s.evict.entries = before.map cleared ++ after := by
      rw [evict, hsplit]
      exact sweep_of_sweepFor (sweepFor_passed 0 hbefore he)
    exact ⟨before, e, after, hsplit, hbefore, he, by rw [put_of_full hnew hfull, hswept]⟩
  allRead hnew hfull hall := by
    cases hentries : s.entries with
    | nil =>
      have hsize : s.size = 0 := congrArg List.length hentries
      omega
    | cons e after =>
      have hswept : s.evict.entries = after.map cleared := by
        rw [hentries] at hall
        rw [evict, hentries]
        exact sweep_of_sweepFor (sweepFor_round 0 (List.cons_ne_nil e after) hall)
      exact ⟨e, after, rfl, by rw [put_of_full hnew hfull, hswept]⟩
  present w hkey := by
    obtain ⟨before, e, after, hsplit, rfl, rfl, hother⟩ := hs.split hkey
    refine ⟨before, e, after, hsplit, rfl, rfl, ?_, ?_⟩
    · rw [put, if_pos (any_eq_true_of_lookup? hkey), hsplit, map_entry hother]
    · rw [get, hkey, touch, hsplit, map_entry hother]
  absent hnew := by
    have hother : ∀ x ∈ s.entries, x.key ≠ key := by
      simpa using List.any_eq_false.1 (any_eq_false_of_lookup? hnew)
    rw [get, hnew, touch, map_eq_self hother]

/-! ## The states of a set -/

theorem eq_of_create (h : create slots = .ok s) : s = ⟨slots, []⟩ := by
  unfold create at h
  split at h
  · cases h
  · exact (Except.ok.inj h).symm

theorem eq_of_delete {s' : ClockSet} (h : s.delete key = .ok s') : s' = s.erase key := by
  unfold delete at h
  split at h
  · exact (Except.ok.inj h).symm
  · cases h

/-- The states that a set of so many slots comes into. -/
inductive Reached (slots : Nat) : ClockSet → Prop
  | create {s : ClockSet} (hcreate : create slots = .ok s) : Reached slots s
  | get {s : ClockSet} (h : Reached slots s) (key : String) : Reached slots (s.get key).2
  | put {s : ClockSet} (h : Reached slots s) (key value : String) : Reached slots (s.put key value)
  | delete {s s' : ClockSet} {key : String} (h : Reached slots s)
    (hdelete : s.delete key = .ok s') : Reached slots s'
  | clear {s : ClockSet} (h : Reached slots s) : Reached slots s.clear

theorem Reached.distinct (h : s.Reached slots) : s.Distinct := by
  induction h with
  | create hcreate =>
    obtain rfl := eq_of_create hcreate
    exact List.nodup_nil
  | get h key ih =>
    rw [Distinct, ClockSet.get, pairs_touch]
    exact ih
  | put h key value ih => exact ih.put key value
  | delete h hdelete ih =>
    obtain rfl := eq_of_delete hdelete
    exact ih.erase _
  | clear h ih => exact List.nodup_nil

theorem Reached.within (hslots : 2 ≤ slots) (h : s.Reached slots) : s.Within slots := by
  induction h with
  | create hcreate =>
    obtain rfl := eq_of_create hcreate
    exact ⟨rfl, Nat.zero_le _⟩
  | get h key ih => exact ih.touch key
  | put h key value ih => exact ih.put (by omega) key value
  | delete h hdelete ih =>
    obtain rfl := eq_of_delete hdelete
    exact ih.erase _
  | clear h ih => exact ⟨ih.capacity, Nat.zero_le _⟩

/-- Sets follow the clock rule, in every state that they come into. -/
theorem follows_clock (hslots : 2 ≤ slots) :
    (∀ s : ClockSet, s.Reached slots → s.Distinct ∧ s.Within slots) ∧
      ∀ s : ClockSet, s.Distinct → s.Within slots → ∀ key value, s.ClockRule key value := by
  refine ⟨fun s hs => ⟨hs.distinct, hs.within hslots⟩, fun s hs hwithin => ?_⟩
  have hcapacity : 0 < s.capacity := by
    rw [hwithin.capacity]
    omega
  exact clockRule hs hcapacity

/-- A full set of three, of which the oldest and the newest were read. -/
def unevenlyRead : ClockSet :=
  ⟨3, [⟨"a", "1", true⟩, ⟨"b", "2", false⟩, ⟨"c", "3", true⟩]⟩

theorem reached_unevenlyRead : unevenlyRead.Reached 3 := by
  have hempty : Reached 3 ⟨3, []⟩ := .create rfl
  have hfull := ((hempty.put "a" "1").put "b" "2").put "c" "3"
  exact (hfull.get "a").get "c"

/-- The entry in the middle goes, the one before it loses its bit, and the one after it does not. -/
theorem follows_clock_unevenly :
    (∀ key value, unevenlyRead.ClockRule key value) ∧
      (unevenlyRead.put "d" "4").entries =
        [⟨"a", "1", false⟩, ⟨"c", "3", true⟩, ⟨"d", "4", false⟩] := by
  obtain ⟨hreached, hrule⟩ := follows_clock (show 2 ≤ 3 by decide)
  obtain ⟨hdistinct, hwithin⟩ := hreached _ reached_unevenlyRead
  have hclock := hrule _ hdistinct hwithin
  refine ⟨hclock, ?_⟩
  have hends := (hclock "d" "4").ends rfl rfl
  rw [put_of_full rfl rfl, ← Option.some.inj hends]
  rfl

end ClockSet

end RingStore
