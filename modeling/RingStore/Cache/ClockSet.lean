import RingStore.Fault

/-!
# Cache sets with clock eviction

A set holds a bounded number of keys with their values, in the order in which the keys came. Each
entry has a bit that tells whether it was read since it was written. When room is needed, a hand
sweeps over the entries from the oldest on, round and round: it clears each set bit that it finds,
and removes the first entry whose bit is clear.
-/

namespace RingStore

/-- A cached value. -/
structure CacheEntry where
  key : String
  value : String
  /-- The entry was read since it was last written or swept. -/
  used : Bool
  deriving DecidableEq, Repr

/-- A bounded set of cached values, the oldest key first. -/
structure ClockSet where
  /-- The most entries the set may hold. -/
  capacity : Nat
  /-- The entries, in the order in which their keys came. -/
  entries : List CacheEntry
  deriving DecidableEq, Repr

namespace ClockSet

/-- An empty set of at least two slots. That the program panics when no room can be made for so many
entries is left out: whatever is said of a cache is said of one that there is. -/
def create (capacity : Nat) : Except Fault ClockSet :=
  if capacity < 2 then .error (.setup (.cacheSetTooSmall capacity)) else .ok ⟨capacity, []⟩

/-- The value of a key, if it is there. -/
def lookup? (s : ClockSet) (key : String) : Option String :=
  (s.entries.find? (·.key == key)).map (·.value)

/-- Sets the bit of a key's entry. -/
def touch (s : ClockSet) (key : String) : ClockSet :=
  { s with entries := s.entries.map fun e => if e.key == key then { e with used := true } else e }

/-- The value of a key, and the set with the bit of its entry set. -/
def get (s : ClockSet) (key : String) : Option String × ClockSet := (s.lookup? key, s.touch key)

/-- The hand sweeps from position `hand` on, until it removes an entry. -/
def sweep (entries : List CacheEntry) (hand : Nat) : List CacheEntry :=
  match h : entries[hand]? with
  | none => entries
  | some e =>
    if e.used then
      sweep (entries.set hand { e with used := false }) ((hand + 1) % entries.length)
    else entries.eraseIdx hand
termination_by entries.countP (·.used)
decreasing_by
  rename_i used
  obtain ⟨lt, rfl⟩ := List.getElem?_eq_some_iff.1 h
  have pos : 0 < entries.countP (·.used) :=
    List.countP_pos_iff.2 ⟨entries[hand], List.getElem_mem lt, used⟩
  rw [List.countP_set lt]
  simp only [used, if_true, Bool.false_eq_true, if_false]
  omega

/-- Makes room by removing one entry. -/
def evict (s : ClockSet) : ClockSet := { s with entries := sweep s.entries 0 }

/-- Gives a key a value. A key that is there keeps its place; a new key goes to the end, after an
eviction if the set is full. The bit of the entry is clear afterwards. -/
def put (s : ClockSet) (key value : String) : ClockSet :=
  if s.entries.any (·.key == key) then
    { s with entries := s.entries.map fun e => if e.key == key then ⟨key, value, false⟩ else e }
  else
    let room := if s.entries.length = s.capacity then s.evict else s
    { room with entries := room.entries ++ [⟨key, value, false⟩] }

/-- Removes a key. -/
def erase (s : ClockSet) (key : String) : ClockSet :=
  { s with entries := s.entries.eraseP (·.key == key) }

/-- Removes a key that must be there. -/
def delete (s : ClockSet) (key : String) : Except Fault ClockSet :=
  if s.entries.any (·.key == key) then .ok (s.erase key) else .error .noSuchKey

/-- Removes every entry. -/
def clear (s : ClockSet) : ClockSet := { s with entries := [] }

/-- The number of entries. -/
def size (s : ClockSet) : Nat := s.entries.length

/-- There is no entry. -/
def isEmpty (s : ClockSet) : Bool := s.entries.isEmpty

end ClockSet

end RingStore
