import RingStore.Digest
import RingStore.Cache.ClockSet

/-!
# The cache

A cache is a row of cache sets. The digest of a key picks the set that the key belongs to, and
every operation on the key works on that set alone.
-/

namespace RingStore

/-- A row of at least one cache set. -/
structure Cache where
  /-- The number of sets. -/
  count : Nat
  /-- There is a set. -/
  count_pos : 0 < count
  sets : Vector ClockSet count

namespace Cache

/-- A cache of `count` empty sets with `slots` slots each. -/
def create (count slots : Nat) : Except Fault Cache :=
  if h : 0 < count then do
    let empty ← ClockSet.create slots
    return ⟨count, h, Vector.replicate count empty⟩
  else .error (.setup .noCacheSet)

/-- The position of the set that a key belongs to. -/
def indexOf (c : Cache) (key : String) : Fin c.count :=
  ⟨placeOf key c.count, placeOf_lt key c.count_pos⟩

/-- The set that a key belongs to. -/
def setOf (c : Cache) (key : String) : ClockSet := c.sets[c.indexOf key]

/-- Changes the set that a key belongs to. -/
def update (c : Cache) (key : String) (f : ClockSet → ClockSet) : Cache :=
  { c with sets := c.sets.set (c.indexOf key) (f (c.setOf key)) }

/-- The value of a key, if it is cached, and the cache with the key marked as used. -/
def get (c : Cache) (key : String) : Option String × Cache :=
  ((c.setOf key).lookup? key, c.update key (·.touch key))

/-- Caches a value. -/
def put (c : Cache) (key value : String) : Cache := c.update key (·.put key value)

/-- Drops a key, if it is cached. -/
def erase (c : Cache) (key : String) : Cache := c.update key (·.erase key)

/-- Drops a key that must be cached. -/
def delete (c : Cache) (key : String) : Except Fault Cache :=
  ((c.setOf key).delete key).map fun s => c.update key fun _ => s

/-- Drops everything. -/
def clear (c : Cache) : Cache := { c with sets := c.sets.map (·.clear) }

end Cache

end RingStore
