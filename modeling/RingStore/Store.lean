import RingStore.Digest
import RingStore.Limits
import RingStore.Disk.Action
import RingStore.Wire.Codec

/-!
# The store

A store keeps each key with its value in a file of its own. The digest of a key picks one of a
fixed number of buckets; the files of a bucket form a chain, `bucket-0`, `bucket-1` and so on
without a gap. A new key goes to the end of its chain. When a key goes, the last file of the chain
takes its place, so that the chain stays without a gap.
-/

namespace RingStore

open Disk

/-- A key with its value, as a file of the store holds them. -/
structure StoredPair where
  key : String
  value : String
  deriving DecidableEq, Repr

instance : Wire StoredPair where
  encode e := Wire.text e.key ++ Wire.text e.value
  decode := do
    let key ← Wire.takeText
    return ⟨key, ← Wire.takeText⟩

/-- A directory of chains of files. -/
structure Store where
  /-- The directory. -/
  dir : Path
  /-- The number of buckets. -/
  buckets : Nat
  deriving DecidableEq, Repr

namespace Store

/-- The number of buckets where nothing else is asked for. -/
def standardBuckets : Nat := 1024

/-- Opens the store in a directory, which is made if it is missing. -/
def openIn (dir : Path) (buckets : Nat) : Attempt Store := do
  if buckets = 0 then throw (.setup .noBucket)
  Attempt.ensureDirectory dir
  return ⟨dir, buckets⟩

/-- The bucket that a key belongs to. -/
def bucketOf (s : Store) (key : String) : Nat := placeOf key s.buckets

/-- The name of a slot of a bucket, without its ending. -/
def slotName (bucket slot : Nat) : String := s!"{bucket}-{slot}"

/-- The path of a slot of a bucket. -/
def slotPath (s : Store) (bucket slot : Nat) : Path :=
  Attempt.entryPath s.dir (slotName bucket slot)

/-- Refuses to go on if the directory is gone. -/
def requireDirectory (s : Store) : Attempt Unit := do
  if ← Attempt.isDirectory s.dir then return else throw .storageUnavailable

/-- What a slot holds, if it is taken. -/
def readSlot (s : Store) (bucket slot : Nat) : Attempt (Option StoredPair) := do
  match ← Attempt.read? (s.slotPath bucket slot) with
  | none => return none
  | some content =>
    return some (← ((Wire.ofBytes content).mapError .codec : Except Fault StoredPair))

/-- Walks along a chain from a slot on, over at most `steps` slots: the first slot that is free or
holds the key, with what it holds. -/
def seek (s : Store) (key : String) (bucket : Nat) : Nat → Nat → Attempt (Nat × Option StoredPair)
  | 0, slot => return (slot, none)
  | steps + 1, slot => do
    match ← s.readSlot bucket slot with
    | none => return (slot, none)
    | some pair =>
      if pair.key = key then return (slot, some pair) else seek s key bucket steps (slot + 1)

/-- The slot of a key in its chain, or the free slot after the chain. -/
def locate (s : Store) (key : String) : Attempt (Nat × Option StoredPair) := do
  let entries ← Attempt.count s.dir
  s.seek key (s.bucketOf key) (entries + 1) 0

/-- Walks along a chain from a taken slot on, over at most `steps` more: the last slot that is
taken. -/
def lastFrom (s : Store) (bucket : Nat) : Nat → Nat → Attempt Nat
  | 0, slot => return slot
  | steps + 1, slot => do
    if ← Attempt.exists? (s.slotPath bucket (slot + 1)) then lastFrom s bucket steps (slot + 1)
    else return slot

/-- The value of a key. -/
def get (s : Store) (key : String) : Attempt String := do
  checkKey key
  s.requireDirectory
  match ← s.locate key with
  | (_, some pair) => return pair.value
  | (_, none) => throw .noSuchKey

/-- Gives a key a value. -/
def put (s : Store) (key value : String) : Attempt Unit := do
  checkPair key value
  s.requireDirectory
  let (slot, _) ← s.locate key
  Attempt.writeEntry s.dir (slotName (s.bucketOf key) slot)
    (Wire.encode (⟨key, value⟩ : StoredPair))

/-- Deletes a key, which must be there. -/
def delete (s : Store) (key : String) : Attempt Unit := do
  checkKey key
  s.requireDirectory
  match ← s.locate key with
  | (_, none) => throw .noSuchKey
  | (slot, some _) =>
    let bucket := s.bucketOf key
    let entries ← Attempt.count s.dir
    let last ← s.lastFrom bucket entries slot
    if last = slot then Attempt.change (.unlink (s.slotPath bucket slot))
    else Attempt.change (.rename (s.slotPath bucket last) (s.slotPath bucket slot))

/-- Removes the directory and all in it. -/
def clean (s : Store) : Attempt Unit := Attempt.discard (.removeTree s.dir)

end Store

end RingStore
