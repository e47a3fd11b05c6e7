import RingStore.Text

/-!
# The digest of a text

Members of the ring, cache sets and store buckets are all picked by one polynomial hash of a text.
The hash folds the bytes, each read as a signed number, into a 64-bit word. The ring orders digests
as signed numbers; cache sets and buckets take them as unsigned numbers.
-/

namespace RingStore

namespace Digest

/-- The digest of the empty text. -/
def seed : Int64 := 1125899906842597

/-- Folds one more byte in; the arithmetic wraps at 64 bits. -/
def step (h : Int64) (b : UInt8) : Int64 := h * 31 + b.toInt8.toInt64

end Digest

/-- The digest of a text. -/
def digest (s : String) : Int64 := (Text.bytes s).foldl Digest.step Digest.seed

/-- Which of `n` numbered places the text belongs to: its digest, unsigned, modulo `n`. -/
def placeOf (s : String) (n : Nat) : Nat := (digest s).toUInt64.toNat % n

theorem placeOf_lt (s : String) {n : Nat} (h : 0 < n) : placeOf s n < n := Nat.mod_lt _ h

end RingStore
