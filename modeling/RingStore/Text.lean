/-!
# Text and bytes

Keys, values and names are texts. Limits, hashes, files and frames deal with the UTF-8 bytes of a
text. `Text.bytes` gives them, `Text.ofBytes?` reads them back, and `Text.firstFault` says where
and how a byte sequence stops being UTF-8.
-/

namespace RingStore

/-- A sequence of bytes. -/
abbrev Bytes := List UInt8

namespace Text

/-- The UTF-8 bytes of a text. -/
def bytes (s : String) : Bytes := s.toByteArray.data.toList

/-- The number of UTF-8 bytes of a text. -/
def size (s : String) : Nat := s.utf8ByteSize

/-- The text that the bytes encode, if they are UTF-8. -/
def ofBytes? (bs : Bytes) : Option String := String.fromUTF8? ⟨bs.toArray⟩

@[simp] theorem ofBytes?_bytes (s : String) : ofBytes? (bytes s) = some s := by
  have h : (⟨(bytes s).toArray⟩ : ByteArray) = s.toByteArray := by simp [bytes]
  simp [ofBytes?, h, String.fromUTF8?, s.isValidUTF8, String.fromUTF8]

/-- Where a byte sequence stops being UTF-8. -/
structure Malformed where
  /-- The length of the longest prefix that is UTF-8. -/
  start : Nat
  /-- The number of bytes from there that could begin a character, before one that cannot follow
  them; `none` if the sequence ends inside a character. -/
  length : Option Nat
  deriving DecidableEq, Repr

/-- An inclusive range of bytes. -/
structure ByteRange where
  /-- The least byte. -/
  low : UInt8
  /-- The greatest byte. -/
  high : UInt8

/-- The byte lies in the range. -/
def ByteRange.contains (r : ByteRange) (b : UInt8) : Bool := r.low ≤ b && b ≤ r.high

/-- The ranges of the bytes that must follow the first byte of a character; `none` if no character
begins with it. The narrower second ranges keep out overlong forms, surrogates and code points
past the last. -/
def followers (b : UInt8) : Option (List ByteRange) :=
  let tail : ByteRange := ⟨0x80, 0xBF⟩
  if b < 0x80 then some []
  else if b < 0xC2 then none
  else if b < 0xE0 then some [tail]
  else if b = 0xE0 then some [⟨0xA0, 0xBF⟩, tail]
  else if b = 0xED then some [⟨0x80, 0x9F⟩, tail]
  else if b < 0xF0 then some [tail, tail]
  else if b = 0xF0 then some [⟨0x90, 0xBF⟩, tail, tail]
  else if b < 0xF4 then some [tail, tail, tail]
  else if b = 0xF4 then some [⟨0x80, 0x8F⟩, tail, tail]
  else none

/-- Scans from position `pos` on, inside a character that began at `start` and still needs bytes in
the ranges `need`. -/
def scan (start : Nat) : List ByteRange → Nat → Bytes → Option Malformed
  | [], _, [] => none
  | _ :: _, _, [] => some ⟨start, none⟩
  | r :: need, pos, b :: rest =>
    if r.contains b then scan start need (pos + 1) rest else some ⟨start, some (pos - start)⟩
  | [], pos, b :: rest =>
    match followers b with
    | some need => scan pos need (pos + 1) rest
    | none => some ⟨pos, some 1⟩

/-- The first place where the bytes stop being UTF-8. -/
def firstFault (bs : Bytes) : Option Malformed := scan 0 [] 0 bs

/-- How the fault is reported. -/
def Malformed.message (m : Malformed) : String :=
  match m.length with
  | some n => s!"invalid utf-8 sequence of {n} bytes from index {m.start}"
  | none => s!"incomplete utf-8 byte sequence from index {m.start}"

end Text

end RingStore
