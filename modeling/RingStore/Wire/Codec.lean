import RingStore.Fault

/-!
# Binary encodings

Numbers have a fixed width and their least byte first. A text or a list of bytes is preceded by its
length in eight bytes, and a choice between alternatives by the number of the alternative in four.
A decoder takes what it needs from the front of the bytes and leaves the rest.
-/

namespace RingStore

/-- Takes a value from the front of the bytes. -/
abbrev Decoder (α : Type) := StateT Bytes (Except CodecFault) α

/-- A type of values with a binary encoding. -/
class Wire (α : Type) where
  /-- The bytes that stand for the value. -/
  encode : α → Bytes
  /-- Takes the value back from the front of the bytes. -/
  decode : Decoder α

namespace Wire

/-- The number modulo `256 ^ width` in `width` bytes, the least first. -/
def number : Nat → Nat → Bytes
  | 0, _ => []
  | width + 1, n => UInt8.ofNat n :: number width (n / 256)

/-- The number that the bytes stand for, the least first. -/
def ofNumber : Bytes → Nat
  | [] => 0
  | b :: rest => b.toNat + 256 * ofNumber rest

/-- Takes `count` bytes, if there are so many. -/
def takeBytes (count : Nat) (otherwise : CodecFault) : Decoder Bytes := fun bs =>
  let front := bs.take count
  if front.length < count then .error otherwise else .ok (front, bs.drop count)

/-- Takes a number of `width` bytes. -/
def takeNumber (width : Nat) : Decoder Nat := do
  return ofNumber (← takeBytes width .endOfInput)

/-- A list of bytes: its length, then the bytes. -/
def block (bs : Bytes) : Bytes := number 8 bs.length ++ bs

/-- Takes a list of bytes. -/
def takeBlock : Decoder Bytes := do
  takeBytes (← takeNumber 8) .endOfInput

/-- A text: the length of its bytes, then the bytes. -/
def text (s : String) : Bytes := block (Text.bytes s)

/-- Takes a text. -/
def takeText : Decoder String := do
  let bs ← takeBytes (← takeNumber 8) .textTooShort
  match Text.ofBytes? bs with
  | some s => return s
  | none => throw (.notUtf8 ((Text.firstFault bs).getD ⟨0, none⟩))

/-- The number of an alternative. -/
def alternative (i : Nat) : Bytes := number 4 i

/-- Takes the number of one of `count` alternatives. -/
def takeAlternative (count : Nat) : Decoder (Fin count) := do
  let i ← takeNumber 4
  if h : i < count then return ⟨i, h⟩ else throw (.alternative i count)

/-- The value at the front of the bytes; what follows it is ignored. -/
def ofBytes [Wire α] (bs : Bytes) : Except CodecFault α := (decode.run bs).map (·.1)

end Wire

end RingStore
