import RingStore.Json.Value

/-!
# Bodies of writes

A write over HTTP carries an object with a member `value`; a list of just that value does as well.
Other members are passed over, and so is all that follows the object. A text is stored as it is, and
any other value as its compact text.
-/

namespace RingStore

namespace Gateway

/-- Why a body is refused. -/
inductive BodyFault
  /-- It is not well formed. -/
  | malformed
  /-- It is well formed, but not what a write carries. -/
  | wrongShape
  deriving DecidableEq, Repr

/-- The name of the member that holds the value. -/
def valueName : String := "value"

/-- Nothing was read, or something with what follows it. -/
def wellFormed {α : Type} (r : Option α) : Except BodyFault α :=
  match r with
  | some a => .ok a
  | none => .error .malformed

/-- Reads on in the object of a body, over at most `steps` members, with the value so far. -/
def readMembers : Nat → Bool → Option Json → Bytes → Except BodyFault Json
  | 0, _, _, _ => .error .malformed
  | steps + 1, first, sofar, bs => do
    match Json.skipBlanks bs, sofar with
    | 125 :: _, some value => return value
    | 125 :: _, none => throw .wrongShape
    | b :: rest, _ =>
      let here := if first then b :: rest else if b = 44 then Json.skipBlanks rest else []
      let .cons 34 quoted := here | throw .malformed
      let (name, rest) ← wellFormed (Json.readQuoted quoted)
      if name = valueName ∧ sofar.isSome then throw .wrongShape
      let .cons 58 rest := Json.skipBlanks rest | throw .malformed
      if name = valueName then
        let (value, rest) ← wellFormed (Json.readValue (Json.depthLimit - 1) rest)
        readMembers steps false (some value) rest
      else readMembers steps false sofar (← wellFormed (Json.skipValue rest))
    | [], _ => throw .malformed

/-- Reads the value of a body that is a list. -/
def readList (bs : Bytes) : Except BodyFault Json := do
  match Json.skipBlanks bs with
  | 93 :: _ => throw .wrongShape
  | bs =>
    let (value, rest) ← wellFormed (Json.readValue (Json.depthLimit - 1) bs)
    match Json.skipBlanks rest with
    | 93 :: _ => return value
    | _ => throw .malformed

/-- The value that a body carries. -/
def readBody (bs : Bytes) : Except BodyFault Json := do
  match Json.skipBlanks bs with
  | 123 :: rest => readMembers (rest.length + 1) true none rest
  | 91 :: rest => readList rest
  | bs =>
    let _ ← wellFormed (Json.readValue Json.depthLimit bs)
    throw .wrongShape

/-- The text that is stored for a value. -/
def storedText : Json → String
  | .text s => s
  | value => value.compact

end Gateway

end RingStore
