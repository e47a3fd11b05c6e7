/-!
# Numerals

Decimal numbers as file names and command lines write them: an optional plus sign, then digits, of
which any number may be leading zeros.
-/

namespace RingStore

namespace Numeral

/-- Why a text is no number in range. -/
inductive Problem
  /-- There is nothing to read. -/
  | empty
  /-- Something other than a digit stands there. -/
  | invalidDigit
  /-- The number is too large. -/
  | tooLarge
  deriving DecidableEq, Repr

/-- The wording of the problem. -/
def Problem.message : Problem → String
  | .empty => "cannot parse integer from empty string"
  | .invalidDigit => "invalid digit found in string"
  | .tooLarge => "number too large to fit in target type"

/-- The value of a decimal digit. -/
def digit? (c : Char) : Option Nat := if c.isDigit then some (c.toNat - 48) else none

/-- Reads on, with the value of the digits read so far. -/
def readDigits (greatest : Nat) : Nat → List Char → Except Problem Nat
  | value, [] => .ok value
  | value, c :: rest =>
    match digit? c with
    | none => .error .invalidDigit
    | some d =>
      let value := value * 10 + d
      if greatest < value then .error .tooLarge else readDigits greatest value rest

/-- Reads a number up to `greatest`. -/
def read (greatest : Nat) (s : String) : Except Problem Nat :=
  match s.toList with
  | [] => .error .empty
  | ['+'] => .error .invalidDigit
  | '+' :: digits => readDigits greatest 0 digits
  | digits => readDigits greatest 0 digits

end Numeral

end RingStore
