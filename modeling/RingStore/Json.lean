import RingStore.Decimal.Shortest
import RingStore.Text
import Std.Data.TreeMap

/-!
# JSON values and their compact text

Objects keep their members in the order of the names, each name once. Whole numbers between -2^63
and 2^64 - 1 are kept as they are, and all others as doubles.
-/

namespace RingStore

/-- A JSON value. -/
inductive Json
  | null
  /-- A truth value. -/
  | bool (b : Bool)
  /-- A whole number. -/
  | whole (n : Int)
  /-- Any other number. -/
  | double (x : Float)
  | text (s : String)
  /-- A list of values. -/
  | array (items : List Json)
  /-- Named values. -/
  | object (members : List (String × Json))

namespace Json

/-- The members of an object in the order of their names: of those with one name, the last
counts. -/
def arrange (members : List (String × Json)) : List (String × Json) :=
  (Std.TreeMap.ofList members compare).toList

/-- A double is written out if the exponent of its first digit is in this range, and otherwise with
its exponent apart. -/
def writtenOut (exponent : Int) : Bool := -5 ≤ exponent && exponent ≤ 15

/-- The text of a positive decimal number with its digits stripped of trailing zeros. -/
def decimalText (d : Decimal.Scaled) : String :=
  let all := Nat.toDigits 10 d.digits
  let digits := (all.reverse.dropWhile (· == '0')).reverse
  let exponent := d.exponent + all.length - 1
  let zeros (n : Int) : List Char := List.replicate n.toNat '0'
  if writtenOut exponent then
    if exponent < 0 then "0." ++ String.ofList (zeros (-exponent - 1) ++ digits)
    else
      let whole := exponent.toNat + 1
      let back := digits.drop whole
      String.ofList (digits.take whole ++ zeros (whole - digits.length)) ++ "." ++
        (if back.isEmpty then "0" else String.ofList back)
  else
    let back := digits.drop 1
    String.ofList (digits.take 1) ++ (if back.isEmpty then "" else "." ++ String.ofList back) ++
      (if exponent < 0 then "e-" else "e+") ++ toString exponent.natAbs

/-- The text of a finite double. -/
def doubleText (x : Float) : String :=
  let sign := if x.toBits.toNat < Nat.pow 2 63 then "" else "-"
  let b := Decimal.Binary.ofFloat x
  sign ++ (if b.mantissa = 0 then "0.0" else decimalText b.shortest)

/-- A hexadecimal digit. -/
def hexDigit (n : Nat) : Char := if n < 10 then Char.ofNat (48 + n) else Char.ofNat (87 + n)

/-- A character inside quotes. -/
def quotedChar (c : Char) : List Char :=
  match c with
  | '"' => ['\\', '"']
  | '\\' => ['\\', '\\']
  | '\n' => ['\\', 'n']
  | '\r' => ['\\', 'r']
  | '\t' => ['\\', 't']
  | c =>
    if c.toNat = 8 then ['\\', 'b']
    else if c.toNat = 12 then ['\\', 'f']
    else if c.toNat < 32 then
      ['\\', 'u', '0', '0', hexDigit (c.toNat / 16), hexDigit (c.toNat % 16)]
    else [c]

/-- A text in quotes. -/
def quoted (s : String) : String := String.ofList ('"' :: s.toList.flatMap quotedChar ++ ['"'])

mutual

/-- The compact text of a value. -/
def compact : Json → String
  | null => "null"
  | bool b => if b then "true" else "false"
  | whole n => toString n
  | double x => doubleText x
  | text s => quoted s
  | array items => "[" ++ ",".intercalate (compactItems items) ++ "]"
  | object members => "\x7b" ++ ",".intercalate (compactMembers members) ++ "\x7d"

/-- The compact texts of the items of a list. -/
def compactItems : List Json → List String
  | [] => []
  | item :: rest => compact item :: compactItems rest

/-- The compact texts of the members of an object. -/
def compactMembers : List (String × Json) → List String
  | [] => []
  | (name, value) :: rest => (quoted name ++ ":" ++ compact value) :: compactMembers rest

end

end Json

end RingStore
