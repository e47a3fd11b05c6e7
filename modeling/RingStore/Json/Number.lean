import RingStore.Json

/-!
# Reading JSON numbers

Digits are taken into a 64-bit number as long as it holds them; from the first one that does not
fit, the rest of their run is dropped, and those before the point count as places. What is no whole
number in range becomes the double nearest to the digits, multiplied or divided by a power of ten.
-/

namespace RingStore

namespace Json

/-- A decimal digit. -/
def isDigit (b : UInt8) : Bool := 48 ≤ b && b ≤ 57

/-- The digits at the front of the bytes, and the rest. -/
def digitRun (bs : Bytes) : List Nat × Bytes :=
  ((bs.takeWhile isDigit).map (·.toNat - 48), bs.dropWhile isDigit)

theorem length_digitRun (bs : Bytes) :
    (digitRun bs).1.length + (digitRun bs).2.length = bs.length := by
  simp only [digitRun, List.length_map]
  rw [← List.length_append, List.takeWhile_append_dropWhile]

/-- Takes digits in as long as the number stays within 64 bits: the number, how many digits were
taken, and how many are left. -/
def absorb (n : Nat) : List Nat → Nat × Nat × Nat
  | [] => (n, 0, 0)
  | d :: rest =>
    if n * 10 + d < Nat.pow 2 64 then
      let (m, taken, left) := absorb (n * 10 + d) rest
      (m, taken + 1, left)
    else (n, 0, rest.length + 1)

/-- The powers of ten up to the greatest that a double holds, found when the first one is needed. -/
def powersOfTen : Thunk (Array Float) :=
  ⟨fun () => (Array.range 309).map (Float.ofScientific 1 false)⟩

/-- A power of ten, the exponent being at most 308. -/
def powerOfTen (n : Nat) : Float := powersOfTen.get.getD n 0

/-- Divides by powers of ten until the exponent can be met by a single one. -/
def scaleDown : Nat → Float → Int → Float × Int
  | 0, x, e => (x, e)
  | steps + 1, x, e =>
    if x == 0 then (x, 0)
    else if e < -308 then scaleDown steps (x / powerOfTen 308) (e + 308)
    else (x, e)

/-- The double of a number times a power of ten, if it is in range. Three divisions bring any
64-bit number down to zero. -/
def toDouble (n : Nat) (e : Int) : Option Float :=
  let x := (UInt64.ofNat n).toFloat
  if e < 0 then
    let (x, e) := scaleDown 3 x e
    some (if e < -308 then 0 else x / powerOfTen e.natAbs)
  else if 308 < e then if n = 0 then some x else none
  else
    let y := x * powerOfTen e.toNat
    if y.isInf then none else some y

/-- An exponent beyond this counts as out of all range. -/
def exponentLimit : Nat := 2147483647

/-- The number that the digits make, or the least that is out of all range if it is beyond. -/
def exponentOf (digits : List Nat) : Nat :=
  digits.foldl (fun n d => min (n * 10 + d) (exponentLimit + 1)) 0

/-- Reads what follows the digits of a number that is no whole number: the exponent, if there is
one. -/
def readExponent (negative : Bool) (n : Nat) (places : Int) (bs : Bytes) :
    Option (Json × Bytes) := do
  let signed (x : Float) : Json := double (if negative then -x else x)
  match bs with
  | b :: rest =>
    if b = 101 ∨ b = 69 then
      let (down, rest) := match rest with
        | c :: more =>
          if c = 43 then (false, more) else if c = 45 then (true, more) else (false, rest)
        | [] => (false, [])
      let (digits, rest) := digitRun rest
      if digits.isEmpty then none
      else
        let e := exponentOf digits
        if exponentLimit < e then
          if n ≠ 0 ∧ !down then none else return (signed 0, rest)
        else return (signed (← toDouble n (places + if down then -(e : Int) else e)), rest)
    else return (signed (← toDouble n places), bs)
  | [] => return (signed (← toDouble n places), bs)

/-- Reads a number whose sign has been read. -/
def readUnsigned (negative : Bool) (bs : Bytes) : Option (Json × Bytes) :=
  let (digits, rest) := digitRun bs
  match digits with
  | [] => none
  | first :: more =>
    if first = 0 ∧ more ≠ [] then none
    else
      let (n, _, left) := absorb 0 digits
      match rest with
      | 46 :: behind =>
        let (places, rest) := digitRun behind
        if places.isEmpty then none
        else
          let (n, taken, _) := absorb n places
          readExponent negative n ((left : Int) - taken) rest
      | b :: _ =>
        if b = 101 ∨ b = 69 ∨ 0 < left then readExponent negative n left rest
        else wholeNumber negative n rest
      | [] => if 0 < left then readExponent negative n left rest else wholeNumber negative n rest
where
  /-- A number without point and exponent that fits in 64 bits. -/
  wholeNumber (negative : Bool) (n : Nat) (rest : Bytes) : Option (Json × Bytes) :=
    if negative then
      if n = 0 ∨ Nat.pow 2 63 < n then some (double (-(UInt64.ofNat n).toFloat), rest)
      else some (whole (-(n : Int)), rest)
    else some (whole n, rest)

/-- Reads a number. -/
def readNumber : Bytes → Option (Json × Bytes)
  | 45 :: rest => readUnsigned true rest
  | bs => readUnsigned false bs

end Json

end RingStore
