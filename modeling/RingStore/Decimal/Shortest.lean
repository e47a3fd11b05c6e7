/-!
# The shortest decimal that reads back

A double stands for every real number that rounds to it. Of all decimals in that interval, one with
the fewest digits is chosen, and of these the nearest to the double. On the grid of decimals with a
given number of digits it is enough to try the two neighbours of the double: if a point of the grid
lies in the interval, so does one of them.
-/

namespace RingStore

namespace Decimal

/-- The decimal number `digits * 10 ^ exponent`. -/
structure Scaled where
  /-- The digits, as a number. -/
  digits : Nat
  /-- The power of ten. -/
  exponent : Int
  deriving DecidableEq, Repr

/-- A positive double is `mantissa * 2 ^ exponent`. -/
structure Binary where
  mantissa : Nat
  /-- The power of two. -/
  exponent : Int
  deriving DecidableEq, Repr

/-- Mantissa and exponent of a double, without its sign. -/
def Binary.ofFloat (x : Float) : Binary :=
  let bits : Nat := x.toBits.toNat
  let field : Nat := bits / Nat.pow 2 52 % Nat.pow 2 11
  let fraction : Nat := bits % Nat.pow 2 52
  if field = 0 then ⟨fraction, -1074⟩ else ⟨Nat.pow 2 52 + fraction, (field : Int) - 1075⟩

namespace Binary

/-- The double in units of a quarter of its last place. -/
def quarters (x : Binary) : Nat := 4 * x.mantissa

/-- The upper end of the interval, in quarters. -/
def upper (x : Binary) : Nat := x.quarters + 2

/-- The lower end of the interval, in quarters; the places below a power of two are half as wide. -/
def lower (x : Binary) : Nat :=
  if x.mantissa = Nat.pow 2 52 ∧ -1074 < x.exponent then x.quarters - 1 else x.quarters - 2

/-- A decimal exponent that the first digit of the double does not exceed, by two at most. A binary
place is worth a little less than 0.30103 decimal ones. -/
def topExponent (x : Binary) : Int := (Nat.log2 x.mantissa + x.exponent + 1) * 30103 / 100000 + 1

/-- The double and its interval, seen on the grid of decimals of one exponent. -/
structure Grid where
  exponent : Int
  /-- The least point in the interval. -/
  least : Nat
  /-- The greatest point in the interval. -/
  greatest : Nat
  /-- The point at the double or the next one below. -/
  below : Nat
  /-- The double is a point. -/
  exact : Bool

/-- The double on the grid of exponent `t`. The ends of the interval belong to it if the mantissa is
even. -/
def grid (x : Binary) (t : Int) : Grid :=
  let quarter := Nat.pow 10 (-t).toNat * Nat.pow 2 (x.exponent - 2).toNat
  let step := Nat.pow 10 t.toNat * Nat.pow 2 (2 - x.exponent).toNat
  let excluded := x.mantissa % 2
  { exponent := t
    least := (x.lower * quarter + step + excluded - 1) / step
    greatest := (x.upper * quarter - excluded) / step
    below := x.quarters * quarter / step
    exact := x.quarters * quarter % step = 0 }

/-- The grid whose steps are ten to the power `k` times as wide: the neighbour of the double there
that lies in the interval, if one does, and the nearer if both do; of two equally near ones the
even. -/
def Grid.coarser? (g : Grid) (k : Nat) : Option Scaled :=
  let width := Nat.pow 10 k
  let low := g.below / width
  let reads (point : Nat) : Bool := g.least ≤ point * width && point * width ≤ g.greatest
  let rest := 2 * (g.below % width)
  let nearer := if rest < width ∨ (rest = width ∧ g.exact ∧ low % 2 = 0) then low else low + 1
  let chosen? :=
    match reads low, reads (low + 1) with
    | false, false => none
    | true, false => some low
    | false, true => some (low + 1)
    | true, true => some nearer
  chosen?.map fun digits => ⟨digits, g.exponent + k⟩

/-- How much finer the finest grid is than the coarsest. Seventeen digits tell every double, and the
top exponent may be two too great. -/
def fineness : Nat := 20

/-- The shortest decimal that reads back as a positive double: the one found on the coarsest
grid. -/
def shortest (x : Binary) : Scaled :=
  let fine := x.grid (x.topExponent - fineness)
  let found := (List.range fineness).findSome? fun (n : Nat) => fine.coarser? (fineness - n)
  found.getD ⟨x.mantissa, x.exponent⟩

end Binary

end Decimal

end RingStore
