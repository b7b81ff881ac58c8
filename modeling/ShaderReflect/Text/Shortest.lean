/-!
# The shortest decimal of a binary fraction

A binary fraction `m · 2 ^ q` stands for an interval of numbers, those that are rounded to it. Its
shortest decimal is the point of that interval that needs the fewest digits; of two that need as
many, the nearer one; of two as near, the larger one.

The points of `d · 10 ^ e` with `d` a whole number make a grid for every `e`. `shortest` tries
coarser grids first. If a grid has a point in the interval, one of the two neighbours of the
fraction on the grid is in it, so only those two are tried.

All arithmetic is exact, on natural numbers. The unit of the interval is a quarter of `2 ^ q`.
-/

namespace ShaderReflect.Text

/-- A positive binary fraction, with what decides which numbers are rounded to it. -/
structure BinaryFraction where
  mantissa : Nat
  exponent : Int
  /-- Whether the next smaller fraction is only half as far away as the next larger one. -/
  isNarrowBelow : Bool

/-- A decimal `digits · 10 ^ exponent`. -/
structure Decimal where
  digits : Nat
  exponent : Int
deriving DecidableEq, Repr

namespace BinaryFraction

/-- The fraction in quarters of `2 ^ exponent`. -/
def value (x : BinaryFraction) : Nat := 4 * x.mantissa

/-- The lower end of the interval, in the same unit. -/
def lower (x : BinaryFraction) : Nat :=
  4 * x.mantissa - (if x.isNarrowBelow then 1 else 2)

/-- The upper end of the interval, in the same unit. -/
def upper (x : BinaryFraction) : Nat := 4 * x.mantissa + 2

/-- The ends belong to the interval exactly if the mantissa is even. -/
def includesEnds (x : BinaryFraction) : Bool := x.mantissa % 2 = 0

/-- Numbers `a` and `b` such that `n` quarters of `2 ^ q` are `n · a / b` steps of the grid of
`10 ^ e`. -/
def gridRatio (q e : Int) : Nat × Nat :=
  (Nat.pow 2 (q - 2).toNat * Nat.pow 10 (-e).toNat,
    Nat.pow 2 (2 - q).toNat * Nat.pow 10 e.toNat)

/-- Whether point `d` of the grid with the given ratio is in the interval. -/
def contains (x : BinaryFraction) (ratio : Nat × Nat) (d : Nat) : Bool :=
  let (a, b) := ratio
  if x.includesEnds then x.lower * a ≤ d * b ∧ d * b ≤ x.upper * a
  else x.lower * a < d * b ∧ d * b < x.upper * a

/-- The better neighbour of the fraction on a grid, of those in the interval. -/
def neighbour? (x : BinaryFraction) (ratio : Nat × Nat) : Option Nat :=
  let (a, b) := ratio
  let below := x.value * a / b
  let isBelow := 0 < below ∧ x.contains ratio below
  let isAbove := x.contains ratio (below + 1) = true
  let isAboveNearer := (below + 1) * b - x.value * a ≤ x.value * a - below * b
  if isAbove ∧ (¬ isBelow ∨ isAboveNearer) then some (below + 1)
  else if isBelow then some below
  else none

/-- Try the grids of `10 ^ e` and of as many smaller powers as given. -/
def shortestFrom (x : BinaryFraction) : Nat → Int → Decimal
  | 0, e => ⟨x.value * (gridRatio x.exponent e).1 / (gridRatio x.exponent e).2, e⟩
  | n + 1, e =>
    match x.neighbour? (gridRatio x.exponent e) with
    | some d => ⟨d, e⟩
    | none => shortestFrom x n (e - 1)

/-- The shortest decimal. The first grid tried has no point in the interval but zero, and the last
one has steps smaller than the interval. -/
def shortest (x : BinaryFraction) : Decimal :=
  let bits := x.mantissa.log2 + 1
  x.shortestFrom (bits + 4) ((bits + x.exponent) * 30103 / 100000 + 2)

end BinaryFraction

/-- A decimal in positional notation, without an exponent. -/
def Decimal.positional (x : Decimal) : List Char :=
  let digits := Nat.toDigits 10 x.digits
  if 0 ≤ x.exponent then digits ++ List.replicate x.exponent.toNat '0'
  else
    let places := (-x.exponent).toNat
    if places < digits.length then
      digits.take (digits.length - places) ++ '.' :: digits.drop (digits.length - places)
    else
      '0' :: '.' :: (List.replicate (places - digits.length) '0' ++ digits)

end ShaderReflect.Text
