/-! # The decimal text of binary numbers

A floating-point constant is kept as its 64 bits: a sign, an 11-bit exponent field and
a 52-bit fraction. Nothing here computes with such numbers; they are only taken apart,
so that their digits can be found with natural numbers alone.

A positive binary number is printed by the fewest decimal digits that read back as that
number (`Decimal.shortest`). The reals that read back form an interval around it
(`Neighbourhood`). On the grid of decimals with `n` digits only the two neighbours of the
number itself need be looked at: if any point of the grid lies in the interval, one of
them does. The first grid with a hit, from one digit on, gives the answer; of two hits the
nearer one, and at equal distance the larger. Everything is a comparison of naturals: a
real is a numerator over a common denominator, and a grid `10 ^ k` with negative `k`
multiplies the other side.

A `Decimal.Style` decides where the digits stand: in full, or as one digit, a point, the
others and a power of ten. -/
namespace KernelGen

/-! ## Double-precision numbers -/

/-- A binary64 number, given by its bits. -/
structure Binary64 where
  bits : UInt64
deriving DecidableEq

namespace Binary64

/-- What the bits denote. -/
inductive Value where
  | nan
  /-- Plus or minus infinity. -/
  | infinite (negative : Bool)
  /-- Plus or minus `m * 2 ^ q`. -/
  | finite (negative : Bool) (m : Nat) (q : Int)

/-- The 11 bits below the sign. -/
def exponentField (x : Binary64) : Nat := x.bits.toNat / Nat.pow 2 52 % Nat.pow 2 11

/-- The low 52 bits. -/
def fraction (x : Binary64) : Nat := x.bits.toNat % Nat.pow 2 52

/-- The sign bit is set. -/
def negative (x : Binary64) : Bool := decide (Nat.pow 2 63 ≤ x.bits.toNat)

/-- The highest exponent field holds the infinities (fraction zero) and the numbers that
are not numbers. Field zero is read like field one but without the leading bit. -/
def value (x : Binary64) : Value :=
  if x.exponentField = Nat.pow 2 11 - 1 then
    if x.fraction = 0 then .infinite x.negative else .nan
  else if x.exponentField = 0 then .finite x.negative x.fraction (-1074)
  else .finite x.negative (Nat.pow 2 52 + x.fraction) (x.exponentField - 1075)

/-- The bits denote no number; such a constant differs from every constant. -/
def isNaN (x : Binary64) : Bool :=
  decide (x.exponentField = Nat.pow 2 11 - 1) && decide (x.fraction ≠ 0)

/-- The next number towards zero is half as far away as the next one outwards. This is
so at every power of two except the lowest, where the exponent field stays. -/
def closerBelow (x : Binary64) : Bool :=
  decide (x.fraction = 0) && decide (1 < x.exponentField)

end Binary64

namespace Decimal

/-! ## The shortest digits -/

/-- A positive real `mid / den`, and the interval of the reals that are read as it. -/
structure Neighbourhood where
  /-- Numerator of the lower end. -/
  low : Nat
  /-- Numerator of the number itself. -/
  mid : Nat
  /-- Numerator of the upper end. -/
  high : Nat
  /-- The common denominator. -/
  den : Nat
  /-- The ends belong to the interval. -/
  closed : Bool

namespace Neighbourhood

/-- The neighbourhood of `m * 2 ^ q`, in quarters of `2 ^ q`: half a unit to each side,
or a quarter below if the next number down is that close. Ties are read as the even
number, so the ends belong to it exactly when `m` is even. -/
def ofBinary (m : Nat) (q : Int) (closerBelow : Bool) : Neighbourhood :=
  let scale := Nat.pow 2 (q - 2).toNat
  { low := (4 * m - if closerBelow then 1 else 2) * scale
    mid := 4 * m * scale
    high := (4 * m + 2) * scale
    den := Nat.pow 2 (2 - q).toNat
    closed := m % 2 == 0 }

/-- The size of one step of the grid `10 ^ k`, against `den`. -/
def step (r : Neighbourhood) (k : Int) : Nat := Nat.pow 10 k.toNat * r.den

/-- A numerator brought to the scale of `step`. -/
def scaled (k : Int) (n : Nat) : Nat := n * Nat.pow 10 (-k).toNat

/-- `d * 10 ^ k` is read as the number. -/
def contains (r : Neighbourhood) (d : Nat) (k : Int) : Bool :=
  let p := d * r.step k
  if r.closed then decide (scaled k r.low ≤ p) && decide (p ≤ scaled k r.high)
  else decide (scaled k r.low < p) && decide (p < scaled k r.high)

/-- The last point of the grid `10 ^ k` that is not above the number. -/
def below (r : Neighbourhood) (k : Int) : Nat := scaled k r.mid / r.step k

/-- Of `d` and `d + 1` on the grid `10 ^ k`, the one nearer to the number; at equal
distance the larger. -/
def nearer (r : Neighbourhood) (d : Nat) (k : Int) : Nat :=
  if 2 * scaled k r.mid < (2 * d + 1) * r.step k then d else d + 1

/-- The point of the grid `10 ^ k` that is read as the number and lies nearest to it. -/
def onGrid? (r : Neighbourhood) (k : Int) : Option Nat :=
  let d := r.below k
  match r.contains d k, r.contains (d + 1) k with
  | true, true => some (r.nearer d k)
  | true, false => some d
  | false, true => some (d + 1)
  | false, false => none

/-- The `e` with `10 ^ e ≤ mid / den < 10 ^ (e + 1)`. -/
def leadingExponent (r : Neighbourhood) : Int :=
  if r.den ≤ r.mid then (Nat.toDigits 10 (r.mid / r.den)).length - 1
  else -(Nat.toDigits 10 ((r.den - 1) / r.mid)).length

/-- The first hit on the grids `10 ^ k`, `10 ^ (k - 1)`, …, of which there are `tries`;
without a hit the point just below the number on the grid after them. -/
def search (r : Neighbourhood) (k : Int) : Nat → Nat × Int
  | 0 => (r.below k, k)
  | tries + 1 =>
    match r.onGrid? k with
    | some d => (d, k)
    | none => r.search (k - 1) tries

end Neighbourhood

/-- Decimal digits and the power of ten at which the first of them stands. -/
structure Digits where
  digits : List Char
  exponent : Int

/-- The digits of `d * 10 ^ k`, with no zero at the end. -/
def Digits.ofGrid (d : Nat) (k : Int) : Digits :=
  let all := Nat.toDigits 10 d
  ⟨(all.reverse.dropWhile (· == '0')).reverse, all.length - 1 + k⟩

/-- The shortest digits of `m * 2 ^ q`, for positive `m`. Seventeen digits tell any two
binary64 numbers apart, so no search goes beyond them. -/
def shortest (m : Nat) (q : Int) (closerBelow : Bool) : Digits :=
  let r := Neighbourhood.ofBinary m q closerBelow
  let (d, k) := r.search r.leadingExponent 17
  Digits.ofGrid d k

/-! ## How digits are laid out -/

/-- The choices of a number format. -/
structure Style where
  /-- The lowest exponent of a leading digit that is still written in full. -/
  lowest : Int
  /-- The highest such exponent. -/
  highest : Int
  /-- What stands before the power of ten. -/
  exponentMark : String
  /-- What stands for a number that is none. -/
  nan : String
  /-- What stands for infinity. -/
  infinity : String

namespace Style

/-- The digits in full, with at least one on each side of the point. -/
def inFull (d : Digits) : String :=
  if d.exponent < 0 then
    "0." ++ String.ofList (List.replicate ((-d.exponent).toNat - 1) '0' ++ d.digits)
  else
    let whole := d.exponent.toNat + 1
    let padding := List.replicate (whole - d.digits.length) '0'
    let places := d.digits.drop whole
    String.ofList (d.digits.take whole ++ padding) ++ "." ++
      (if places.isEmpty then "0" else String.ofList places)

/-- One digit, the others behind a point if there are any, and the power of ten. -/
def withExponent (style : Style) (d : Digits) : String :=
  let mantissa := match d.digits with
    | [] => "0"
    | [c] => String.singleton c
    | c :: cs => String.ofList (c :: '.' :: cs)
  mantissa ++ style.exponentMark ++ toString d.exponent

/-- The text of a number. Zero keeps its sign. -/
def text (style : Style) (x : Binary64) : String :=
  let signed (negative : Bool) (s : String) := if negative then "-" ++ s else s
  match x.value with
  | .nan => style.nan
  | .infinite negative => signed negative style.infinity
  | .finite negative 0 _ => signed negative "0.0"
  | .finite negative m q =>
    let d := shortest m q x.closerBelow
    signed negative <|
      if style.lowest ≤ d.exponent ∧ d.exponent ≤ style.highest then inFull d
      else style.withExponent d

end Style

end Decimal

end KernelGen
