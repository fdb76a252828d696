import LiveDocument.Number.Binary64

/-!
# Shortest decimal digits

The decimal that stands for a binary64 number has as few digits as still read back as that
number, and among those is the nearest to it. A decimal reads back exactly when it lies in the
interval of reals that round to the number, and if any point of a decimal grid lies there, so
does one of the number's two neighbours on that grid; so grids of one digit, two digits and so
on are tried in turn. Everything is exact arithmetic on naturals.
-/

namespace LiveDocument.Binary64

/-- A decimal `digits · 10 ^ exponent`. -/
structure Decimal where
  digits : Nat
  exponent : Int
  deriving DecidableEq

/-- The reals that round to a positive number, as fractions with denominator `4 · 2 ^ 1074`:
the number itself and the two ends, which belong to the interval when `closed`. -/
structure Interval where
  low : Nat
  value : Nat
  high : Nat
  closed : Bool

def Interval.denominator : Nat :=
  4 * Nat.pow 2 1074

/-- The interval of a number. Below a power of two the numbers lie twice as close. -/
def interval (x : Binary64) : Interval where
  low :=
    if x.significand = Nat.pow 2 52 ∧ x.scale ≠ 0 then (4 * x.significand - 1) * Nat.pow 2 x.scale
    else (4 * x.significand - 2) * Nat.pow 2 x.scale
  value := 4 * x.significand * Nat.pow 2 x.scale
  high := (4 * x.significand + 2) * Nat.pow 2 x.scale
  closed := x.significand % 2 = 0

/-- `10 ^ exponent` does not exceed the fraction `num / den`. -/
def powerOfTenLe (exponent : Int) (num den : Nat) : Bool :=
  if 0 ≤ exponent then den * Nat.pow 10 exponent.toNat ≤ num
  else den ≤ num * Nat.pow 10 (-exponent).toNat

/-- Raises an exponent while the next power of ten does not exceed `num / den`. -/
def raiseExponent (num den : Nat) : (steps : Nat) → Int → Int
  | 0, e => e
  | steps + 1, e =>
    if powerOfTenLe (e + 1) num den then raiseExponent num den steps (e + 1) else e

/-- The greatest exponent of a power of ten that does not exceed `num / den`. The binary
logarithm times 0.30103 is off by less than two. -/
def leadingExponent (num den : Nat) : Int :=
  let log := (Nat.log2 num : Int) - Nat.log2 den
  raiseExponent num den 4 (log * 30103 / 100000 - 2)

/-- The neighbour of the number on the grid of multiples of `10 ^ exponent` that lies in the
interval: the nearer one if both do, the even one on a tie. -/
def Interval.hit? (i : Interval) (exponent : Int) : Option Nat :=
  let up := Nat.pow 10 (-exponent).toNat
  let unit := Interval.denominator * Nat.pow 10 exponent.toNat
  let below := i.value * up / unit
  let fromBelow := i.value * up - below * unit
  let toAbove := (below + 1) * unit - i.value * up
  let belowIn := i.low * up < below * unit || (i.closed && i.low * up == below * unit)
  let aboveIn := (below + 1) * unit < i.high * up ||
    (i.closed && (below + 1) * unit == i.high * up)
  match belowIn, aboveIn with
  | false, false => none
  | true, false => some below
  | false, true => some (below + 1)
  | true, true =>
    if fromBelow < toAbove then some below
    else if toAbove < fromBelow then some (below + 1)
    else if below % 2 = 0 then some below else some (below + 1)

def Interval.search (i : Interval) : (steps : Nat) → (exponent : Int) → Decimal
  | 0, exponent => ⟨i.value * Nat.pow 10 (-exponent).toNat / Interval.denominator, exponent⟩
  | steps + 1, exponent =>
    match i.hit? exponent with
    | some digits => ⟨digits, exponent⟩
    | none => i.search steps (exponent - 1)

/-- The shortest decimal of the number's magnitude: seventeen digits always suffice. -/
def shortest (x : Binary64) : Decimal :=
  if x.significand = 0 then ⟨0, 0⟩
  else
    let i := x.interval
    i.search 17 (leadingExponent i.value Interval.denominator)

end LiveDocument.Binary64
