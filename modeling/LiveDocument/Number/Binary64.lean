/-!
# Finite binary64 numbers

A finite number of the binary64 format is held as its sign, its significand and its scale: it
is `± significand · 2 ^ scale` units of `2 ^ -1074`. Every finite number has one such form for
each sign, so the two zeros are the only numbers that compare equal and are not the same.

* `nearest?` rounds a nonnegative fraction to the nearest number, a tie to the even
  significand; it fails on a fraction that rounds beyond the largest number.
* `ofInt` is total: every stored integer is far below the largest number.
-/

namespace LiveDocument

/-- A finite binary64 number: `± significand · 2 ^ scale` units of `2 ^ -1074`. -/
structure Binary64 where
  negative : Bool
  significand : Nat
  scale : Nat
  significand_lt : significand < Nat.pow 2 53 := by decide
  normal : scale = 0 ∨ Nat.pow 2 52 ≤ significand := by decide
  scale_le : scale ≤ 2045 := by decide
  deriving DecidableEq

namespace Binary64

/-- The number in units of `2 ^ -1074`. -/
def units (x : Binary64) : Int :=
  if x.negative then -((x.significand * Nat.pow 2 x.scale : Nat) : Int)
  else ((x.significand * Nat.pow 2 x.scale : Nat) : Int)

/-- Equal as numbers: the two zeros are equal. -/
def same (x y : Binary64) : Bool :=
  x.units == y.units

def order (x y : Binary64) : Ordering :=
  if x.units < y.units then .lt else if x.units = y.units then .eq else .gt

def zero (negative : Bool) : Binary64 where
  negative := negative
  significand := 0
  scale := 0

/-- A quotient rounded to the nearest natural number, a tie to the even one. -/
def roundQuotient (num den : Nat) : Nat :=
  let q := num / den
  let r := num % den
  if 2 * r < den then q
  else if den < 2 * r then q + 1
  else if q % 2 = 0 then q else q + 1

/-- The number with this significand and scale, if they are those of a finite number; a
significand of `2 ^ 53` is halved. -/
def ofParts? (negative : Bool) (significand scale : Nat) : Option Binary64 :=
  if h : significand < Nat.pow 2 53 ∧ (scale = 0 ∨ Nat.pow 2 52 ≤ significand) ∧ scale ≤ 2045 then
    some ⟨negative, significand, scale, h.1, h.2.1, h.2.2⟩
  else if h : significand = Nat.pow 2 53 ∧ scale + 1 ≤ 2045 then
    some ⟨negative, Nat.pow 2 52, scale + 1, by decide, Or.inr (Nat.le_refl _), h.2⟩
  else none

/-- The number nearest to `num / den`, a tie to the even significand. -/
def nearest? (negative : Bool) (num den : Nat) : Option Binary64 :=
  let units := num * Nat.pow 2 1074
  let scale := Nat.log2 (units / den) - 52
  ofParts? negative (roundQuotient units (den * Nat.pow 2 scale)) scale

/-- The number nearest to `significand · 10 ^ exponent`. Exponents far outside the range of the
format are answered without raising ten to them. -/
def ofDecimal? (negative : Bool) (significand : Nat) (exponent : Int) : Option Binary64 :=
  let digits := (Nat.log2 significand : Int) / 4
  if significand = 0 then some (zero negative)
  else if 310 < exponent + digits then none
  else if exponent + 2 * digits < -400 then some (zero negative)
  else if 0 ≤ exponent then nearest? negative (significand * Nat.pow 10 exponent.toNat) 1
  else nearest? negative significand (Nat.pow 10 (-exponent).toNat)

def ofInteger? (i : Int) : Option Binary64 :=
  nearest? (i < 0) i.natAbs 1

/-- The number nearest to an integer; a zero stands for what is beyond the format. -/
def ofInt (i : Int) : Binary64 :=
  (ofInteger? i).getD (zero false)

/-- The product, rounded to the nearest number. -/
def mul? (x y : Binary64) : Option Binary64 :=
  nearest? (x.negative != y.negative)
    (x.significand * y.significand * Nat.pow 2 (x.scale + y.scale)) (Nat.pow 2 2148)

/-- The quotient, rounded to the nearest number. -/
def div? (x y : Binary64) : Option Binary64 :=
  nearest? (x.negative != y.negative) (x.significand * Nat.pow 2 x.scale)
    (y.significand * Nat.pow 2 y.scale)

end Binary64

end LiveDocument
