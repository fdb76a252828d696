import LiveDocument.Number.Shortest
import LiveDocument.Text.Numeral

/-!
# Float text

A float is written with its shortest digits, in positional notation near one and with an
exponent far from it. Positional text always has a fractional part. The formats differ only in
the sign of a positive exponent.
-/

namespace LiveDocument.Binary64

/-- How a format writes floats. The point stands `place` digits after the first digit's left
side; positional notation serves the places above `lowest` and up to `highest`. -/
structure Layout where
  lowest : Int := -5
  highest : Int := 16
  plusSign : Bool
  deriving DecidableEq

/-- Drops the zeros at the end of a list of digits. -/
def dropTrailingZeros (ds : List Char) : List Char :=
  (ds.reverse.dropWhile (· == '0')).reverse

/-- Digits with a point after the first, if there are more. -/
def withPoint : List Char → List Char
  | [] => ['0']
  | [d] => [d]
  | d :: ds => d :: '.' :: ds

/-- The text of `0.d₁d₂… · 10 ^ place`. -/
def Layout.place (l : Layout) (ds : List Char) (place : Int) : List Char :=
  if l.lowest < place && place ≤ 0 then
    '0' :: '.' :: (List.replicate (-place).toNat '0' ++ ds)
  else if 0 < place && place ≤ l.highest then
    if ds.length ≤ place.toNat then
      ds ++ List.replicate (place.toNat - ds.length) '0' ++ ['.', '0']
    else ds.take place.toNat ++ '.' :: ds.drop place.toNat
  else
    let sign := if l.plusSign && 0 < place - 1 then ['+'] else []
    withPoint ds ++ 'e' :: (sign ++ Text.decimalInt (place - 1))

def Layout.render (l : Layout) (x : Binary64) : List Char :=
  let sign := if x.negative then ['-'] else []
  if x.significand = 0 then sign ++ ['0', '.', '0']
  else
    let d := x.shortest
    let written := Text.decimal d.digits
    sign ++ l.place (dropTrailingZeros written) (d.exponent + written.length)

end LiveDocument.Binary64
