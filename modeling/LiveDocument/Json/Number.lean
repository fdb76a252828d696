import LiveDocument.Value.Basic

/-!
# Numbers in JSON text

A literal without fraction and exponent is an integer when a signed or an unsigned 64-bit word
holds it; `-0` and every other literal is a float. The digits of a float are gathered into an
unsigned word as long as they fit and the rest only move the exponent. The word is rounded to
binary64 and then multiplied or divided by the binary64 number nearest to the power of ten, so
a literal of many digits may read as a neighbour of the nearest number. A literal beyond the
largest number is refused.
-/

namespace LiveDocument.Json

/-- The largest unsigned 64-bit word. -/
def wordMax : Nat :=
  18446744073709551615

/-- The largest power of ten that binary64 holds has this exponent. -/
def greatestPower : Nat :=
  308

/-- The binary64 number nearest to a power of ten. -/
def powerOfTen (exponent : Nat) : Binary64 :=
  Binary64.ofInt (Nat.pow 10 exponent)

/-- Scales a number by a power of ten; two steps of the greatest power turn every word into
zero, so three steps suffice. -/
def scaleByTen (x : Binary64) (exponent : Int) : (steps : Nat) → Option Binary64
  | 0 => some (Binary64.zero x.negative)
  | steps + 1 =>
    if exponent.natAbs ≤ greatestPower then
      if 0 ≤ exponent then x.mul? (powerOfTen exponent.natAbs)
      else x.div? (powerOfTen exponent.natAbs)
    else if x.significand = 0 then some x
    else if 0 ≤ exponent then none
    else (x.div? (powerOfTen greatestPower)).bind fun y =>
      scaleByTen y (exponent + greatestPower) steps

/-- The float of a gathered word and an exponent. -/
def floatOf? (negative : Bool) (word : Nat) (exponent : Int) : Option Value :=
  (scaleByTen (Binary64.ofInt word) exponent 3).map fun x =>
    .float { x with negative := negative }

/-- Digits gathered into a word: the word, how many digits went into it, how many did not fit,
and the rest of the text. -/
structure Gathered where
  word : Nat
  taken : Nat
  dropped : Nat
  rest : List Char

/-- Gathers digits onto a word as long as they fit. -/
def gather (word taken : Nat) : List Char → Gathered
  | [] => ⟨word, taken, 0, []⟩
  | c :: cs =>
    if c.isDigit then
      let next := word * 10 + Text.digitValue c
      if next ≤ wordMax then gather next (taken + 1) cs
      else ⟨word, taken, 1 + (cs.takeWhile Char.isDigit).length, cs.dropWhile Char.isDigit⟩
    else ⟨word, taken, 0, c :: cs⟩

/-- The exponents that are read digit by digit are those of a signed 32-bit word; a greater
one is beyond every float. -/
def exponentMax : Nat :=
  2147483647

/-- Reads the digits of an exponent and makes the float. -/
def readExponentDigits (negative : Bool) (word : Nat) (shift : Int) (down : Bool)
    (cs : List Char) : Option (Value × List Char) :=
  let ds := cs.takeWhile Char.isDigit
  let rest := cs.dropWhile Char.isDigit
  if ds.isEmpty then none
  else
    let size := Text.digitsValue ds
    if exponentMax < size then
      if word ≠ 0 ∧ !down then none
      else some (.float (Binary64.zero negative), rest)
    else
      let exponent := if down then shift - size else shift + size
      (floatOf? negative word exponent).map fun v => (v, rest)

/-- Reads an exponent, if one follows, and makes the float. -/
def readExponent (negative : Bool) (word : Nat) (shift : Int) :
    List Char → Option (Value × List Char)
  | c :: cs =>
    if c = 'e' ∨ c = 'E' then
      match cs with
      | '+' :: ds => readExponentDigits negative word shift false ds
      | '-' :: ds => readExponentDigits negative word shift true ds
      | ds => readExponentDigits negative word shift false ds
    else (floatOf? negative word shift).map fun v => (v, c :: cs)
  | [] => (floatOf? negative word shift).map fun v => (v, [])

/-- The value of an integer literal: `-0` and what no 64-bit word holds are floats. -/
def integerOf? (negative : Bool) (word : Nat) : Option Value :=
  if negative then
    if word = 0 ∨ 9223372036854775808 < word then floatOf? true word 0
    else (Integer.ofInt? (-(word : Int))).map .integer
  else (Integer.ofInt? word).map .integer

/-- Reads what follows the whole part of a literal. -/
def readAfterWhole (negative : Bool) (whole : Gathered) : Option (Value × List Char) :=
  match whole.rest with
  | '.' :: cs =>
    let part := gather whole.word 0 cs
    if part.taken = 0 ∧ part.dropped = 0 then none
    else readExponent negative part.word ((whole.dropped : Int) - part.taken) part.rest
  | rest =>
    let exponentFollows := match rest with
      | c :: _ => c == 'e' || c == 'E'
      | [] => false
    if whole.dropped = 0 ∧ !exponentFollows then
      (integerOf? negative whole.word).map fun v => (v, rest)
    else readExponent negative whole.word whole.dropped rest

/-- Reads the digits of a literal; a whole part of several digits does not start with zero. -/
def readDigits (negative : Bool) : List Char → Option (Value × List Char)
  | '0' :: cs =>
    match cs with
    | c :: _ => if c.isDigit then none else readAfterWhole negative ⟨0, 1, 0, cs⟩
    | [] => readAfterWhole negative ⟨0, 1, 0, cs⟩
  | c :: cs => if c.isDigit then readAfterWhole negative (gather 0 0 (c :: cs)) else none
  | [] => none

def readNumber : List Char → Option (Value × List Char)
  | '-' :: cs => readDigits true cs
  | cs => readDigits false cs

end LiveDocument.Json
