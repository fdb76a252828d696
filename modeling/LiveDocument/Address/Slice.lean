import LiveDocument.Number.Integer
import LiveDocument.Text.Delimited

/-!
# Slices

A selection `start:stop:step` of places of a sequence. An absent step is one; a negative bound
counts from the end; the bounds are clamped to the sequence, and absent bounds are its two
ends in the direction of the step. All of this is reckoned in signed words, also the length; the
places are the unsigned words that agree with them.
-/

namespace LiveDocument

/-- A selection of places of a sequence. -/
structure Slice where
  start : Option Int64
  stop : Option Int64
  step : Option Int64
  deriving DecidableEq

namespace Slice

/-- The canonical text: always three parts, an absent one empty. -/
def text (s : Slice) : List Char :=
  let part (p : Option Int64) : List Char := (p.map Position.text).getD []
  part s.start ++ ':' :: (part s.stop ++ ':' :: part s.step)

/-- Reads one part of a slice: nothing, or a numeral of a signed word. -/
def readPart? (cs : List Char) : Option (Option Int64) :=
  if cs.isEmpty then some none else (Position.read? cs).map some

/-- Reads two or three parts with colons between them. -/
def read? (cs : List Char) : Option Slice :=
  match Text.split [':'] cs with
  | [a, b] =>
    match readPart? a, readPart? b with
    | some start, some stop => some ⟨start, stop, none⟩
    | _, _ => none
  | [a, b, c] =>
    match readPart? a, readPart? b, readPart? c with
    | some start, some stop, some step => some ⟨start, stop, step⟩
    | _, _, _ => none
  | _ => none

def stride (s : Slice) : Int :=
  (s.step.map Int64.toInt).getD 1

/-- The least and the greatest bound in the direction of a step. -/
def limits (stride length : Int) : Int × Int :=
  if 0 < stride then (0, length) else (-1, Position.wrap (length - 1))

/-- A bound clamped to the sequence; a negative one counts from the end. -/
def clamp (stride length : Int) (bound : Option Int64) (absent : Int) : Int :=
  match bound with
  | none => absent
  | some b =>
    if b.toInt < 0 then max (Position.wrap (b.toInt + length)) (limits stride length).1
    else min b.toInt (limits stride length).2

def first (s : Slice) (length : Int) : Int :=
  let (lower, upper) := limits s.stride length
  clamp s.stride length s.start (if 0 < s.stride then lower else upper)

/-- The place before which the selection ends. -/
def bound (s : Slice) (length : Int) : Int :=
  let (lower, upper) := limits s.stride length
  clamp s.stride length s.stop (if 0 < s.stride then upper else lower)

/-- `i` lies strictly before `bound` in the direction of the step. -/
def before (stride i bound : Int) : Bool :=
  (decide (0 < stride) && decide (i < bound)) || (decide (stride < 0) && decide (bound < i))

/-- The places from `i` on, at most `fuel` of them. The walk also ends when the next place
leaves the signed words. -/
def placesFrom (stride bound : Int) : (fuel : Nat) → Int → List Nat
  | 0, _ => []
  | fuel + 1, i =>
    if before stride i bound then
      Position.unsigned i ::
        (if Position.fits (i + stride) then placesFrom stride bound fuel (i + stride) else [])
    else []

/-- The places that the slice selects from a sequence, in order; a step of zero selects
nothing and has no answer. No place occurs twice, so `length` many suffice. -/
def places? (s : Slice) (length : Nat) : Option (List Nat) :=
  let word := Position.wrap length
  if s.stride = 0 then none
  else some (placesFrom s.stride (s.bound word) length (s.first word))

end Slice

end LiveDocument
