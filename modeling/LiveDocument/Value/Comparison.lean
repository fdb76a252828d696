import LiveDocument.Value.Basic
import LiveDocument.Value.Entries

/-!
# Comparing values

Equality and order as a reader of the document sees them. Numbers are equal by value: two
integers of a signed word compare as integers, any other two numbers as binary64. Mappings are
equal whatever the order of their entries. Only values of one shape are ordered, and mappings
never are.
-/

namespace LiveDocument.Value

def toBinary64? : Value → Option Binary64
  | .integer i => some (Binary64.ofInt i.val)
  | .float x => some x
  | _ => none

def toSigned? : Value → Option Int64
  | .integer i => i.signed?
  | _ => none

def equalNumbers (a b : Value) : Bool :=
  match a.toSigned?, b.toSigned? with
  | some i, some j => i == j
  | _, _ =>
    match a.toBinary64?, b.toBinary64? with
    | some x, some y => x.same y
    | _, _ => false

def compareNumbers (a b : Value) : Option Ordering :=
  match a.toSigned?, b.toSigned? with
  | some i, some j => some (compare i.toInt j.toInt)
  | _, _ =>
    match a.toBinary64?, b.toBinary64? with
    | some x, some y => some (x.order y)
    | _, _ => none

/-- The lexicographic order of texts by code point. -/
def compareText : List Char → List Char → Ordering
  | [], [] => .eq
  | [], _ :: _ => .lt
  | _ :: _, [] => .gt
  | a :: as, b :: bs =>
    if a.toNat < b.toNat then .lt else if b.toNat < a.toNat then .gt else compareText as bs

mutual

/-- Equality of values, numbers by value and mappings without regard to order. -/
def equals : Value → Value → Bool
  | .null, .null => true
  | .boolean a, .boolean b => a == b
  | .string a, .string b => a == b
  | .integer i, .integer j => equalNumbers (.integer i) (.integer j)
  | .integer i, .float y => equalNumbers (.integer i) (.float y)
  | .float x, .integer j => equalNumbers (.float x) (.integer j)
  | .float x, .float y => equalNumbers (.float x) (.float y)
  | .sequence as, .sequence bs => as.length == bs.length && equalsAll as bs
  | .mapping as, .mapping bs => as.length == bs.length && includes as bs
  | _, _ => false

/-- Equality of the elements that two lists have at the same places. -/
def equalsAll : List Value → List Value → Bool
  | a :: as, b :: bs => equals a b && equalsAll as bs
  | _, _ => true

/-- Every entry of the first list has an equal value under its key in the second. -/
def includes : List (String × Value) → List (String × Value) → Bool
  | [], _ => true
  | (k, a) :: as, bs =>
    (match Entries.get? k bs with
      | some b => equals a b
      | none => false) && includes as bs

end

mutual

/-- The order of two values, where there is one. -/
def order? : Value → Value → Option Ordering
  | .null, .null => some .eq
  | .boolean a, .boolean b => some (compare a.toNat b.toNat)
  | .string a, .string b => some (compareText a.toList b.toList)
  | .integer i, .integer j => compareNumbers (.integer i) (.integer j)
  | .integer i, .float y => compareNumbers (.integer i) (.float y)
  | .float x, .integer j => compareNumbers (.float x) (.integer j)
  | .float x, .float y => compareNumbers (.float x) (.float y)
  | .sequence as, .sequence bs => orderAll? as bs
  | _, _ => none

/-- The lexicographic order of two lists: the first place where they differ decides, and a
proper initial part comes first. -/
def orderAll? : List Value → List Value → Option Ordering
  | [], [] => some .eq
  | [], _ :: _ => some .lt
  | _ :: _, [] => some .gt
  | a :: as, b :: bs =>
    match order? a b with
    | some .eq => orderAll? as bs
    | other => other

end

end LiveDocument.Value
