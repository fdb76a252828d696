import LiveDocument.Text.Numeral

/-!
# Stored integers and positions

The integers that a document can hold are those of a signed or an unsigned 64-bit word. The
positions of a sequence, and the parts of a slice, are signed 64-bit words.
-/

namespace LiveDocument

/-- An integer of a signed or an unsigned 64-bit word. -/
structure Integer where
  val : Int
  lower : -9223372036854775808 ≤ val
  upper : val < 18446744073709551616
  deriving DecidableEq

namespace Integer

/-- The stored integer of this value, if it is in range. -/
def ofInt? (i : Int) : Option Integer :=
  if h : -9223372036854775808 ≤ i ∧ i < 18446744073709551616 then some ⟨i, h.1, h.2⟩ else none

/-- The integer as a signed 64-bit word, if it is one. -/
def signed? (i : Integer) : Option Int64 :=
  if i.val < 9223372036854775808 then some (Int64.ofInt i.val) else none

/-- The stored integer of a signed word. -/
def ofInt64 (i : Int64) : Integer where
  val := i.toInt
  lower := i.le_toInt
  upper := Int.lt_trans i.toInt_lt (by decide)

theorem ofInt?_val (i : Integer) : ofInt? i.val = some i := by
  exact dif_pos ⟨i.lower, i.upper⟩

@[ext] theorem ext {i j : Integer} (h : i.val = j.val) : i = j := by
  cases i; cases j; cases h; rfl

end Integer

namespace Position

/-- The integers of a signed 64-bit word. -/
def fits (i : Int) : Bool :=
  decide (-9223372036854775808 ≤ i) && decide (i < 9223372036854775808)

/-- The word of this value, if it is in range. -/
def ofInt? (i : Int) : Option Int64 :=
  if fits i then some (Int64.ofInt i) else none

/-- The signed word that agrees with an integer in its last 64 bits. -/
def wrap (i : Int) : Int :=
  i.bmod 18446744073709551616

/-- The unsigned word that agrees with an integer in its last 64 bits. -/
def unsigned (i : Int) : Nat :=
  (i % 18446744073709551616).toNat

/-- An integer of a signed word stays as it is. -/
theorem wrap_of_fits {i : Int} (h : fits i = true) : wrap i = i := by
  simp only [fits, Bool.and_eq_true, decide_eq_true_eq] at h
  exact Int.bmod_eq_of_le (by omega) (by omega)

/-- An integer of a signed word that is not negative is its own unsigned word. -/
theorem unsigned_of_fits {i : Int} (h : fits i = true) (nonneg : 0 ≤ i) :
    unsigned i = i.toNat := by
  simp only [fits, Bool.and_eq_true, decide_eq_true_eq] at h
  rw [unsigned, Int.emod_eq_of_lt nonneg (by omega)]

/-- Reads a whole numeral that fits a signed word. -/
def read? (cs : List Char) : Option Int64 :=
  (Text.integer? cs).bind ofInt?

def text (i : Int64) : List Char :=
  Text.decimalInt i.toInt

/-- The place that `i` denotes among `length` elements: a negative position counts from the
end. -/
def within? (i : Int64) (length : Nat) : Option Nat :=
  let place := if i.toInt < 0 then i.toInt + length else i.toInt
  if 0 ≤ place ∧ place < length then some place.toNat else none

/-- A denoted place is one of the sequence. -/
theorem lt_of_within? {i : Int64} {length place : Nat} (h : within? i length = some place) :
    place < length := by
  unfold within? at h
  rw [Option.ite_none_right_eq_some] at h
  obtain ⟨hp, h⟩ := h
  have := Option.some.inj h
  omega

end Position

end LiveDocument
