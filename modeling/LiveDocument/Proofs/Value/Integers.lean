import LiveDocument.Proofs.Number.Rounding
import LiveDocument.Proofs.Value.Ranking

/-!
# How integers are compared

Two integers of a signed word are compared as they are. If one of them is beyond, both are rounded
to floats first, and different integers may become the same float; then they pass for equal. Apart
from that, the order is that of the integers, because rounding keeps it. Values in which all numbers
are integers are compared accordingly.

* `Blurred`: different integers that become one float. `Alike`, `Ranks`: how integers are compared.
* `equals_integer_iff`, `order?_integer_iff`: and they are.
* `equals_iff_corresponds`: equality of values is that of their integers.
-/

namespace LiveDocument

namespace Integer

/-- Different integers, one of them beyond a signed word, that are rounded to the same float. -/
def Blurred (i j : Integer) : Prop :=
  i ≠ j ∧ 9223372036854775808 ≤ max i.val j.val ∧
    (Binary64.ofInt i.val).same (Binary64.ofInt j.val) = true

instance (i j : Integer) : Decidable (i.Blurred j) :=
  inferInstanceAs (Decidable (_ ∧ _ ∧ _))

/-- What passes for equal: the same integer, or a blurred one. -/
def Alike (i j : Integer) : Prop :=
  i = j ∨ i.Blurred j

/-- The lesser integer comes first. -/
def Before (i j : Integer) : Prop :=
  i.val < j.val

/-- How integers are ordered: blurred ones are of the same rank, and all others are as they are. -/
def Ranks (i j : Integer) (o : Ordering) : Prop :=
  if i.Blurred j then o = .eq else Side Before i j o

theorem Blurred.symm {i j : Integer} (h : i.Blurred j) : j.Blurred i := by
  obtain ⟨hne, hmax, hsame⟩ := h
  refine ⟨hne.symm, Int.max_comm i.val j.val ▸ hmax, ?_⟩
  rw [← hsame]
  exact BEq.comm

/-- Integers of a signed word are not blurred. -/
theorem not_blurred_of_lt {i j : Integer} (hi : i.val < 9223372036854775808)
    (hj : j.val < 9223372036854775808) : ¬ i.Blurred j := by
  rintro ⟨-, hmax, -⟩
  omega

/-- The integer of a signed word is that word. -/
theorem exists_signed? {i : Integer} (h : i.val < 9223372036854775808) :
    ∃ w, i.signed? = some w ∧ w.toInt = i.val :=
  ⟨_, if_pos h, Int64.toInt_ofInt_of_le i.lower h⟩

theorem signed?_eq_none {i : Integer} (h : 9223372036854775808 ≤ i.val) : i.signed? = none :=
  if_neg (Int.not_lt.mpr h)

theorem val_inj {i j : Integer} : i.val = j.val ↔ i = j :=
  ⟨ext, fun h => congrArg val h⟩

theorem natAbs_le (i : Integer) : i.val.natAbs ≤ Nat.pow 2 64 := by
  have hlower := i.lower
  have hupper := i.upper
  have hle : i.val.natAbs ≤ 18446744073709551616 := by omega
  exact hle

end Integer

namespace Value

variable {i j : Integer}

theorem compareNumbers_of_signed (hi : i.val < 9223372036854775808)
    (hj : j.val < 9223372036854775808) :
    compareNumbers (.integer i) (.integer j) = some (compare i.val j.val) := by
  obtain ⟨v, hv, hvi⟩ := Integer.exists_signed? hi
  obtain ⟨w, hw, hwj⟩ := Integer.exists_signed? hj
  have hv' : (integer i).toSigned? = some v := hv
  have hw' : (integer j).toSigned? = some w := hw
  rw [compareNumbers, hv', hw', ← hvi, ← hwj]

theorem compareNumbers_of_unsigned (h : 9223372036854775808 ≤ max i.val j.val) :
    compareNumbers (.integer i) (.integer j) =
      some ((Binary64.ofInt i.val).order (Binary64.ofInt j.val)) := by
  unfold compareNumbers
  by_cases hi : 9223372036854775808 ≤ i.val
  · have hnone : (integer i).toSigned? = none := Integer.signed?_eq_none hi
    rw [hnone]
    rfl
  · have hnone : (integer j).toSigned? = none := Integer.signed?_eq_none (by omega)
    rw [hnone]
    cases (integer i).toSigned? <;> rfl

/-- Integers pass for equal if they are the same or blurred. -/
theorem equals_integer_iff : (integer i).equals (.integer j) = true ↔ i.Alike j := by
  rw [equals, ← compareNumbers_eq_iff]
  by_cases hmax : 9223372036854775808 ≤ max i.val j.val
  · rw [compareNumbers_of_unsigned hmax, Option.some_inj, Binary64.order_eq_iff]
    constructor
    · intro hsame
      by_cases heq : i = j
      · exact .inl heq
      · exact .inr ⟨heq, hmax, hsame⟩
    · rintro (rfl | hb)
      · exact beq_self_eq_true _
      · exact hb.2.2
  · have hsharp : ¬ i.Blurred j := fun hb => hmax hb.2.1
    rw [compareNumbers_of_signed (by omega) (by omega), Option.some_inj, Int.compare_eq_eq,
      Integer.val_inj, Integer.Alike, or_iff_left hsharp]

/-- Unless they are blurred, the lesser integer comes first: rounding keeps the order. -/
theorem order?_integer_of_before (hlt : i.Before j) (h : ¬ i.Blurred j) :
    (integer i).order? (.integer j) = some .lt := by
  rw [order?]
  by_cases hmax : 9223372036854775808 ≤ max i.val j.val
  · have hle := Binary64.units_ofInt_mono (Int.le_of_lt hlt) i.natAbs_le j.natAbs_le
    have hne : (Binary64.ofInt i.val).units ≠ (Binary64.ofInt j.val).units := by
      intro heq
      refine h ⟨?_, hmax, beq_iff_eq.mpr heq⟩
      rintro rfl
      exact Int.lt_irrefl _ hlt
    rw [compareNumbers_of_unsigned hmax, Binary64.order_of_lt (by omega)]
  · rw [compareNumbers_of_signed (by omega) (by omega)]
    exact congrArg some (Int.compare_eq_lt.mpr hlt)

theorem order?_integer_of_not_blurred (h : ¬ i.Blurred j) :
    (integer i).order? (.integer j) = some (compare i.val j.val) := by
  rcases Int.lt_trichotomy i.val j.val with hlt | heq | hgt
  · rw [order?_integer_of_before hlt h, Int.compare_eq_lt.mpr hlt]
  · obtain rfl := Integer.ext heq
    rw [Int.compare_eq_eq.mpr rfl, order?_scalar_eq_iff rfl, equals_integer_iff]
    exact .inl rfl
  · rw [order?_swap, order?_integer_of_before hgt fun hb => h hb.symm, Int.compare_eq_gt.mpr hgt]
    rfl

/-- Blurred integers are of the same rank, and all others are ordered as they are. -/
theorem order?_integer_iff {o : Ordering} :
    (integer i).order? (.integer j) = some o ↔ i.Ranks j o := by
  unfold Integer.Ranks
  split
  · rename_i hb
    have heq : (integer i).order? (.integer j) = some .eq :=
      (order?_scalar_eq_iff rfl _).mpr (equals_integer_iff.mpr (.inr hb))
    rw [heq, Option.some_inj]
    exact eq_comm
  · rename_i hb
    rw [order?_integer_of_not_blurred hb, Option.some_inj]
    exact side_iff Int.compare_eq_lt (Int.compare_eq_eq.trans Integer.val_inj) Int.compare_eq_gt

/-! ## Values -/

section

variable {S : Integer → Prop} {r : Integer → Integer → Prop}

theorem equals_scalar_iff_corresponds
    (hr : ∀ i j, S i → S j → ((integer i).equals (.integer j) = true ↔ r i j)) {a b : Value}
    (hscalar : a.kind.isContainer = false) (ha : Over S a) (hb : Over S b) :
    a.equals b = true ↔ Corresponds r a b := by
  cases a with
  | null =>
    rw [corresponds_scalar_iff rfl (by decide)]
    cases b <;> simp [equals]
  | boolean x =>
    rw [corresponds_scalar_iff rfl (by simp [kind])]
    cases b <;> simp [equals]
  | string s =>
    rw [corresponds_scalar_iff rfl (by simp [kind])]
    cases b <;> simp [equals]
  | integer i =>
    cases b with
    | integer j => rw [hr i j ha.numbers hb.numbers, corresponds_integer_iff]
    | float y => exact False.elim hb.numbers
    | _ => constructor <;> intro h <;> cases h
  | float x => exact False.elim ha.numbers
  | sequence _ => cases hscalar
  | mapping _ => cases hscalar

/-- Whatever passes for the same integer of a set makes the values correspond in which there are no
other numbers. -/
theorem equals_iff_corresponds
    (hr : ∀ i j, S i → S j → ((integer i).equals (.integer j) = true ↔ r i j)) {a b : Value}
    (ha : Over S a) (hb : Over S b) : a.equals b = true ↔ Corresponds r a b := by
  induction a using induction_members generalizing b with
  | scalar a hscalar => exact equals_scalar_iff_corresponds hr hscalar ha hb
  | sequence as ih =>
    cases b with
    | sequence bs =>
      rw [equals_sequence_iff, corresponds_sequence_iff]
      exact paired_congr fun a hmem b hmemb => ih a hmem (ha.item hmem) (hb.item hmemb)
    | _ => constructor <;> intro h <;> cases h
  | mapping as ih =>
    cases b with
    | mapping bs =>
      rw [equals_mapping_iff, corresponds_mapping_iff (throughout_mapping.mp ha.distinct).1
        (throughout_mapping.mp hb.distinct).1]
      exact included_congr fun e he b hmemb => ih e he (ha.entry he) (hb.entry hmemb)
    | _ => constructor <;> intro h <;> cases h

end

end Value

end LiveDocument
