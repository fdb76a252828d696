import LiveDocument.Number.Binary64

/-!
# Integers rounded to binary64

An integer is rounded to 53 binary digits: its units are divided by the power of two that leaves so
many, and the quotient is rounded to the nearest natural number. The rounded number stays between
the powers of two around it, so the greater of two integers does not become the smaller number.

* `roundQuotient_mono`, `le_roundQuotient`, `roundQuotient_le`: rounding a quotient.
* `pow_log2_le_rounded`, `rounded_le_pow`: the powers of two around a rounded number.
* `rounded_mono`: rounding to 53 digits keeps the order.
* `units_ofInt`: an integer as a number.
* `units_ofInt_mono`: and its order.
-/

namespace LiveDocument.Binary64

section

variable {num den : Nat}

/-- A natural number that is not above a quotient is not above the rounded one. -/
theorem le_roundQuotient (hden : 0 < den) {a : Nat} (h : a * den ≤ num) :
    a ≤ roundQuotient num den := by
  have hq : a ≤ num / den := (Nat.le_div_iff_mul_le hden).mpr h
  simp only [roundQuotient]
  repeat' split
  all_goals omega

/-- A natural number that is not below a quotient is not below the rounded one. -/
theorem roundQuotient_le (hden : 0 < den) {b : Nat} (h : num ≤ b * den) :
    roundQuotient num den ≤ b := by
  have hq : num / den ≤ b := Nat.div_le_of_le_mul (Nat.mul_comm b den ▸ h)
  rcases Nat.lt_or_eq_of_le hq with hlt | heq
  · simp only [roundQuotient]
    repeat' split
    all_goals omega
  · have hr : num % den = 0 := by
      have := Nat.div_add_mod num den
      rw [heq, Nat.mul_comm] at this
      omega
    rw [roundQuotient, hr, if_pos (by omega)]
    exact hq

theorem roundQuotient_mono {other : Nat} (h : num ≤ other) (den : Nat) :
    roundQuotient num den ≤ roundQuotient other den := by
  have hm := Nat.div_add_mod num den
  have hn := Nat.div_add_mod other den
  rcases Nat.lt_or_eq_of_le (Nat.div_le_div_right (c := den) h) with hlt | heq
  · simp only [roundQuotient]
    repeat' split
    all_goals omega
  · have hr : num % den ≤ other % den := by
      rw [← heq] at hn
      omega
    simp only [roundQuotient]
    rw [heq]
    repeat' split
    all_goals omega

end

/-! ## Rounding to 53 digits -/

theorem pow_mul_pow (m n : Nat) : Nat.pow 2 m * Nat.pow 2 n = Nat.pow 2 (m + n) :=
  (Nat.pow_add 2 m n).symm

theorem pow_pos (n : Nat) : 0 < Nat.pow 2 n :=
  Nat.two_pow_pos n

theorem pow_mono {m n : Nat} (h : m ≤ n) : Nat.pow 2 m ≤ Nat.pow 2 n :=
  Nat.pow_le_pow_right (by decide) h

/-- How many binary digits are dropped. -/
def dropped (n : Nat) : Nat :=
  Nat.log2 n - 52

/-- The number rounded to 53 binary digits. -/
def rounded (n : Nat) : Nat :=
  roundQuotient n (Nat.pow 2 (dropped n)) * Nat.pow 2 (dropped n)

section

variable {m n : Nat}

theorem pow_log2_le (hn : n ≠ 0) : Nat.pow 2 (Nat.log2 n) ≤ n :=
  Nat.log2_self_le hn

theorem le_pow_log2 (n : Nat) : n ≤ Nat.pow 2 (Nat.log2 n + 1) :=
  Nat.le_of_lt Nat.lt_log2_self

theorem dropped_le (n : Nat) : dropped n ≤ Nat.log2 n :=
  Nat.sub_le _ _

/-- A greater power of two loses the same digits without a remainder. -/
theorem pow_sub_dropped {e : Nat} (he : Nat.log2 n ≤ e) :
    Nat.pow 2 (e - dropped n) * Nat.pow 2 (dropped n) = Nat.pow 2 e := by
  rw [pow_mul_pow, Nat.sub_add_cancel (Nat.le_trans (dropped_le n) he)]

theorem pow_log2_le_rounded (hn : n ≠ 0) : Nat.pow 2 (Nat.log2 n) ≤ rounded n := by
  have hpow : Nat.pow 2 (Nat.log2 n - dropped n) * Nat.pow 2 (dropped n) ≤ n := by
    rw [pow_sub_dropped (Nat.le_refl _)]
    exact pow_log2_le hn
  rw [← pow_sub_dropped (Nat.le_refl (Nat.log2 n))]
  exact Nat.mul_le_mul_right _ (le_roundQuotient (pow_pos _) hpow)

theorem rounded_le_pow (n : Nat) : rounded n ≤ Nat.pow 2 (Nat.log2 n + 1) := by
  have hpow : n ≤ Nat.pow 2 (Nat.log2 n + 1 - dropped n) * Nat.pow 2 (dropped n) := by
    rw [pow_sub_dropped (Nat.le_succ _)]
    exact le_pow_log2 n
  rw [← pow_sub_dropped (Nat.le_succ (Nat.log2 n))]
  exact Nat.mul_le_mul_right _ (roundQuotient_le (pow_pos _) hpow)

theorem log2_mono (hm : m ≠ 0) (h : m ≤ n) : Nat.log2 m ≤ Nat.log2 n := by
  have hn : n ≠ 0 := by
    rintro rfl
    exact hm (Nat.le_zero.mp h)
  exact (Nat.le_log2 hn).mpr (Nat.le_trans (pow_log2_le hm) h)

/-- The greater number is not rounded to the smaller one: either they have as many digits or a power
of two lies between them. -/
theorem rounded_mono (h : m ≤ n) : rounded m ≤ rounded n := by
  rcases Nat.eq_zero_or_pos m with rfl | hm
  · exact Nat.zero_le _
  rcases Nat.lt_or_eq_of_le (log2_mono (Nat.ne_of_gt hm) h) with hlt | heq
  · calc rounded m
      _ ≤ Nat.pow 2 (Nat.log2 m + 1) := rounded_le_pow m
      _ ≤ Nat.pow 2 (Nat.log2 n) := pow_mono hlt
      _ ≤ rounded n := pow_log2_le_rounded (Nat.ne_of_gt (Nat.lt_of_lt_of_le hm h))
  · unfold rounded dropped
    rw [heq]
    exact Nat.mul_le_mul_right _ (roundQuotient_mono h _)

/-- At most 53 digits are left, or 54 after a carry. -/
theorem roundQuotient_dropped_le (n : Nat) :
    roundQuotient n (Nat.pow 2 (dropped n)) ≤ Nat.pow 2 53 := by
  refine roundQuotient_le (pow_pos _) ?_
  rw [pow_mul_pow]
  refine Nat.le_trans (le_pow_log2 n) (pow_mono ?_)
  unfold dropped
  omega

/-- If digits are dropped, 53 are left. -/
theorem le_roundQuotient_dropped (h : dropped n ≠ 0) :
    Nat.pow 2 52 ≤ roundQuotient n (Nat.pow 2 (dropped n)) := by
  have hn : n ≠ 0 := by
    rintro rfl
    exact h rfl
  refine le_roundQuotient (pow_pos _) ?_
  rw [pow_mul_pow]
  refine Nat.le_trans (pow_mono ?_) (pow_log2_le hn)
  unfold dropped at h ⊢
  omega

end

/-! ## Integers as numbers -/

/-- A natural number with a sign. -/
def signed (negative : Bool) (n : Nat) : Int :=
  if negative then -(n : Int) else n

theorem signed_true (n : Nat) : signed true n = -(n : Int) :=
  rfl

theorem signed_false (n : Nat) : signed false n = n :=
  rfl

/-- A significand of at most 53 digits, or of their least upper bound, is held as it is. -/
theorem exists_ofParts? (negative : Bool) {significand scale : Nat}
    (hsignificand : significand ≤ Nat.pow 2 53) (hnormal : scale ≠ 0 → Nat.pow 2 52 ≤ significand)
    (hscale : scale < 2045) :
    ∃ x, ofParts? negative significand scale = some x ∧
      x.units = signed negative (significand * Nat.pow 2 scale) := by
  unfold ofParts?
  rcases Nat.lt_or_eq_of_le hsignificand with hlt | rfl
  · have hfits : significand < Nat.pow 2 53 ∧ (scale = 0 ∨ Nat.pow 2 52 ≤ significand) ∧
        scale ≤ 2045 :=
      ⟨hlt, (Decidable.em (scale = 0)).imp_right hnormal, Nat.le_of_lt hscale⟩
    rw [dif_pos hfits]
    exact ⟨_, rfl, rfl⟩
  · have hhalf : Nat.pow 2 52 * Nat.pow 2 (scale + 1) = Nat.pow 2 53 * Nat.pow 2 scale := by
      rw [pow_mul_pow, pow_mul_pow]
      congr 1
      omega
    rw [dif_neg fun h => Nat.lt_irrefl _ h.1, dif_pos ⟨rfl, hscale⟩]
    exact ⟨_, rfl, congrArg (signed negative) hhalf⟩

/-- An integer in units. -/
def integerUnits (i : Int) : Nat :=
  i.natAbs * Nat.pow 2 1074

theorem integerUnits_le {i j : Int} (h : i.natAbs ≤ j.natAbs) : integerUnits i ≤ integerUnits j :=
  Nat.mul_le_mul_right _ h

theorem log2_integerUnits_le {i : Int} {e : Nat} (h : i.natAbs ≤ Nat.pow 2 e) :
    Nat.log2 (integerUnits i) ≤ e + 1074 := by
  unfold integerUnits
  generalize 1074 = k
  by_cases hzero : i.natAbs * Nat.pow 2 k = 0
  · rw [hzero]
    exact Nat.zero_le _
  · refine Nat.le_of_lt_succ ((Nat.log2_lt hzero).mpr ?_)
    calc i.natAbs * Nat.pow 2 k
      _ ≤ Nat.pow 2 e * Nat.pow 2 k := Nat.mul_le_mul_right _ h
      _ = Nat.pow 2 (e + k) := pow_mul_pow e k
      _ < Nat.pow 2 (e + k + 1) := Nat.pow_lt_pow_succ (by decide)

theorem dropped_integerUnits_lt {i : Int} (h : i.natAbs ≤ Nat.pow 2 64) :
    dropped (integerUnits i) < 2045 := by
  have hlog := log2_integerUnits_le h
  unfold dropped
  omega

/-- An integer far from the largest number is rounded to 53 digits. -/
theorem units_ofInt {i : Int} (h : i.natAbs ≤ Nat.pow 2 64) :
    (ofInt i).units = signed (i < 0) (rounded (integerUnits i)) := by
  obtain ⟨x, hx, hunits⟩ := exists_ofParts? (decide (i < 0))
    (roundQuotient_dropped_le (integerUnits i)) le_roundQuotient_dropped (dropped_integerUnits_lt h)
  have hnearest : ofInteger? i = some x := by
    rw [← hx, ofInteger?, nearest?, Nat.div_one, Nat.one_mul]
    rfl
  rw [ofInt, hnearest]
  exact hunits

/-- The greater integer is not the smaller number. -/
theorem units_ofInt_mono {i j : Int} (h : i ≤ j) (hi : i.natAbs ≤ Nat.pow 2 64)
    (hj : j.natAbs ≤ Nat.pow 2 64) : (ofInt i).units ≤ (ofInt j).units := by
  rw [units_ofInt hi, units_ofInt hj]
  by_cases hni : i < 0
  · by_cases hnj : j < 0
    · have hmono := rounded_mono (integerUnits_le (i := j) (j := i) (by omega))
      rw [decide_eq_true hni, decide_eq_true hnj, signed_true, signed_true]
      omega
    · rw [decide_eq_true hni, decide_eq_false hnj, signed_true, signed_false]
      omega
  · have hmono := rounded_mono (integerUnits_le (i := i) (j := j) (by omega))
    rw [decide_eq_false hni, decide_eq_false fun hnj => hni (Int.lt_of_le_of_lt h hnj),
      signed_false, signed_false]
    omega

end LiveDocument.Binary64
