/-!
# Decimal numerals

Whole numbers as ASCII decimal text. A numeral is read with any number of leading zeros and
an optional minus sign; it is written with neither leading zeros nor a plus sign.

* `natural?_decimal`: reading what was written gives the number back.
-/

namespace LiveDocument.Text

/-- The ASCII digit of a number below ten. -/
def digit (n : Nat) : Char :=
  Char.ofNat (48 + n)

/-- The number that an ASCII digit stands for. -/
def digitValue (c : Char) : Nat :=
  c.toNat - 48

/-- Writes the digits of `n` in front of `tail`; `n` has at most `fuel` digits. -/
def decimalOnto : (fuel n : Nat) → (tail : List Char) → List Char
  | 0, _, tail => tail
  | fuel + 1, n, tail =>
    if n < 10 then digit n :: tail
    else decimalOnto fuel (n / 10) (digit (n % 10) :: tail)

/-- The decimal digits of a natural number. -/
def decimal (n : Nat) : List Char :=
  decimalOnto (n + 1) n []

def decimalInt (i : Int) : List Char :=
  if i < 0 then '-' :: decimal i.natAbs else decimal i.natAbs

/-- The number that a list of digits stands for, the most significant first. -/
def digitsValue (ds : List Char) : Nat :=
  ds.foldl (fun n c => n * 10 + digitValue c) 0

/-- Reads a nonempty list of ASCII digits. -/
def natural? (cs : List Char) : Option Nat :=
  if cs.isEmpty || !cs.all Char.isDigit then none else some (digitsValue cs)

/-- Reads an optional minus sign and a nonempty list of ASCII digits. -/
def integer? : List Char → Option Int
  | '-' :: ds => (natural? ds).map fun n => -(n : Int)
  | ds => (natural? ds).map fun n => (n : Int)

/-! ## Reading what was written -/

theorem isDigit_digit {n : Nat} (h : n < 10) : (digit n).isDigit = true := by
  have : n = 0 ∨ n = 1 ∨ n = 2 ∨ n = 3 ∨ n = 4 ∨ n = 5 ∨ n = 6 ∨ n = 7 ∨ n = 8 ∨ n = 9 := by
    omega
  rcases this with h | h | h | h | h | h | h | h | h | h <;> subst h <;> decide

theorem digitValue_digit {n : Nat} (h : n < 10) : digitValue (digit n) = n := by
  have : n = 0 ∨ n = 1 ∨ n = 2 ∨ n = 3 ∨ n = 4 ∨ n = 5 ∨ n = 6 ∨ n = 7 ∨ n = 8 ∨ n = 9 := by
    omega
  rcases this with h | h | h | h | h | h | h | h | h | h <;> subst h <;> decide

/-- Writing in front of a tail is writing alone, followed by the tail. -/
theorem decimalOnto_append (fuel n : Nat) (tail : List Char) :
    decimalOnto fuel n tail = decimalOnto fuel n [] ++ tail := by
  induction fuel generalizing n tail with
  | zero => rfl
  | succ fuel ih =>
    simp only [decimalOnto]
    split
    · rfl
    · rw [ih, ih (n / 10) [digit (n % 10)], List.append_assoc]
      rfl

theorem digitsValue_append (xs : List Char) (c : Char) :
    digitsValue (xs ++ [c]) = digitsValue xs * 10 + digitValue c := by
  simp [digitsValue, List.foldl_append]

theorem digitsValue_decimalOnto (fuel n : Nat) (h : n < fuel) :
    digitsValue (decimalOnto fuel n []) = n := by
  induction fuel generalizing n with
  | zero => omega
  | succ fuel ih =>
    simp only [decimalOnto]
    split
    · rename_i hn
      simp [digitsValue, digitValue_digit hn]
    · rw [decimalOnto_append, digitsValue_append, ih _ (by omega),
        digitValue_digit (Nat.mod_lt _ (by omega))]
      omega

theorem all_isDigit_decimalOnto (fuel n : Nat) (tail : List Char)
    (h : tail.all Char.isDigit = true) : (decimalOnto fuel n tail).all Char.isDigit = true := by
  induction fuel generalizing n tail with
  | zero => exact h
  | succ fuel ih =>
    simp only [decimalOnto]
    split
    · rename_i hn
      simp only [List.all_cons, isDigit_digit hn, h, Bool.and_self]
    · refine ih _ _ ?_
      simp only [List.all_cons, isDigit_digit (Nat.mod_lt n (by omega : 0 < 10)), h, Bool.and_self]

theorem decimalOnto_ne_nil (fuel n : Nat) (tail : List Char) (h : 0 < fuel ∨ tail ≠ []) :
    decimalOnto fuel n tail ≠ [] := by
  induction fuel generalizing n tail with
  | zero => exact h.resolve_left (by omega)
  | succ fuel ih =>
    simp only [decimalOnto]
    split
    · simp
    · exact ih _ _ (Or.inr (by simp))

theorem decimal_ne_nil (n : Nat) : decimal n ≠ [] :=
  decimalOnto_ne_nil _ _ _ (Or.inl (by omega))

theorem all_isDigit_decimal (n : Nat) : (decimal n).all Char.isDigit = true :=
  all_isDigit_decimalOnto _ _ _ rfl

/-- The digits of a positive number do not start with a zero. -/
theorem decimal_of_pos {n : Nat} (h : 0 < n) : ∃ c cs, decimal n = c :: cs ∧ c ≠ '0' := by
  have hdigit : ∀ m : Fin 10, m.val ≠ 0 → digit m.val ≠ '0' := by decide
  have hall : ∀ (fuel n : Nat) (tail : List Char), 0 < n → n < fuel →
      ∃ c cs, decimalOnto fuel n tail = c :: cs ∧ c ≠ '0' := by
    intro fuel
    induction fuel with
    | zero => exact fun n _ _ hfuel => by omega
    | succ fuel ih =>
      intro n tail hpos hfuel
      unfold decimalOnto
      split
      · rename_i hlt
        exact ⟨_, tail, rfl, hdigit ⟨n, hlt⟩ (by dsimp only; omega)⟩
      · exact ih (n / 10) _ (by omega) (by omega)
  exact hall (n + 1) n [] h (by omega)

/-- Reading what was written gives the number back. -/
theorem natural?_decimal (n : Nat) : natural? (decimal n) = some n := by
  unfold natural?
  rw [if_neg]
  · exact congrArg some (digitsValue_decimalOnto _ _ (by omega))
  · simp [all_isDigit_decimal, decimal_ne_nil]

end LiveDocument.Text
