import LiveDocument.Json.Printer
import LiveDocument.Json.Reader

/-!
# Strings and integers read back

What is written for a string is read as the same string, whatever characters it has: every escape
that is written is one that is read. What is written for an integer is read as the same integer, and
not as a float, if nothing follows that a numeral could go on with.

* `readString_escaped`: the characters of a string up to the closing quote.
* `Ends`: no numeral goes on here. `readNumber_decimalInt`: integers of 64-bit words.
-/

namespace LiveDocument

namespace Json

/-! ## Strings -/

/-- What is written for a character is read as this character. -/
theorem readString_escape (c : Char) (cs : List Char) :
    readString none (escape c ++ cs) =
      (readString none cs).map fun (text, rest) => (c :: text, rest) := by
  unfold escape
  split
  case h_8 =>
    rename_i hquote hbackslash _ _ _ _ _
    split
    · rename_i hlow
      have hword : hexWord? '0' '0' (Text.hexDigit (c.toNat / 16)) (Text.hexDigit (c.toNat % 16)) =
          some c.toNat := by
        have hzero : Text.hexValue? '0' = some 0 := by decide
        unfold hexWord?
        rw [hzero, Text.hexValue?_hexDigit (by omega), Text.hexValue?_hexDigit (by omega)]
        dsimp only
        exact congrArg some (by omega)
      have hchar : Char.ofNat c.toNat = c := Char.ofNat_toNat c
      simp only [List.cons_append, List.nil_append, readString, hword, Option.bind_some]
      rw [if_neg (by omega), if_neg (by omega), hchar]
    · rename_i hhigh
      rw [List.singleton_append, readString]
      · rw [if_neg hquote, if_neg (by simpa using ⟨by omega, hbackslash⟩)]
      · rintro _ _ _ _ _ he
        exact fun _ => hbackslash he
      · exact fun _ _ he => fun _ => hbackslash he
  all_goals simp [readString, shortEscape?]

/-- What is written for a string is read up to its closing quote. -/
theorem readString_escaped (cs rest : List Char) :
    readString none (cs.flatMap escape ++ '"' :: rest) = some (cs, rest) := by
  induction cs with
  | nil => simp [readString]
  | cons c cs ih => rw [List.flatMap_cons, List.append_assoc, readString_escape, ih]; rfl

/-! ## Integers -/

/-- Nothing follows that a numeral could go on with. -/
def Ends (rest : List Char) : Prop :=
  ∀ c, rest.head? = some c → c.isDigit = false ∧ c ≠ '.' ∧ c ≠ 'e' ∧ c ≠ 'E'

/-- More digits do not make a number less. -/
theorem le_foldl_digits (ds : List Char) (word : Nat) :
    word ≤ ds.foldl (fun n c => n * 10 + Text.digitValue c) word := by
  induction ds generalizing word with
  | nil => exact Nat.le_refl word
  | cons d ds ih =>
    have hfirst : word ≤ word * 10 + Text.digitValue d := by omega
    exact Nat.le_trans hfirst (ih _)

/-- Digits whose number fits a word are gathered into it. -/
theorem gather_append {ds rest : List Char} (hds : ∀ c ∈ ds, c.isDigit = true)
    (hrest : ∀ c, rest.head? = some c → c.isDigit = false) (word taken : Nat)
    (hfits : ds.foldl (fun n c => n * 10 + Text.digitValue c) word ≤ wordMax) :
    gather word taken (ds ++ rest) =
      ⟨ds.foldl (fun n c => n * 10 + Text.digitValue c) word, taken + ds.length, 0, rest⟩ := by
  induction ds generalizing word taken with
  | nil =>
    cases rest with
    | nil => rfl
    | cons c cs =>
      rw [List.nil_append, gather, if_neg (by rw [hrest c rfl]; simp)]
      rfl
  | cons d ds ih =>
    obtain ⟨hd, hrestd⟩ := List.forall_mem_cons.mp hds
    have hnext : word * 10 + Text.digitValue d ≤ wordMax :=
      Nat.le_trans (le_foldl_digits ds _) hfits
    rw [List.cons_append, gather, if_pos hd, if_pos hnext, ih hrestd _ _ hfits]
    simp only [List.foldl_cons, List.length_cons, Nat.add_assoc, Nat.add_comm 1]

section

variable {rest : List Char} (hrest : Ends rest)

include hrest

theorem readAfterWhole_of_ends (negative : Bool) (n taken : Nat) :
    readAfterWhole negative ⟨n, taken, 0, rest⟩ =
      (integerOf? negative n).map fun v => (v, rest) := by
  cases rest with
  | nil => rfl
  | cons c cs =>
    obtain ⟨-, hdot, hlower, hupper⟩ := hrest c rfl
    unfold readAfterWhole
    split
    · rename_i he
      exact (hdot (List.cons.inj he).1).elim
    · simp [hlower, hupper]

theorem readDigits_decimal (negative : Bool) {n : Nat} (hn : n ≤ wordMax) :
    readDigits negative (Text.decimal n ++ rest) =
      (integerOf? negative n).map fun v => (v, rest) := by
  rcases Nat.eq_zero_or_pos n with rfl | hpos
  · have hzero : Text.decimal 0 = ['0'] := rfl
    rw [hzero, List.singleton_append]
    cases rest with
    | nil => exact readAfterWhole_of_ends hrest negative 0 1
    | cons c cs =>
      rw [readDigits, if_neg (by rw [(hrest c rfl).1]; simp)]
      exact readAfterWhole_of_ends hrest negative 0 1
  · obtain ⟨c, cs, hcs, hc⟩ := Text.decimal_of_pos hpos
    have hall := List.all_eq_true.mp (Text.all_isDigit_decimal n)
    have hvalue : (Text.decimal n).foldl (fun n c => n * 10 + Text.digitValue c) 0 = n :=
      Text.digitsValue_decimalOnto _ _ (by omega)
    have hgather := gather_append hall (fun d hd => (hrest d hd).1) 0 0 (by rw [hvalue]; exact hn)
    rw [hvalue] at hgather
    rw [hcs, List.cons_append] at hgather ⊢
    rw [readDigits, if_pos (hall c (by rw [hcs]; exact List.mem_cons_self)), hgather]
    · exact readAfterWhole_of_ends hrest negative n _
    · exact hc

/-- What is written for an integer is read as this integer. -/
theorem readNumber_decimalInt (i : Integer) :
    readNumber (Text.decimalInt i.val ++ rest) = some (.integer i, rest) := by
  have hlower := i.lower
  have hupper := i.upper
  have hword : i.val.natAbs ≤ wordMax := by
    unfold wordMax
    omega
  unfold Text.decimalInt
  split
  · rename_i hneg
    have hinteger : integerOf? true i.val.natAbs = some (.integer i) := by
      unfold integerOf?
      rw [if_pos rfl, if_neg (by omega), show -(i.val.natAbs : Int) = i.val by omega,
        Integer.ofInt?_val]
      rfl
    rw [List.cons_append, readNumber, readDigits_decimal hrest true hword, hinteger]
    rfl
  · rename_i hnonneg
    have hinteger : integerOf? false i.val.natAbs = some (.integer i) := by
      unfold integerOf?
      rw [if_neg (by simp), show (i.val.natAbs : Int) = i.val by omega, Integer.ofInt?_val]
      rfl
    have hminus : ∀ cs, Text.decimal i.val.natAbs ++ rest ≠ '-' :: cs := by
      intro cs he
      have hhead : '-' ∈ Text.decimal i.val.natAbs := by
        cases hd : Text.decimal i.val.natAbs with
        | nil => exact (Text.decimal_ne_nil _ hd).elim
        | cons d ds =>
          rw [hd] at he
          rw [(List.cons.inj he).1]
          exact List.mem_cons_self
      have hdigit := List.all_eq_true.mp (Text.all_isDigit_decimal i.val.natAbs) '-' hhead
      cases hdigit
    rw [readNumber, readDigits_decimal hrest false hword, hinteger]
    · rfl
    · exact hminus

end

end Json

end LiveDocument
