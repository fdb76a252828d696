import LiveDocument.Proofs.Address.Naming
import Mathlib.Data.List.Induction

/-!
# Numerals as keys

A text of digits, with a minus sign or without, is read as a place if it fits a signed word. Where
the place meets a mapping it is spelled again, as short as it can be. So a numeral names the key
that is spelled like it only if it is spelled like that itself; one that fits no signed word is a
key as it stands.

* `Text.Numeral`: an optional minus sign and digits. `Text.shortest`: no needless characters.
* `Text.decimalInt_eq_iff`: which numerals are written as they were read.
* `Segment.keyNamed`, `Segment.keyNamed_eq_self_iff`: the key that a text names in a mapping.
* `Address.parse_text_of_free`: a text without blanks at its ends and without the delimiter.
-/

namespace LiveDocument

namespace Text

variable {cs ds : List Char} {i : Int}

/-- An optional minus sign and at least one digit. -/
def Numeral (cs : List Char) : Prop :=
  ∃ ds, (cs = ds ∨ cs = '-' :: ds) ∧ ds ≠ [] ∧ ds.all Char.isDigit = true

theorem Numeral.ne_nil (h : Numeral cs) : cs ≠ [] := by
  obtain ⟨ds, rfl | rfl, hne, -⟩ := h
  · exact hne
  · exact List.cons_ne_nil _ _

theorem Numeral.isDigit_or_eq (h : Numeral cs) {c : Char} (hc : c ∈ cs) :
    c.isDigit = true ∨ c = '-' := by
  obtain ⟨ds, rfl | rfl, -, hdigits⟩ := h
  · exact .inl (List.all_eq_true.mp hdigits c hc)
  · rcases List.mem_cons.mp hc with rfl | hc
    · exact .inr rfl
    · exact .inl (List.all_eq_true.mp hdigits c hc)

theorem Numeral.notMem_colon (h : Numeral cs) : ':' ∉ cs := by
  intro hc
  rcases h.isDigit_or_eq hc with hc | hc <;> cases hc

theorem Numeral.trim_eq (h : Numeral cs) : trim cs = cs := by
  have hblank : ∀ c ∈ cs, isBlank c = false := by
    intro c hc
    refine Bool.eq_false_iff.mpr fun hb => ?_
    obtain ⟨hdigit, hminus, -⟩ := ne_of_isBlank hb
    rcases h.isDigit_or_eq hc with hc | hc
    · rw [hdigit] at hc
      cases hc
    · exact hminus hc
  exact trim_eq_self (fun c hc => hblank c (List.mem_of_head? hc))
    fun c hc => hblank c (List.mem_of_getLast? hc)

theorem Numeral.exists_integer? (h : Numeral cs) : ∃ i, integer? cs = some i := by
  obtain ⟨ds, rfl | rfl, hne, hdigits⟩ := h
  · exact ⟨_, integer?_eq_some_iff.mpr <|
      .inl ⟨_, natural?_eq_some_iff.mpr ⟨hne, hdigits, rfl⟩, rfl⟩⟩
  · exact ⟨_, integer?_eq_some_iff.mpr <|
      .inr ⟨ds, _, rfl, natural?_eq_some_iff.mpr ⟨hne, hdigits, rfl⟩, rfl⟩⟩

/-! ## The shortest spelling -/

/-- No leading zero, except for zero itself, and no sign at zero. -/
def shortest : List Char → Bool
  | '-' :: ds => decide (ds.head? ≠ some '0')
  | ds => decide (ds = ['0'] ∨ ds.head? ≠ some '0')

/-- Digits without a leading zero are those of their number. -/
theorem decimal_digitsValue (hne : ds ≠ []) (hdigits : ds.all Char.isDigit = true)
    (hhead : ds.head? ≠ some '0') : decimal (digitsValue ds) = ds ∧ 0 < digitsValue ds := by
  induction ds using List.reverseRecOn with
  | nil => exact absurd rfl hne
  | append_singleton front c ih =>
    rw [List.all_append, Bool.and_eq_true] at hdigits
    obtain ⟨hfront, hlast⟩ := hdigits
    have hc : c.isDigit = true := by simpa using hlast
    have hlt := digitValue_lt hc
    have hback := digit_digitValue hc
    rw [digitsValue_append]
    by_cases hnil : front = []
    · subst hnil
      have hpos : digitValue c ≠ 0 := by
        intro hz
        rw [hz] at hback
        exact hhead (congrArg some hback.symm)
      rw [show digitsValue [] = 0 from rfl, Nat.zero_mul, Nat.zero_add, decimal_of_lt hlt, hback]
      exact ⟨rfl, Nat.pos_of_ne_zero hpos⟩
    · have hfirst : front.head? ≠ some '0' := by
        obtain ⟨x, rest, rfl⟩ := List.exists_cons_of_ne_nil hnil
        exact hhead
      obtain ⟨hdecimal, hpos⟩ := ih hnil hfront hfirst
      have hdiv : (digitsValue front * 10 + digitValue c) / 10 = digitsValue front := by omega
      have hmod : (digitsValue front * 10 + digitValue c) % 10 = digitValue c := by omega
      rw [decimal_of_le (by omega), hdiv, hmod, hback, hdecimal]
      exact ⟨rfl, by omega⟩

/-- The digits of a number have a leading zero only if it is zero. -/
theorem eq_zero_of_head?_decimal {n : Nat} (h : (decimal n).head? = some '0') : n = 0 := by
  rcases Nat.eq_zero_or_pos n with hn | hn
  · exact hn
  · obtain ⟨c, rest, hrest, hc⟩ := decimal_of_pos hn
    rw [hrest] at h
    exact absurd (Option.some.inj h) hc

theorem decimal_digitsValue_eq_iff (hne : ds ≠ []) (hdigits : ds.all Char.isDigit = true) :
    decimal (digitsValue ds) = ds ↔ ds = ['0'] ∨ ds.head? ≠ some '0' := by
  constructor
  · intro h
    by_cases hhead : ds.head? = some '0'
    · rw [← h] at hhead
      rw [eq_zero_of_head?_decimal hhead] at h
      exact .inl h.symm
    · exact .inr hhead
  · rintro (rfl | hhead)
    · rfl
    · exact (decimal_digitsValue hne hdigits hhead).1

/-- What is read as an integer is written again as it was if it has been as short as it can be. -/
theorem decimalInt_eq_iff (h : integer? cs = some i) :
    decimalInt i = cs ↔ shortest cs = true := by
  rcases integer?_eq_some_iff.mp h with ⟨n, hn, rfl⟩ | ⟨ds, n, rfl, hn, rfl⟩
  · obtain ⟨hne, hdigits, rfl⟩ := natural?_eq_some_iff.mp hn
    rw [decimalInt, if_neg (by omega), Int.natAbs_natCast, decimal_digitsValue_eq_iff hne hdigits]
    unfold shortest
    split
    · cases hdigits
    · rw [decide_eq_true_eq]
  · obtain ⟨hne, hdigits, rfl⟩ := natural?_eq_some_iff.mp hn
    rw [shortest, decide_eq_true_eq]
    constructor
    · intro he hhead
      unfold decimalInt at he
      split at he
      · rw [Int.natAbs_neg, Int.natAbs_natCast] at he
        have hzero : (decimal (digitsValue ds)).head? = some '0' := by
          rw [(List.cons.inj he).2, hhead]
        have := eq_zero_of_head?_decimal hzero
        omega
      · have hall := all_isDigit_decimal (-(digitsValue ds : Int)).natAbs
        rw [he] at hall
        cases hall
    · intro hhead
      obtain ⟨hdecimal, hpos⟩ := decimal_digitsValue hne hdigits hhead
      rw [decimalInt, if_pos (by omega), Int.natAbs_neg, Int.natAbs_natCast, hdecimal]

example : shortest "-01".toList = false ∧ shortest "-0".toList = false ∧
    shortest "-10".toList = true ∧ shortest "0".toList = true := by decide

end Text

namespace Segment

/-- The key that a text without colons names in a mapping: that of the place which it is read as, or
the text itself. -/
def keyNamed (k : String) : String :=
  match Position.read? k.toList with
  | some place => String.ofList (Position.text place)
  | none => k

theorem keyOf?_classify {k : String} (hcolon : ':' ∉ k.toList) :
    Value.keyOf? (classify k.toList) = some (keyNamed k) := by
  unfold classify keyNamed
  rw [slice_read?_eq_none hcolon]
  cases Position.read? k.toList with
  | some place => rfl
  | none => exact congrArg some String.ofList_toList

/-- A numeral names itself if it is as short as it can be, or fits no signed word. -/
theorem keyNamed_eq_self_iff {k : String} {i : Int} (h : Text.integer? k.toList = some i) :
    keyNamed k = k ↔ Text.shortest k.toList = true ∨ Position.fits i = false := by
  unfold keyNamed Position.read?
  rw [h, Option.bind_some]
  cases hp : Position.ofInt? i with
  | none =>
    have hfits : Position.fits i = false := by
      unfold Position.ofInt? at hp
      simpa using hp
    exact ⟨fun _ => .inr hfits, fun _ => rfl⟩
  | some place =>
    have hfits : Position.fits i = true := by
      unfold Position.ofInt? at hp
      rw [Option.ite_none_right_eq_some] at hp
      exact hp.1
    rw [hfits, ← Text.decimalInt_eq_iff h, ← Position.toInt_of_ofInt? hp]
    dsimp only
    constructor
    · intro he
      refine .inl ?_
      rw [← he, String.toList_ofList]
      rfl
    · rintro (he | he)
      · exact (congrArg String.ofList he).trans String.ofList_toList
      · cases he

end Segment

/-- A text without the delimiter is read as one segment, relative to the place that asks. -/
theorem Address.parse_text_of_free {delimiter q : String} (hdelimiter : delimiter.toList ≠ [])
    (hne : q.toList ≠ []) (htrim : Text.trim q.toList = q.toList)
    (hfree : ¬ delimiter.toList <:+: q.toList) :
    parse (.text q) delimiter = ⟨[Segment.classify q.toList], false, delimiter⟩ := by
  have hstrip : Text.stripPrefix? delimiter.toList q.toList = none := by
    refine Option.eq_none_iff_forall_ne_some.mpr fun rest hrest => hfree ?_
    rw [Text.stripPrefix?_eq_some_iff.mp hrest]
    exact (List.prefix_append _ _).isInfix
  have hwhole : Text.Free delimiter.toList q.toList [] := by
    intro n _ hbegins
    rw [List.append_nil] at hbegins
    exact hfree (hbegins.isInfix.trans (List.drop_suffix n _).isInfix)
  unfold parse
  dsimp only
  rw [htrim, if_neg (by rw [List.isEmpty_iff]; exact hdelimiter), hstrip]
  dsimp only
  rw [segmentsOf_eq_map hdelimiter hne, Text.split_of_free hwhole]
  rfl

end LiveDocument
