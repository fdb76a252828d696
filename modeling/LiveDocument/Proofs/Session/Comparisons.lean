import LiveDocument.Proofs.Session.Views
import LiveDocument.Proofs.Value.Integers

/-!
# Comparisons through views

A view compares the value that its handle reads with another one. Where all numbers are integers,
blurred integers pass for the same and all others are compared as they are. So the integers of a set
are compared exactly if no two of them are blurred, and only then.

* `Reads`: what a view finds. `exists_reads`: every value is found by some view.
* `ComparesBy`, `ComparesExactly`: equality, order and search by the integers in the values.
* `comparesBy`, `comparesExactly_of_sharp`: how views compare.
* `integers_compared_exactly_iff`: which integers are compared exactly.
-/

namespace LiveDocument

open Document Live

namespace View

/-- The handle of the view is valid, and its path leads to the value. -/
structure Reads (d : Document) (view : View) (v : Value) : Prop where
  valid : d.isValid view.handle = true
  walk : d.value.walk? view.handle.path = some v

section

variable {d : Document} {view : View} {a : Value}

theorem runOn_equals (h : Reads d view a) (b : Value) :
    (view.equals b).runOn d = (.ok (a.equals b), d) := by
  rw [equals, runOn_value_bind h.valid h.walk]
  rfl

theorem runOn_order? (h : Reads d view a) (b : Value) :
    (view.order? b).runOn d = (.ok (a.order? b), d) := by
  rw [order?, runOn_value_bind h.valid h.walk]
  rfl

theorem runOn_contains {items : List Value} (h : Reads d view (.sequence items)) (needle : Value) :
    (view.contains needle).runOn d = (.ok (items.any fun item => item.equals needle), d) := by
  rw [contains, runOn_value_bind h.valid h.walk]
  rfl

end

/-- A document that is the value, and a view of it. -/
theorem exists_reads (v : Value) : ∃ d view, Reads d view v := by
  let issued := (Document.ofValue v {}).issue [] v.kind false
  exact ⟨issued.2, ⟨issued.1, v.kind⟩, rfl, rfl⟩

/-! ## Integers -/

open Value

/-- Views compare values whose numbers are integers of a set: what passes for the same integer
decides what is equal and what is found in a sequence, and what ranks integers decides the
lexicographic order. -/
structure ComparesBy (S : Integer → Prop) (same : Integer → Integer → Prop)
    (rank : Integer → Integer → Ordering → Prop) : Prop where
  equals : ∀ {d view a b}, Reads d view a → Over S a → Over S b →
    ∃ answer, (view.equals b).runOn d = (.ok answer, d) ∧ (answer = true ↔ Corresponds same a b)
  order : ∀ {d view a b}, Reads d view a → Over S a → Over S b →
    ∃ answer, (view.order? b).runOn d = (.ok answer, d) ∧
      ∀ o, answer = some o ↔ Ranked rank a b o
  contains : ∀ {d view items needle}, Reads d view (.sequence items) →
    Over S (.sequence items) → Over S needle →
      ∃ answer, (view.contains needle).runOn d = (.ok answer, d) ∧
        (answer = true ↔ ∃ item ∈ items, Corresponds same item needle)

/-- Integers of a set are compared as they are, and then equality is transitive. -/
structure ComparesExactly (S : Integer → Prop) : Prop
    extends ComparesBy S Eq (Side Integer.Before) where
  trans : ∀ {d view other a b c}, Reads d view a → Reads d other b →
    Over S a → Over S b → Over S c → (view.equals b).runOn d = (.ok true, d) →
      (other.equals c).runOn d = (.ok true, d) → (view.equals c).runOn d = (.ok true, d)

section

variable {S : Integer → Prop}

theorem comparesBy {same : Integer → Integer → Prop} {rank : Integer → Integer → Ordering → Prop}
    (hsame : ∀ i j, S i → S j → ((Value.integer i).equals (.integer j) = true ↔ same i j))
    (hrank : ∀ i j, S i → S j → ∀ o, ((Value.integer i).order? (.integer j) = some o ↔ rank i j o)) :
    ComparesBy S same rank where
  equals := fun h ha hb => ⟨_, runOn_equals h _, equals_iff_corresponds hsame ha hb⟩
  order := fun h ha hb => ⟨_, runOn_order? h _, order?_eq_some_iff_ranked hrank ha hb⟩
  contains := by
    intro d view items needle h hitems hneedle
    refine ⟨_, runOn_contains h needle, ?_⟩
    rw [List.any_eq_true]
    refine exists_congr fun item => and_congr_right fun hitem => ?_
    exact equals_iff_corresponds hsame (hitems.item hitem) hneedle

/-- Integers of which no two are blurred are compared as they are. -/
theorem comparesExactly_of_sharp (h : ∀ i j, S i → S j → ¬ i.Blurred j) : ComparesExactly S := by
  have hsame : ∀ i j, S i → S j → ((Value.integer i).equals (.integer j) = true ↔ i = j) := by
    intro i j hi hj
    rw [equals_integer_iff, Integer.Alike, or_iff_left (h i j hi hj)]
  have hrank : ∀ i j, S i → S j → ∀ o,
      ((Value.integer i).order? (.integer j) = some o ↔ Side Integer.Before i j o) := by
    intro i j hi hj o
    rw [order?_integer_iff, Integer.Ranks, if_neg (h i j hi hj)]
  refine { comparesBy hsame hrank with trans := ?_ }
  intro d view other a b c hview hother ha hb hc hab hbc
  rw [runOn_equals hview, Prod.mk.injEq, Except.ok.injEq] at hab
  rw [runOn_equals hother] at hbc
  have hleft : a.equals c = b.equals c :=
    Rearranged.equals_left ((equals_iff_corresponds hsame ha hb).mp hab.1) c
  rw [runOn_equals hview, hleft]
  exact hbc

/-- Blurred integers pass for the same. -/
theorem sharp_of_comparesExactly (h : ComparesExactly S) (i j : Integer) (hi : S i) (hj : S j) :
    ¬ i.Blurred j := by
  intro hblurred
  obtain ⟨d, view, hreads⟩ := exists_reads (.integer i)
  obtain ⟨answer, hrun, hanswer⟩ := h.equals hreads ⟨trivial, hi⟩ (b := .integer j) ⟨trivial, hj⟩
  rw [runOn_equals hreads, equals_integer_iff.mpr (.inr hblurred)] at hrun
  cases hrun
  exact hblurred.1 (corresponds_integer_iff.mp (hanswer.mp rfl))

end

/-- Views compare integers as they are, except that blurred ones pass for the same and are of the
same rank: this decides equality and the lexicographic order of all values without other numbers,
and what is found in a sequence. So a set of integers is compared exactly if no two of them are
blurred, and only then. -/
theorem integers_compared_exactly_iff (S : Integer → Prop) :
    ComparesBy (fun _ => True) Integer.Alike Integer.Ranks ∧
      (ComparesExactly S ↔ ∀ i j, S i → S j → ¬ i.Blurred j) :=
  ⟨comparesBy (fun _ _ _ _ => equals_integer_iff) (fun _ _ _ _ _ => order?_integer_iff),
    sharp_of_comparesExactly, comparesExactly_of_sharp⟩

/-- The integers of signed words are compared exactly, but not all integers that can be stored. -/
theorem integers_compared_exactly_iff_words :
    ComparesExactly (fun i => i.val < 9223372036854775808) ∧ ¬ ComparesExactly fun _ => True := by
  refine ⟨(integers_compared_exactly_iff _).2.mpr fun i j => Integer.not_blurred_of_lt, fun h => ?_⟩
  exact (integers_compared_exactly_iff _).2.mp h ⟨9223372036854775808, by decide, by decide⟩
    ⟨9223372036854775809, by decide, by decide⟩ trivial trivial (by decide +kernel)

end View

end LiveDocument
