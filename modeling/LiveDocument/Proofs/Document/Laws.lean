import LiveDocument.Proofs.Document.Effect
import LiveDocument.Proofs.Tree.Laws

/-!
# Laws of writes

Equations between documents after several edits, the order of keys included. An edit of a document
answers, and changes the value, by the value alone; the handles that it ends are not part of its
outcome.

* `outcome`: what an operation answers, and the value that it leaves.
* `outcome_write_eq_ok_iff`, `outcome_write_then`: the outcome of one write, and of a write that
  something else follows. `outcome_update`, `outcome_remove`: of other edits of one place.
* `write_laws`: writing twice, writing back, taking away again and writing in either order.
-/

namespace LiveDocument

namespace Live

open Document

variable {α : Type}

/-- What an operation answers, and the value that it leaves. -/
def outcome (x : Live α) (d : Document) : Except Failure α × Value :=
  ((x.runOn d).1, (x.runOn d).2.value)

section

variable {p q : Path} {delimiter : String} {a b v₁ v₂ : Value} {d : Document}

theorem outcome_write_eq_ok_iff :
    outcome (write p delimiter a) d = (.ok (), v₁) ↔ d.value.write? a p = some v₁ := by
  unfold outcome
  rw [runOn_write]
  cases hw : d.value.write? a p with
  | none => simp [Document.write?, hw]
  | some v' =>
    obtain ⟨d', hd', rfl⟩ := exists_write? hw
    rw [hd']
    simp

theorem outcome_write_of_none (h : d.value.write? a p = none) :
    outcome (write p delimiter a) d =
      (.error (.writeTargetMissing (p.address delimiter)), d.value) := by
  unfold outcome
  rw [runOn_write, Document.write?, h]
  rfl

/-- What follows a write that succeeds goes on from the value that it leaves. -/
theorem outcome_write_then (delimiter : String) (h : d.value.write? a p = some v₁) (x : Live α) :
    ∃ d', d'.value = v₁ ∧ outcome (write p delimiter a >>= fun _ => x) d = outcome x d' := by
  obtain ⟨d', hd', hvalue⟩ := exists_write? h
  refine ⟨d', hvalue, ?_⟩
  unfold outcome
  rw [runOn_bind, runOn_write, hd']

/-- Nothing follows a write that fails. -/
theorem outcome_write_then_of_none (h : d.value.write? a p = none) (x : Live α) :
    outcome (write p delimiter a >>= fun _ => x) d =
      (.error (.writeTargetMissing (p.address delimiter)), d.value) := by
  unfold outcome
  rw [runOn_bind, runOn_write, Document.write?, h]
  rfl

theorem outcome_write_write (h : d.value.write? a p = some v₁) (h' : v₁.write? b q = some v₂) :
    outcome (write p delimiter a >>= fun _ => write q delimiter b) d = (.ok (), v₂) := by
  obtain ⟨d', rfl, hthen⟩ := outcome_write_then delimiter h (write q delimiter b)
  rw [hthen]
  exact outcome_write_eq_ok_iff.mpr h'

/-- What is written at the only place that an address names. -/
theorem outcome_update {address : Address} (haddress : address.endsWithSlice = false)
    {context : Path} (hpath : address.fullPath context = p)
    (hw : d.value.write? a p = some v₁) : outcome (update address context a) d = (.ok (), v₁) := by
  have hpaths : writePaths d.value address context = [p] := by
    unfold writePaths
    rw [Value.locate?_of_not_slice haddress, hpath]
    cases d.value.kindAt? p <;> rfl
  obtain ⟨d', rfl, hthen⟩ :=
    outcome_write_then address.delimiter hw (writeAll address.delimiter a [])
  unfold update outcome
  rw [runOn_get_bind, hpaths, writeAll]
  exact hthen

theorem outcome_remove (h : d.value.remove? p = some (a, v₁)) :
    outcome (remove p delimiter) d = (.ok a, v₁) := by
  obtain ⟨d', hd'⟩ := exists_removal h
  have hvalue := value_remove? hd'
  rw [h] at hvalue
  cases hvalue
  rw [outcome, runOn_remove_eq_ok_iff.mpr hd']

theorem outcome_remove_of_none (h : d.value.remove? p = none) :
    outcome (remove p delimiter) d =
      (.error (.writeTargetMissing (p.address delimiter)), d.value) := by
  unfold outcome
  rw [runOn_remove, Document.remove?, h]
  rfl

theorem outcome_write_remove (h : d.value.write? a p = some v₁)
    (h' : v₁.remove? q = some (b, v₂)) :
    outcome (write p delimiter a >>= fun _ => remove q delimiter) d = (.ok b, v₂) := by
  obtain ⟨d', rfl, hthen⟩ := outcome_write_then delimiter h (remove q delimiter)
  rw [hthen]
  exact outcome_remove h'

end

/-- The laws of writes. Of two writes at one path the second alone counts, whether they can be made
or not. Writing back what a path leads to changes nothing. What is written where there was nothing
can be removed again, and then everything is as it was. And two writes at paths that lead to values
can change places if neither path leads to the end of the other or below it; both are told here with
positions counted from the start and entries of mappings by their keys. -/
theorem write_laws (p q : Path) (delimiter : String) (d : Document) :
    (∀ a b, outcome (do write p delimiter a; write p delimiter b) d =
        outcome (write p delimiter b) d) ∧
      ((∀ s ∈ p, s.isSlice = false) → ∀ v, d.value.walk? p = some v →
        outcome (write p delimiter v) d = (.ok (), d.value)) ∧
      (∀ a v', d.value.walk? p = none → outcome (write p delimiter a) d = (.ok (), v') →
        outcome (do write p delimiter a; remove p delimiter) d = (.ok a, d.value)) ∧
      ((∀ s ∈ p, s.isSlice = false) → (∀ s ∈ q, s.isSlice = false) →
        (d.value.walk? p).isSome = true → (d.value.walk? q).isSome = true →
        ¬ d.value.spelling p <+: d.value.spelling q →
        ¬ d.value.spelling q <+: d.value.spelling p → ∀ a b, ∃ v',
          outcome (do write p delimiter a; write q delimiter b) d = (.ok (), v') ∧
            outcome (do write q delimiter b; write p delimiter a) d = (.ok (), v')) := by
  refine ⟨fun a b => ?_, fun hp v hv => ?_, fun a v' hnone hwrite => ?_,
    fun hp hq hwp hwq hpq hqp a b => ?_⟩
  · cases ha : d.value.write? a p with
    | none =>
      have hb : d.value.write? b p = none := by
        have hsame := Value.isSome_write?_congr d.value b a p
        rw [ha] at hsame
        exact Option.isNone_iff_eq_none.mp (Option.isSome_eq_false_iff.mp hsame)
      rw [outcome_write_then_of_none ha, outcome_write_of_none hb]
    | some v₁ =>
      obtain ⟨v₂, hb⟩ : ∃ v₂, d.value.write? b p = some v₂ := by
        rw [← Option.isSome_iff_exists, Value.isSome_write?_congr d.value b a p, ha]
        rfl
      have hagain : v₁.write? b p = some v₂ := (Value.write?_write? ha b).trans hb
      rw [outcome_write_write ha hagain, outcome_write_eq_ok_iff.mpr hb]
  · exact outcome_write_eq_ok_iff.mpr (Value.write?_walk? hp hv)
  · have hw := outcome_write_eq_ok_iff.mp hwrite
    exact outcome_write_remove hw (Value.remove?_write? hw hnone)
  · obtain ⟨x, hx⟩ := Option.isSome_iff_exists.mp hwp
    obtain ⟨y, hy⟩ := Option.isSome_iff_exists.mp hwq
    obtain ⟨v₁, h₁⟩ := Value.exists_write?_of_walk? hp hx a
    obtain ⟨v₂, h₂⟩ := Value.exists_write?_of_walk? hq hy b
    have hstill : v₁.walk? q = some y := (Value.walk?_write_of_apart h₁ hq hpq hqp).trans hy
    obtain ⟨v', h'⟩ := Value.exists_write?_of_walk? hq hstill b
    have hcomm := Value.write?_comm hp hq hwp hwq hpq hqp a b
    rw [h₁, h₂, Option.bind_some, Option.bind_some, h'] at hcomm
    exact ⟨v', outcome_write_write h₁ h', outcome_write_write h₂ hcomm.symm⟩

/-- A sequence under a key that reads like a number, and another key. -/
def shelf : Document :=
  .ofValue (.mapping [("80", .sequence [.null, .boolean true]), ("b", .string "x")]) {}

/-- Two elements of the sequence, reached by the number and by the key, and a key that is new. -/
theorem write_laws_spelled :
    (∃ v', outcome (do
          write [.index 80, .index (-1)] "/" .null
          write [.key "80", .index 0] "/" (.boolean false)) shelf = (.ok (), v') ∧
        outcome (do
          write [.key "80", .index 0] "/" (.boolean false)
          write [.index 80, .index (-1)] "/" .null) shelf = (.ok (), v')) ∧
      outcome (write [.index 80, .index (-1)] "/" (.boolean true)) shelf = (.ok (), shelf.value) ∧
        outcome (do
          write [.key "c"] "/" .null
          remove [.key "c"] "/") shelf = (.ok .null, shelf.value) := by
  obtain ⟨-, hback, -, hcomm⟩ :=
    write_laws [.index 80, .index (-1)] [.key "80", .index 0] "/" shelf
  obtain ⟨-, -, hundo, -⟩ := write_laws [.key "c"] [] "/" shelf
  refine ⟨?_, hback (by decide) _ (by rfl), ?_⟩
  · exact hcomm (by decide) (by decide) (by decide +kernel) (by decide +kernel)
      (by decide +kernel) (by decide +kernel) .null (.boolean false)
  · exact hundo .null _ (by rfl) (outcome_write_eq_ok_iff.mpr rfl)

end Live

end LiveDocument
