import LiveDocument.Json.Reader
import LiveDocument.Proofs.Tree.Throughout

/-!
# The keys of what is read

A key that stands twice in a text is stored once, so what is read has distinct keys, whatever the text
is. Nothing that the reader gives is then lost when it is written again.

* `readsScalar_readNumber`: numerals are read as scalars.
* `readsDistinct`: values, items and entries, together by the number of calls.
* `distinct_of_read?`: a whole text.
-/

namespace LiveDocument

namespace Json

open Value

/-- What is read, if anything, is no container. -/
def ReadsScalar (o : Option (Value × List Char)) : Prop :=
  ∀ e, o = some e → e.1.kind.isContainer = false

theorem readsScalar_map {o : Option Value} (ho : ∀ v, o = some v → v.kind.isContainer = false)
    (rest : List Char) : ReadsScalar (o.map fun v => (v, rest)) := by
  intro e he
  obtain ⟨v, hv, rfl⟩ := Option.map_eq_some_iff.mp he
  exact ho v hv

theorem isContainer_floatOf? {negative : Bool} {word : Nat} {exponent : Int} (v : Value)
    (h : floatOf? negative word exponent = some v) : v.kind.isContainer = false := by
  obtain ⟨x, -, rfl⟩ := Option.map_eq_some_iff.mp h
  rfl

theorem isContainer_integerOf? {negative : Bool} {word : Nat} (v : Value)
    (h : integerOf? negative word = some v) : v.kind.isContainer = false := by
  unfold integerOf? at h
  split at h
  · split at h
    · exact isContainer_floatOf? v h
    · obtain ⟨i, -, rfl⟩ := Option.map_eq_some_iff.mp h
      rfl
  · obtain ⟨i, -, rfl⟩ := Option.map_eq_some_iff.mp h
    rfl

theorem readsScalar_readExponent (negative : Bool) (word : Nat) (shift : Int) (cs : List Char) :
    ReadsScalar (readExponent negative word shift cs) := by
  have hdigits : ∀ down cs, ReadsScalar (readExponentDigits negative word shift down cs) := by
    intro down cs e he
    unfold readExponentDigits at he
    dsimp only at he
    split at he
    · cases he
    · split at he
      · split at he
        · cases he
        · cases he
          rfl
      · exact readsScalar_map isContainer_floatOf? _ e he
  unfold readExponent
  split
  · split
    · split <;> exact hdigits _ _
    · exact readsScalar_map isContainer_floatOf? _
  · exact readsScalar_map isContainer_floatOf? _

theorem readsScalar_none : ReadsScalar none := by
  intro e he
  cases he

theorem readsScalar_readAfterWhole (negative : Bool) (whole : Gathered) :
    ReadsScalar (readAfterWhole negative whole) := by
  have hif : ∀ (p : Prop) [Decidable p], ReadsScalar
      (if p then (integerOf? negative whole.word).map fun v => (v, whole.rest)
        else readExponent negative whole.word whole.dropped whole.rest) := by
    intro p _
    split
    · exact readsScalar_map isContainer_integerOf? _
    · exact readsScalar_readExponent _ _ _ _
  unfold readAfterWhole
  split
  · dsimp only
    split
    · exact readsScalar_none
    · exact readsScalar_readExponent _ _ _ _
  · exact hif _

theorem readsScalar_readDigits (negative : Bool) (cs : List Char) :
    ReadsScalar (readDigits negative cs) := by
  unfold readDigits
  split
  · split
    · split
      · exact readsScalar_none
      · exact readsScalar_readAfterWhole _ _
    · exact readsScalar_readAfterWhole _ _
  · split
    · exact readsScalar_readAfterWhole _ _
    · exact readsScalar_none
  · exact readsScalar_none

theorem readsScalar_readNumber (cs : List Char) : ReadsScalar (readNumber cs) := by
  unfold readNumber
  split <;> exact readsScalar_readDigits _ _

/-- With so many calls, no mapping that is read has a key twice. -/
structure ReadsDistinct (fuel : Nat) : Prop where
  value : ∀ depth cs e, readValue fuel depth cs = some e → e.1.Distinct
  items : ∀ depth cs e, readItems fuel depth cs = some e → ∀ item ∈ e.1, item.Distinct
  entries : ∀ depth cs e, readEntries fuel depth cs = some e → ∀ entry ∈ e.1, entry.2.Distinct

theorem distinct_of_scalar {v : Value} (hv : v.kind.isContainer = false) : v.Distinct := by
  cases v with
  | sequence items => cases hv
  | mapping entries => cases hv
  | _ => trivial

namespace ReadsDistinct

variable {fuel : Nat}

theorem readValue (h : ReadsDistinct fuel) (depth : Nat) (cs : List Char)
    (e : Value × List Char) (he : readValue (fuel + 1) depth cs = some e) : e.1.Distinct := by
  rw [Json.readValue] at he
  split at he
  · cases he
    trivial
  · cases he
    trivial
  · cases he
    trivial
  · obtain ⟨text, -, rfl⟩ := Option.map_eq_some_iff.mp he
    trivial
  · split at he
    · cases he
    · split at he
      · cases he
        exact throughout_sequence.mpr ⟨trivial, List.forall_mem_nil _⟩
      · obtain ⟨read, hread, rfl⟩ := Option.map_eq_some_iff.mp he
        exact throughout_sequence.mpr ⟨trivial, h.items _ _ read hread⟩
  · split at he
    · cases he
    · split at he
      · cases he
        exact throughout_mapping.mpr ⟨List.nodup_nil, List.forall_mem_nil _⟩
      · obtain ⟨read, hread, rfl⟩ := Option.map_eq_some_iff.mp he
        exact throughout_mapping.mpr ⟨Entries.nodup_keys_ofList _,
          fun entry hentry => h.entries _ _ read hread entry (Entries.mem_of_mem_ofList hentry)⟩
  · exact distinct_of_scalar (readsScalar_readNumber _ e he)

theorem readItems (h : ReadsDistinct fuel) (depth : Nat) (cs : List Char)
    (e : List Value × List Char) (he : readItems (fuel + 1) depth cs = some e) :
    ∀ item ∈ e.1, item.Distinct := by
  rw [Json.readItems] at he
  obtain ⟨first, hfirst, he⟩ := Option.bind_eq_some_iff.mp he
  have hitem := h.value _ _ first hfirst
  dsimp only at he
  split at he
  · obtain ⟨more, hmore, rfl⟩ := Option.map_eq_some_iff.mp he
    exact List.forall_mem_cons.mpr ⟨hitem, h.items _ _ more hmore⟩
  · cases he
    exact List.forall_mem_singleton.mpr hitem
  · cases he

theorem readEntries (h : ReadsDistinct fuel) (depth : Nat) (cs : List Char)
    (e : List (String × Value) × List Char) (he : readEntries (fuel + 1) depth cs = some e) :
    ∀ entry ∈ e.1, entry.2.Distinct := by
  rw [Json.readEntries] at he
  split at he
  · obtain ⟨key, -, he⟩ := Option.bind_eq_some_iff.mp he
    dsimp only at he
    split at he
    · obtain ⟨first, hfirst, he⟩ := Option.bind_eq_some_iff.mp he
      have hentry := h.value _ _ first hfirst
      split at he
      · obtain ⟨more, hmore, rfl⟩ := Option.map_eq_some_iff.mp he
        exact List.forall_mem_cons.mpr ⟨hentry, h.entries _ _ more hmore⟩
      · cases he
        exact List.forall_mem_singleton.mpr hentry
      · cases he
    · cases he
  · cases he

end ReadsDistinct

theorem readsDistinct (fuel : Nat) : ReadsDistinct fuel := by
  induction fuel with
  | zero =>
    refine ⟨fun depth cs e he => ?_, fun depth cs e he => ?_, fun depth cs e he => ?_⟩
    · rw [readValue] at he
      cases he
    · rw [readItems] at he
      cases he
    · rw [readEntries] at he
      cases he
  | succ fuel ih => exact ⟨ih.readValue, ih.readItems, ih.readEntries⟩

theorem distinct_of_read? {text : String} {v : Value} (h : read? text = some v) : v.Distinct := by
  unfold read? readChars? at h
  split at h
  · rename_i w rest hread
    rw [Option.ite_none_right_eq_some] at h
    obtain rfl := Option.some.inj h.2
    exact (readsDistinct _).value _ _ _ hread
  · cases h

end Json

end LiveDocument
