import LiveDocument.Proofs.Tree.Targets

/-!
# Selected elements

A slice at the end of an address is read in two ways: a walk makes a sequence of the selected
elements, and a lookup names each of them by its own place. Both find something at the same time,
and the places lead to the elements of the sequence, in order.

* `map_walk?_selected?`: where the places lead. `map_path_selected?`: their paths.
* `walk?_fullPath_of_slice`: both readings of a slice at the end of an address.
-/

namespace LiveDocument.Value

/-- The places that a slice selects lead to the elements that it makes a sequence of. -/
theorem map_walk?_selected? {v : Value} {items : List Value} (hlength : items.length <
    9223372036854775808) {path : Path} (hv : v.walk? path = some (.sequence items))
    (places : List Nat) :
    (places.filterMap fun place => (items[place]?).map fun item =>
        (⟨path ++ [.index (Int64.ofInt place)], item.kind⟩ : Target)).map
          (fun t => v.walk? t.path) = (places.filterMap (items[·]?)).map some := by
  induction places with
  | nil => rfl
  | cons p rest ih =>
    cases hp : items[p]? with
    | none =>
      rw [List.filterMap_cons_none (by rw [hp]; rfl), List.filterMap_cons_none hp]
      exact ih
    | some item =>
      have hlt := (List.getElem?_eq_some_iff.mp hp).1
      have hwalk : v.walk? (path ++ [.index (Int64.ofInt p)]) = some item := by
        rw [walk?_append, hv, Option.bind_some]
        simp only [walk?, step?, Position.within?_ofInt hlt hlength, Option.bind_some, hp]
      rw [List.filterMap_cons_some (by rw [hp]; rfl), List.filterMap_cons_some hp, List.map_cons,
        List.map_cons, ih]
      exact congrArg (· :: _) hwalk

/-- The paths of the elements that a slice selects: one for each place that the sequence has. -/
theorem map_path_selected? {items : List Value} {s : Slice} {path : Path} {targets : List Target}
    (h : (sequence items).selected? s path = some targets) :
    ∃ places, s.places? items.length = some places ∧ targets.map Target.path =
      (places.filter fun p => decide (p < items.length)).map fun p =>
        path ++ [.index (Int64.ofInt p)] := by
  obtain ⟨places, hplaces, rfl⟩ := Option.map_eq_some_iff.mp h
  refine ⟨places, hplaces, ?_⟩
  clear h hplaces
  induction places with
  | nil => rfl
  | cons p rest ih =>
    by_cases hp : p < items.length
    · have hitem := List.getElem?_eq_getElem hp
      rw [List.filterMap_cons_some (by rw [hitem]; rfl),
        List.filter_cons_of_pos (by simpa using hp), List.map_cons, List.map_cons, ih]
    · have hitem : items[p]? = none := List.getElem?_eq_none (by omega)
      rw [List.filterMap_cons_none (by rw [hitem]; rfl),
        List.filter_cons_of_neg (by simpa using hp), ih]

/-- An address with a slice at its end names places if and only if a walk along it makes a sequence,
and then the places lead to the elements of the sequence, in order. -/
theorem walk?_fullPath_of_slice {v : Value} (hv : v.Sized) {a : Address}
    (ha : a.endsWithSlice = true) (context : Path) :
    (v.walk? (a.fullPath context) = none ∧ v.locate? a context = none) ∨
      ∃ items targets, v.walk? (a.fullPath context) = some (.sequence items) ∧
        v.locate? a context = some targets ∧
          targets.map (fun t => v.walk? t.path) = items.map some := by
  obtain ⟨s, hs⟩ := exists_slice_of_endsWithSlice ha
  have hsplit : a.fullPath context = (a.fullPath context).dropLast ++ [.slice s] := by
    obtain ⟨front, hfront⟩ := List.getLast?_eq_some_iff.mp hs
    rw [fullPath_eq, hfront, ← List.append_assoc, List.dropLast_concat]
  have hwalk : v.walk? (a.fullPath context) =
      (v.walk? (a.fullPath context).dropLast).bind fun parent => parent.step? (.slice s) := by
    rw [hsplit, walk?_append, List.dropLast_concat]
    simp only [walk?, Option.bind_fun_some]
  rw [hwalk, locate?_of_slice hs]
  cases hparent : v.walk? (a.fullPath context).dropLast with
  | none => exact Or.inl ⟨rfl, rfl⟩
  | some parent =>
    cases parent with
    | sequence items =>
      cases hplaces : s.places? items.length with
      | none => exact Or.inl (by simp [step?, selected?, hplaces])
      | some places =>
        have hsized : (sequence items).Sized := hv.walk? hparent
        refine Or.inr ⟨places.filterMap (items[·]?), _, ?_, ?_,
          map_walk?_selected? hsized.1 hparent places⟩
        · simp only [Option.bind_some, step?, hplaces, Option.map_some]
        · simp only [Option.bind_some, selected?, hplaces, Option.map_some]
    | _ => exact Or.inl ⟨rfl, rfl⟩

end LiveDocument.Value
