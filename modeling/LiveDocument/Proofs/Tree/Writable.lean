import LiveDocument.Document.Edit
import LiveDocument.Proofs.Tree.Targets

/-!
# Where a write succeeds

A write depends on the way to its container alone: there must be no slice on the way, and the
container must have the spot. The value that is written plays no part, and a write leaves every
other spot of its container where it was. So of several writes into one sequence either the first
fails or none does.

* `isSome_spot?_iff`: which spots a container has.
* `isSome_write?_concat`: where a write succeeds.
* `write?_concat_eq_some`: it is a write of its container. `walk?_front_write?`: what it leaves in
  place of the container.
* `Elements`: paths of elements of one sequence. `Elements.write?`: they stay so after a write at
  one of them.
-/

namespace LiveDocument.Value

/-- A segment names a spot in a mapping if it is no slice, and in a sequence if it is a position
that the sequence has, counted from either end. -/
theorem isSome_spot?_iff {v : Value} {s : Segment} :
    (v.spot? s).isSome = true ↔ s.isSlice = false ∧ (v.kind = .mapping ∨
      ∃ items place, v = .sequence items ∧ s = .index place ∧
        -(items.length : Int) ≤ place.toInt ∧ place.toInt < items.length) := by
  cases v with
  | mapping entries => cases s <;> simp [spot?, keyOf?, Segment.isSlice, kind]
  | sequence items =>
    cases s with
    | index place =>
      rw [spot?, Option.isSome_map, Position.isSome_within?_iff]
      constructor
      · exact fun h => ⟨rfl, .inr ⟨items, place, rfl, rfl, h⟩⟩
      · rintro ⟨-, hkind | ⟨items', place', he, hp, h⟩⟩
        · cases hkind
        · cases he
          cases hp
          exact h
    | _ => simp [spot?, kind]
  | _ => simp [spot?, kind]

/-- A write succeeds if and only if there is no slice on the way to its container and the container
has the spot. -/
theorem isSome_write?_concat {v new : Value} {front : Path} {last : Segment} :
    (v.write? new (front ++ [last])).isSome = true ↔ (∀ s ∈ front, s.isSlice = false) ∧
      ∃ parent, v.walk? front = some parent ∧ (parent.spot? last).isSome = true := by
  induction front generalizing v with
  | nil =>
    rw [List.nil_append, write?_singleton, Option.isSome_map]
    constructor
    · intro h
      exact ⟨List.forall_mem_nil _, v, rfl, h⟩
    · rintro ⟨-, parent, hw, h⟩
      cases hw
      exact h
  | cons s rest ih =>
    rw [List.cons_append]
    constructor
    · intro h
      obtain ⟨v', h⟩ := Option.isSome_iff_exists.mp h
      obtain ⟨spot, changed, hs, -, ⟨hnil, -⟩ | ⟨inner, hi, hwrite⟩⟩ := write?_cons_eq_some h
      · exact absurd hnil (List.append_ne_nil_of_right_ne_nil _ (List.cons_ne_nil _ _))
      · obtain ⟨hrest, parent, hw, hlast⟩ := ih.mp (Option.isSome_iff_exists.mpr ⟨changed, hwrite⟩)
        refine ⟨fun u hu => ?_, parent, ?_, hlast⟩
        · rcases List.mem_cons.mp hu with rfl | hu
          · exact isSlice_of_spot? hs
          · exact hrest u hu
        · rw [walk?_cons_of_atSpot? hs hi, hw]
    · rintro ⟨hslice, parent, hw, hlast⟩
      obtain ⟨spot, inner, hs, hi, hw⟩ := walk?_cons_eq_some (hslice s List.mem_cons_self) hw
      have hrest : ∀ u ∈ rest, u.isSlice = false := fun u hu =>
        hslice u (List.mem_cons_of_mem _ hu)
      rw [write?_cons_of_atSpot? hs hi, Option.isSome_map]
      exact ih.mpr ⟨hrest, parent, hw, hlast⟩

/-- A write is one of its container, with another value at the spot. -/
theorem write?_concat_eq_some {v new v' : Value} {front : Path} {last : Segment}
    (h : v.write? new (front ++ [last]) = some v') :
    ∃ parent spot, v.walk? front = some parent ∧ parent.spot? last = some spot ∧
      v.write? (parent.putSpot spot new) front = some v' := by
  induction front generalizing v v' with
  | nil =>
    rw [List.nil_append, write?_singleton] at h
    obtain ⟨spot, hs, rfl⟩ := Option.map_eq_some_iff.mp h
    exact ⟨v, spot, rfl, hs, rfl⟩
  | cons s rest ih =>
    obtain ⟨spot, changed, hs, rfl, hc⟩ := write?_cons_eq_some h
    rcases hc with ⟨hnil, -⟩ | ⟨inner, hi, hw⟩
    · exact absurd hnil (List.append_ne_nil_of_right_ne_nil _ (List.cons_ne_nil _ _))
    · obtain ⟨parent, spot', hwalk, hlast, hfront⟩ := ih hw
      refine ⟨parent, spot', ?_, hlast, ?_⟩
      · rw [walk?_cons_of_atSpot? hs hi, hwalk]
      · rw [write?_cons_of_atSpot? hs hi, hfront, Option.map_some]

/-- A write leaves its container in place, with another value at the spot. -/
theorem walk?_front_write? {v new v' : Value} {front : Path} {last : Segment}
    (h : v.write? new (front ++ [last]) = some v') :
    ∃ parent spot, v.walk? front = some parent ∧ parent.spot? last = some spot ∧
      v'.walk? front = some (parent.putSpot spot new) := by
  obtain ⟨parent, spot, hwalk, hlast, hwrite⟩ := write?_concat_eq_some h
  exact ⟨parent, spot, hwalk, hlast, walk?_write_self hwrite⟩

/-! ## Writing elements of one sequence -/

/-- The paths lead to elements of the sequence at the end of `front`, spelled by their places. -/
def Elements (v : Value) (front : Path) (paths : List Path) : Prop :=
  ∃ items, v.walk? front = some (.sequence items) ∧
    ∀ path ∈ paths, ∃ p < items.length, path = front ++ [.index (Int64.ofInt p)]

/-- An element can be written if there is no slice on the way, and afterwards the others are still
elements of the sequence. -/
theorem Elements.write? {v : Value} {front path : Path} {rest : List Path}
    (h : v.Elements front (path :: rest)) (hfront : ∀ s ∈ front, s.isSlice = false)
    (new : Value) : ∃ v', v.write? new path = some v' ∧ v'.Elements front rest := by
  obtain ⟨items, hw, hpaths⟩ := h
  obtain ⟨p, hp, rfl⟩ := hpaths path List.mem_cons_self
  have hspot : ((sequence items).spot? (.index (Int64.ofInt p))).isSome = true := by
    rw [spot?, Option.isSome_map]
    exact Position.isSome_within?_ofInt hp
  have hsome : (v.write? new (front ++ [.index (Int64.ofInt p)])).isSome = true :=
    isSome_write?_concat.mpr ⟨hfront, _, hw, hspot⟩
  obtain ⟨v', hv'⟩ := Option.isSome_iff_exists.mp hsome
  refine ⟨v', hv', ?_⟩
  obtain ⟨parent, spot, hparent, hs, hafter⟩ := walk?_front_write? hv'
  rw [hw] at hparent
  obtain rfl := Option.some.inj hparent
  obtain ⟨q, -, rfl⟩ := Option.map_eq_some_iff.mp hs
  refine ⟨items.set q new, hafter, fun other hother => ?_⟩
  obtain ⟨r, hr, he⟩ := hpaths other (List.mem_cons_of_mem _ hother)
  have hlength : (items.set q new).length = items.length := List.length_set
  exact ⟨r, by omega, he⟩

/-- No element can be written through a slice. -/
theorem Elements.write?_eq_none {v : Value} {front path : Path} {rest : List Path}
    (h : v.Elements front (path :: rest)) (hfront : ¬ ∀ s ∈ front, s.isSlice = false)
    (new : Value) : v.write? new path = none := by
  obtain ⟨items, -, hpaths⟩ := h
  obtain ⟨p, -, rfl⟩ := hpaths path List.mem_cons_self
  cases hw : v.write? new (front ++ [.index (Int64.ofInt p)]) with
  | none => rfl
  | some v' =>
    have hsome := isSome_write?_concat.mp (Option.isSome_iff_exists.mpr ⟨v', hw⟩)
    exact absurd hsome.1 hfront

/-- The paths that a write goes to are one path, or elements of one sequence. -/
theorem writePaths_cases (v : Value) (a : Address) (context : Path) :
    (∃ path, Live.writePaths v a context = [path]) ∨
      ∃ front, v.Elements front (Live.writePaths v a context) := by
  unfold Live.writePaths
  split
  · rename_i t rest hl
    cases hslice : a.endsWithSlice with
    | false =>
      rw [locate?_of_not_slice hslice] at hl
      obtain ⟨kind, -, he⟩ := Option.map_eq_some_iff.mp hl
      obtain ⟨-, rfl⟩ := List.cons.inj he
      exact Or.inl ⟨_, rfl⟩
    | true =>
      have hall := fun u hu => of_mem_locate? (t := u) hl hu
      refine Or.inr ⟨(a.fullPath context).dropLast, ?_⟩
      rcases hall t List.mem_cons_self with ⟨hf, -⟩ | ⟨-, items, p, item, hw, -⟩
      · rw [hslice] at hf
        cases hf
      · refine ⟨items, hw, fun path hpath => ?_⟩
        obtain ⟨u, hu, rfl⟩ := List.mem_map.mp hpath
        rcases hall u hu with ⟨hf, -⟩ | ⟨-, items', q, item', hw', hq, rfl⟩
        · rw [hslice] at hf
          cases hf
        · rw [hw] at hw'
          cases hw'
          exact ⟨q, (List.getElem?_eq_some_iff.mp hq).1, rfl⟩
  · exact Or.inl ⟨_, rfl⟩

end LiveDocument.Value
