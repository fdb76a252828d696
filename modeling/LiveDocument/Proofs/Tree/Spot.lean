import LiveDocument.Tree.Edit

/-!
# Spots of a container

A segment names at most one spot of a container: a key of a mapping or a place of a sequence.
Walking and writing go through spots alone, so what they do to each other is settled here for one
step, once for mappings and sequences together.

* `child?_eq_spot`, `assign?_eq_spot`: one step in, and one assignment, as operations on spots.
* `walk?_cons_eq_some`, `write?_cons_eq_some`: a walk goes through one spot, and a write below a
  segment changes the value at one.
* `remove?_eq_some`: a removal is a write of the container without the entry.
* `exists_remove?`, `walk?_of_remove?`: what a walk leads to can be removed.
-/

namespace LiveDocument

/-- A key of a mapping or a place of a sequence. -/
inductive Spot where
  | key (name : String)
  | place (p : Nat)
  deriving DecidableEq

namespace Value

/-- The spot that a segment names in a container. -/
def spot? (v : Value) (segment : Segment) : Option Spot :=
  match v, segment with
  | .mapping _, s => (keyOf? s).map .key
  | .sequence items, .index place => (Position.within? place items.length).map .place
  | _, _ => none

/-- The value at a spot. -/
def atSpot? (v : Value) (spot : Spot) : Option Value :=
  match v, spot with
  | .mapping entries, .key name => Entries.get? name entries
  | .sequence items, .place p => items[p]?
  | _, _ => none

/-- The container with another value at a spot. -/
def putSpot (v : Value) (spot : Spot) (new : Value) : Value :=
  match v, spot with
  | .mapping entries, .key name => .mapping (Entries.put name new entries)
  | .sequence items, .place p => .sequence (items.set p new)
  | v, _ => v

/-! ## One step -/

theorem step?_eq_spot {v : Value} {s : Segment} (h : s.isSlice = false) :
    v.step? s = (v.spot? s).bind v.atSpot? := by
  cases v with
  | mapping entries =>
    cases s with
    | slice t => cases h
    | key name => rfl
    | index place => rfl
  | sequence items =>
    cases s with
    | slice t => cases h
    | key name => rfl
    | index place =>
      simp only [step?, spot?]
      cases Position.within? place items.length <;> rfl
  | _ => rfl

theorem spot?_of_isSlice {v : Value} {s : Segment} (h : s.isSlice = true) : v.spot? s = none := by
  cases s with
  | slice t => cases v <;> rfl
  | _ => cases h

theorem isSlice_of_spot? {v : Value} {s : Segment} {spot : Spot} (h : v.spot? s = some spot) :
    s.isSlice = false := by
  cases hs : s.isSlice with
  | false => rfl
  | true =>
    rw [spot?_of_isSlice hs] at h
    cases h

theorem step?_of_spot? {v : Value} {s : Segment} {spot : Spot} (h : v.spot? s = some spot) :
    v.step? s = v.atSpot? spot := by
  rw [step?_eq_spot (isSlice_of_spot? h), h, Option.bind_some]

/-- A walk on from a segment that leads to a value goes on in that value. -/
theorem walk?_cons_of_atSpot? {v inner : Value} {s : Segment} {spot : Spot}
    (hs : v.spot? s = some spot) (hi : v.atSpot? spot = some inner) (rest : Path) :
    v.walk? (s :: rest) = inner.walk? rest := by
  rw [walk?, step?_of_spot? hs, hi, Option.bind_some]

/-- A walk that does not begin with a slice goes through a spot. -/
theorem walk?_cons_eq_some {v w : Value} {s : Segment} {rest : Path} (hslice : s.isSlice = false)
    (h : v.walk? (s :: rest) = some w) :
    ∃ spot inner, v.spot? s = some spot ∧ v.atSpot? spot = some inner ∧
      inner.walk? rest = some w := by
  obtain ⟨inner, hstep, hrest⟩ := Option.bind_eq_some_iff.mp h
  rw [step?_eq_spot hslice] at hstep
  obtain ⟨spot, hs, hi⟩ := Option.bind_eq_some_iff.mp hstep
  exact ⟨spot, inner, hs, hi, hrest⟩

theorem child?_eq_spot (v : Value) (s : Segment) : v.child? s = (v.spot? s).bind v.atSpot? := by
  unfold child?
  by_cases h : s.isSlice = true
  · rw [if_pos h, spot?_of_isSlice h]
    rfl
  · rw [if_neg h, step?_eq_spot (by simpa using h)]

theorem assign?_eq_spot (v : Value) (s : Segment) (new : Value) :
    v.assign? s new = (v.spot? s).map fun spot => v.putSpot spot new := by
  cases v with
  | mapping entries =>
    simp only [assign?, spot?, Option.map_map]
    rfl
  | sequence items =>
    cases s with
    | index place =>
      simp only [assign?, spot?, Option.map_map]
      rfl
    | _ => rfl
  | _ => rfl

/-- Only containers have spots, and those of a sequence lie in it. -/
theorem place_lt_of_spot? {items : List Value} {s : Segment} {p : Nat}
    (h : (sequence items).spot? s = some (.place p)) : p < items.length := by
  cases s with
  | index place =>
    simp only [spot?, Option.map_eq_some_iff] at h
    obtain ⟨q, hq, hpq⟩ := h
    cases hpq
    exact Position.lt_of_within? hq
  | _ => cases h

/-! ## Another value at a spot -/

@[simp] theorem kind_putSpot (v : Value) (spot : Spot) (new : Value) :
    (v.putSpot spot new).kind = v.kind := by
  cases v <;> cases spot <;> rfl

@[simp] theorem spot?_putSpot (v : Value) (spot : Spot) (new : Value) (s : Segment) :
    (v.putSpot spot new).spot? s = v.spot? s := by
  cases v <;> cases spot <;> cases s <;> simp [putSpot, spot?]

theorem atSpot?_putSpot_self {v : Value} {s : Segment} {spot : Spot} (h : v.spot? s = some spot)
    (new : Value) : (v.putSpot spot new).atSpot? spot = some new := by
  cases v with
  | mapping entries =>
    simp only [spot?, Option.map_eq_some_iff] at h
    obtain ⟨name, -, rfl⟩ := h
    exact Entries.get?_put_self name new entries
  | sequence items =>
    cases spot with
    | key name => cases s <;> simp [spot?] at h
    | place p => simp [putSpot, atSpot?, place_lt_of_spot? h]
  | _ => cases h

theorem atSpot?_putSpot_of_ne {spot other : Spot} (h : spot ≠ other) (v new : Value) :
    (v.putSpot spot new).atSpot? other = v.atSpot? other := by
  cases v with
  | mapping entries =>
    cases spot with
    | place p => rfl
    | key name =>
      cases other with
      | place p => rfl
      | key k => exact Entries.get?_put_of_ne (fun hk => h (by rw [hk])) new entries
  | sequence items =>
    cases spot with
    | key name => rfl
    | place p =>
      cases other with
      | key k => rfl
      | place q => exact List.getElem?_set_ne (fun hq => h (by rw [hq]))
  | _ => cases spot <;> rfl

/-! ## Writing below a segment -/

theorem write?_singleton (v new : Value) (s : Segment) :
    v.write? new [s] = (v.spot? s).map fun spot => v.putSpot spot new :=
  assign?_eq_spot v s new

theorem write?_cons_cons (v new : Value) (s t : Segment) (rest : Path) :
    v.write? new (s :: t :: rest) =
      (v.spot? s).bind fun spot => (v.atSpot? spot).bind fun inner =>
        (inner.write? new (t :: rest)).map fun changed => v.putSpot spot changed := by
  rw [write?.eq_3 v new s (t :: rest) (by simp), child?_eq_spot]
  cases h : v.spot? s with
  | none => rfl
  | some spot =>
    simp only [Option.bind_some]
    cases v.atSpot? spot with
    | none => rfl
    | some inner =>
      simp only [Option.bind_some, assign?_eq_spot, h, Option.map_some]
      cases inner.write? new (t :: rest) <;> rfl

/-- A write below a segment that leads to a value is a write in that value. -/
theorem write?_cons_of_atSpot? {v inner : Value} {s : Segment} {spot : Spot}
    (hs : v.spot? s = some spot) (hi : v.atSpot? spot = some inner) (new : Value) (rest : Path) :
    v.write? new (s :: rest) =
      (inner.write? new rest).map fun changed => v.putSpot spot changed := by
  cases rest with
  | nil =>
    rw [write?_singleton, hs]
    rfl
  | cons t rest => rw [write?_cons_cons, hs, Option.bind_some, hi, Option.bind_some]

/-- A write below a segment puts another value at its spot: the new one, or the old one with the
write done in it. -/
theorem write?_cons_eq_some {v new v' : Value} {s : Segment} {rest : Path}
    (h : v.write? new (s :: rest) = some v') :
    ∃ spot changed, v.spot? s = some spot ∧ v' = v.putSpot spot changed ∧
      ((rest = [] ∧ changed = new) ∨
        ∃ inner, v.atSpot? spot = some inner ∧ inner.write? new rest = some changed) := by
  cases rest with
  | nil =>
    rw [write?_singleton, Option.map_eq_some_iff] at h
    obtain ⟨spot, hs, rfl⟩ := h
    exact ⟨spot, new, hs, rfl, Or.inl ⟨rfl, rfl⟩⟩
  | cons t rest =>
    rw [write?_cons_cons] at h
    obtain ⟨spot, hs, h⟩ := Option.bind_eq_some_iff.mp h
    obtain ⟨inner, hi, h⟩ := Option.bind_eq_some_iff.mp h
    obtain ⟨changed, hc, rfl⟩ := Option.map_eq_some_iff.mp h
    exact ⟨spot, changed, hs, rfl, Or.inr ⟨inner, hi, hc⟩⟩

/-- No write goes through a slice. -/
theorem isSlice_of_write? {v new v' : Value} {path : Path} (h : v.write? new path = some v')
    {s : Segment} (hs : s ∈ path) : s.isSlice = false := by
  induction path generalizing v v' with
  | nil => cases hs
  | cons t rest ih =>
    obtain ⟨spot, changed, ht, -, hc⟩ := write?_cons_eq_some h
    rcases List.mem_cons.mp hs with rfl | hs
    · exact isSlice_of_spot? ht
    · rcases hc with ⟨rfl, -⟩ | ⟨inner, -, hw⟩
      · cases hs
      · exact ih hw hs

/-! ## Removing an entry -/

/-- The container without what is at a spot. -/
def eraseSpot (v : Value) (spot : Spot) : Value :=
  match v, spot with
  | .mapping entries, .key name => .mapping (Entries.erase name entries)
  | .sequence items, .place p => .sequence (items.eraseIdx p)
  | v, _ => v

theorem takeOut?_eq_spot (v : Value) (s : Segment) :
    v.takeOut? s = (v.spot? s).bind fun spot =>
      (v.atSpot? spot).map fun old => (old, v.eraseSpot spot) := by
  cases v with
  | mapping entries =>
    rw [takeOut?, spot?]
    cases keyOf? s <;> rfl
  | sequence items =>
    cases s with
    | index place =>
      simp only [takeOut?, spot?]
      cases Position.within? place items.length <;> rfl
    | _ => rfl
  | _ => rfl

/-- A removal is a write of the container without the entry. -/
theorem remove?_eq_some {v old v' : Value} {path : Path} (h : v.remove? path = some (old, v')) :
    ∃ parent left last, path = path.dropLast ++ [last] ∧
      v.walk? path.dropLast = some parent ∧ parent.takeOut? last = some (old, left) ∧
        v.write? left path.dropLast = some v' := by
  induction path generalizing v v' with
  | nil => cases h
  | cons s rest ih =>
    cases rest with
    | nil => exact ⟨v, v', s, rfl, rfl, h, rfl⟩
    | cons t rest =>
      rw [remove?.eq_3 v s (t :: rest) (by simp), child?_eq_spot] at h
      obtain ⟨inner, hi, h⟩ := Option.bind_eq_some_iff.mp h
      obtain ⟨spot, hs, hin⟩ := Option.bind_eq_some_iff.mp hi
      obtain ⟨⟨old', changed⟩, hr, h⟩ := Option.bind_eq_some_iff.mp h
      simp only [assign?_eq_spot, hs, Option.map_some, Option.some.injEq, Prod.mk.injEq] at h
      obtain ⟨rfl, rfl⟩ := h
      obtain ⟨parent, left, last, hp, hw, ht, hl⟩ := ih hr
      refine ⟨parent, left, last, ?_, ?_, ht, ?_⟩
      · simpa using hp
      · rw [List.dropLast_cons_cons, walk?_cons_of_atSpot? hs hin, hw]
      · rw [List.dropLast_cons_cons, write?_cons_of_atSpot? hs hin, hl, Option.map_some]

/-- What a walk without slices leads to can be removed, unless it is the root. -/
theorem exists_remove? {v old : Value} {path : Path} (hne : path ≠ [])
    (hpath : ∀ s ∈ path, s.isSlice = false) (h : v.walk? path = some old) :
    ∃ v', v.remove? path = some (old, v') := by
  induction path generalizing v with
  | nil => exact absurd rfl hne
  | cons s rest ih =>
    obtain ⟨spot, inner, hs, hat, hrest⟩ := walk?_cons_eq_some (hpath s List.mem_cons_self) h
    cases rest with
    | nil =>
      cases hrest
      refine ⟨v.eraseSpot spot, ?_⟩
      rw [remove?, takeOut?_eq_spot, hs, Option.bind_some, hat, Option.map_some]
    | cons t rest =>
      obtain ⟨changed, hr⟩ := ih (List.cons_ne_nil _ _)
        (fun u hu => hpath u (List.mem_cons_of_mem _ hu)) hrest
      refine ⟨v.putSpot spot changed, ?_⟩
      rw [remove?.eq_3 v s (t :: rest) (by simp), child?_eq_spot, hs, Option.bind_some, hat,
        Option.bind_some, hr, Option.bind_some]
      dsimp only
      rw [assign?_eq_spot, hs, Option.map_some, Option.map_some]

/-- No removal goes through a slice. -/
theorem isSlice_of_remove? {v old v' : Value} {path : Path} (h : v.remove? path = some (old, v'))
    {s : Segment} (hs : s ∈ path) : s.isSlice = false := by
  obtain ⟨parent, left, last, hp, -, ht, hw⟩ := remove?_eq_some h
  rw [hp] at hs
  rcases List.mem_append.mp hs with hs | hs
  · exact isSlice_of_write? hw hs
  · rw [List.mem_singleton.mp hs]
    cases hlast : last with
    | slice t =>
      rw [hlast] at ht
      cases parent <;> cases ht
    | _ => rfl

/-- A removal gives what a walk leads to. -/
theorem walk?_of_remove? {v old v' : Value} {path : Path} (h : v.remove? path = some (old, v')) :
    v.walk? path = some old := by
  obtain ⟨parent, left, last, hp, hwalk, ht, -⟩ := remove?_eq_some h
  rw [takeOut?_eq_spot] at ht
  obtain ⟨spot, hs, ht⟩ := Option.bind_eq_some_iff.mp ht
  obtain ⟨found, hfound, he⟩ := Option.map_eq_some_iff.mp ht
  cases he
  rw [hp, walk?_append, hwalk, Option.bind_some, walk?, step?_of_spot? hs, hfound]
  rfl

end Value

end LiveDocument
