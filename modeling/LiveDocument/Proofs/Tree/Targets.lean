import LiveDocument.Document.Lookup
import LiveDocument.Proofs.Tree.Frame
import LiveDocument.View

/-!
# The places that an address names

An address without a slice at its end names the place at its full path; one with a slice names
elements of the sequence at the full path without the slice. Either way a target tells the kind of
the value that its path leads to.

* `Sized`: every sequence has fewer elements than there are places. `Sized.walk?`: so have parts.
* `locate?_of_not_slice`, `locate?_of_slice`: what an address names, by its full path.
* `locate?_cases`, `of_mem_locate?`: what it finds.
* `kindAt?_of_mem_locate?`: targets tell the kinds at their paths.
* `isParsed_of_mem_locate?`: their paths are parsed.
* `isSome_step?_of_segments`: the segments of a container lead to its elements and entries.
-/

namespace LiveDocument

namespace Position

/-- The positions of a sequence are those that are counted from either end. -/
theorem isSome_within?_iff {i : Int64} {length : Nat} :
    (within? i length).isSome = true ↔ -(length : Int) ≤ i.toInt ∧ i.toInt < length := by
  unfold within?
  rw [Option.isSome_ite]
  split <;> omega

/-- Every place of a sequence is denoted by its number, read as a word. -/
theorem isSome_within?_ofInt {p length : Nat} (h : p < length) :
    (within? (Int64.ofInt p) length).isSome = true := by
  have hsize : Int64.size = 18446744073709551616 := rfl
  unfold within?
  rw [Int64.toInt_ofInt, Int.bmod_def, hsize, Option.isSome_ite]
  split <;> split <;> omega

theorem within?_ofInt {p length : Nat} (h : p < length) (hlength : length < 9223372036854775808) :
    within? (Int64.ofInt p) length = some p := by
  have hsize : Int64.size = 18446744073709551616 := rfl
  have hp : (Int64.ofInt p).toInt = p := by
    rw [Int64.toInt_ofInt, hsize]
    exact Int.bmod_eq_of_le (by omega) (by omega)
  have hnot : ¬ (p : Int) < 0 := by omega
  unfold within?
  simp only [hp, hnot, if_false]
  rw [if_pos (by omega), Int.toNat_natCast]

end Position

namespace Value

/-! ## Sizes -/

mutual

/-- Every sequence in the value has fewer elements than a signed word counts. -/
def Sized : Value → Prop
  | .sequence items => items.length < 9223372036854775808 ∧ SizedAll items
  | .mapping entries => SizedEntries entries
  | _ => True

/-- Every item is of such a size. -/
def SizedAll : List Value → Prop
  | [] => True
  | item :: items => Sized item ∧ SizedAll items

/-- The value of every entry is of such a size. -/
def SizedEntries : List (String × Value) → Prop
  | [] => True
  | (_, value) :: entries => Sized value ∧ SizedEntries entries

end

mutual

instance decidableSized : ∀ v : Value, Decidable v.Sized
  | .sequence items => @instDecidableAnd _ _ _ (decidableSizedAll items)
  | .mapping entries => decidableSizedEntries entries
  | .null => isTrue trivial
  | .boolean _ => isTrue trivial
  | .integer _ => isTrue trivial
  | .float _ => isTrue trivial
  | .string _ => isTrue trivial

instance decidableSizedAll : ∀ items : List Value, Decidable (SizedAll items)
  | [] => isTrue trivial
  | item :: items => @instDecidableAnd _ _ (decidableSized item) (decidableSizedAll items)

instance decidableSizedEntries : ∀ entries : List (String × Value), Decidable (SizedEntries entries)
  | [] => isTrue trivial
  | (_, value) :: entries =>
    @instDecidableAnd _ _ (decidableSized value) (decidableSizedEntries entries)

end

example : Sized (.mapping [("a", .sequence [.null, .null])]) := by decide

theorem sized_of_mem {item : Value} : ∀ {items : List Value}, SizedAll items → item ∈ items →
    item.Sized
  | _ :: _, h, hm => by
    rcases List.mem_cons.mp hm with rfl | hm
    · exact h.1
    · exact sized_of_mem h.2 hm

theorem sized_of_get? {key : String} {v : Value} : ∀ {entries : List (String × Value)},
    SizedEntries entries → Entries.get? key entries = some v → v.Sized
  | (k, w) :: rest, h, hg => by
    unfold Entries.get? at hg
    split at hg
    · cases hg
      exact h.1
    · exact sized_of_get? h.2 hg

theorem length_placesFrom_le (stride bound : Int) (fuel : Nat) (i : Int) :
    (Slice.placesFrom stride bound fuel i).length ≤ fuel := by
  induction fuel generalizing i with
  | zero => exact Nat.le_refl 0
  | succ fuel ih =>
    unfold Slice.placesFrom
    split
    · rw [List.length_cons]
      split
      · exact Nat.succ_le_succ (ih _)
      · exact Nat.succ_le_succ (Nat.zero_le _)
    · exact Nat.zero_le _

/-- A slice selects no more places than there are. -/
theorem length_places?_le {s : Slice} {length : Nat} {places : List Nat}
    (h : s.places? length = some places) : places.length ≤ length := by
  unfold Slice.places? at h
  dsimp only at h
  rw [Option.ite_none_left_eq_some] at h
  rw [← Option.some.inj h.2]
  exact length_placesFrom_le _ _ _ _

theorem sizedAll_filterMap {items : List Value} (h : SizedAll items) (places : List Nat) :
    SizedAll (places.filterMap (items[·]?)) := by
  induction places with
  | nil => trivial
  | cons p rest ih =>
    cases hp : items[p]? with
    | none =>
      rw [List.filterMap_cons_none hp]
      exact ih
    | some item =>
      rw [List.filterMap_cons_some hp]
      exact ⟨sized_of_mem h (List.mem_of_getElem? hp), ih⟩

/-- Every part of a value has sequences of the sizes that the value allows. -/
theorem Sized.step? {v w : Value} {s : Segment} (hv : v.Sized) (h : v.step? s = some w) :
    w.Sized := by
  cases v with
  | mapping entries =>
    obtain ⟨key, -, hk⟩ := Option.bind_eq_some_iff.mp h
    exact sized_of_get? hv hk
  | sequence items =>
    cases s with
    | index place =>
      obtain ⟨p, -, hp⟩ := Option.bind_eq_some_iff.mp h
      exact sized_of_mem hv.2 (List.mem_of_getElem? hp)
    | slice t =>
      obtain ⟨places, hplaces, rfl⟩ := Option.map_eq_some_iff.mp h
      have hfilter := List.length_filterMap_le (items[·]?) places
      have hlength := length_places?_le hplaces
      exact ⟨Nat.lt_of_le_of_lt (Nat.le_trans hfilter hlength) hv.1,
        sizedAll_filterMap hv.2 places⟩
    | key name => cases h
  | _ => cases h

theorem Sized.walk? {v w : Value} {path : Path} (hv : v.Sized) (h : v.walk? path = some w) :
    w.Sized := by
  induction path generalizing v with
  | nil =>
    cases h
    exact hv
  | cons s rest ih =>
    obtain ⟨next, hn, hrest⟩ := Option.bind_eq_some_iff.mp h
    exact ih (hv.step? hn) hrest

/-! ## Addresses -/

theorem startOf?_eq (v : Value) (a : Address) (context : Path) :
    v.startOf? a context = v.walk? (if a.absolute then [] else context) := by
  unfold startOf?
  cases a.absolute with
  | true => rfl
  | false => cases context <;> rfl

theorem fullPath_eq (a : Address) (context : Path) :
    a.fullPath context = (if a.absolute then [] else context) ++ a.segments := by
  unfold Address.fullPath
  cases a.absolute <;> rfl

/-- An address without a slice at its end names the place at its full path. -/
theorem locate?_of_not_slice {a : Address} (ha : a.endsWithSlice = false) (v : Value)
    (context : Path) : v.locate? a context =
      (v.kindAt? (a.fullPath context)).map fun kind => [⟨a.fullPath context, kind⟩] := by
  have hkind : v.kindAt? (a.fullPath context) =
      (v.startOf? a context).bind fun start => start.kindAt? a.segments := by
    rw [startOf?_eq, fullPath_eq, kindAt?, walk?_append]
    cases v.walk? (if a.absolute then [] else context) <;> rfl
  unfold Address.endsWithSlice at ha
  unfold locate?
  split
  · rename_i s hs
    rw [hs] at ha
    cases ha
  · rw [hkind]
    cases v.startOf? a context <;> rfl

/-- An address with a slice at its end names elements of the sequence at the rest of its path. -/
theorem locate?_of_slice {a : Address} {s : Slice} (ha : a.segments.getLast? = some (.slice s))
    (v : Value) (context : Path) : v.locate? a context =
      (v.walk? (a.fullPath context).dropLast).bind fun parent =>
        parent.selected? s (a.fullPath context).dropLast := by
  have hne : a.segments ≠ [] := by
    intro he
    rw [he] at ha
    cases ha
  unfold locate?
  rw [ha]
  dsimp only
  rw [fullPath_eq, List.dropLast_append_of_ne_nil hne, walk?_append, startOf?_eq]
  cases v.walk? (if a.absolute then [] else context) <;> rfl

/-- Every target of a slice is an element of the sequence. -/
theorem of_mem_selected? {v : Value} {s : Slice} {path : Path} {targets : List Target} {t : Target}
    (h : v.selected? s path = some targets) (ht : t ∈ targets) :
    ∃ (items : List Value) (p : Nat) (item : Value), v = .sequence items ∧
      items[p]? = some item ∧ t = ⟨path ++ [.index (Int64.ofInt p)], item.kind⟩ := by
  cases v with
  | sequence items =>
    obtain ⟨places, -, rfl⟩ := Option.map_eq_some_iff.mp h
    obtain ⟨p, -, hp⟩ := List.mem_filterMap.mp ht
    obtain ⟨item, hitem, rfl⟩ := Option.map_eq_some_iff.mp hp
    exact ⟨items, p, item, rfl, hitem, rfl⟩
  | _ => cases h

/-- An address that selects has its slice at the end. -/
theorem exists_slice_of_endsWithSlice {a : Address} (ha : a.endsWithSlice = true) :
    ∃ s, a.segments.getLast? = some (.slice s) := by
  unfold Address.endsWithSlice at ha
  split at ha
  · rename_i s hs
    cases s with
    | slice s => exact ⟨s, hs⟩
    | _ => cases ha
  · cases ha

/-- What an address names is the place at its full path, or what its slice selects from the sequence
at the rest of the path. -/
theorem locate?_cases {v : Value} {a : Address} {context : Path} {targets : List Target}
    (h : v.locate? a context = some targets) :
    (a.endsWithSlice = false ∧ ∃ kind, v.kindAt? (a.fullPath context) = some kind ∧
        targets = [⟨a.fullPath context, kind⟩]) ∨
      a.endsWithSlice = true ∧ ∃ s items, a.segments.getLast? = some (.slice s) ∧
        v.walk? (a.fullPath context).dropLast = some (.sequence items) ∧
          (sequence items).selected? s (a.fullPath context).dropLast = some targets := by
  cases ha : a.endsWithSlice with
  | false =>
    rw [locate?_of_not_slice ha] at h
    obtain ⟨kind, hk, rfl⟩ := Option.map_eq_some_iff.mp h
    exact Or.inl ⟨rfl, kind, hk, rfl⟩
  | true =>
    obtain ⟨s, hs⟩ := exists_slice_of_endsWithSlice ha
    rw [locate?_of_slice hs] at h
    obtain ⟨parent, hw, hsel⟩ := Option.bind_eq_some_iff.mp h
    cases parent with
    | sequence items => exact Or.inr ⟨rfl, s, items, hs, hw, hsel⟩
    | _ => cases hsel

/-- The path of a target, and whether the address selects. -/
theorem of_mem_locate? {v : Value} {a : Address} {context : Path} {targets : List Target}
    {t : Target} (h : v.locate? a context = some targets) (ht : t ∈ targets) :
    (a.endsWithSlice = false ∧ t.path = a.fullPath context ∧ v.kindAt? t.path = some t.kind) ∨
      a.endsWithSlice = true ∧ ∃ (items : List Value) (p : Nat) (item : Value),
        v.walk? (a.fullPath context).dropLast = some (.sequence items) ∧ items[p]? = some item ∧
          t = ⟨(a.fullPath context).dropLast ++ [.index (Int64.ofInt p)], item.kind⟩ := by
  rcases locate?_cases h with ⟨ha, kind, hk, rfl⟩ | ⟨ha, s, items, -, hw, hsel⟩
  · rw [List.mem_singleton.mp ht]
    exact Or.inl ⟨ha, rfl, hk⟩
  · obtain ⟨items', p, item, he, hp, rfl⟩ := of_mem_selected? hsel ht
    cases he
    exact Or.inr ⟨ha, items, p, item, hw, hp, rfl⟩

/-- Two paths are one, or they end with places of one sequence. -/
def Siblings (v : Value) (p w : Path) : Prop :=
  w = p ∨ ∃ (front : Path) (items : List Value) (i j : Int64),
    v.walk? front = some (.sequence items) ∧ p = front ++ [.index i] ∧ w = front ++ [.index j]

theorem Siblings.length_eq {v : Value} {p w : Path} (h : v.Siblings p w) :
    w.length = p.length := by
  rcases h with rfl | ⟨front, items, i, j, -, rfl, rfl⟩
  · rfl
  · rw [List.length_append, List.length_append, List.length_singleton, List.length_singleton]

/-- Two paths that one address names are siblings. -/
theorem siblings_of_mem_locate? {v : Value} {a : Address} {context : Path} {targets : List Target}
    (h : v.locate? a context = some targets) {t u : Target} (ht : t ∈ targets)
    (hu : u ∈ targets) : v.Siblings t.path u.path := by
  rcases of_mem_locate? h ht with ⟨hs, hp, -⟩ | ⟨hs, items, i, item, hparent, -, rfl⟩
  · rcases of_mem_locate? h hu with ⟨-, hp', -⟩ | ⟨hs', -⟩
    · exact Or.inl (hp'.trans hp.symm)
    · rw [hs] at hs'
      cases hs'
  · rcases of_mem_locate? h hu with ⟨hs', -⟩ | ⟨-, items', j, item', -, -, rfl⟩
    · rw [hs] at hs'
      cases hs'
    · exact Or.inr ⟨_, items, _, _, hparent, rfl, rfl⟩

/-- The segments of a container lead to its elements and entries. -/
theorem isSome_step?_of_segments {v : Value} {names : List Segment}
    (h : View.segments v = some names) {s : Segment} (hs : s ∈ names) :
    s.isSlice = false ∧ (v.step? s).isSome = true := by
  cases v with
  | sequence items =>
    cases h
    obtain ⟨p, hp, rfl⟩ := List.mem_map.mp hs
    obtain ⟨q, hq⟩ := Option.isSome_iff_exists.mp
      (Position.isSome_within?_ofInt (List.mem_range.mp hp))
    refine ⟨rfl, ?_⟩
    simp [step?, hq, Position.lt_of_within? hq]
  | mapping entries =>
    cases h
    obtain ⟨key, hkey, rfl⟩ := List.mem_map.mp hs
    obtain ⟨v, hv⟩ := Entries.exists_get?_of_mem_keys hkey
    refine ⟨rfl, ?_⟩
    simp [step?, keyOf?, hv]
  | null =>
    cases h
    cases hs
  | _ => cases h

end Value

/-! ## Addresses with a slice only at their end -/

/-- Every segment of the address but the last is no slice, and what is no slice is parsed. -/
structure Address.Plain (a : Address) : Prop where
  parsed : ∀ s ∈ a.segments, s.isSlice = false → s.IsParsed
  last : ∀ s ∈ a.segments.dropLast, s.isSlice = false

/-- A query that selects at its end or not at all. -/
def Query.Plain (q : Query) (delimiter : String) : Prop :=
  ∀ s ∈ (Address.parse q delimiter).segments.dropLast, s.isSlice = false

instance (q : Query) (delimiter : String) : Decidable (q.Plain delimiter) := by
  unfold Query.Plain
  infer_instance

theorem Query.Plain.address {q : Query} {delimiter : String} (h : q.Plain delimiter) :
    (Address.parse q delimiter).Plain :=
  ⟨fun _ hs => Address.isParsed_of_mem_parse hs, h⟩

namespace Address.Plain

variable {a : Address} {context : Path}

/-- What holds of the context's segments and of the address's segments but slices holds of those of
the full path but slices. -/
theorem forall_fullPath {P : Segment → Prop} (hP : ∀ s ∈ a.segments, s.isSlice = false → P s)
    (hc : ∀ s ∈ context, P s) : ∀ s ∈ a.fullPath context, s.isSlice = false → P s := by
  intro s hm hs
  unfold Address.fullPath at hm
  split at hm
  · exact hP s hm hs
  · rcases List.mem_append.mp hm with h | h
    · exact hc s h
    · exact hP s h hs

/-- Without a slice at its end, a plain address has no slice. -/
theorem isSlice_of_mem (ha : a.Plain) (hs : a.endsWithSlice = false) :
    ∀ s ∈ a.segments, s.isSlice = false := by
  intro s hm
  rcases List.eq_nil_or_concat a.segments with he | ⟨front, last, he⟩
  · rw [he] at hm
    cases hm
  · rw [he, List.concat_eq_append] at hm
    unfold Address.endsWithSlice at hs
    rw [he, List.concat_eq_append, List.getLast?_concat] at hs
    rcases List.mem_append.mp hm with hf | hl
    · exact ha.last s (by rwa [he, List.concat_eq_append, List.dropLast_concat])
    · rwa [List.mem_singleton.mp hl]

/-- What holds of the context's segments and of the address's segments but slices holds of the full
path up to its last segment. -/
theorem forall_dropLast {P : Segment → Prop} (ha : a.Plain)
    (hP : ∀ s ∈ a.segments, s.isSlice = false → P s) (hc : ∀ s ∈ context, P s) :
    ∀ s ∈ (a.fullPath context).dropLast, P s := by
  have hfront : ∀ s ∈ a.segments.dropLast, P s := fun s hm =>
    hP s (List.dropLast_subset _ hm) (ha.last s hm)
  unfold Address.fullPath
  split
  · exact hfront
  · by_cases hne : a.segments = []
    · rw [hne, List.append_nil]
      exact fun s hm => hc s (List.dropLast_subset _ hm)
    · rw [List.dropLast_append_of_ne_nil hne]
      intro s hm
      rcases List.mem_append.mp hm with h | h
      · exact hc s h
      · exact hfront s h

/-- The full path is parsed if it has no slice. -/
theorem isParsed_of_isSlice (ha : a.Plain) (hc : context.IsParsed)
    (hs : ∀ s ∈ a.fullPath context, s.isSlice = false) : (a.fullPath context).IsParsed :=
  fun s hm => forall_fullPath ha.parsed hc s hm (hs s hm)

theorem isParsed (ha : a.Plain) (hc : context.IsParsed) (hs : a.endsWithSlice = false) :
    (a.fullPath context).IsParsed := by
  refine ha.isParsed_of_isSlice hc fun s hm => ?_
  unfold Address.fullPath at hm
  split at hm
  · exact ha.isSlice_of_mem hs s hm
  · rcases List.mem_append.mp hm with h | h
    · exact (hc s h).isSlice
    · exact ha.isSlice_of_mem hs s h

theorem isParsed_dropLast (ha : a.Plain) (hc : context.IsParsed) :
    Path.IsParsed (a.fullPath context).dropLast :=
  ha.forall_dropLast ha.parsed hc

end Address.Plain

namespace Value

section

variable {v : Value} {a : Address} {context : Path} {targets : List Target} {t : Target}

theorem isParsed_of_mem_locate? (ha : a.Plain) (hc : context.IsParsed)
    (h : v.locate? a context = some targets) (ht : t ∈ targets) : t.path.IsParsed := by
  rcases of_mem_locate? h ht with ⟨hs, hp, -⟩ | ⟨-, items, p, item, -, -, rfl⟩
  · rw [hp]
    exact ha.isParsed hc hs
  · refine (ha.isParsed_dropLast hc).append fun s hs => ?_
    rw [List.mem_singleton.mp hs]
    trivial

/-- A target tells the kind of the value that its path leads to. -/
theorem kindAt?_of_mem_locate? (hv : v.Sized) (h : v.locate? a context = some targets)
    (ht : t ∈ targets) : v.kindAt? t.path = some t.kind := by
  rcases of_mem_locate? h ht with ⟨-, -, hk⟩ | ⟨-, items, p, item, hw, hp, rfl⟩
  · exact hk
  · have hitems : (sequence items).Sized := hv.walk? hw
    have hlt := (List.getElem?_eq_some_iff.mp hp).1
    dsimp only
    rw [kindAt?, walk?_append, hw, Option.bind_some]
    simp only [walk?, step?, Position.within?_ofInt hlt hitems.1, Option.bind_some, hp,
      Option.map_some]

end

/-! ## Sizes after edits -/

theorem sizedAll_set {items : List Value} (h : SizedAll items) {new : Value} (hnew : new.Sized)
    (p : Nat) : SizedAll (items.set p new) := by
  induction items generalizing p with
  | nil => exact h
  | cons item rest ih =>
    cases p with
    | zero => exact ⟨hnew, h.2⟩
    | succ p => exact ⟨h.1, ih h.2 p⟩

theorem sizedAll_eraseIdx {items : List Value} (h : SizedAll items) (p : Nat) :
    SizedAll (items.eraseIdx p) := by
  induction items generalizing p with
  | nil => exact h
  | cons item rest ih =>
    cases p with
    | zero => exact h.2
    | succ p => exact ⟨h.1, ih h.2 p⟩

theorem sizedEntries_put {entries : List (String × Value)} (h : SizedEntries entries)
    {new : Value} (hnew : new.Sized) (key : String) :
    SizedEntries (Entries.put key new entries) := by
  induction entries with
  | nil => exact ⟨hnew, trivial⟩
  | cons e rest ih =>
    obtain ⟨k, w⟩ := e
    unfold Entries.put
    split
    · exact ⟨hnew, h.2⟩
    · exact ⟨h.1, ih h.2⟩

theorem sizedEntries_erase {entries : List (String × Value)} (h : SizedEntries entries)
    (key : String) : SizedEntries (Entries.erase key entries) := by
  induction entries with
  | nil => exact h
  | cons e rest ih =>
    obtain ⟨k, w⟩ := e
    unfold Entries.erase
    split
    · exact h.2
    · exact ⟨h.1, ih h.2⟩

theorem Sized.putSpot {v new : Value} (hv : v.Sized) (hnew : new.Sized) (spot : Spot) :
    (v.putSpot spot new).Sized := by
  cases v with
  | mapping entries =>
    cases spot with
    | key name => exact sizedEntries_put hv hnew name
    | place p => exact hv
  | sequence items =>
    cases spot with
    | key name => exact hv
    | place p =>
      refine ⟨?_, sizedAll_set hv.2 hnew p⟩
      rw [List.length_set]
      exact hv.1
  | _ => cases spot <;> exact hv

theorem Sized.write? {v new v' : Value} {path : Path} (hv : v.Sized) (hnew : new.Sized)
    (h : v.write? new path = some v') : v'.Sized := by
  induction path generalizing v v' with
  | nil =>
    cases h
    exact hnew
  | cons s rest ih =>
    obtain ⟨spot, changed, hs, rfl, hc⟩ := write?_cons_eq_some h
    refine hv.putSpot ?_ spot
    rcases hc with ⟨-, rfl⟩ | ⟨inner, hi, hw⟩
    · exact hnew
    · have hstep : v.step? s = some inner := by
        rw [step?_of_spot? hs, hi]
      exact ih (hv.step? hstep) hw

theorem Sized.takeOut? {v old left : Value} {s : Segment} (hv : v.Sized)
    (h : v.takeOut? s = some (old, left)) : left.Sized := by
  cases v with
  | mapping entries =>
    simp only [Value.takeOut?, Option.bind_eq_some_iff, Option.map_eq_some_iff] at h
    obtain ⟨key, -, w, -, he⟩ := h
    cases he
    exact sizedEntries_erase hv key
  | sequence items =>
    cases s with
    | index place =>
      simp only [Value.takeOut?, Option.bind_eq_some_iff, Option.map_eq_some_iff] at h
      obtain ⟨p, -, w, -, he⟩ := h
      cases he
      refine ⟨Nat.lt_of_le_of_lt ?_ hv.1, sizedAll_eraseIdx hv.2 p⟩
      exact (List.eraseIdx_sublist items p).length_le
    | _ => cases h
  | _ => cases h

theorem Sized.remove? {v old v' : Value} {path : Path} (hv : v.Sized)
    (h : v.remove? path = some (old, v')) : v'.Sized := by
  obtain ⟨parent, left, last, -, hw, ht, hwrite⟩ := remove?_eq_some h
  exact hv.write? ((hv.walk? hw).takeOut? ht) hwrite

end Value

end LiveDocument
