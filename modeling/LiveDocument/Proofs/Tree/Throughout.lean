import LiveDocument.Proofs.Tree.Spot

/-!
# Conditions on all parts of a value

A condition on single values may be asked of a value and of everything in it. If a container does
not lose it when an entry is stored or taken out, then edits preserve it: what is left after them is
made of the containers on the way and of what was brought. The keys of every mapping are distinct in
this way.

* `Throughout`: a condition on a value and all values in it.
* `Stable`: containers keep the condition whatever is stored in them.
* `Throughout.walk?`, `Throughout.write?`, `Throughout.remove?`: what lookups give and edits leave.
* `Distinct`: no mapping has a key twice.
-/

namespace LiveDocument

namespace Value

variable {P : Value → Prop}

mutual

/-- The condition holds of the value and of every value in it. -/
def Throughout (P : Value → Prop) : Value → Prop
  | .sequence items => P (.sequence items) ∧ ThroughoutAll P items
  | .mapping entries => P (.mapping entries) ∧ ThroughoutEntries P entries
  | v => P v

/-- The condition holds of every item and everything in it. -/
def ThroughoutAll (P : Value → Prop) : List Value → Prop
  | [] => True
  | item :: items => Throughout P item ∧ ThroughoutAll P items

/-- The condition holds of the value of every entry and everything in it. -/
def ThroughoutEntries (P : Value → Prop) : List (String × Value) → Prop
  | [] => True
  | (_, value) :: entries => Throughout P value ∧ ThroughoutEntries P entries

end

theorem throughoutAll_iff {items : List Value} :
    ThroughoutAll P items ↔ ∀ item ∈ items, item.Throughout P := by
  induction items with
  | nil => exact ⟨fun _ => List.forall_mem_nil _, fun _ => trivial⟩
  | cons item rest ih => rw [ThroughoutAll, ih, List.forall_mem_cons]

theorem throughoutEntries_iff {entries : List (String × Value)} :
    ThroughoutEntries P entries ↔ ∀ e ∈ entries, e.2.Throughout P := by
  induction entries with
  | nil => exact ⟨fun _ => List.forall_mem_nil _, fun _ => trivial⟩
  | cons e rest ih => rw [ThroughoutEntries, ih, List.forall_mem_cons]

theorem throughout_sequence {items : List Value} :
    (sequence items).Throughout P ↔ P (.sequence items) ∧ ∀ item ∈ items, item.Throughout P := by
  rw [Throughout, throughoutAll_iff]

theorem throughout_mapping {entries : List (String × Value)} :
    (mapping entries).Throughout P ↔
      P (.mapping entries) ∧ ∀ e ∈ entries, e.2.Throughout P := by
  rw [Throughout, throughoutEntries_iff]

theorem Throughout.self {v : Value} (hv : v.Throughout P) : P v := by
  cases v with
  | sequence items => exact (throughout_sequence.mp hv).1
  | mapping entries => exact (throughout_mapping.mp hv).1
  | _ => exact hv

/-- A container keeps the condition whatever is stored in it or taken out of it. -/
structure Stable (P : Value → Prop) : Prop where
  sequence : ∀ items, P (.sequence items)
  put : ∀ {entries}, P (.mapping entries) → ∀ key value, P (.mapping (Entries.put key value entries))
  erase : ∀ {entries}, P (.mapping entries) → ∀ key, P (.mapping (Entries.erase key entries))

/-! ## What lookups give and edits leave -/

section

variable {v : Value}

theorem Throughout.atSpot? (hv : v.Throughout P) {spot : Spot} {w : Value}
    (h : v.atSpot? spot = some w) : w.Throughout P := by
  cases v with
  | mapping entries =>
    cases spot with
    | key name => exact (throughout_mapping.mp hv).2 _ (Entries.mem_of_get? h)
    | place p => cases h
  | sequence items =>
    cases spot with
    | key name => cases h
    | place p => exact (throughout_sequence.mp hv).2 _ (List.mem_of_getElem? h)
  | _ => cases spot <;> cases h

theorem Throughout.step? (hP : Stable P) (hv : v.Throughout P) {s : Segment} {w : Value}
    (h : v.step? s = some w) : w.Throughout P := by
  cases hs : s.isSlice with
  | false =>
    rw [step?_eq_spot hs] at h
    obtain ⟨spot, -, hw⟩ := Option.bind_eq_some_iff.mp h
    exact hv.atSpot? hw
  | true =>
    cases s with
    | slice t =>
      cases v with
      | sequence items =>
        obtain ⟨places, -, rfl⟩ := Option.map_eq_some_iff.mp h
        refine throughout_sequence.mpr ⟨hP.sequence _, fun item hitem => ?_⟩
        obtain ⟨p, -, hp⟩ := List.mem_filterMap.mp hitem
        exact (throughout_sequence.mp hv).2 _ (List.mem_of_getElem? hp)
      | _ => cases h
    | _ => cases hs

theorem Throughout.walk? (hP : Stable P) (hv : v.Throughout P) {path : Path} {w : Value}
    (h : v.walk? path = some w) : w.Throughout P := by
  induction path generalizing v with
  | nil =>
    cases h
    exact hv
  | cons s rest ih =>
    obtain ⟨next, hnext, hrest⟩ := Option.bind_eq_some_iff.mp h
    exact ih (hv.step? hP hnext) hrest

theorem Throughout.putSpot (hP : Stable P) (hv : v.Throughout P) {new : Value}
    (hnew : new.Throughout P) (spot : Spot) : (v.putSpot spot new).Throughout P := by
  cases v with
  | mapping entries =>
    obtain ⟨hself, hall⟩ := throughout_mapping.mp hv
    cases spot with
    | key name =>
      refine throughout_mapping.mpr ⟨hP.put hself name new, fun e he => ?_⟩
      rcases Entries.mem_put he with rfl | hold
      · exact hnew
      · exact hall e hold
    | place p => exact hv
  | sequence items =>
    cases spot with
    | key name => exact hv
    | place p =>
      refine throughout_sequence.mpr ⟨hP.sequence _, fun item hitem => ?_⟩
      rcases List.mem_or_eq_of_mem_set hitem with hold | rfl
      · exact (throughout_sequence.mp hv).2 item hold
      · exact hnew
  | _ => cases spot <;> exact hv

theorem Throughout.write? (hP : Stable P) (hv : v.Throughout P) {new v' : Value}
    (hnew : new.Throughout P) {path : Path} (h : v.write? new path = some v') :
    v'.Throughout P := by
  induction path generalizing v v' with
  | nil =>
    cases h
    exact hnew
  | cons s rest ih =>
    obtain ⟨spot, changed, hs, rfl, hc⟩ := write?_cons_eq_some h
    refine hv.putSpot hP ?_ spot
    rcases hc with ⟨-, rfl⟩ | ⟨inner, hinner, hw⟩
    · exact hnew
    · exact ih (hv.atSpot? hinner) hw

theorem Throughout.takeOut? (hP : Stable P) (hv : v.Throughout P) {s : Segment} {old left : Value}
    (h : v.takeOut? s = some (old, left)) : left.Throughout P := by
  cases v with
  | mapping entries =>
    simp only [Value.takeOut?, Option.bind_eq_some_iff, Option.map_eq_some_iff] at h
    obtain ⟨key, -, w, -, he⟩ := h
    cases he
    obtain ⟨hself, hall⟩ := throughout_mapping.mp hv
    exact throughout_mapping.mpr ⟨hP.erase hself key,
      fun e he => hall e ((Entries.erase_sublist key entries).subset he)⟩
  | sequence items =>
    cases s with
    | index place =>
      simp only [Value.takeOut?, Option.bind_eq_some_iff, Option.map_eq_some_iff] at h
      obtain ⟨p, -, w, -, he⟩ := h
      cases he
      exact throughout_sequence.mpr ⟨hP.sequence _,
        fun item hitem => (throughout_sequence.mp hv).2 item (List.mem_of_mem_eraseIdx hitem)⟩
    | _ => cases h
  | _ => cases h

theorem Throughout.remove? (hP : Stable P) (hv : v.Throughout P) {path : Path} {old v' : Value}
    (h : v.remove? path = some (old, v')) : v'.Throughout P := by
  obtain ⟨parent, left, last, -, hw, ht, hwrite⟩ := remove?_eq_some h
  exact hv.write? hP ((hv.walk? hP hw).takeOut? hP ht) hwrite

end

/-! ## Distinct keys -/

/-- A mapping has no key twice. -/
def KeysDiffer : Value → Prop
  | .mapping entries => (Entries.keys entries).Nodup
  | _ => True

/-- No mapping in the value has a key twice. -/
def Distinct (v : Value) : Prop :=
  v.Throughout KeysDiffer

theorem stable_keysDiffer : Stable KeysDiffer where
  sequence := fun _ => trivial
  put := fun h key value => Entries.nodup_keys_put h key value
  erase := fun h key => Entries.nodup_keys_erase h key

end Value

end LiveDocument
