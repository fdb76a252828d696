import LiveDocument.Proofs.Reference.Graph

/-!
# Parts of what a value stands for

A part of a value stands for the same part of what the whole stands for, wherever the path to it
goes: along keys, along places counted from either end, or through slices, which select the same
places because a container keeps its length.

* `Expands.step?`: one step in. `Expands.walk?`: along a path.
-/

namespace LiveDocument.Reference

variable {env : Environment} {root : Value} {delimiter : String}

/-- The same places of two sequences of one length. -/
theorem filterMap_getElem?_pair {α β : Type} {items : List α} {items' : List β}
    (hlength : items'.length = items.length) (ps : List Nat) :
    (ps.filterMap (items'[·]?)).length = (ps.filterMap (items[·]?)).length ∧
      ∀ (i : Nat) (v : α) (w : β), (ps.filterMap (items[·]?))[i]? = some v →
        (ps.filterMap (items'[·]?))[i]? = some w →
          ∃ p : Nat, items[p]? = some v ∧ items'[p]? = some w := by
  induction ps with
  | nil =>
    refine ⟨rfl, fun i v w hv => ?_⟩
    cases hv
  | cons p ps ih =>
    obtain ⟨hsame, hpair⟩ := ih
    by_cases hp : p < items.length
    · have hv := List.getElem?_eq_getElem hp
      have hw := List.getElem?_eq_getElem (l := items') (i := p) (by omega)
      rw [List.filterMap_cons_some hv, List.filterMap_cons_some hw]
      refine ⟨congrArg (· + 1) hsame, fun i v w hiv hiw => ?_⟩
      cases i with
      | zero => exact ⟨p, hv.trans hiv, hw.trans hiw⟩
      | succ i => exact hpair i v w hiv hiw
    · have hv : items[p]? = none := List.getElem?_eq_none (by omega)
      have hw : items'[p]? = none := List.getElem?_eq_none (by omega)
      rw [List.filterMap_cons_none hv, List.filterMap_cons_none hw]
      exact ⟨hsame, hpair⟩

/-- Entries with the same keys are found by the same keys. -/
theorem get?_pair {P : Value → Value → Prop} {entries entries' : List (String × Value)}
    (hkeys : entries'.map Prod.fst = entries.map Prod.fst)
    (hentries : ∀ (i : Nat) (k : String) (v w : Value), entries[i]? = some (k, v) →
      entries'[i]? = some (k, w) → P v w) {key : String} {v : Value}
    (h : Entries.get? key entries = some v) : ∃ w, Entries.get? key entries' = some w ∧ P v w := by
  induction entries generalizing entries' with
  | nil => cases h
  | cons e rest ih =>
    obtain ⟨k, u⟩ := e
    cases entries' with
    | nil => cases hkeys
    | cons e' rest' =>
      obtain ⟨k', u'⟩ := e'
      obtain ⟨rfl, hrest⟩ := List.cons.inj hkeys
      unfold Entries.get? at h ⊢
      by_cases hk : k' = key
      · rw [if_pos hk] at h ⊢
        obtain rfl := Option.some.inj h
        exact ⟨u', rfl, hentries 0 k' u u' rfl rfl⟩
      · rw [if_neg hk] at h ⊢
        exact ih hrest (fun i k v w hv hw => hentries (i + 1) k v w hv hw) h

namespace Expands

variable {v w v' : Value}

/-- One step into a value leads one step into what it stands for. -/
theorem step? (h : Expands env root delimiter v w) {segment : Segment}
    (hv : v.step? segment = some v') :
    ∃ w', w.step? segment = some w' ∧ Expands env root delimiter v' w' := by
  cases h with
  | scalar hcontainer _ =>
    cases v with
    | sequence items => cases hcontainer
    | mapping entries => cases hcontainer
    | _ => cases hv
  | string _ _ _ => cases hv
  | mapping hkeys hentries =>
    obtain ⟨key, hkey, hget⟩ := Option.bind_eq_some_iff.mp hv
    obtain ⟨w', hget', hexpands⟩ := get?_pair hkeys hentries hget
    refine ⟨w', ?_, hexpands⟩
    rw [Value.step?, hkey, Option.bind_some, hget']
  | @sequence items items' hlength hitems =>
    cases segment with
    | key name => cases hv
    | index place =>
      obtain ⟨p, hp, hget⟩ := Option.bind_eq_some_iff.mp hv
      have hlt := (List.getElem?_eq_some_iff.mp hget).1
      have hget' := List.getElem?_eq_getElem (l := items') (i := p) (by omega)
      refine ⟨items'[p], ?_, hitems p _ _ hget hget'⟩
      simp only [Value.step?, hlength, hp, Option.bind_some, hget']
    | slice s =>
      obtain ⟨ps, hps, rfl⟩ := Option.map_eq_some_iff.mp hv
      obtain ⟨hsame, hpair⟩ := filterMap_getElem?_pair hlength ps
      refine ⟨.sequence (ps.filterMap (items'[·]?)), ?_, .sequence hsame fun i v w hv hw => ?_⟩
      · simp only [Value.step?, hlength, hps, Option.map_some]
      · obtain ⟨p, hp, hp'⟩ := hpair i v w hv hw
        exact hitems p v w hp hp'

/-- A path into a value leads into what it stands for, to what the part stands for. -/
theorem walk? (h : Expands env root delimiter v w) {path : Path} (hv : v.walk? path = some v') :
    ∃ w', w.walk? path = some w' ∧ Expands env root delimiter v' w' := by
  induction path generalizing v w with
  | nil =>
    cases hv
    exact ⟨w, rfl, h⟩
  | cons segment rest ih =>
    obtain ⟨next, hnext, hrest⟩ := Option.bind_eq_some_iff.mp hv
    obtain ⟨next', hnext', hexpands⟩ := h.step? hnext
    obtain ⟨w', hw', hpart⟩ := ih hexpands hrest
    refine ⟨w', ?_, hpart⟩
    rw [Value.walk?, hnext', Option.bind_some, hw']

end Expands

end LiveDocument.Reference
