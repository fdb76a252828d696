import LiveDocument.Proofs.Document.Faithful
import LiveDocument.Proofs.Tree.Alias

/-!
# Writes of another kind

With cascading, a write of a value of another kind than a handle was issued for ends the handle's
validity if the two paths have the same concrete path. If the handle's path is as long as those of
the write and none of them has its concrete path, the handle stays valid.

* `leadsBelow_iff`: equally long paths lead below each other if their concrete paths are equal.
* `houses_of_writes`: writes bring no tenant back.
* `not_houses_writes`, `houses_writes`: which tenants writes at equally long paths end and leave.
-/

namespace LiveDocument.Document

variable {d d' : Document} {path : Path} {v : Value} {paths : List Path}

/-- A path leads below one of its own length if the two have the same concrete path. -/
theorem leadsBelow_iff {value : Value} {top : Path} (hlen : top.length = path.length) :
    leadsBelow value path top = true ↔ value.concrete top = value.concrete path := by
  have hconcrete : (value.concrete top).length = (value.concrete path).length := by
    unfold Value.concrete
    rw [Value.length_concreteFrom, Value.length_concreteFrom, hlen]
  unfold leadsBelow
  rw [Bool.or_eq_true, List.isPrefixOf_iff_prefix, List.isPrefixOf_iff_prefix]
  constructor
  · rintro (h | h)
    · rw [h.eq_of_length hlen]
    · exact h.eq_of_length hconcrete
  · exact fun h => Or.inr (h ▸ List.prefix_refl _)

theorem settings_writes (h : Writes v paths d d') : d'.settings = d.settings := by
  induction h with
  | nil d => rfl
  | cons h hrest ih => rw [ih, settings_write? h]

/-- Writes bring no tenant back. -/
theorem houses_of_writes (hc : d.settings.cascade = true) (h : Writes v paths d d')
    {t : Tenant Digest} (ht : d'.arena.Houses t) : d.arena.Houses t := by
  induction h with
  | nil d => exact ht
  | cons h hrest ih =>
    have hc' := settings_write? h ▸ hc
    exact ((houses_write_iff hc h).mp (ih hc' ht)).1

/-- A write of another kind at an entry ends the tenants whose paths have its concrete path. -/
theorem not_houses_writes (hc : d.settings.cascade = true) (h : Writes v paths d d') {p : Path}
    (hp : p ∈ paths) (hlen : ∀ w ∈ paths, w.length = p.length) {t : Tenant Digest}
    (hsame : d.value.SameEntry p t.path) (hkind : v.kind ≠ t.kind)
    (he : d.value.concrete p = d.value.concrete t.path) : ¬ d'.arena.Houses t := by
  induction h with
  | nil d => cases hp
  | @cons d d₁ d₂ w rest h hrest ih =>
    have hwrite := value_write? h
    have hw := hlen w List.mem_cons_self
    have hc' := settings_write? h ▸ hc
    have hsame' := hsame.write hwrite (Nat.le_of_eq hw.symm)
    have he' : d₁.value.concrete p = d₁.value.concrete t.path := by
      rw [Value.concrete_write hwrite hsame.isSlice (Nat.le_of_eq hw.symm), he,
        Value.concrete_write hwrite hsame.symm.isSlice
          (Nat.le_of_eq (hsame.length_eq.symm.trans hw.symm))]
    rcases List.mem_cons.mp hp with rfl | hp
    · intro ht
      obtain ⟨-, -, hbelow | hk⟩ := (houses_write_iff hc h).mp (houses_of_writes hc' hrest ht)
      · rw [(leadsBelow_iff hsame.length_eq).mpr he'] at hbelow
        cases hbelow
      · rw [Value.kindAt?, ← hsame'.walk?_eq, Value.walk?_write_self hwrite] at hk
        exact hkind (Option.some.inj hk)
    · exact ih hc' hp (fun u hu => hlen u (List.mem_cons_of_mem _ hu)) hsame' he'

/-- Writes leave a tenant whose path is as long as theirs and has the concrete path of none. -/
theorem houses_writes (hc : d.settings.cascade = true) (h : Writes v paths d d')
    {t : Tenant Digest} (ht : d.arena.Houses t) (hslice : ∀ s ∈ t.path, s.isSlice = false)
    (hlen : ∀ w ∈ paths, w.length = t.path.length)
    (hne : ∀ w ∈ paths, d.value.concrete w ≠ d.value.concrete t.path) : d'.arena.Houses t := by
  induction h with
  | nil d => exact ht
  | @cons d d₁ d₂ w rest h hrest ih =>
    have hwrite := value_write? h
    have hw := hlen w List.mem_cons_self
    have hpath : d₁.value.concrete t.path = d.value.concrete t.path :=
      Value.concrete_write hwrite hslice (Nat.le_of_eq hw.symm)
    have hsame : ∀ u ∈ w :: rest, d₁.value.concrete u = d.value.concrete u := by
      intro u hu
      refine Value.concrete_write hwrite (fun s hs => ?_)
        (Nat.le_of_eq ((hlen u hu).trans hw.symm))
      exact isSlice_of_writes (.cons h hrest) hu hs
    have hne' : ∀ u ∈ w :: rest, d₁.value.concrete u ≠ d₁.value.concrete t.path := by
      intro u hu
      rw [hsame u hu, hpath]
      exact hne u hu
    have hbelow : leadsBelow d₁.value t.path w = false := by
      rw [← Bool.not_eq_true, leadsBelow_iff hw]
      exact hne' w List.mem_cons_self
    refine ih (settings_write? h ▸ hc) ((houses_write_iff hc h).mpr ⟨ht, Or.inr ?_, Or.inl hbelow⟩)
      (fun u hu => hlen u (List.mem_cons_of_mem _ hu))
      (fun u hu => hne' u (List.mem_cons_of_mem _ hu))
    rintro he
    exact hne w List.mem_cons_self (by rw [he])

end LiveDocument.Document
