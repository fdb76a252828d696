import LiveDocument.Proofs.Address.Parsed
import LiveDocument.Proofs.Tree.Spot

/-!
# What a write leaves alone

A write at a path changes the kind of value at another path only if the other path leads to the
written place or below it. Whether it does is read off the two concrete paths in the value after
the write, which is how handles are picked for a check.

* `kindAt?_write`: after a write, the kind at a path is the old one or one of the new value.
* `kindAt?_write_of_not_prefix`: it is the old one if the concrete path does not extend that of
  the write.
* `kindAt?_remove_of_not_prefix`: the same for a removal and the path of the parent.
-/

namespace LiveDocument.Value

/-! ## Concrete paths -/

/-- A segment with its place of a sequence counted from the start. -/
def spelled (v : Value) (s : Segment) : Segment :=
  match v, s with
  | .sequence items, .index place =>
    match Position.within? place items.length with
    | some p => .index (Int64.ofInt p)
    | none => s
  | _, s => s

theorem concreteFrom_cons (v : Value) (s : Segment) (rest : Path) :
    concreteFrom (some v) (s :: rest) = v.spelled s :: concreteFrom (v.step? s) rest := by
  cases v with
  | sequence items => cases s <;> rfl
  | _ => rfl

@[simp] theorem spelled_putSpot (v : Value) (spot : Spot) (new : Value) (s : Segment) :
    (v.putSpot spot new).spelled s = v.spelled s := by
  cases v <;> cases spot <;> cases s <;> simp [putSpot, spelled]

/-- Segments that name one spot are spelled alike, unless two spellings of a key meet. -/
theorem spelled_eq_of_spot? {v : Value} {s t : Segment} {spot : Spot} (hs : v.spot? s = some spot)
    (ht : v.spot? t = some spot)
    (hkey : ∀ k, keyOf? s = some k → keyOf? t = some k → s = t) : v.spelled s = v.spelled t := by
  cases v with
  | mapping entries =>
    simp only [spot?, Option.map_eq_some_iff] at hs ht
    obtain ⟨k, hk, rfl⟩ := hs
    obtain ⟨l, hl, hkl⟩ := ht
    cases hkl
    exact hkey k hk hl
  | sequence items =>
    cases s with
    | index i =>
      cases t with
      | index j =>
        simp only [spot?, Option.map_eq_some_iff] at hs ht
        obtain ⟨p, hp, rfl⟩ := hs
        obtain ⟨q, hq, hpq⟩ := ht
        cases hpq
        simp only [spelled, hp, hq]
      | _ => cases ht
    | _ => cases hs
  | _ => cases hs

/-! ## Kinds after a write -/

theorem kindAt?_cons (v : Value) (s : Segment) (p : Path) :
    v.kindAt? (s :: p) = (v.step? s).bind fun next => next.kindAt? p := by
  unfold kindAt?
  rw [walk?]
  cases v.step? s <;> rfl

theorem kindAt?_nil (v : Value) : v.kindAt? [] = some v.kind := rfl

/-- The value at the written path is the new one. -/
theorem walk?_write_self {v new v' : Value} {w : Path} (h : v.write? new w = some v') :
    v'.walk? w = some new := by
  induction w generalizing v v' with
  | nil => exact h.symm
  | cons s rest ih =>
    obtain ⟨spot, changed, hs, rfl, hc⟩ := write?_cons_eq_some h
    have hstep : (v.putSpot spot changed).step? s = some changed := by
      rw [step?_eq_spot (isSlice_of_spot? hs), spot?_putSpot, hs, Option.bind_some,
        atSpot?_putSpot_self hs]
    rw [walk?, hstep, Option.bind_some]
    rcases hc with ⟨rfl, rfl⟩ | ⟨inner, -, hi⟩
    · rfl
    · exact ih hi

/-- What a write does one step away from its first segment. -/
theorem step?_putSpot {v : Value} (changed : Value) {s t : Segment} {spot : Spot}
    (hs : v.spot? s = some spot) (ht : t.isSlice = false) :
    (v.spot? t = some spot ∧ (v.putSpot spot changed).step? t = some changed) ∨
      (v.spot? t ≠ some spot ∧ (v.putSpot spot changed).step? t = v.step? t) := by
  rw [step?_eq_spot ht, step?_eq_spot ht, spot?_putSpot]
  cases hv : v.spot? t with
  | none => exact Or.inr ⟨by simp, rfl⟩
  | some other =>
    by_cases he : spot = other
    · subst he
      exact Or.inl ⟨rfl, by rw [Option.bind_some, atSpot?_putSpot_self hs]⟩
    · refine Or.inr ⟨fun hc => he (Option.some.inj hc).symm, ?_⟩
      rw [Option.bind_some, Option.bind_some, atSpot?_putSpot_of_ne he]

/-- After a write, the kind at a path without slices is the old one, or the one that the rest of
the path leads to in the new value. -/
theorem kindAt?_write {v new v' : Value} {w p : Path} (h : v.write? new w = some v')
    (hp : ∀ s ∈ p, s.isSlice = false) :
    v'.kindAt? p = v.kindAt? p ∨ v'.kindAt? p = new.kindAt? (p.drop w.length) := by
  induction w generalizing v v' p with
  | nil =>
    obtain rfl := Option.some.inj h
    exact Or.inr rfl
  | cons s rest ih =>
    obtain ⟨spot, changed, hs, rfl, hc⟩ := write?_cons_eq_some h
    cases p with
    | nil => exact Or.inl (by rw [kindAt?_nil, kindAt?_nil, kind_putSpot])
    | cons t p =>
      rw [kindAt?_cons, kindAt?_cons, List.length_cons, List.drop_succ_cons]
      rcases step?_putSpot changed hs (hp t List.mem_cons_self) with
        ⟨ht, hstep⟩ | ⟨-, hstep⟩
      · rw [hstep, Option.bind_some]
        rcases hc with ⟨rfl, rfl⟩ | ⟨inner, hi, hw⟩
        · exact Or.inr rfl
        · rw [step?_eq_spot (hp t List.mem_cons_self), ht, Option.bind_some, hi, Option.bind_some]
          exact ih hw fun u hu => hp u (List.mem_cons_of_mem _ hu)
      · exact Or.inl (by rw [hstep])

/-- A write leaves the kind at a path alone if the concrete path does not extend that of the
write. -/
theorem kindAt?_write_of_not_prefix {v new v' : Value} {w p : Path} (h : v.write? new w = some v')
    (hw : w.IsParsed) (hp : p.IsParsed) (hnot : ¬ v'.concrete w <+: v'.concrete p) :
    v'.kindAt? p = v.kindAt? p := by
  induction w generalizing v v' p with
  | nil => exact absurd List.nil_prefix hnot
  | cons s rest ih =>
    obtain ⟨spot, changed, hs, rfl, hc⟩ := write?_cons_eq_some h
    cases p with
    | nil => rw [kindAt?_nil, kindAt?_nil, kind_putSpot]
    | cons t p =>
      have hts : t.isSlice = false := hp.head.isSlice
      rw [kindAt?_cons, kindAt?_cons]
      rcases step?_putSpot changed hs hts with ⟨ht, hstep⟩ | ⟨-, hstep⟩
      · -- Both paths go through the same spot, so the concrete paths agree on the first segment.
        have hsp : v.spelled s = v.spelled t :=
          spelled_eq_of_spot? hs ht fun k hk hl => hw.head.eq_of_keyOf? hp.head hk hl
        have hself : (v.putSpot spot changed).step? s = some changed := by
          rcases step?_putSpot changed hs (isSlice_of_spot? hs) with hh | hh
          · exact hh.2
          · exact absurd hs hh.1
        unfold concrete at hnot
        rw [concreteFrom_cons, concreteFrom_cons, hself, hstep, spelled_putSpot, spelled_putSpot,
          hsp, List.prefix_cons_inj] at hnot
        rw [hstep, Option.bind_some]
        rcases hc with ⟨rfl, rfl⟩ | ⟨inner, hi, hwrite⟩
        · exact absurd List.nil_prefix hnot
        · rw [step?_eq_spot hts, ht, Option.bind_some, hi, Option.bind_some]
          exact ih hwrite hw.tail hp.tail hnot
      · rw [hstep]

/-! ## Kinds after a removal -/

/-- A removal leaves the kind at a path alone if the concrete path does not extend that of the
parent. -/
theorem kindAt?_remove_of_not_prefix {v old v' : Value} {w p : Path}
    (h : v.remove? w = some (old, v')) (hw : w.IsParsed) (hp : p.IsParsed)
    (hnot : ¬ v'.concrete w.dropLast <+: v'.concrete p) : v'.kindAt? p = v.kindAt? p := by
  obtain ⟨parent, left, last, -, -, -, hwrite⟩ := remove?_eq_some h
  exact kindAt?_write_of_not_prefix hwrite (fun s hs => hw s (List.dropLast_subset w hs)) hp hnot

end LiveDocument.Value
