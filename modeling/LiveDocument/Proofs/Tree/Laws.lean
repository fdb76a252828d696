import LiveDocument.Proofs.Tree.Location

/-!
# Laws of edits

Two edits of one value, one after the other. All of them come down to what two edits do at the spots
of one container, where the order of keys counts: a second write takes the place of the first, a
write of what is there already changes nothing, a new key comes last and can be taken away again,
and writes at two spots that have values can change places.

* `putSpot_putSpot`, `putSpot_atSpot?`, `eraseSpot_putSpot`, `putSpot_comm`: at the spots of one
  container.
* `write?_write?`, `write?_walk?`, `remove?_write?`, `write?_comm`: the same along paths.
-/

namespace LiveDocument.Value

/-! ## Spots -/

section

variable {v inner second : Value} {spot other : Spot}

/-- The second of two values at one spot stays. -/
theorem putSpot_putSpot (v : Value) (spot : Spot) (a b : Value) :
    (v.putSpot spot a).putSpot spot b = v.putSpot spot b := by
  cases v with
  | mapping entries =>
    cases spot with
    | key name => exact congrArg mapping (Entries.put_put name a b entries)
    | place p => rfl
  | sequence items =>
    cases spot with
    | key name => rfl
    | place p => exact congrArg sequence (List.set_set a)
  | _ => cases spot <;> rfl

/-- A container with what it has at a spot is the container. -/
theorem putSpot_atSpot? (h : v.atSpot? spot = some inner) : v.putSpot spot inner = v := by
  cases v with
  | mapping entries =>
    cases spot with
    | key name => exact congrArg mapping (Entries.put_get? h)
    | place p => cases h
  | sequence items =>
    cases spot with
    | key name => cases h
    | place p =>
      obtain ⟨hlt, rfl⟩ := List.getElem?_eq_some_iff.mp h
      exact congrArg sequence (List.set_getElem_self hlt)
  | _ => cases spot <;> cases h

/-- What is put where nothing was can be taken away again. -/
theorem eraseSpot_putSpot {s : Segment} (hs : v.spot? s = some spot) (h : v.atSpot? spot = none)
    (new : Value) : (v.putSpot spot new).eraseSpot spot = v := by
  cases v with
  | mapping entries =>
    obtain ⟨name, -, rfl⟩ := Option.map_eq_some_iff.mp hs
    exact congrArg mapping (Entries.erase_put (Entries.notMem_keys_of_get? h) new)
  | sequence items =>
    -- A sequence has no spot at which it has nothing.
    cases spot with
    | key name => cases s <;> simp [spot?] at hs
    | place p =>
      have hlt := place_lt_of_spot? hs
      have hout := List.getElem?_eq_none_iff.mp h
      omega
  | _ => cases hs

/-- Values at two spots that have some can be put in either order. -/
theorem putSpot_comm (hne : spot ≠ other) (h : v.atSpot? spot = some inner)
    (hother : v.atSpot? other = some second) (a b : Value) :
    (v.putSpot spot a).putSpot other b = (v.putSpot other b).putSpot spot a := by
  cases v with
  | mapping entries =>
    cases spot with
    | place p => cases h
    | key name =>
      cases other with
      | place q => cases hother
      | key name' =>
        have hnames : name' ≠ name := fun he => hne (by rw [he])
        have hname : name ∈ Entries.keys entries :=
          List.mem_map.mpr ⟨_, Entries.mem_of_get? h, rfl⟩
        have hname' : name' ∈ Entries.keys entries :=
          List.mem_map.mpr ⟨_, Entries.mem_of_get? hother, rfl⟩
        exact congrArg mapping (Entries.put_comm hnames hname' hname b a)
  | sequence items =>
    cases spot with
    | key name => cases h
    | place p =>
      cases other with
      | key name' => cases hother
      | place q => exact congrArg sequence (List.set_comm a b fun he => hne (by rw [he]))
  | _ => cases spot <;> cases h

end

/-! ## Paths -/

/-- Which values are written plays no part in where a write succeeds. -/
theorem isSome_write?_congr (v a b : Value) (p : Path) :
    (v.write? a p).isSome = (v.write? b p).isSome := by
  rcases List.eq_nil_or_concat p with rfl | ⟨front, last, he⟩
  · rfl
  · rw [he, List.concat_eq_append, Bool.eq_iff_iff, isSome_write?_concat, isSome_write?_concat]

section

variable {v v' w : Value} {p q : Path}

/-- The second of two writes at one path is as good as the second alone. -/
theorem write?_write? {a : Value} (h : v.write? a p = some v') (b : Value) :
    v'.write? b p = v.write? b p := by
  induction p generalizing v v' with
  | nil => rfl
  | cons s rest ih =>
    obtain ⟨spot, changed, hs, rfl, hc⟩ := write?_cons_eq_some h
    have hs' : (v.putSpot spot changed).spot? s = some spot := (spot?_putSpot ..).trans hs
    have hat := atSpot?_putSpot_self hs changed
    rw [write?_cons_of_atSpot? hs' hat]
    simp only [putSpot_putSpot]
    rcases hc with ⟨rfl, -⟩ | ⟨inner, hi, hwrite⟩
    · rw [write?_singleton, hs]
      rfl
    · rw [write?_cons_of_atSpot? hs hi, ih hwrite]

/-- Writing what a path leads to changes nothing. -/
theorem write?_walk? (hp : ∀ s ∈ p, s.isSlice = false) (h : v.walk? p = some w) :
    v.write? w p = some v := by
  induction p generalizing v with
  | nil => exact h.symm
  | cons s rest ih =>
    obtain ⟨spot, inner, hs, hi, hrest⟩ := walk?_cons_eq_some (hp s List.mem_cons_self) h
    rw [write?_cons_of_atSpot? hs hi, ih (fun t ht => hp t (List.mem_cons_of_mem _ ht)) hrest,
      Option.map_some, putSpot_atSpot? hi]

/-- What a path without slices leads to can be written. -/
theorem exists_write?_of_walk? (hp : ∀ s ∈ p, s.isSlice = false) (h : v.walk? p = some w)
    (new : Value) : ∃ v', v.write? new p = some v' := by
  refine Option.isSome_iff_exists.mp ?_
  rw [isSome_write?_congr v new w p, write?_walk? hp h]
  rfl

/-- A value that has been written where there was none can be removed, and everything is as it
was. -/
theorem remove?_write? {new : Value} (h : v.write? new p = some v') (hnone : v.walk? p = none) :
    v'.remove? p = some (new, v) := by
  induction p generalizing v v' with
  | nil => cases hnone
  | cons s rest ih =>
    obtain ⟨spot, changed, hs, rfl, hc⟩ := write?_cons_eq_some h
    have hs' : (v.putSpot spot changed).spot? s = some spot := (spot?_putSpot ..).trans hs
    have hat := atSpot?_putSpot_self hs changed
    rw [walk?, step?_of_spot? hs] at hnone
    rcases hc with ⟨rfl, rfl⟩ | ⟨inner, hi, hwrite⟩
    · have hempty : v.atSpot? spot = none := by
        cases hv : v.atSpot? spot with
        | none => rfl
        | some inner =>
          rw [hv] at hnone
          cases hnone
      rw [remove?, takeOut?_eq_spot, hs', Option.bind_some, hat, Option.map_some,
        eraseSpot_putSpot hs hempty]
    · rw [hi, Option.bind_some] at hnone
      cases rest with
      | nil => cases hnone
      | cons t rest =>
        rw [remove?.eq_3 _ s (t :: rest) (by simp), child?_eq_spot, hs', Option.bind_some, hat,
          Option.bind_some, ih hwrite hnone, Option.bind_some]
        dsimp only
        rw [assign?_eq_spot, hs', Option.map_some, Option.map_some, putSpot_putSpot,
          putSpot_atSpot? hi]

/-- Writes at two paths that lead to values, neither of them to the other's or below it, come to the
same in either order. -/
theorem write?_comm (hp : ∀ s ∈ p, s.isSlice = false) (hq : ∀ s ∈ q, s.isSlice = false)
    (hwp : (v.walk? p).isSome = true) (hwq : (v.walk? q).isSome = true)
    (hpq : ¬ v.spelling p <+: v.spelling q) (hqp : ¬ v.spelling q <+: v.spelling p) (a b : Value) :
    ((v.write? a p).bind fun v₁ => v₁.write? b q) =
      (v.write? b q).bind fun v₂ => v₂.write? a p := by
  induction p generalizing v q with
  | nil => exact absurd List.nil_prefix hpq
  | cons s p ih =>
    cases q with
    | nil => exact absurd List.nil_prefix hqp
    | cons t q =>
      obtain ⟨x, hx⟩ := Option.isSome_iff_exists.mp hwp
      obtain ⟨y, hy⟩ := Option.isSome_iff_exists.mp hwq
      obtain ⟨spot, inner, hs, hi, hx⟩ := walk?_cons_eq_some (hp s List.mem_cons_self) hx
      obtain ⟨other, second, ht, hj, hy⟩ := walk?_cons_eq_some (hq t List.mem_cons_self) hy
      have hp' : ∀ u ∈ p, u.isSlice = false := fun u hu => hp u (List.mem_cons_of_mem _ hu)
      have hq' : ∀ u ∈ q, u.isSlice = false := fun u hu => hq u (List.mem_cons_of_mem _ hu)
      obtain ⟨changed, hchanged⟩ := exists_write?_of_walk? hp' hx a
      obtain ⟨changed', hchanged'⟩ := exists_write?_of_walk? hq' hy b
      rw [write?_cons_of_atSpot? hs hi, write?_cons_of_atSpot? ht hj, hchanged, hchanged',
        Option.map_some, Option.map_some, Option.bind_some, Option.bind_some]
      by_cases he : spot = other
      · -- Both paths go into the same value, and their ways part further in.
        subst he
        obtain rfl : inner = second := Option.some.inj (hi.symm.trans hj)
        rw [spelling_cons_of_spot? hs, spelling_cons_of_spot? ht, List.prefix_cons_inj, hi]
          at hpq hqp
        have hinto := ih hp' hq' (Option.isSome_iff_exists.mpr ⟨x, hx⟩)
          (Option.isSome_iff_exists.mpr ⟨y, hy⟩) hpq hqp
        rw [hchanged, hchanged', Option.bind_some, Option.bind_some] at hinto
        rw [write?_cons_of_atSpot? ((spot?_putSpot ..).trans ht) (atSpot?_putSpot_self hs changed),
          write?_cons_of_atSpot? ((spot?_putSpot ..).trans hs) (atSpot?_putSpot_self hs changed'),
          hinto]
        simp only [putSpot_putSpot]
      · rw [write?_cons_of_atSpot? ((spot?_putSpot ..).trans ht)
            ((atSpot?_putSpot_of_ne he v changed).trans hj),
          write?_cons_of_atSpot? ((spot?_putSpot ..).trans hs)
            ((atSpot?_putSpot_of_ne (Ne.symm he) v changed').trans hi),
          hchanged, hchanged', Option.map_some, Option.map_some, putSpot_comm he hi hj]

end

end LiveDocument.Value
