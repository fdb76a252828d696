import LiveDocument.Proofs.Tree.Targets

/-!
# Paths to the same entry

Two paths without slices denote the same stored entry if they go through the same spots. A place
of a sequence has two spellings, which the concrete path makes one. The entry of a mapping can have
two spellings as well, a key and a place whose numeral is the key, and these stay two.

* `SameEntry`: two paths denote the same entry. `SpelledAlike`: they spell mapping entries alike.
* `SameEntry.concrete_eq_iff`: their concrete paths agree exactly if they do.
* `SameEntry.write`, `concrete_write`: a write at a path changes neither for paths that are not
  longer.
-/

namespace LiveDocument.Value

/-- Two paths go through the same spots to a stored entry. -/
inductive SameEntry : Value → Path → Path → Prop where
  | root (v : Value) : SameEntry v [] []
  | step {v inner : Value} {s t : Segment} {spot : Spot} {p q : Path} (hs : v.spot? s = some spot)
      (ht : v.spot? t = some spot) (hi : v.atSpot? spot = some inner) (h : SameEntry inner p q) :
      SameEntry v (s :: p) (t :: q)

/-- Wherever the first path goes through a mapping, the second one has the same segment. -/
def SpelledAlike (v : Value) : Path → Path → Prop
  | s :: p, t :: q =>
    (v.kind = .mapping → s = t) ∧ ∀ inner, v.step? s = some inner → inner.SpelledAlike p q
  | _, _ => True

theorem sameEntry_cons_iff {v : Value} {s t : Segment} {p q : Path} :
    SameEntry v (s :: p) (t :: q) ↔
      v.spot? s = v.spot? t ∧ ∃ inner ∈ v.child? s, SameEntry inner p q := by
  rw [child?_eq_spot]
  constructor
  · intro h
    cases h with
    | step hs ht hi h =>
      exact ⟨hs.trans ht.symm, _, by rw [hs, Option.bind_some, hi]; rfl, h⟩
  · rintro ⟨he, inner, hinner, h⟩
    obtain ⟨spot, hs, hi⟩ := Option.bind_eq_some_iff.mp hinner
    exact SameEntry.step hs (he ▸ hs) hi h

instance decidableSameEntry : (v : Value) → (p q : Path) → Decidable (SameEntry v p q)
  | v, [], [] => isTrue (SameEntry.root v)
  | _, [], _ :: _ => isFalse fun h => nomatch h
  | _, _ :: _, [] => isFalse fun h => nomatch h
  | _, _ :: p, _ :: q =>
    have : ∀ inner, Decidable (SameEntry inner p q) := fun inner => decidableSameEntry inner p q
    decidable_of_iff _ sameEntry_cons_iff.symm

instance decidableSpelledAlike : (v : Value) → (p q : Path) → Decidable (v.SpelledAlike p q)
  | _, [], _ => isTrue trivial
  | _, _ :: _, [] => isTrue trivial
  | v, s :: p, t :: q =>
    have : ∀ inner, Decidable (SpelledAlike inner p q) := fun inner =>
      decidableSpelledAlike inner p q
    inferInstanceAs (Decidable ((v.kind = .mapping → s = t) ∧
      ∀ inner ∈ v.step? s, inner.SpelledAlike p q))

/-! ## What the two paths share -/

section

variable {v : Value} {p q : Path}

theorem SameEntry.length_eq (h : SameEntry v p q) : p.length = q.length := by
  induction h with
  | root v => rfl
  | step hs ht hi h ih => rw [List.length_cons, List.length_cons, ih]

theorem SameEntry.symm (h : SameEntry v p q) : SameEntry v q p := by
  induction h with
  | root v => exact SameEntry.root v
  | step hs ht hi h ih => exact SameEntry.step ht hs hi ih

theorem SameEntry.isSlice (h : SameEntry v p q) : ∀ s ∈ p, s.isSlice = false := by
  induction h with
  | root v =>
    intro s hs
    cases hs
  | step hs ht hi h ih =>
    intro u hu
    rcases List.mem_cons.mp hu with rfl | hu
    · exact isSlice_of_spot? hs
    · exact ih u hu

theorem SameEntry.walk?_eq (h : SameEntry v p q) : v.walk? p = v.walk? q := by
  induction h with
  | root v => rfl
  | step hs ht hi h ih =>
    rw [walk?_cons_of_atSpot? hs hi, walk?_cons_of_atSpot? ht hi, ih]

/-- Segments for one spot are spelled alike in a sequence, and in a mapping if they are equal. -/
theorem spelled_eq_iff {s t : Segment} {spot : Spot} (hs : v.spot? s = some spot)
    (ht : v.spot? t = some spot) : v.spelled s = v.spelled t ↔ (v.kind = .mapping → s = t) := by
  cases v with
  | mapping entries => exact ⟨fun h _ => h, fun h => h rfl⟩
  | sequence items =>
    refine ⟨fun _ h => (by cases h), fun _ => spelled_eq_of_spot? hs ht fun k hk hl => ?_⟩
    cases s with
    | index i =>
      cases t with
      | index j => exact Segment.IsParsed.eq_of_keyOf? trivial trivial hk hl
      | _ => cases ht
    | _ => cases hs
  | _ => cases hs

/-- Two paths to the same entry have the same concrete path exactly if they spell the entries of
mappings alike. -/
theorem SameEntry.concrete_eq_iff (h : SameEntry v p q) :
    v.concrete p = v.concrete q ↔ v.SpelledAlike p q := by
  induction h with
  | root v => exact ⟨fun _ => trivial, fun _ => rfl⟩
  | @step v inner s t spot p q hs ht hi h ih =>
    have hsteps : v.step? s = some inner := (step?_of_spot? hs).trans hi
    have hstept : v.step? t = some inner := (step?_of_spot? ht).trans hi
    unfold concrete at ih ⊢
    rw [concreteFrom_cons, concreteFrom_cons, hsteps, hstept, List.cons.injEq,
      spelled_eq_iff hs ht, ih, SpelledAlike, hsteps]
    exact and_congr_right fun _ => ⟨fun hp w hw => Option.some.inj hw ▸ hp, fun hp => hp inner rfl⟩

/-- If a path leads to the entry of another, and a sibling of it has the concrete path of the other,
then it has this concrete path itself. -/
theorem SameEntry.concrete_eq_of_siblings {w : Path} (h : SameEntry v p q)
    (hw : v.Siblings p w) (he : v.concrete w = v.concrete q) : v.concrete p = v.concrete q := by
  rcases hw with rfl | ⟨front, items, i, j, hfront, rfl, rfl⟩
  · exact he
  induction front generalizing v q with
  | nil =>
    obtain rfl := Option.some.inj hfront
    refine h.concrete_eq_iff.mpr ?_
    cases q with
    | nil => trivial
    | cons t q =>
      refine ⟨fun hk => (by cases hk), fun inner _ => ?_⟩
      cases q <;> trivial
  | cons s front ih =>
    cases h with
    | @step _ inner _ t spot _ q hs ht hi h =>
      have hsteps : v.step? s = some inner := (step?_of_spot? hs).trans hi
      have hstept : v.step? t = some inner := (step?_of_spot? ht).trans hi
      rw [walk?, hsteps, Option.bind_some] at hfront
      unfold concrete at he ih ⊢
      rw [List.cons_append, concreteFrom_cons, concreteFrom_cons, hsteps, hstept,
        List.cons.injEq] at he ⊢
      exact ⟨he.1, ih hfront h he.2⟩

end

/-! ## Writes -/

theorem concreteFrom_nil (v : Option Value) : concreteFrom v [] = [] := by
  cases v <;> rfl

section

variable {v v' new : Value} {w p q : Path}

/-- A write at a path leaves shorter and equally long paths to the same entry. -/
theorem SameEntry.write (h : SameEntry v p q) (hw : v.write? new w = some v')
    (hlen : p.length ≤ w.length) : SameEntry v' p q := by
  induction h generalizing w v' with
  | root v => exact SameEntry.root v'
  | @step v inner s t spot p q hs ht hi h ih =>
    cases w with
    | nil => cases hlen
    | cons u rest =>
      obtain ⟨other, changed, hu, rfl, hc⟩ := write?_cons_eq_some hw
      have hlen' : p.length ≤ rest.length := Nat.le_of_succ_le_succ hlen
      by_cases he : other = spot
      · subst he
        refine SameEntry.step (by rw [spot?_putSpot, hs]) (by rw [spot?_putSpot, ht])
          (atSpot?_putSpot_self hu changed) ?_
        rcases hc with ⟨rfl, rfl⟩ | ⟨inner', hi', hwrite⟩
        · obtain rfl := List.length_eq_zero_iff.mp (Nat.le_zero.mp hlen')
          obtain rfl := List.length_eq_zero_iff.mp h.length_eq.symm
          exact SameEntry.root _
        · rw [hi] at hi'
          cases hi'
          exact ih hwrite hlen'
      · refine SameEntry.step (by rw [spot?_putSpot, hs]) (by rw [spot?_putSpot, ht]) ?_ h
        rw [atSpot?_putSpot_of_ne he, hi]

/-- A write at a path leaves the concrete paths that are not longer. -/
theorem concrete_write (hw : v.write? new w = some v') (hp : ∀ s ∈ p, s.isSlice = false)
    (hlen : p.length ≤ w.length) : v'.concrete p = v.concrete p := by
  induction w generalizing v v' p with
  | nil =>
    obtain rfl := List.length_eq_zero_iff.mp (Nat.le_zero.mp hlen)
    rfl
  | cons s rest ih =>
    obtain ⟨spot, changed, hs, rfl, hc⟩ := write?_cons_eq_some hw
    cases p with
    | nil => rfl
    | cons t p =>
      have hlen' : p.length ≤ rest.length := Nat.le_of_succ_le_succ hlen
      unfold concrete
      rw [concreteFrom_cons, concreteFrom_cons, spelled_putSpot]
      congr 1
      rcases step?_putSpot changed hs (hp t List.mem_cons_self) with ⟨ht, hstep⟩ | ⟨-, hstep⟩
      · rw [hstep]
        rcases hc with ⟨rfl, rfl⟩ | ⟨inner, hi, hwrite⟩
        · obtain rfl := List.length_eq_zero_iff.mp (Nat.le_zero.mp hlen')
          rw [concreteFrom_nil, concreteFrom_nil]
        · rw [step?_eq_spot (hp t List.mem_cons_self), ht, Option.bind_some, hi]
          exact ih hwrite (fun u hu => hp u (List.mem_cons_of_mem _ hu)) hlen'
      · rw [hstep]

end

end LiveDocument.Value
