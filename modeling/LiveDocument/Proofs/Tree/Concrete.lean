import LiveDocument.Proofs.Tree.Alias
import LiveDocument.Proofs.Tree.Location

/-!
# What concrete paths denote

A concrete path tells every element of a sequence by its position from the start. It leads where the
path leads, also through slices and up to the point where the walk stops. Elements have one spelling
in it, so two paths that spell the entries of mappings in the same way have the same concrete path
if they lead to the same entry, and one leads to an entry in that of the other if its concrete path
begins with the other's.

* `spot?_spelled`, `step?_spelled`: counting a place from the start does not change what it names.
* `walk?_concrete`, `concrete_concrete`, `concreteFrom_append`: what a concrete path denotes.
* `SharedSpelling`: two paths spell the entries of mappings on their common way alike.
* `concrete_prefix_iff`, `concrete_eq_iff`: locations are compared by concrete paths.
-/

namespace LiveDocument.Value

/-! ## One segment -/

section

variable {v : Value}

/-- A segment that is spelled differently is a place of a sequence. -/
theorem spelled_cases (v : Value) (s : Segment) : v.spelled s = s ∨
    ∃ items place p, v = .sequence items ∧ s = .index place ∧
      Position.within? place items.length = some p ∧ v.spelled s = .index (Int64.ofInt p) := by
  cases v with
  | sequence items =>
    cases s with
    | index place =>
      cases h : Position.within? place items.length with
      | none => exact Or.inl (by simp only [spelled, h])
      | some p => exact Or.inr ⟨items, place, p, rfl, rfl, h, by simp only [spelled, h]⟩
    | _ => exact Or.inl rfl
  | _ => exact Or.inl rfl

/-- The position that a place denotes is denoted by its number as well. -/
theorem within?_spelled {items : List Value} (hv : (sequence items).Sized) {place : Int64} {p : Nat}
    (h : Position.within? place items.length = some p) :
    Position.within? (Int64.ofInt p) items.length = some p :=
  Position.within?_ofInt (Position.lt_of_within? h) hv.1

theorem spot?_spelled (hv : v.Sized) (s : Segment) : v.spot? (v.spelled s) = v.spot? s := by
  rcases spelled_cases v s with he | ⟨items, place, p, rfl, rfl, hp, he⟩
  · rw [he]
  · rw [he, spot?, spot?, within?_spelled hv hp, hp]

theorem step?_spelled (hv : v.Sized) (s : Segment) : v.step? (v.spelled s) = v.step? s := by
  rcases spelled_cases v s with he | ⟨items, place, p, rfl, rfl, hp, he⟩
  · rw [he]
  · simp only [he, step?, within?_spelled hv hp, hp]

theorem spelled_spelled (hv : v.Sized) (s : Segment) :
    v.spelled (v.spelled s) = v.spelled s := by
  rcases spelled_cases v s with he | ⟨items, place, p, rfl, rfl, hp, he⟩
  · rw [he, he]
  · rw [he]
    simp only [spelled, within?_spelled hv hp]

end

/-! ## What a concrete path denotes -/

theorem concreteFrom_none (path : Path) : concreteFrom none path = path := by
  cases path <;> rfl

theorem walk?_concrete {v : Value} (hv : v.Sized) (path : Path) :
    v.walk? (v.concrete path) = v.walk? path := by
  induction path generalizing v with
  | nil => rfl
  | cons s rest ih =>
    rw [concrete, concreteFrom_cons, walk?, walk?, step?_spelled hv]
    cases hs : v.step? s with
    | none => rfl
    | some next => exact ih (hv.step? hs)

theorem concrete_concrete {v : Value} (hv : v.Sized) (path : Path) :
    v.concrete (v.concrete path) = v.concrete path := by
  induction path generalizing v with
  | nil => rfl
  | cons s rest ih =>
    rw [concrete, concrete, concreteFrom_cons, concreteFrom_cons, step?_spelled hv,
      spelled_spelled hv]
    cases hs : v.step? s with
    | none => rw [concreteFrom_none]
    | some next =>
      have hrest : concreteFrom (some next) (concreteFrom (some next) rest) =
        concreteFrom (some next) rest := ih (hv.step? hs)
      rw [hrest]

/-- The rest of a path is spelled by what the path leads to before it. -/
theorem concreteFrom_append (v : Option Value) (p q : Path) :
    concreteFrom v (p ++ q) = concreteFrom v p ++ concreteFrom (v.bind fun w => w.walk? p) q := by
  induction p generalizing v with
  | nil => cases v <;> rfl
  | cons s rest ih =>
    cases v with
    | none => rw [concreteFrom_none, concreteFrom_none, Option.bind_none, concreteFrom_none]
    | some v =>
      rw [List.cons_append, concreteFrom_cons, concreteFrom_cons, ih, List.cons_append]
      rfl

theorem concrete_prefix_append (v : Value) (p q : Path) :
    v.concrete p <+: v.concrete (p ++ q) :=
  ⟨_, (concreteFrom_append (some v) p q).symm⟩

/-! ## Comparing locations -/

/-- As long as both paths go through the same spots, they have the same segment in every mapping. -/
def SharedSpelling (v : Value) : Path → Path → Prop
  | s :: p, t :: q =>
    v.spot? s = v.spot? t →
      (v.kind = .mapping → s = t) ∧ ∀ inner, v.step? s = some inner → inner.SharedSpelling p q
  | _, _ => True

instance decidableSharedSpelling : (v : Value) → (p q : Path) → Decidable (v.SharedSpelling p q)
  | _, [], _ => isTrue trivial
  | _, _ :: _, [] => isTrue trivial
  | v, s :: p, t :: q =>
    have : ∀ inner, Decidable (SharedSpelling inner p q) := fun inner =>
      decidableSharedSpelling inner p q
    inferInstanceAs (Decidable (v.spot? s = v.spot? t →
      (v.kind = .mapping → s = t) ∧ ∀ inner ∈ v.step? s, inner.SharedSpelling p q))

/-- Segments that come from queries tell the entries of mappings apart, so paths of them spell
common entries alike. -/
theorem sharedSpelling_of_isParsed (v : Value) {p q : Path} (hp : p.IsParsed) (hq : q.IsParsed) :
    v.SharedSpelling p q := by
  induction p generalizing v q with
  | nil => trivial
  | cons s p ih =>
    cases q with
    | nil => trivial
    | cons t q =>
      refine fun hspots => ⟨fun hk => ?_, fun inner _ => ih inner hp.tail hq.tail⟩
      cases v with
      | mapping entries =>
        obtain ⟨key, hs⟩ : ∃ key, keyOf? s = some key := by
          cases s with
          | slice _ => cases hp.head
          | _ => exact ⟨_, rfl⟩
        have ht : keyOf? t = some key := by
          rw [spot?, spot?, hs] at hspots
          obtain ⟨other, hother, he⟩ := Option.map_eq_some_iff.mp hspots.symm
          cases he
          exact hother
        exact hp.head.eq_of_keyOf? hq.head hs ht
      | _ => cases hk

example : ¬ SharedSpelling (.mapping [("80", .null)]) [.key "80"] [.index 80] := by decide +kernel

theorem length_location? {v : Value} {path : Path} {loc : List Spot}
    (h : v.location? path = some loc) : loc.length = path.length := by
  induction path generalizing v loc with
  | nil =>
    obtain rfl := Option.some.inj h
    rfl
  | cons s rest ih =>
    obtain ⟨spot, inner, below, -, -, hbelow, rfl⟩ := location?_cons_eq_some h
    rw [List.length_cons, List.length_cons, ih hbelow]

section

variable {v : Value} {p q : Path} {a b : List Spot}

/-- A path leads to an entry in that of another if its concrete path begins with the other's, and
only then. -/
theorem concrete_prefix_iff (hv : v.Sized) (hp : v.location? p = some a)
    (hq : v.location? q = some b) (h : v.SharedSpelling q p) :
    b <+: a ↔ v.concrete q <+: v.concrete p := by
  induction q generalizing v p a b with
  | nil =>
    obtain rfl := Option.some.inj hq
    exact ⟨fun _ => List.nil_prefix, fun _ => List.nil_prefix⟩
  | cons t q ih =>
    obtain ⟨other, innerT, belowT, ht, hit, hbelowT, rfl⟩ := location?_cons_eq_some hq
    cases p with
    | nil =>
      obtain rfl := Option.some.inj hp
      constructor
      · intro hb
        cases List.prefix_nil.mp hb
      · intro hc
        cases List.prefix_nil.mp hc
    | cons s p =>
      obtain ⟨spot, innerS, belowS, hs, his, hbelowS, rfl⟩ := location?_cons_eq_some hp
      rw [concrete, concrete, concreteFrom_cons, concreteFrom_cons, List.cons_prefix_cons,
        List.cons_prefix_cons, step?_of_spot? ht, step?_of_spot? hs, hit, his]
      by_cases hspots : other = spot
      · subst hspots
        obtain rfl : innerT = innerS := Option.some.inj (hit.symm.trans his)
        obtain ⟨hsame, hrest⟩ := h (ht.trans hs.symm)
        have hspelled : v.spelled t = v.spelled s := (spelled_eq_iff ht hs).mpr hsame
        have hinner : innerT.Sized := hv.step? ((step?_of_spot? ht).trans hit)
        have hbelow := ih hinner hbelowS hbelowT (hrest innerT ((step?_of_spot? ht).trans hit))
        exact and_congr (iff_of_true rfl hspelled) hbelow
      · -- Segments for two spots stay apart, because their spelling names the spots.
        refine ⟨fun hb => absurd hb.1 hspots, fun hc => absurd ?_ hspots⟩
        have hsame : v.spot? t = v.spot? s := by
          rw [← spot?_spelled hv t, hc.1, spot?_spelled hv s]
        exact Option.some.inj (ht.symm.trans (hsame.trans hs))

/-- Two paths lead to the same entry if their concrete paths are equal, and only then. -/
theorem concrete_eq_iff (hv : v.Sized) (hp : v.location? p = some a)
    (hq : v.location? q = some b) (h : v.SharedSpelling q p) :
    b = a ↔ v.concrete q = v.concrete p := by
  have hlength : b.length = a.length ↔ (v.concrete q).length = (v.concrete p).length := by
    rw [length_location? hp, length_location? hq, concrete, concrete, length_concreteFrom,
      length_concreteFrom]
  have hstarts := concrete_prefix_iff hv hp hq h
  constructor
  · rintro rfl
    exact (hstarts.mp (List.prefix_refl b)).eq_of_length (hlength.mp rfl)
  · intro he
    have hbelow : v.concrete q <+: v.concrete p := he ▸ List.prefix_refl _
    exact (hstarts.mpr hbelow).eq_of_length (hlength.mpr (by rw [he]))

end

/-- A concrete path is as long as the path and leads to the same value, or to none as well; it is
its own concrete path, and that of a longer path begins with it. Two paths without slices that lead
to values, and that spell the entries of mappings on their common way alike, have the same concrete
path if and only if they lead to the same entry; and the concrete path of one begins with that of
the other if and only if it leads to the other's entry or into it. -/
theorem concrete_keeps_denotation {v : Value} (hv : v.Sized) (p : Path) :
    (v.concrete p).length = p.length ∧
      v.walk? (v.concrete p) = v.walk? p ∧
      v.concrete (v.concrete p) = v.concrete p ∧
      (∀ q, v.concrete p <+: v.concrete (p ++ q)) ∧
      ∀ q, (∀ s ∈ p, s.isSlice = false) → (∀ s ∈ q, s.isSlice = false) →
        (v.walk? p).isSome = true → (v.walk? q).isSome = true → v.SharedSpelling q p →
          ∃ a b, v.location? p = some a ∧ v.location? q = some b ∧
            (b = a ↔ v.concrete q = v.concrete p) ∧
            (b <+: a ↔ v.concrete q <+: v.concrete p) := by
  refine ⟨length_concreteFrom _ p, walk?_concrete hv p, concrete_concrete hv p,
    concrete_prefix_append v p, fun q hp hq hwp hwq hshared => ?_⟩
  obtain ⟨x, hx⟩ := Option.isSome_iff_exists.mp hwp
  obtain ⟨y, hy⟩ := Option.isSome_iff_exists.mp hwq
  obtain ⟨a, ha, -⟩ := exists_location? hp hx
  obtain ⟨b, hb, -⟩ := exists_location? hq hy
  exact ⟨a, b, ha, hb, concrete_eq_iff hv ha hb hshared, concrete_prefix_iff hv ha hb hshared⟩

/-- The second of two elements below the key "80": one path counts it from the end and goes on into
it, the other counts it from the start. -/
theorem concrete_keeps_denotation_from_end :
    let v : Value := .mapping [("80", .sequence [.null, .mapping [("a", .boolean true)]])]
    let p : Path := [.index 80, .index (-1), .key "a"]
    let q : Path := [.index 80, .index 1]
    v.Sized ∧ (∀ s ∈ p, s.isSlice = false) ∧ (∀ s ∈ q, s.isSlice = false) ∧
      (v.walk? p).isSome = true ∧ (v.walk? q).isSome = true ∧ v.SharedSpelling q p ∧
        v.walk? (v.concrete p) = some (.boolean true) ∧ ¬ q <+: p ∧
          v.concrete q <+: v.concrete p := by
  intro v p q
  have hsized : v.Sized := by decide
  have hp : ∀ s ∈ p, s.isSlice = false := by decide
  have hq : ∀ s ∈ q, s.isSlice = false := by decide
  have hwp : (v.walk? p).isSome = true := by decide +kernel
  have hwq : (v.walk? q).isSome = true := by decide +kernel
  have hparsed : (∀ s ∈ q, s.IsParsed) ∧ ∀ s ∈ p, s.IsParsed := by decide +kernel
  have hshared : v.SharedSpelling q p := sharedSpelling_of_isParsed v hparsed.1 hparsed.2
  obtain ⟨-, hwalk, -, -, hlocations⟩ := concrete_keeps_denotation hsized p
  obtain ⟨a, b, ha, hb, -, hstarts⟩ := hlocations q hp hq hwp hwq hshared
  have hbelow : b <+: a := by
    obtain rfl : [.key "80", .place 1, .key "a"] = a := by
      refine Option.some.inj (Eq.trans ?_ ha)
      decide +kernel
    obtain rfl : [.key "80", .place 1] = b := by
      refine Option.some.inj (Eq.trans ?_ hb)
      decide +kernel
    decide
  refine ⟨hsized, hp, hq, hwp, hwq, hshared, hwalk.trans ?_, by decide, hstarts.mp hbelow⟩
  rfl

end LiveDocument.Value
