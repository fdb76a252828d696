import LiveDocument.Proofs.Tree.Writable

/-!
# Locations

Many paths lead to one place: an element of a sequence is named by its position from either end, an
entry of a mapping by its key or by a number that reads like it. What tells places apart are the
spots on the way. Two paths one of which is not the beginning of the other, when both are spelled by
spots, part ways in some container, and then an edit at the end of one is not noticed along the
other.

* `spelling`: a path with each segment told by the spot that it names.
* `walk?_write_of_apart`: what a write leaves alone.
* `exists_keys_write`: what it does to the keys of a mapping.
* `location?`: the spots on the way to a value. `location?_write`: writes elsewhere leave it alone.
-/

namespace LiveDocument.Value

/-! ## Spelling -/

/-- The spots that the segments of a path name in the containers on the way. A segment that names no
spot, and every segment from the point where the walk stops, is told as it is written. -/
def spellingFrom : Option Value → Path → List (Spot ⊕ Segment)
  | _, [] => []
  | none, s :: rest => .inr s :: spellingFrom none rest
  | some v, s :: rest => ((v.spot? s).elim (.inr s) .inl) :: spellingFrom (v.step? s) rest

/-- The path with every element of a sequence told by its position from the start and every entry of
a mapping by its key. -/
def spelling (v : Value) (path : Path) : List (Spot ⊕ Segment) :=
  spellingFrom (some v) path

example : spelling (.mapping [("1", .sequence [.null, .null])]) [.index 1, .index (-2), .key "a"] =
    [.inl (.key "1"), .inl (.place 0), .inr (.key "a")] := by decide +kernel

theorem spelling_cons_of_spot? {v : Value} {s : Segment} {spot : Spot} (h : v.spot? s = some spot)
    (rest : Path) :
    v.spelling (s :: rest) = .inl spot :: spellingFrom (v.atSpot? spot) rest := by
  rw [spelling, spellingFrom, h, step?_of_spot? h]
  rfl

theorem spelling_cons_of_spot?_eq_none {v : Value} {s : Segment} (h : v.spot? s = none)
    (rest : Path) : v.spelling (s :: rest) = .inr s :: spellingFrom (v.step? s) rest := by
  rw [spelling, spellingFrom, h]
  rfl

/-- A write leaves the value at a path without slices alone if neither of the two paths leads to the
end of the other or below it. -/
theorem walk?_write_of_apart {v new v' : Value} {w q : Path} (h : v.write? new w = some v')
    (hq : ∀ s ∈ q, s.isSlice = false) (hbelow : ¬ v.spelling w <+: v.spelling q)
    (habove : ¬ v.spelling q <+: v.spelling w) : v'.walk? q = v.walk? q := by
  induction w generalizing v v' q with
  | nil => exact absurd List.nil_prefix hbelow
  | cons s rest ih =>
    cases q with
    | nil => exact absurd List.nil_prefix habove
    | cons t q =>
      obtain ⟨spot, changed, hs, rfl, hc⟩ := write?_cons_eq_some h
      have ht : t.isSlice = false := hq t List.mem_cons_self
      rw [walk?, walk?]
      rcases step?_putSpot changed hs ht with ⟨hsame, hstep⟩ | ⟨-, hstep⟩
      · rw [spelling_cons_of_spot? hs, spelling_cons_of_spot? hsame, List.prefix_cons_inj]
          at hbelow habove
        rcases hc with ⟨rfl, -⟩ | ⟨inner, hi, hw⟩
        · exact absurd List.nil_prefix hbelow
        · rw [hi] at hbelow habove
          rw [hstep, step?_of_spot? hsame, hi, Option.bind_some, Option.bind_some]
          exact ih hw (fun u hu => hq u (List.mem_cons_of_mem _ hu)) hbelow habove
      · rw [hstep]

/-! ## Keys -/

/-- A path that begins with another spot or with none is spelled in another way. -/
theorem spelling_cons_ne {v : Value} {s t : Segment} {spot : Spot} (hs : v.spot? s = some spot)
    (ht : v.spot? t ≠ some spot) (w q : Path) (more : List (Spot ⊕ Segment)) :
    v.spelling (s :: w) ≠ v.spelling (t :: q) ++ more := by
  intro he
  rw [spelling_cons_of_spot? hs] at he
  cases hv : v.spot? t with
  | none =>
    rw [spelling_cons_of_spot?_eq_none hv] at he
    cases (List.cons.inj he).1
  | some other =>
    rw [spelling_cons_of_spot? hv] at he
    cases (List.cons.inj he).1
    exact ht hv

/-- The path `w` is the way to a key that is new to the mapping to which `q` leads. -/
def Adds (v : Value) (w q : Path) (entries : List (String × Value)) (key : String) : Prop :=
  key ∉ Entries.keys entries ∧ v.spelling w = v.spelling q ++ [.inl (.key key)]

/-- The keys of a mapping that a path leads to, when a value is written elsewhere or below: they
stay as they are, unless the write is to a new key of this mapping, which comes last. -/
theorem exists_keys_write {v new v' : Value} {w q : Path} (h : v.write? new w = some v')
    (hq : ∀ s ∈ q, s.isSlice = false) (hbelow : ¬ v.spelling w <+: v.spelling q)
    {entries : List (String × Value)} (hwalk : v.walk? q = some (.mapping entries)) :
    ∃ entries', v'.walk? q = some (.mapping entries') ∧
      ((∃ key, v.Adds w q entries key ∧ Entries.keys entries' = Entries.keys entries ++ [key]) ∨
        (∀ key, ¬ v.Adds w q entries key) ∧ Entries.keys entries' = Entries.keys entries) := by
  induction w generalizing v v' q with
  | nil => exact absurd List.nil_prefix hbelow
  | cons s rest ih =>
    obtain ⟨spot, changed, hs, rfl, hc⟩ := write?_cons_eq_some h
    cases q with
    | nil =>
      cases hwalk
      obtain ⟨key, hkey, rfl⟩ := Option.map_eq_some_iff.mp hs
      refine ⟨Entries.put key changed entries, rfl, ?_⟩
      rw [Entries.keys_put]
      split
      · rename_i hold
        refine Or.inr ⟨fun other hadds => hadds.1 ?_, rfl⟩
        have he := hadds.2
        rw [spelling_cons_of_spot? hs] at he
        cases (List.cons.inj he).1
        exact hold
      · rename_i hnew
        rcases hc with ⟨rfl, -⟩ | ⟨inner, hi, -⟩
        · exact Or.inl ⟨key, ⟨hnew, spelling_cons_of_spot? hs []⟩, rfl⟩
        · have hmem := List.mem_map_of_mem (f := Prod.fst) (Entries.mem_of_get? hi)
          exact absurd hmem hnew
    | cons t q =>
      have ht : t.isSlice = false := hq t List.mem_cons_self
      obtain ⟨next, hnext, hrest⟩ := Option.bind_eq_some_iff.mp hwalk
      rcases step?_putSpot changed hs ht with ⟨hsame, hstep⟩ | ⟨hother, hstep⟩
      · rw [spelling_cons_of_spot? hs, spelling_cons_of_spot? hsame, List.prefix_cons_inj]
          at hbelow
        rcases hc with ⟨rfl, -⟩ | ⟨inner, hi, hw⟩
        · exact absurd List.nil_prefix hbelow
        · rw [step?_of_spot? hsame, hi] at hnext
          obtain rfl := Option.some.inj hnext
          rw [hi] at hbelow
          obtain ⟨entries', hafter, hkeys⟩ :=
            ih hw (fun u hu => hq u (List.mem_cons_of_mem _ hu)) hbelow hrest
          have hadds : ∀ key, v.Adds (s :: rest) (t :: q) entries key ↔
              inner.Adds rest q entries key := by
            intro key
            rw [Adds, spelling_cons_of_spot? hs, spelling_cons_of_spot? hsame, hi,
              List.cons_append, List.cons_inj_right]
            rfl
          refine ⟨entries', by rw [walk?, hstep, Option.bind_some, hafter], ?_⟩
          simp only [hadds]
          exact hkeys
      · refine ⟨entries, by rw [walk?, hstep, hnext, Option.bind_some, hrest], Or.inr ⟨?_, rfl⟩⟩
        exact fun key hadds => spelling_cons_ne hs hother rest q _ hadds.2

/-! ## Locations -/

/-- The spots on the way to a value, if the path leads to one and no slice is on it. -/
def location? (v : Value) : Path → Option (List Spot)
  | [] => some []
  | s :: rest =>
    (v.spot? s).bind fun spot => (v.atSpot? spot).bind fun inner =>
      (inner.location? rest).map (spot :: ·)

/-- The value at a location. -/
def atLocation? (v : Value) : List Spot → Option Value
  | [] => some v
  | spot :: rest => (v.atSpot? spot).bind fun inner => inner.atLocation? rest

theorem location?_cons_eq_some {v : Value} {s : Segment} {rest : Path} {loc : List Spot}
    (h : v.location? (s :: rest) = some loc) :
    ∃ spot inner below, v.spot? s = some spot ∧ v.atSpot? spot = some inner ∧
      inner.location? rest = some below ∧ loc = spot :: below := by
  obtain ⟨spot, hs, h⟩ := Option.bind_eq_some_iff.mp h
  obtain ⟨inner, hi, h⟩ := Option.bind_eq_some_iff.mp h
  obtain ⟨below, hb, rfl⟩ := Option.map_eq_some_iff.mp h
  exact ⟨spot, inner, below, hs, hi, hb, rfl⟩

/-- A path without slices that leads to a value has a location, at which the value is. -/
theorem exists_location? {v w : Value} {path : Path} (hpath : ∀ s ∈ path, s.isSlice = false)
    (h : v.walk? path = some w) :
    ∃ loc, v.location? path = some loc ∧ v.atLocation? loc = some w := by
  induction path generalizing v with
  | nil => exact ⟨[], rfl, h⟩
  | cons s rest ih =>
    obtain ⟨spot, next, hs, hi, hrest⟩ := walk?_cons_eq_some (hpath s List.mem_cons_self) h
    obtain ⟨loc, hloc, hat⟩ := ih (fun u hu => hpath u (List.mem_cons_of_mem _ hu)) hrest
    refine ⟨spot :: loc, ?_, ?_⟩
    · rw [location?, hs, Option.bind_some, hi, Option.bind_some, hloc, Option.map_some]
    · rw [atLocation?, hi, Option.bind_some, hat]

theorem location?_append {v : Value} (p q : Path) :
    v.location? (p ++ q) = (v.location? p).bind fun front => (v.walk? p).bind fun inner =>
      (inner.location? q).map (front ++ ·) := by
  induction p generalizing v with
  | nil =>
    rw [List.nil_append, location?, walk?, Option.bind_some, Option.bind_some]
    exact Option.map_id'.symm
  | cons s rest ih =>
    rw [List.cons_append, location?, location?, walk?]
    cases hs : v.spot? s with
    | none => rfl
    | some spot =>
      rw [Option.bind_some, Option.bind_some, step?_of_spot? hs]
      cases v.atSpot? spot with
      | none => rfl
      | some inner =>
        rw [Option.bind_some, Option.bind_some, Option.bind_some, ih]
        cases inner.location? rest with
        | none => rfl
        | some front =>
          rw [Option.bind_some, Option.map_some, Option.bind_some]
          cases inner.walk? rest with
          | none => rfl
          | some w =>
            rw [Option.bind_some, Option.bind_some, Option.map_map]
            rfl

theorem eq_nil_of_location? {v : Value} {path : Path} (h : v.location? path = some []) :
    path = [] := by
  cases path with
  | nil => rfl
  | cons s rest =>
    obtain ⟨spot, inner, below, -, -, -, he⟩ := location?_cons_eq_some h
    cases he

/-- What is at the location of a path is what the path leads to. -/
theorem walk?_eq_atLocation? {v : Value} {path : Path} {loc : List Spot}
    (h : v.location? path = some loc) : v.walk? path = v.atLocation? loc := by
  induction path generalizing v loc with
  | nil =>
    obtain rfl := Option.some.inj h
    rfl
  | cons s rest ih =>
    obtain ⟨spot, inner, below, hs, hi, hbelow, rfl⟩ := location?_cons_eq_some h
    rw [walk?, atLocation?, step?_of_spot? hs, hi, Option.bind_some, Option.bind_some, ih hbelow]

theorem exists_walk?_of_location? {v : Value} {path : Path} {loc : List Spot}
    (h : v.location? path = some loc) : ∃ w, v.walk? path = some w := by
  induction path generalizing v loc with
  | nil => exact ⟨v, rfl⟩
  | cons s rest ih =>
    obtain ⟨spot, inner, below, hs, hi, hbelow, -⟩ := location?_cons_eq_some h
    obtain ⟨w, hw⟩ := ih hbelow
    exact ⟨w, by rw [walk?_cons_of_atSpot? hs hi, hw]⟩

/-- A write leaves the location of a path alone unless it is to a place above. -/
theorem location?_write {v new v' : Value} {w q : Path} (h : v.write? new w = some v')
    {written loc : List Spot} (hw : v.location? w = some written) (hq : v.location? q = some loc)
    (hbelow : written <+: loc → loc = written) : v'.location? q = some loc := by
  induction w generalizing v v' q written loc with
  | nil =>
    obtain rfl := Option.some.inj hw
    obtain rfl := hbelow List.nil_prefix
    rw [eq_nil_of_location? hq]
    rfl
  | cons s rest ih =>
    obtain ⟨spot, changed, hs, rfl, hc⟩ := write?_cons_eq_some h
    obtain ⟨spot', inner, written, hs', hi, hrest, rfl⟩ := location?_cons_eq_some hw
    obtain rfl : spot = spot' := Option.some.inj (hs.symm.trans hs')
    cases q with
    | nil => exact hq
    | cons t q =>
      obtain ⟨other, innerT, below, ht, hit, hbelowT, rfl⟩ := location?_cons_eq_some hq
      rw [location?, spot?_putSpot, ht, Option.bind_some]
      by_cases he : spot = other
      · subst he
        rw [List.prefix_cons_inj, List.cons_inj_right] at hbelow
        obtain rfl : inner = innerT := Option.some.inj (hi.symm.trans hit)
        rw [atSpot?_putSpot_self hs, Option.bind_some]
        rcases hc with ⟨rfl, -⟩ | ⟨inner', hi', hwrite⟩
        · obtain rfl := Option.some.inj hrest
          obtain rfl := hbelow List.nil_prefix
          rw [eq_nil_of_location? hbelowT]
          rfl
        · obtain rfl : inner = inner' := Option.some.inj (hi.symm.trans hi')
          rw [ih hwrite hrest hbelowT hbelow, Option.map_some]
      · rw [atSpot?_putSpot_of_ne he, hit, Option.bind_some, hbelowT, Option.map_some]

end LiveDocument.Value
