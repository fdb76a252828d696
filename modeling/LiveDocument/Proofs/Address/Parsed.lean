import LiveDocument.Address.Basic
import LiveDocument.Tree.Walk

/-!
# Segments that come from queries

A text, an index and a slice give only some of the segments: a key that could be read as a place
is never among them, because such a text is a place. Two of these segments that name the same key
of a mapping are therefore the same.

* `read?_text`: a place is read back from its text.
* `IsParsed.eq_of_keyOf?`: parsed segments are told apart by the keys they name.
* `isParsed_of_mem_parse`: what a query says without slices is parsed.
-/

namespace LiveDocument

namespace Position

theorem ofInt?_toInt (i : Int64) : ofInt? i.toInt = some i := by
  have hlow := i.le_toInt
  have hhigh := i.toInt_lt
  have hfits : fits i.toInt = true := by
    simp only [fits, Bool.and_eq_true, decide_eq_true_eq]
    exact ⟨hlow, hhigh⟩
  rw [ofInt?, if_pos hfits, Int64.ofInt_toInt]

theorem toInt_of_ofInt? {i : Int} {place : Int64} (h : ofInt? i = some place) :
    place.toInt = i := by
  unfold ofInt? at h
  rw [Option.ite_none_right_eq_some] at h
  obtain ⟨hfits, he⟩ := h
  rw [← Option.some.inj he, Int64.toInt_ofInt]
  exact wrap_of_fits hfits

end Position

namespace Text

theorem natural?_ne_minus (cs : List Char) : natural? ('-' :: cs) = none := by
  unfold natural?
  rw [if_pos]
  simp only [List.all_cons, Bool.or_eq_true]
  exact Or.inr (by rw [show Char.isDigit '-' = false from rfl]; rfl)

/-- An integer is read back from its decimal text. -/
theorem integer?_decimalInt (i : Int) : integer? (decimalInt i) = some i := by
  unfold decimalInt
  split
  · rename_i h
    rw [integer?, natural?_decimal]
    show some (-(i.natAbs : Int)) = some i
    congr 1
    omega
  · rename_i h
    have hne : ∀ ds, decimal i.natAbs ≠ '-' :: ds := by
      intro ds hd
      have hread := natural?_decimal i.natAbs
      rw [hd, natural?_ne_minus] at hread
      cases hread
    rw [integer?.eq_2 _ hne, natural?_decimal]
    show some (i.natAbs : Int) = some i
    congr 1
    omega

end Text

/-- A place is read back from its text. -/
theorem Position.read?_text (i : Int64) : Position.read? (Position.text i) = some i := by
  rw [Position.read?, Position.text, Text.integer?_decimalInt, Option.bind_some,
    Position.ofInt?_toInt]

namespace Segment

/-- A segment that a query can name an entry with: a place, or a key that reads as nothing
else. -/
def IsParsed : Segment → Prop
  | key name => classify name.toList = key name
  | index _ => True
  | slice _ => False

instance (s : Segment) : Decidable s.IsParsed := by
  unfold IsParsed
  cases s <;> infer_instance

theorem IsParsed.isSlice {s : Segment} (h : s.IsParsed) : s.isSlice = false := by
  cases s with
  | slice t => cases h
  | _ => rfl

theorem classify_text_index (i : Int64) : classify (Position.text i) = index i := by
  rw [classify, Position.read?_text]

/-- What a text is classified as is parsed, unless it is a slice. -/
theorem isParsed_classify {cs : List Char} (h : (classify cs).isSlice = false) :
    (classify cs).IsParsed := by
  unfold classify at h ⊢
  cases hp : Position.read? cs with
  | some place => trivial
  | none =>
    rw [hp] at h
    cases hs : Slice.read? cs with
    | some s =>
      rw [hs] at h
      cases h
    | none =>
      show classify (String.ofList cs).toList = key (String.ofList cs)
      rw [String.toList_ofList, classify, hp, hs]

/-- Parsed segments are told apart by the keys they name. -/
theorem IsParsed.eq_of_keyOf? {s t : Segment} {k : String} (hs : s.IsParsed) (ht : t.IsParsed)
    (hk : Value.keyOf? s = some k) (hl : Value.keyOf? t = some k) : s = t := by
  have hread : ∀ {u : Segment}, u.IsParsed → Value.keyOf? u = some k → classify k.toList = u := by
    intro u hu hku
    cases u with
    | key name =>
      cases hku
      exact hu
    | index place =>
      cases hku
      rw [String.toList_ofList, classify_text_index]
    | slice t => cases hku
  exact (hread hs hk).symm.trans (hread ht hl)

end Segment

/-- A path of parsed segments. -/
def Path.IsParsed (p : Path) : Prop :=
  ∀ s ∈ p, s.IsParsed

namespace Path

theorem IsParsed.nil : IsParsed [] := by
  intro s hs
  cases hs

theorem IsParsed.append {p q : Path} (hp : p.IsParsed) (hq : q.IsParsed) : (p ++ q).IsParsed := by
  intro s hs
  rcases List.mem_append.mp hs with h | h
  · exact hp s h
  · exact hq s h

theorem IsParsed.head {s : Segment} {p : Path} (h : IsParsed (s :: p)) : s.IsParsed :=
  h s List.mem_cons_self

theorem IsParsed.tail {s : Segment} {p : Path} (h : IsParsed (s :: p)) : IsParsed p :=
  fun t ht => h t (List.mem_cons_of_mem _ ht)

end Path

namespace Address

@[simp] theorem delimiter_parse (query : Query) (delimiter : String) :
    (parse query delimiter).delimiter = delimiter := by
  cases query with
  | text s =>
    simp only [parse]
    split <;> rfl
  | _ => rfl

/-- Every segment of a query's address is parsed or a slice. -/
theorem isParsed_of_mem_parse {query : Query} {delimiter : String} {s : Segment}
    (hs : s ∈ (parse query delimiter).segments) (h : s.isSlice = false) : s.IsParsed := by
  have hof : ∀ sep cs, s ∈ segmentsOf sep cs → s.IsParsed := by
    intro sep cs hm
    unfold segmentsOf at hm
    split at hm
    · cases hm
    · split at hm
      · obtain rfl := List.mem_singleton.mp hm
        exact Segment.isParsed_classify h
      · obtain ⟨part, -, rfl⟩ := List.mem_map.mp hm
        exact Segment.isParsed_classify h
  cases query with
  | index place =>
    obtain rfl := List.mem_singleton.mp hs
    trivial
  | slice t =>
    obtain rfl := List.mem_singleton.mp hs
    cases h
  | text raw =>
    simp only [parse] at hs
    split at hs
    · exact hof _ _ hs
    · exact hof _ _ hs

end Address

end LiveDocument
