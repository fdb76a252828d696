import LiveDocument.Proofs.Tree.Targets

/-!
# Canonical texts tell paths apart

With a single character as the delimiter that occurs in no numeral, the canonical text of a path
from queries is cut back into the texts of its segments. The only two texts that are not told apart
are those of the path without segments and of the empty key alone, and no query says the latter.

* `split_join`: cutting a joined text gives its parts back.
* `Path.Canonical`: what a path from queries looks like.
* `Path.Canonical.text_inj`: parsed canonical paths are told apart by their texts.
* `Address.canonical_parse`: the address of a query is canonical.
-/

namespace LiveDocument

namespace Text

variable {c : Char} {cs part : List Char}

theorem splitFrom_zero_cons (c x : Char) (cs : List Char) :
    splitFrom [c] 0 (x :: cs) =
      if x = c then [] :: splitFrom [c] 0 cs else consHead x (splitFrom [c] 0 cs) := by
  rw [splitFrom.eq_3]
  by_cases hx : x = c
  · subst hx
    rw [if_pos rfl, if_pos (by simp)]
    rfl
  · rw [if_neg hx, if_neg (by simp [Ne.symm hx])]

theorem split_of_notMem (h : c ∉ part) : split [c] part = [part] := by
  unfold split
  induction part with
  | nil => rfl
  | cons x part ih =>
    rw [List.mem_cons, not_or] at h
    rw [splitFrom_zero_cons, if_neg (Ne.symm h.1), ih h.2]
    rfl

theorem split_append (h : c ∉ part) (rest : List Char) :
    split [c] (part ++ c :: rest) = part :: split [c] rest := by
  unfold split
  induction part with
  | nil => rw [List.nil_append, splitFrom_zero_cons, if_pos rfl]
  | cons x part ih =>
    rw [List.mem_cons, not_or] at h
    rw [List.cons_append, splitFrom_zero_cons, if_neg (Ne.symm h.1), ih h.2]
    rfl

/-- Cutting a joined text gives its parts back, if there are any. -/
theorem split_join {parts : List (List Char)} (hne : parts ≠ []) (h : ∀ part ∈ parts, c ∉ part) :
    split [c] (join [c] parts) = parts := by
  induction parts with
  | nil => exact absurd rfl hne
  | cons part rest ih =>
    have hpart := h part List.mem_cons_self
    cases rest with
    | nil => exact split_of_notMem hpart
    | cons next rest =>
      have hrest := ih (by simp) fun p hp => h p (List.mem_cons_of_mem _ hp)
      have hjoin : join [c] (part :: next :: rest) = part ++ c :: join [c] (next :: rest) := by
        rw [join, List.append_assoc]
        · rfl
        · simp
      rw [hjoin, split_append hpart, hrest]

theorem notMem_of_mem_split (h : part ∈ split [c] cs) : c ∉ part := by
  unfold split at h
  induction cs generalizing part with
  | nil =>
    rw [List.mem_singleton.mp h]
    simp
  | cons x cs ih =>
    rw [splitFrom_zero_cons] at h
    split at h
    · rcases List.mem_cons.mp h with rfl | h
      · simp
      · exact ih h
    · rename_i hx
      cases hs : splitFrom [c] 0 cs with
      | nil =>
        rw [hs] at h
        rw [List.mem_singleton.mp h, List.mem_singleton]
        exact Ne.symm hx
      | cons first rest =>
        rw [hs] at h ih
        rcases List.mem_cons.mp h with rfl | h
        · rw [List.mem_cons, not_or]
          exact ⟨Ne.symm hx, ih List.mem_cons_self⟩
        · exact ih (List.mem_cons_of_mem _ h)

theorem split_ne_nil (c : Char) (cs : List Char) : split [c] cs ≠ [] := by
  unfold split
  cases cs with
  | nil => simp [splitFrom]
  | cons x cs =>
    rw [splitFrom_zero_cons]
    split
    · simp
    · cases splitFrom [c] 0 cs <;> simp [consHead]

/-- Only the empty text is cut into one empty part. -/
theorem eq_nil_of_split (h : split [c] cs = [[]]) : cs = [] := by
  cases cs with
  | nil => rfl
  | cons x cs =>
    unfold split at h
    rw [splitFrom_zero_cons] at h
    split at h
    · exact absurd (List.cons.inj h).2 (split_ne_nil c cs)
    · cases hs : splitFrom [c] 0 cs with
      | nil =>
        rw [hs] at h
        cases h
      | cons first rest =>
        rw [hs] at h
        cases h

end Text

namespace Segment

/-- A segment that can be written without a slice reads back from its text. -/
theorem IsParsed.classify_text {s : Segment} (h : s.IsParsed) : classify s.text = s := by
  cases s with
  | key name => exact h
  | index place => exact classify_text_index place
  | slice t => cases h

/-- A text that is read as a key is the key. -/
theorem eq_of_classify_key {cs : List Char} {name : String} (h : classify cs = key name) :
    cs = name.toList := by
  unfold classify at h
  split at h
  · cases h
  · split at h
    · cases h
    · cases h
      rw [String.toList_ofList]

/-- The text of a place consists of digits and perhaps a minus sign. -/
theorem notMem_text_index {c : Char} (hdigit : c.isDigit = false) (hminus : c ≠ '-')
    (place : Int64) : c ∉ Position.text place := by
  have hdigits : ∀ n : Nat, c ∉ Text.decimal n := by
    intro n hc
    rw [List.all_eq_true.mp (Text.all_isDigit_decimal n) c hc] at hdigit
    cases hdigit
  unfold Position.text Text.decimalInt
  split
  · rw [List.mem_cons, not_or]
    exact ⟨hminus, hdigits _⟩
  · exact hdigits _

/-- The segment of a part without the delimiter has no delimiter in its text. -/
theorem notMem_text_classify {c : Char} (hdigit : c.isDigit = false) (hminus : c ≠ '-')
    {part : List Char} (hpart : c ∉ part) (hs : (classify part).isSlice = false) :
    c ∉ (classify part).text := by
  unfold classify at hs ⊢
  cases hp : Position.read? part with
  | some place => exact notMem_text_index hdigit hminus place
  | none =>
    rw [hp] at hs
    cases hr : Slice.read? part with
    | some s =>
      rw [hr] at hs
      cases hs
    | none =>
      show c ∉ (String.ofList part).toList
      rwa [String.toList_ofList]

end Segment

/-- No segment has the delimiter in its text, and the path is not the empty key alone. -/
structure Path.Canonical (c : Char) (p : Path) : Prop where
  free : ∀ s ∈ p, c ∉ s.text
  notEmpty : p ≠ [.key ""]

namespace Path.Canonical

variable {c : Char} {p q : Path}

theorem nil (c : Char) : Path.Canonical c [] :=
  ⟨fun s hs => (by cases hs), by simp⟩

/-- The text of a path with segments is cut into the texts of the segments. -/
theorem split_text (hp : Path.Canonical c p) (hne : p ≠ []) {delimiter : String}
    (hd : delimiter.toList = [c]) :
    Text.split [c] (p.text delimiter).toList = p.map Segment.text := by
  rw [Path.text, String.toList_ofList, hd]
  refine Text.split_join (by simpa using hne) fun part hpart => ?_
  obtain ⟨s, hs, rfl⟩ := List.mem_map.mp hpart
  exact hp.free s hs

theorem map_classify_text (hp : p.IsParsed) : (p.map Segment.text).map Segment.classify = p := by
  rw [List.map_map]
  refine (List.map_congr_left fun s hs => ?_).trans (List.map_id p)
  exact (hp s hs).classify_text

/-- Only the path without segments has the empty text. -/
theorem eq_nil_of_text (hp : Path.Canonical c p) (hparsed : p.IsParsed) {delimiter : String}
    (hd : delimiter.toList = [c]) (h : (p.text delimiter).toList = []) : p = [] := by
  apply Classical.byContradiction
  intro hne
  have hsplit := hp.split_text hne hd
  rw [h] at hsplit
  have hmap := map_classify_text hparsed
  rw [← hsplit] at hmap
  exact hp.notEmpty hmap.symm

/-- Parsed canonical paths are told apart by their texts. -/
theorem text_inj (hp : Path.Canonical c p) (hq : Path.Canonical c q) (hparsed : p.IsParsed)
    (hparsed' : q.IsParsed) {delimiter : String} (hd : delimiter.toList = [c])
    (h : p.text delimiter = q.text delimiter) : p = q := by
  by_cases hne : p = []
  · subst hne
    have hnil : (Path.text [] delimiter).toList = [] := by
      rw [Path.text, String.toList_ofList]
      rfl
    rw [h] at hnil
    exact (hq.eq_nil_of_text hparsed' hd hnil).symm
  · by_cases hne' : q = []
    · subst hne'
      have hnil : (Path.text [] delimiter).toList = [] := by
        rw [Path.text, String.toList_ofList]
        rfl
      rw [← h] at hnil
      exact hp.eq_nil_of_text hparsed hd hnil
    · rw [← map_classify_text hparsed, ← map_classify_text hparsed', ← hp.split_text hne hd,
        ← hq.split_text hne' hd, h]

end Path.Canonical

/-! ## Addresses -/

/-- No segment of the address that is no slice has the delimiter in its text, and the address is
not the empty key alone. -/
structure Address.Canonical (c : Char) (a : Address) : Prop where
  free : ∀ s ∈ a.segments, s.isSlice = false → c ∉ s.text
  notEmpty : a.segments ≠ [.key ""]

namespace Address

variable {c : Char}

theorem canonical_segmentsOf (hdigit : c.isDigit = false) (hminus : c ≠ '-') (cs : List Char)
    (absolute : Bool) (delimiter : String) :
    Address.Canonical c ⟨segmentsOf [c] cs, absolute, delimiter⟩ := by
  unfold segmentsOf
  split
  · exact ⟨fun s hs => (by cases hs), by simp⟩
  · rename_i hne
    rw [if_neg (by simp)]
    constructor
    · intro s hs hslice
      obtain ⟨part, hpart, rfl⟩ := List.mem_map.mp hs
      exact Segment.notMem_text_classify hdigit hminus (Text.notMem_of_mem_split hpart) hslice
    · intro h
      obtain ⟨part, hsplit, hpart⟩ := List.map_eq_singleton_iff.mp h
      rw [Segment.eq_of_classify_key hpart] at hsplit
      rw [Text.eq_nil_of_split hsplit] at hne
      exact hne rfl

/-- The address of a query is canonical. -/
theorem canonical_parse (hdigit : c.isDigit = false) (hminus : c ≠ '-') {delimiter : String}
    (hd : delimiter.toList = [c]) (q : Query) : (parse q delimiter).Canonical c := by
  cases q with
  | index place =>
    refine ⟨fun s hs _ => ?_, by simp [parse]⟩
    rw [List.mem_singleton.mp hs]
    exact Segment.notMem_text_index hdigit hminus place
  | slice s =>
    refine ⟨fun t ht hslice => ?_, by simp [parse]⟩
    rw [List.mem_singleton.mp ht] at hslice
    cases hslice
  | text raw =>
    simp only [parse, hd]
    split
    · exact canonical_segmentsOf hdigit hminus _ _ _
    · exact canonical_segmentsOf hdigit hminus _ _ _

variable {a : Address} {context : Path}

theorem Canonical.fullPath (h : a.Canonical c) (ha : a.Plain) (hc : context.IsParsed)
    (hcanonical : Path.Canonical c context) (hs : a.endsWithSlice = false) :
    Path.Canonical c (a.fullPath context) := by
  constructor
  · intro s hm
    exact Plain.forall_fullPath h.free hcanonical.free s hm (ha.isParsed hc hs s hm).isSlice
  · unfold Address.fullPath
    split
    · exact h.notEmpty
    · intro he
      rcases List.append_eq_singleton_iff.mp he with ⟨-, he⟩ | ⟨he, -⟩
      · exact h.notEmpty he
      · exact hcanonical.notEmpty he

/-- The paths that a canonical address names are canonical. -/
theorem Canonical.of_mem_locate? (hdigit : c.isDigit = false) (hminus : c ≠ '-')
    (h : a.Canonical c) (ha : a.Plain) (hc : context.IsParsed)
    (hcanonical : Path.Canonical c context) {v : Value} {targets : List Target}
    (hl : v.locate? a context = some targets) {t : Target} (ht : t ∈ targets) :
    Path.Canonical c t.path := by
  rcases Value.of_mem_locate? hl ht with ⟨hs, hp, -⟩ | ⟨-, items, p, item, -, -, rfl⟩
  · rw [hp]
    exact h.fullPath ha hc hcanonical hs
  · constructor
    · intro s hs
      rcases List.mem_append.mp hs with hs | hs
      · exact ha.forall_dropLast h.free hcanonical.free s hs
      · rw [List.mem_singleton.mp hs]
        exact Segment.notMem_text_index hdigit hminus _
    · intro he
      rcases List.append_eq_singleton_iff.mp he with ⟨-, he⟩ | ⟨-, he⟩
      · cases he
      · cases he

end Address

end LiveDocument
