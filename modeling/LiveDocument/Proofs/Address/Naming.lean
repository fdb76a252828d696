import LiveDocument.Proofs.Address.Decoding

/-!
# Canonical texts as names

The delimiter followed by a canonical text is an absolute address again, and it denotes the path
that the text was made of. Three things could go wrong: that the text is cut elsewhere, that one of
its parts is taken for something else, or that blanks at its end are dropped. The first two cannot
happen to legible paths; the last cannot happen because what a text is parsed into has no blank at
its end either.

* `Path.Trimmed`: the last segment ends without a blank.
* `Path.Nameable`: the paths that their canonical texts name.
* `Nameable.parse_address`: reading a name back.
* `Address.nameable_fullPath`: the full path of a query at a nameable place is nameable.
* `Address.parse_text_index`, `Address.parse_text_slice`: places and slices as texts.
-/

namespace LiveDocument

namespace Text

/-! ## Blanks at the ends -/

variable {c x : Char} {cs : List Char}

/-- No blank is part of a numeral or a slice. -/
theorem ne_of_isBlank (h : isBlank x = true) : x.isDigit = false ∧ x ≠ '-' ∧ x ≠ ':' := by
  refine ⟨?_, ?_, ?_⟩
  · cases hdigit : x.isDigit with
    | false => rfl
    | true =>
      have hrange : 48 ≤ x.toNat ∧ x.toNat ≤ 57 := by
        simp only [Char.isDigit, Bool.and_eq_true, decide_eq_true_eq] at hdigit
        exact ⟨hdigit.1, hdigit.2⟩
      simp only [isBlank, Bool.or_eq_true, Bool.and_eq_true, decide_eq_true_eq, beq_iff_eq] at h
      omega
  · rintro rfl
    cases h
  · rintro rfl
    cases h

/-- A text without blanks at its ends stays as it is. -/
theorem trim_eq_self (hfirst : ∀ x, cs.head? = some x → isBlank x = false)
    (hlast : ∀ x, cs.getLast? = some x → isBlank x = false) : trim cs = cs := by
  have hdrop : ∀ {l : List Char}, (∀ x, l.head? = some x → isBlank x = false) →
      l.dropWhile isBlank = l := by
    intro l hl
    cases l with
    | nil => rfl
    | cons y ys => rw [List.dropWhile_cons, hl y rfl, if_neg (by simp)]
  unfold trim trimEnd trimStart
  rw [hdrop hfirst, hdrop (fun x hx => hlast x (by rwa [← List.head?_reverse])),
    List.reverse_reverse]

theorem isBlank_getLast?_trim (h : (trim cs).getLast? = some x) : isBlank x = false := by
  unfold trim trimEnd at h
  rw [List.getLast?_reverse] at h
  have hhead := List.head?_dropWhile_not isBlank (trimStart cs).reverse
  rw [h] at hhead
  simpa using hhead

/-- A joined text ends as its last part does, or with the delimiter. -/
theorem getLast?_join (c : Char) {parts : List (List Char)} {x : Char}
    (h : (join [c] parts).getLast? = some x) :
    x = c ∨ ∃ part, parts.getLast? = some part ∧ part.getLast? = some x := by
  induction parts with
  | nil => cases h
  | cons part rest ih =>
    by_cases hrest : rest = []
    · subst hrest
      exact Or.inr ⟨part, rfl, h⟩
    · rw [join_cons [c] part hrest, List.getLast?_append, List.getLast?_append] at h
      rw [List.getLast?_cons_of_ne_nil hrest]
      cases hl : (join [c] rest).getLast? with
      | none =>
        rw [hl] at h
        exact Or.inl (Option.some.inj h).symm
      | some y =>
        rw [hl] at h
        cases h
        exact ih hl

/-- The last part of a text ends as the text does. -/
theorem getLast?_of_split {d part : List Char} (hd : d ≠ [])
    (hpart : (split d cs).getLast? = some part) (hx : part.getLast? = some x) :
    cs.getLast? = some x := by
  have hlast : ∀ {parts : List (List Char)}, parts.getLast? = some part →
      (join d parts).getLast? = some x := by
    intro parts
    induction parts with
    | nil => exact fun h => by cases h
    | cons first rest ih =>
      intro h
      by_cases hrest : rest = []
      · subst hrest
        cases h
        exact hx
      · rw [List.getLast?_cons_of_ne_nil hrest] at h
        rw [join_cons d first hrest, List.getLast?_append, List.getLast?_append, ih h]
        rfl
  rw [← join_split hd cs]
  exact hlast hpart

end Text

namespace Segment

variable {x : Char} {cs : List Char}

/-- Places are spelled without blanks. -/
theorem isBlank_of_mem_text_index {place : Int64} (hx : x ∈ (index place).text) :
    Text.isBlank x = false := by
  cases h : Text.isBlank x with
  | false => rfl
  | true =>
    obtain ⟨hdigit, hminus, -⟩ := Text.ne_of_isBlank h
    exact (notMem_text_index hdigit hminus place hx).elim

/-- Slices are spelled without blanks. -/
theorem isBlank_of_mem_text_slice {s : Slice} (hx : x ∈ (slice s).text) :
    Text.isBlank x = false := by
  cases h : Text.isBlank x with
  | false => rfl
  | true =>
    obtain ⟨hdigit, hminus, hcolon⟩ := Text.ne_of_isBlank h
    exact (notMem_text_slice hdigit hminus hcolon s hx).elim

/-- What a text is read as ends without a blank if the text does. -/
theorem isBlank_getLast?_classify (hcs : ∀ y, cs.getLast? = some y → Text.isBlank y = false)
    (hx : (classify cs).text.getLast? = some x) : Text.isBlank x = false := by
  cases hs : classify cs with
  | key name =>
    have hname : (key name).text = cs := by
      unfold classify at hs
      split at hs
      · cases hs
      · split at hs
        · cases hs
        · cases hs
          exact String.toList_ofList
    rw [hs, hname] at hx
    exact hcs x hx
  | index place =>
    rw [hs] at hx
    exact isBlank_of_mem_text_index (List.mem_of_getLast? hx)
  | slice s =>
    rw [hs] at hx
    exact isBlank_of_mem_text_slice (List.mem_of_getLast? hx)

end Segment

namespace Path

variable {c : Char} {delimiter : String} {p q : Path}

/-- The last segment ends without a blank. -/
def Trimmed (p : Path) : Prop :=
  ∀ s, p.getLast? = some s → ∀ x, s.text.getLast? = some x → Text.isBlank x = false

theorem trimmed_append (hp : p.Trimmed) (hq : q.Trimmed) : Trimmed (p ++ q) := by
  intro s hs
  rw [List.getLast?_append] at hs
  cases hlast : q.getLast? with
  | none =>
    rw [hlast] at hs
    exact hp s hs
  | some t =>
    rw [hlast] at hs
    cases hs
    exact hq s hlast

theorem trimmed_index (place : Int64) : Trimmed [.index place] := by
  intro s hs x hx
  cases hs
  exact Segment.isBlank_of_mem_text_index (List.mem_of_getLast? hx)

theorem trimmed_slice (t : Slice) : Trimmed [.slice t] := by
  intro s hs x hx
  cases hs
  exact Segment.isBlank_of_mem_text_slice (List.mem_of_getLast? hx)

/-- The path is legible, ends without a blank, and is not the empty key alone. -/
structure Nameable (c : Char) (p : Path) : Prop where
  legible : p.Legible c
  trimmed : p.Trimmed
  ne_empty_key : p ≠ [.key ""]

theorem nameable_nil (c : Char) : Nameable c [] where
  legible := fun s hs => by cases hs
  trimmed := fun s hs => by cases hs
  ne_empty_key := fun h => by cases h

theorem Nameable.append (hp : p.Nameable c) (hq : q.Nameable c) : Nameable c (p ++ q) where
  legible := hp.legible.append hq.legible
  trimmed := trimmed_append hp.trimmed hq.trimmed
  ne_empty_key := by
    intro h
    rcases List.append_eq_singleton_iff.mp h with ⟨-, hq'⟩ | ⟨hp', -⟩
    · exact hq.ne_empty_key hq'
    · exact hp.ne_empty_key hp'

/-- An element of a sequence at a legible path. -/
theorem nameable_concat_index (hdigit : c.isDigit = false) (hminus : c ≠ '-')
    (hp : p.Legible c) (place : Int64) : Nameable c (p ++ [.index place]) where
  legible := hp.append (legible_index hdigit hminus place)
  trimmed := by
    intro s hs
    rw [List.getLast?_concat] at hs
    exact trimmed_index place s hs
  ne_empty_key := by
    intro h
    rcases List.append_eq_singleton_iff.mp h with ⟨-, he⟩ | ⟨-, he⟩ <;> cases he

/-- The canonical text of a nameable path ends without a blank. -/
theorem Nameable.isBlank_getLast?_text (hp : p.Nameable c) (hblank : Text.isBlank c = false)
    {x : Char} (hx : (Text.join [c] (p.map Segment.text)).getLast? = some x) :
    Text.isBlank x = false := by
  rcases Text.getLast?_join c hx with rfl | ⟨part, hpart, hx⟩
  · exact hblank
  · rw [List.getLast?_map] at hpart
    obtain ⟨s, hs, rfl⟩ := Option.map_eq_some_iff.mp hpart
    exact hp.trimmed s hs x hx

/-- The address of a nameable path is read back as an absolute address of this path. -/
theorem Nameable.parse_address (hp : p.Nameable c) (hd : delimiter.toList = [c])
    (hblank : Text.isBlank c = false) :
    Address.parse (.text (p.address delimiter)) delimiter = ⟨p, true, delimiter⟩ := by
  have htext : (p.address delimiter).toList = [c] ++ (p.text delimiter).toList := by
    rw [Path.address, String.toList_append, hd]
  have hjoin : (p.text delimiter).toList = Text.join [c] (p.map Segment.text) := by
    rw [Path.text, String.toList_ofList, hd]
  have htrim : Text.trim (p.address delimiter).toList = [c] ++ (p.text delimiter).toList := by
    rw [htext]
    refine Text.trim_eq_self (fun x hx => ?_) fun x hx => ?_
    · cases hx
      exact hblank
    · rw [List.getLast?_append, hjoin] at hx
      cases hlast : (Text.join [c] (p.map Segment.text)).getLast? with
      | none =>
        rw [hlast] at hx
        cases hx
        exact hblank
      | some y =>
        rw [hlast] at hx
        cases hx
        exact hp.isBlank_getLast?_text hblank hlast
  have hback : Address.segmentsOf [c] (p.text delimiter).toList = p := by
    rw [← hd]
    exact hp.legible.readsBack hd hp.ne_empty_key
  unfold Address.parse
  dsimp only
  rw [htrim, hd, List.isEmpty_cons, if_neg (by simp), Text.stripPrefix?_append]
  dsimp only
  rw [hback]

end Path

namespace Address

variable {c : Char} {delimiter : String} (hdigit : c.isDigit = false) (hminus : c ≠ '-')
  (hcolon : c ≠ ':') (hd : delimiter.toList = [c])

include hd

/-- The path of a text query ends without a blank. -/
theorem trimmed_parse_text (q : String) : (parse (.text q) delimiter).segments.Trimmed := by
  have hne : delimiter.toList ≠ [] := by simp [hd]
  have hsegments : ∀ cs : List Char, (∀ x, cs.getLast? = some x → Text.isBlank x = false) →
      Path.Trimmed (segmentsOf delimiter.toList cs) := by
    intro cs hcs s hs x hx
    by_cases hnil : cs = []
    · rw [hnil] at hs
      cases hs
    · rw [segmentsOf_eq_map hne hnil, List.getLast?_map] at hs
      obtain ⟨part, hpart, rfl⟩ := Option.map_eq_some_iff.mp hs
      exact Segment.isBlank_getLast?_classify
        (fun y hy => hcs y (Text.getLast?_of_split hne hpart hy)) hx
  have htrim : ∀ x, (Text.trim q.toList).getLast? = some x → Text.isBlank x = false :=
    fun x hx => Text.isBlank_getLast?_trim hx
  unfold parse
  dsimp only
  split
  · rename_i rest hrest
    rw [Option.ite_none_left_eq_some] at hrest
    refine hsegments rest fun x hx => htrim x ?_
    rw [Text.stripPrefix?_eq_some_iff.mp hrest.2, List.getLast?_append, hx]
    rfl
  · exact hsegments _ htrim

include hdigit hminus hcolon

/-- The path of every query is nameable. -/
theorem nameable_parse (q : Query) : (parse q delimiter).segments.Nameable c := by
  cases q with
  | text q =>
    obtain ⟨hlegible, hne⟩ := legible_parse_text hdigit hminus hcolon hd q
    exact ⟨hlegible, trimmed_parse_text hd q, hne⟩
  | index place =>
    exact ⟨Path.legible_index hdigit hminus place, Path.trimmed_index place, fun h => by cases h⟩
  | slice s =>
    refine ⟨fun t ht => ?_, Path.trimmed_slice s, fun h => by cases h⟩
    rw [List.mem_singleton.mp ht]
    exact ⟨Segment.classify_text_slice s, Segment.notMem_text_slice hdigit hminus hcolon s⟩

/-- The full path of a query at a nameable place is nameable. -/
theorem nameable_fullPath {context : Path} (hcontext : context.Nameable c) (q : Query) :
    ((parse q delimiter).fullPath context).Nameable c := by
  have hq := nameable_parse hdigit hminus hcolon hd q
  unfold fullPath
  split
  · exact hq
  · exact hcontext.append hq

omit hdigit hminus hcolon in
/-- A segment that is spelled without blanks is read back as a relative address. -/
theorem parse_text_segment {s : Segment} (hs : Path.Legible c [s]) (hne : s ≠ .key "")
    (hblank : ∀ x ∈ s.text, Text.isBlank x = false) :
    parse (.text (String.ofList s.text)) delimiter = ⟨[s], false, delimiter⟩ := by
  have htrim : Text.trim s.text = s.text :=
    Text.trim_eq_self (fun x hx => hblank x (List.mem_of_head? hx))
      fun x hx => hblank x (List.mem_of_getLast? hx)
  have hstrip : Text.stripPrefix? [c] s.text = none := by
    cases hstrip : Text.stripPrefix? [c] s.text with
    | none => rfl
    | some rest =>
      have hmem : c ∈ s.text := by
        rw [Text.stripPrefix?_eq_some_iff.mp hstrip]
        exact List.mem_cons_self
      exact ((hs s List.mem_cons_self).2 hmem).elim
  have hback : segmentsOf delimiter.toList s.text = [s] := by
    have hread := hs.readsBack hd fun h => hne (List.singleton_inj.mp h)
    rwa [Path.ReadsBack, Path.text, String.toList_ofList] at hread
  unfold parse
  dsimp only
  rw [String.toList_ofList, htrim, hd, List.isEmpty_cons, if_neg (by simp), hstrip]
  dsimp only
  rw [← hd, hback]

omit hcolon in
/-- A place is the same query as what it is spelled as. -/
theorem parse_text_index (place : Int64) :
    parse (.text (String.ofList (Segment.index place).text)) delimiter =
      parse (.index place) delimiter :=
  parse_text_segment hd (Path.legible_index hdigit hminus place) (fun h => by cases h)
    fun _ hx => Segment.isBlank_of_mem_text_index hx

/-- A slice is the same query as what it is spelled as. -/
theorem parse_text_slice (s : Slice) :
    parse (.text (String.ofList (Segment.slice s).text)) delimiter = parse (.slice s) delimiter :=
  parse_text_segment hd (nameable_parse hdigit hminus hcolon hd (.slice s)).legible
    (fun h => by cases h) fun _ hx => Segment.isBlank_of_mem_text_slice hx

end Address

end LiveDocument
