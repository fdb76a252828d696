import LiveDocument.Proofs.Reference.Occurrences
import Mathlib.Data.List.TakeWhile
import Mathlib.Data.String.Basic

/-!
# Replacing the references in a text

A text is expanded by the references that occur in it. Without any it stays as it is. One that stands
alone among blanks is replaced by what it stands for, of whatever kind. Otherwise the bytes of every
reference are replaced by the text of its value, and what stands between them is kept; what is put in
is not looked at again.

* `between`: the text between two bytes. `replaceFrom`: other texts in the place of references.
* `Alone`: the only reference of a text, with blanks around it. `only?_eq_some_iff`: how it is found.
* `splice_eq`: the pieces of a text put together are the text with its references replaced.
* `references_found_and_replaced`: which references are listed, and how a text is expanded.
-/

namespace LiveDocument

namespace Text

/-- Nothing is dropped from what starts with something that stays. -/
theorem dropWhile_append_append {p : Char → Bool} {t : List Char} (hne : t ≠ [])
    (hhead : ∀ x, t.head? = some x → p x = false) (before rest : List Char) :
    (before ++ (t ++ rest)).dropWhile p = before.dropWhile p ++ (t ++ rest) := by
  obtain ⟨x, t, rfl⟩ := List.exists_cons_of_ne_nil hne
  rw [List.dropWhile_append]
  split
  · rename_i hempty
    rw [List.isEmpty_iff.mp hempty, List.nil_append, List.cons_append,
      List.dropWhile_cons_of_neg (by rw [hhead x rfl]; exact Bool.false_ne_true)]
  · rfl

theorem trim_append_append {t : List Char} (hne : t ≠ [])
    (hhead : ∀ x, t.head? = some x → isBlank x = false)
    (hlast : ∀ x, t.getLast? = some x → isBlank x = false) (before after : List Char) :
    trim (before ++ (t ++ after)) = trimStart before ++ (t ++ trimEnd after) := by
  have hend : ∀ x, t.reverse.head? = some x → isBlank x = false := by
    intro x hx
    exact hlast x (by rwa [List.head?_reverse] at hx)
  have hne' : t.reverse ≠ [] := List.reverse_ne_nil_iff.mpr hne
  rw [trim, trimStart, dropWhile_append_append hne hhead, trimEnd]
  simp only [List.reverse_append, List.append_assoc]
  rw [dropWhile_append_append hne' hend]
  simp [trimStart, trimEnd]

/-- A text is what is left of another exactly if there are blanks around it and nothing else. -/
theorem trim_append_append_eq_iff {t : List Char} (hne : t ≠ [])
    (hhead : ∀ x, t.head? = some x → isBlank x = false)
    (hlast : ∀ x, t.getLast? = some x → isBlank x = false) {before after : List Char} :
    trim (before ++ (t ++ after)) = t ↔
      (∀ c ∈ before, isBlank c = true) ∧ ∀ c ∈ after, isBlank c = true := by
  have hstart : trimStart before = [] ↔ ∀ c ∈ before, isBlank c = true :=
    List.dropWhile_eq_nil_iff
  have hend : trimEnd after = [] ↔ ∀ c ∈ after, isBlank c = true := by
    rw [trimEnd, List.reverse_eq_nil_iff, List.dropWhile_eq_nil_iff]
    simp only [List.mem_reverse]
  rw [trim_append_append hne hhead hlast, ← hstart, ← hend]
  constructor
  · intro h
    have hlength := congrArg List.length h
    simp only [List.length_append] at hlength
    exact ⟨List.eq_nil_of_length_eq_zero (by omega), List.eq_nil_of_length_eq_zero (by omega)⟩
  · rintro ⟨hs, he⟩
    rw [hs, he, List.nil_append, List.append_nil]

theorem byteLength_eq_utf8Len (cs : List Char) : byteLength cs = String.utf8Len cs := by
  induction cs with
  | nil => rfl
  | cons c cs ih => rw [byteLength_cons, String.utf8Len_cons, ih, Nat.add_comm]

end Text

namespace Reference

open Text

/-! ## Texts between bytes -/

/-- The text between two bytes of a text. -/
def between (text : String) (start stop : Nat) : String :=
  String.Pos.Raw.extract text ⟨start⟩ ⟨stop⟩

theorem toList_between {text : String} {before inner after : List Char}
    (h : text.toList = before ++ (inner ++ after)) :
    (between text (byteLength before) (byteLength (before ++ inner))).toList = inner := by
  have htext : text = String.ofList (before ++ inner ++ after) := by
    rw [List.append_assoc, ← h, String.ofList_toList]
  rw [between, htext, byteLength_append, byteLength_eq_utf8Len, byteLength_eq_utf8Len,
    String.extract_of_valid, String.toList_ofList]

/-- A text with other texts in the place of references, from a byte on: what stands before each
reference is kept, and so is what stands after the last one. -/
def replaceFrom (text : String) : (cursor : Nat) → List (Occurrence × String) → String
  | cursor, [] => between text cursor text.utf8ByteSize
  | cursor, (o, inserted) :: rest =>
    between text cursor o.start ++ (inserted ++ replaceFrom text o.stop rest)

example : replaceFrom "ä$r{a}-$e{B}" 0
    [(⟨.place, ['a'], 2, 7⟩, "$r{b}"), (⟨.variable, ['B'], 8, 13⟩, "")] = "ä$r{b}-" := by
  decide +kernel

/-! ## A reference that stands alone -/

/-- The reference is the only one in the text, and the text is this reference but for blanks at its
ends. -/
def Alone (text : String) (o : Occurrence) : Prop :=
  scan text = [o] ∧ trim text.toList = (between text o.start o.stop).toList

theorem occurrencesFrom_map_char (start : Nat) (cs : List Char) (ps : List Piece) :
    occurrencesFrom start (cs.map Piece.char ++ ps) =
      occurrencesFrom (start + byteLength cs) ps := by
  induction cs generalizing start with
  | nil => rfl
  | cons c cs ih =>
    rw [List.map_cons, List.cons_append, occurrencesFrom, ih, byteLength_cons, Nat.add_assoc]

theorem exists_chars_of_occurrencesFrom_eq_nil {ps : List Piece} {start : Nat}
    (h : occurrencesFrom start ps = []) : ∃ cs : List Char, ps = cs.map .char := by
  induction ps generalizing start with
  | nil => exact ⟨[], rfl⟩
  | cons p rest ih =>
    cases p with
    | char c =>
      obtain ⟨cs, rfl⟩ := ih h
      exact ⟨c :: cs, rfl⟩
    | reference method letter query => cases h

/-- The pieces of a text with one reference. -/
theorem exists_chars_of_occurrencesFrom_eq_singleton {ps : List Piece} {start : Nat}
    {o : Occurrence} (h : occurrencesFrom start ps = [o]) :
    ∃ (before : List Char) (letter : Char) (after : List Char),
      ps = before.map .char ++ .reference o.method letter o.query :: after.map .char ∧
        o.start = start + byteLength before ∧
          o.stop = o.start + byteLength (Piece.reference o.method letter o.query).text := by
  induction ps generalizing start with
  | nil => cases h
  | cons p rest ih =>
    cases p with
    | char c =>
      obtain ⟨before, letter, after, rfl, hstart, hstop⟩ := ih h
      exact ⟨c :: before, letter, after, rfl, by rw [hstart, byteLength_cons, Nat.add_assoc], hstop⟩
    | reference method letter query =>
      obtain ⟨rfl, hrest⟩ := List.cons.inj h
      obtain ⟨after, rfl⟩ := exists_chars_of_occurrencesFrom_eq_nil hrest
      exact ⟨[], letter, after, rfl, rfl, rfl⟩

theorem anyReference_eq_false_iff {ps : List Piece} {start : Nat} :
    anyReference ps = false ↔ occurrencesFrom start ps = [] := by
  induction ps generalizing start with
  | nil => exact ⟨fun _ => rfl, fun _ => rfl⟩
  | cons p rest ih =>
    cases p with
    | char c => exact ih
    | reference method letter query => constructor <;> intro h <;> cases h

/-- Pieces that are all blanks. -/
theorem exists_blanks {ps : List Piece} (hchars : ∀ c, .char c ∈ ps → isBlank c = true)
    (hreferences : ∀ method letter query, .reference method letter query ∉ ps) :
    ∃ cs : List Char, ps = cs.map .char ∧ ∀ c ∈ cs, isBlank c = true := by
  induction ps with
  | nil => exact ⟨[], rfl, fun c hc => by cases hc⟩
  | cons p ps ih =>
    obtain ⟨cs, rfl, hcs⟩ := ih (fun c hc => hchars c (List.mem_cons_of_mem _ hc))
      fun method letter query hp => hreferences method letter query (List.mem_cons_of_mem _ hp)
    cases p with
    | char c =>
      exact ⟨c :: cs, rfl, List.forall_mem_cons.mpr ⟨hchars c List.mem_cons_self, hcs⟩⟩
    | reference method letter query =>
      exact absurd List.mem_cons_self (hreferences method letter query)

/-- Pieces of which one is a reference, and all others are blanks. -/
theorem only?_eq_some_iff {ps : List Piece} {method : Method} {query : List Char} :
    only? ps = some (method, query) ↔ ∃ (before : List Char) (letter : Char) (after : List Char),
      ps = before.map .char ++ .reference method letter query :: after.map .char ∧
        (∀ c ∈ before, isBlank c = true) ∧ ∀ c ∈ after, isBlank c = true := by
  unfold only?
  constructor
  · intro h
    split at h
    · rename_i method' letter query' hfilter
      cases h
      obtain ⟨l, r, rfl, hl, -, hr⟩ := List.filter_eq_cons_iff.mp hfilter
      rw [List.filter_eq_nil_iff] at hr
      obtain ⟨before, rfl, hbefore⟩ := exists_blanks (fun c hc => by simpa using hl _ hc)
        fun _ _ _ hp => hl _ hp rfl
      obtain ⟨after, rfl, hafter⟩ := exists_blanks (fun c hc => by simpa using hr _ hc)
        fun _ _ _ hp => hr _ hp rfl
      exact ⟨before, letter, after, rfl, hbefore, hafter⟩
    · cases h
  · rintro ⟨before, letter, after, rfl, hbefore, hafter⟩
    rw [List.filter_append, List.filter_cons_of_pos rfl, List.filter_eq_nil_iff.mpr,
      List.filter_eq_nil_iff.mpr]
    · rfl
    · simpa using hafter
    · simpa using hbefore

/-- A text that is cut into one reference and characters is this reference but for blanks at its ends
exactly if all these characters are blanks. -/
theorem trim_eq_between_iff {text : String} {before after query : List Char} {letter : Char}
    {method : Method}
    (h : pieces text.toList =
      before.map .char ++ .reference method letter query :: after.map .char) :
    trim text.toList = (between text (byteLength before)
        (byteLength (before ++ (Piece.reference method letter query).text))).toList ↔
      (∀ c ∈ before, isBlank c = true) ∧ ∀ c ∈ after, isBlank c = true := by
  have hchars : ∀ cs : List Char, (cs.map Piece.char).flatMap Piece.text = cs := by
    intro cs
    induction cs with
    | nil => rfl
    | cons c cs ih => exact congrArg (c :: ·) ih
  have htext : text.toList = before ++ ((Piece.reference method letter query).text ++ after) := by
    rw [← flatMap_text_pieces text.toList, h, List.flatMap_append, List.flatMap_cons, hchars,
      hchars]
  rw [toList_between htext, htext]
  refine trim_append_append_eq_iff (List.cons_ne_nil _ _) (fun x hx => ?_) fun x hx => ?_
  · cases hx
    decide
  · have hx : (('$' :: letter :: '\x7b' :: query) ++ ['\x7d']).getLast? = some x := hx
    rw [List.getLast?_concat] at hx
    cases hx
    decide

/-- The reference that is expanded as a whole is the one that stands alone. -/
theorem only?_pieces_eq_some_iff {text : String} {method : Method} {query : List Char} :
    only? (pieces text.toList) = some (method, query) ↔
      ∃ o, Alone text o ∧ o.method = method ∧ o.query = query := by
  rw [only?_eq_some_iff]
  constructor
  · rintro ⟨before, letter, after, hps, hblank⟩
    have hscan : scan text = [⟨method, query, byteLength before,
        byteLength (before ++ (Piece.reference method letter query).text)⟩] := by
      have hnil := occurrencesFrom_map_char (byteLength before +
        byteLength (Piece.reference method letter query).text) after []
      rw [List.append_nil] at hnil
      rw [scan, hps, occurrencesFrom_map_char, occurrencesFrom, Nat.zero_add, hnil,
        byteLength_append]
      rfl
    exact ⟨_, ⟨hscan, (trim_eq_between_iff hps).mpr hblank⟩, rfl, rfl⟩
  · rintro ⟨o, ⟨hscan, htrim⟩, rfl, rfl⟩
    obtain ⟨before, letter, after, hps, hstart, hstop⟩ :=
      exists_chars_of_occurrencesFrom_eq_singleton hscan
    rw [hstop, hstart, Nat.zero_add, ← byteLength_append, trim_eq_between_iff hps] at htrim
    exact ⟨before, letter, after, hps, htrim⟩

/-! ## Putting the pieces together -/

section

variable {m : Type → Type} [Monad m]

/-- What references stand for, in their order. -/
def valuesOf (env : Environment) (dereference : String → m Value) (os : List Occurrence) :
    m (List Value) :=
  os.mapM fun o => valueOf env dereference o.method o.query

/-- The text with every reference replaced by the text of what it stands for. -/
def replaceAll (env : Environment) (dereference : String → m Value) (text : String) :
    m Value := do
  let values ← valuesOf env dereference (scan text)
  return .string
    (replaceFrom text 0 ((scan text).zip (values.map fun v => String.ofList v.spliced)))

variable [LawfulMonad m]

/-- Pieces put together are the text from their start on, with its references replaced. What is
waiting stands between the last reference and the pieces. -/
theorem splice_eq (env : Environment) (dereference : String → m Value) (text : String) :
    ∀ (ps : List Piece) {before waiting : List Char},
      text.toList = before ++ (waiting ++ ps.flatMap Piece.text) →
        (do return waiting ++ (← splice env dereference ps)) = (do
          let os := occurrencesFrom (byteLength (before ++ waiting)) ps
          let values ← valuesOf env dereference os
          return (replaceFrom text (byteLength before)
            (os.zip (values.map fun v => String.ofList v.spliced))).toList)
  | [], before, waiting, h => by
    have hend : text.utf8ByteSize = byteLength (before ++ waiting) := by
      rw [byteLength_eq_utf8Len, ← String.utf8Len_toList, h]
      simp
    simp [splice, occurrencesFrom, valuesOf, replaceFrom, hend, toList_between h]
  | .char c :: rest, before, waiting, h => by
    have hnext : text.toList = before ++ ((waiting ++ [c]) ++ rest.flatMap Piece.text) := by
      rw [h]
      simp [Piece.text]
    have hstart : byteLength (before ++ waiting) + c.utf8Size =
        byteLength (before ++ (waiting ++ [c])) := by
      rw [← List.append_assoc, byteLength_append _ [c]]
      rfl
    have ih := splice_eq env dereference text rest hnext
    simp only [List.append_assoc, List.singleton_append] at ih
    simp only [splice, bind_assoc, pure_bind, occurrencesFrom, hstart] at ih ⊢
    exact ih
  | .reference method letter query :: rest, before, waiting, h => by
    let t := (Piece.reference method letter query).text
    have hnext : text.toList = (before ++ (waiting ++ t)) ++ ([] ++ rest.flatMap Piece.text) := by
      rw [h]
      simp [t]
    have hstop : byteLength (before ++ waiting) + byteLength t =
        byteLength (before ++ (waiting ++ t)) := by
      rw [← List.append_assoc, byteLength_append _ t]
    have ih := splice_eq env dereference text rest hnext
    simp only [List.nil_append, List.append_nil, bind_pure] at ih
    have hgap := toList_between h
    simp only [splice, occurrencesFrom, valuesOf, List.mapM_cons, bind_assoc, pure_bind, ih]
    refine bind_congr fun v => ?_
    simp [replaceFrom, hstop, hgap, t]

theorem anyReference_pieces_eq_false_iff {text : String} :
    anyReference (pieces text.toList) = false ↔ scan text = [] :=
  anyReference_eq_false_iff

theorem anyReference_pieces {text : String} (h : scan text ≠ []) :
    anyReference (pieces text.toList) = true := by
  rwa [← Bool.not_eq_false, anyReference_pieces_eq_false_iff]

/-! ## Expanding a text -/

section

variable {env : Environment} {dereference : String → m Value} {text : String}

omit [LawfulMonad m] in
theorem expandText_of_scan_eq_nil (h : scan text = []) :
    expandText env dereference text = return .string text := by
  unfold expandText
  dsimp only
  rw [anyReference_pieces_eq_false_iff.mpr h]
  rfl

omit [LawfulMonad m] in
theorem expandText_of_alone {o : Occurrence} (h : Alone text o) :
    expandText env dereference text = valueOf env dereference o.method o.query := by
  have hany := anyReference_pieces (h.1 ▸ List.cons_ne_nil o [])
  have honly := only?_pieces_eq_some_iff.mpr ⟨o, h, rfl, rfl⟩
  unfold expandText
  dsimp only
  rw [hany, honly]
  rfl

theorem expandText_of_not_alone (h : scan text ≠ []) (hnot : ¬ ∃ o, Alone text o) :
    expandText env dereference text = replaceAll env dereference text := by
  have hany := anyReference_pieces h
  have honly : only? (pieces text.toList) = none := by
    rw [Option.eq_none_iff_forall_ne_some]
    rintro ⟨method, query⟩ h
    obtain ⟨o, halone, -⟩ := only?_pieces_eq_some_iff.mp h
    exact hnot ⟨o, halone⟩
  have hsplice := @splice_eq _ _ _ env dereference text (pieces text.toList) [] []
    (flatMap_text_pieces _).symm
  simp only [List.nil_append, bind_pure] at hsplice
  unfold expandText
  dsimp only
  rw [hany, honly]
  simp only [Bool.not_true, Bool.false_eq_true, if_false, hsplice, bind_assoc, pure_bind,
    String.ofList_toList]
  rfl

end

end

/-- A reference is listed exactly if it occurs in the text, in the order of their bytes, which are
apart. Without a reference a text stays; the only reference of a text that is nothing else, blanks
aside, is replaced by what it stands for; and otherwise every reference is replaced by the text of
what it stands for, one after the other, and everything between them is kept. -/
theorem references_found_and_replaced (text : String) :
    (∀ o, o ∈ scan text ↔ Occurs text.toList o) ∧
      ((scan text).Pairwise fun a b => a.stop ≤ b.start) ∧
      ∀ (env : Environment) (dereference : String → Live Value),
        (scan text = [] → expandText env dereference text = return .string text) ∧
          (∀ o, Alone text o →
            expandText env dereference text = valueOf env dereference o.method o.query) ∧
          (scan text ≠ [] → (¬ ∃ o, Alone text o) →
            expandText env dereference text = replaceAll env dereference text) :=
  ⟨fun _ => mem_scan_iff, pairwise_scan text, fun _ _ =>
    ⟨expandText_of_scan_eq_nil, fun _ => expandText_of_alone, expandText_of_not_alone⟩⟩

/-- A reference that is broken off by another one, and a third one right after it. What is put in
reads like a reference. -/
theorem references_found_and_replaced_broken_off :
    Occurs "ä$r\x7b$r\x7ba\x7d$E\x7b\u017f\x7d".toList ⟨.place, ['a'], 5, 10⟩ ∧
      expandText [] (fun _ => return .string "$r\x7bb\x7d") "ä$r\x7b$r\x7ba\x7d$E\x7b\u017f\x7d" =
        (return .string "ä$r\x7b$r\x7bb\x7dNone" : Live Value) := by
  obtain ⟨hmem, -, hexpand⟩ := references_found_and_replaced "ä$r\x7b$r\x7ba\x7d$E\x7b\u017f\x7d"
  have hscan : scan "ä$r\x7b$r\x7ba\x7d$E\x7b\u017f\x7d" =
      [⟨.place, ['a'], 5, 10⟩, ⟨.variable, ['\u017f'], 10, 16⟩] := by decide +kernel
  refine ⟨(hmem _).mp (by rw [hscan]; exact List.mem_cons_self), ?_⟩
  obtain ⟨-, -, hreplace⟩ := hexpand [] fun _ => return .string "$r\x7bb\x7d"
  have hvalues : valuesOf [] (fun _ => return .string "$r\x7bb\x7d")
      [⟨.place, ['a'], 5, 10⟩, ⟨.variable, ['\u017f'], 10, 16⟩] =
        (return [.string "$r\x7bb\x7d", .string "None"] : Live (List Value)) := rfl
  have htext : replaceFrom "ä$r\x7b$r\x7ba\x7d$E\x7b\u017f\x7d" 0
      [(⟨.place, ['a'], 5, 10⟩, "$r\x7bb\x7d"), (⟨.variable, ['\u017f'], 10, 16⟩, "None")] =
        "ä$r\x7b$r\x7bb\x7dNone" := by decide +kernel
  rw [hreplace (by rw [hscan]; exact List.cons_ne_nil _ _), replaceAll, hscan, hvalues, pure_bind,
    ← htext]
  · rfl
  · rintro ⟨o, halone, -⟩
    rw [hscan] at halone
    cases halone

end Reference

end LiveDocument
