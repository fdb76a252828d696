import LiveDocument.Proofs.Reference.Substitution

/-!
# Where references occur

A reference occurs in a text wherever a dollar sign, a letter of a method and a query in braces stand,
whatever stands around them. Only the first character of a reference is a dollar sign and no query
has a brace, so two occurrences never overlap, and what looks like the beginning of a reference and is
none hides nothing: cutting the text from left to right finds them all.

* `Occurs`: a reference in a text, and its bytes.
* `leading?_eq_some_iff`: when a text begins with a reference. `cuts_pieces`: how a text is cut.
* `mem_scan_iff`: the references that are listed are those that occur.
* `pairwise_scan`: they are listed in order, and their bytes are apart.
-/

namespace LiveDocument.Reference

open Text

/-! ## References as they are written -/

/-- The letters that stand for a method. -/
def Method.letters : Method → List Char
  | .place => ['r', 'R']
  | .variable => ['e', 'E']

/-- The characters between braces: ASCII letters and digits, three signs, and the two characters
that fold to ASCII letters. -/
def InQuery (c : Char) : Prop :=
  'a' ≤ c ∧ c ≤ 'z' ∨ 'A' ≤ c ∧ c ≤ 'Z' ∨ '0' ≤ c ∧ c ≤ '9' ∨
    c ∈ ['_', '/', '.', '\u017f', '\u212a']

theorem inQuery_iff {c : Char} : InQuery c ↔ isQueryChar c = true := by
  have hword : c.isAlphanum = (decide ('A' ≤ c ∧ c ≤ 'Z') ||
      (decide ('a' ≤ c) && decide (c ≤ 'z')) || (decide ('0' ≤ c) && decide (c ≤ '9'))) := rfl
  rw [InQuery, isQueryChar, hword]
  simp only [Bool.or_eq_true, Bool.and_eq_true, decide_eq_true_eq, beq_iff_eq, List.mem_cons,
    List.not_mem_nil, or_false, or_assoc]
  exact or_left_comm

/-- A text is a reference: a dollar sign, a letter of the method, and at least one query character
in braces. -/
def Written (cs : List Char) (method : Method) (query : List Char) : Prop :=
  ∃ letter ∈ method.letters, cs = '$' :: letter :: '\x7b' :: (query ++ ['\x7d']) ∧
    query ≠ [] ∧ ∀ c ∈ query, InQuery c

/-- A reference occurs in a text. It takes up the bytes from those of what stands before it on. -/
def Occurs (cs : List Char) (o : Occurrence) : Prop :=
  ∃ before written after : List Char, cs = before ++ (written ++ after) ∧
    Written written o.method o.query ∧ o.start = byteLength before ∧
      o.stop = byteLength (before ++ written)

theorem method?_eq_some_iff {letter : Char} {method : Method} :
    method? letter = some method ↔ letter ∈ method.letters := by
  cases method <;> simp only [method?, Method.letters, List.mem_cons, List.not_mem_nil, or_false]
  · split <;> simp_all
  · split
    · rename_i h
      rcases h with rfl | rfl <;> simp
    · split <;> simp_all

/-- The letter of a method is no dollar sign. -/
theorem ne_dollar_of_mem_letters {letter : Char} {method : Method} (h : letter ∈ method.letters) :
    letter ≠ '$' := by
  rintro rfl
  cases method <;> simp [Method.letters] at h

/-- Only the first character of a reference is a dollar sign. -/
theorem Written.eq_cons {cs query : List Char} {method : Method} (h : Written cs method query) :
    ∃ rest, cs = '$' :: rest ∧ '$' ∉ rest := by
  obtain ⟨letter, hletter, rfl, -, hquery⟩ := h
  have hdollar : ¬ InQuery '$' := by rw [inQuery_iff]; decide
  refine ⟨_, rfl, ?_⟩
  simp only [List.mem_cons, List.mem_append, List.not_mem_nil, or_false, not_or]
  refine ⟨fun he => ne_dollar_of_mem_letters hletter he.symm, by decide, ?_, by decide⟩
  exact fun hmem => hdollar (hquery _ hmem)

/-! ## Cutting a text -/

/-- The query characters before a closing brace are the whole query. -/
theorem takeWhile_query {query : List Char} (hquery : ∀ c ∈ query, InQuery c) (rest : List Char) :
    (query ++ '\x7d' :: rest).takeWhile isQueryChar = query ∧
      (query ++ '\x7d' :: rest).dropWhile isQueryChar = '\x7d' :: rest := by
  have hall : ∀ c ∈ query, isQueryChar c = true := fun c hc => inQuery_iff.mp (hquery c hc)
  have hbrace : isQueryChar '\x7d' = false := by decide
  rw [List.takeWhile_append_of_pos hall, List.dropWhile_append_of_pos hall,
    List.takeWhile_cons_of_neg (by simp [hbrace]), List.dropWhile_cons_of_neg (by simp [hbrace])]
  exact ⟨List.append_nil query, rfl⟩

/-- A text begins with a reference exactly if one is written there. -/
theorem leading?_eq_some_iff {cs : List Char} {piece : Piece} :
    leading? cs = some piece ↔ ∃ method letter query rest,
      piece = .reference method letter query ∧ cs = piece.text ++ rest ∧
        Written piece.text method query := by
  constructor
  · intro h
    obtain ⟨rest, hrest⟩ := text_of_leading? h
    have hchars : ∀ {method letter query}, piece = .reference method letter query →
        ∀ c ∈ query, InQuery c := by
      rintro method letter query rfl c hc
      exact inQuery_iff.mpr (isQueryChar_of_leading? h hc)
    unfold leading? at h
    split at h
    · split at h
      · rename_i method hmethod
        dsimp only at h
        split at h
        · split at h
          · cases h
          · rename_i hne
            cases h
            refine ⟨method, _, _, rest, rfl, hrest, _, method?_eq_some_iff.mp hmethod, rfl, ?_,
              hchars rfl⟩
            rwa [List.isEmpty_iff] at hne
        · cases h
      · cases h
    · cases h
  · rintro ⟨method, letter, query, rest, rfl, rfl, _, hletter, he, hne, hquery⟩
    obtain ⟨rfl, -⟩ := List.cons.inj (List.cons.inj he).2
    obtain ⟨htake, hdrop⟩ := takeWhile_query hquery rest
    have hmethod := method?_eq_some_iff.mpr hletter
    have hempty : query.isEmpty = false := by rwa [List.isEmpty_eq_false_iff]
    simp only [Piece.text, List.cons_append, List.append_assoc, List.nil_append, leading?,
      hmethod, htake, hdrop, hempty, Bool.false_eq_true, if_false]

/-- A text that begins with a written reference has it as its leading piece. -/
theorem Written.leading? {written query : List Char} {method : Method}
    (h : Written written method query) (after : List Char) :
    ∃ letter, Reference.leading? (written ++ after) = some (.reference method letter query) ∧
      written = (Piece.reference method letter query).text := by
  obtain ⟨letter, -, rfl, -⟩ := id h
  exact ⟨letter, leading?_eq_some_iff.mpr ⟨method, letter, query, after, rfl, rfl, h⟩, rfl⟩

/-- How a text is cut: a reference where it begins with one, and a character elsewhere. -/
inductive Cuts : List Char → List Piece → Prop
  | nil : Cuts [] []
  | char {c : Char} {cs : List Char} {ps : List Piece} (hnone : leading? (c :: cs) = none)
    (hrest : Cuts cs ps) : Cuts (c :: cs) (.char c :: ps)
  | reference {method : Method} {letter : Char} {query rest : List Char} {ps : List Piece}
    (hwritten : Written (Piece.reference method letter query).text method query)
    (hrest : Cuts rest ps) :
    Cuts ((Piece.reference method letter query).text ++ rest)
      (.reference method letter query :: ps)

theorem cuts_pieces (cs : List Char) : Cuts cs (pieces cs) := by
  unfold pieces
  induction hn : cs.length using Nat.strongRecOn generalizing cs with
  | ind n ih =>
    cases cs with
    | nil => exact .nil
    | cons c cs =>
      rw [piecesFrom]
      cases hl : leading? (c :: cs) with
      | none => exact .char hl (ih cs.length (by simp at hn; omega) cs rfl)
      | some piece =>
        obtain ⟨method, letter, query, rest, rfl, hcs, hwritten⟩ := leading?_eq_some_iff.mp hl
        have hlength : (Piece.reference method letter query).text.length - 1 + 1 =
            (Piece.reference method letter query).text.length := by simp [Piece.text]
        have hdrop : cs.drop ((Piece.reference method letter query).text.length - 1) = rest := by
          rw [← List.drop_succ_cons (a := c), hlength, hcs, List.drop_left]
        have hshort : rest.length < n := by
          rw [← hn, hcs, List.length_append, ← hlength]
          omega
        dsimp only
        rw [piecesFrom_eq_drop, hdrop, hcs]
        exact .reference hwritten (ih rest.length hshort rest rfl)

/-! ## All occurrences, in order -/

/-- Nothing is listed before the byte where the pieces start, and everything takes up bytes. -/
theorem start_of_mem_occurrencesFrom {ps : List Piece} {start : Nat} {o : Occurrence}
    (h : o ∈ occurrencesFrom start ps) : start ≤ o.start ∧ o.start < o.stop := by
  induction ps generalizing start with
  | nil => cases h
  | cons p rest ih =>
    cases p with
    | char c =>
      obtain ⟨hle, hlt⟩ := ih h
      exact ⟨by omega, hlt⟩
    | reference method letter query =>
      have hpos : 0 < byteLength (Piece.reference method letter query).text := by
        have := Char.utf8Size_pos '$'
        rw [Piece.text, byteLength_cons]
        omega
      rcases List.mem_cons.mp h with rfl | h
      · exact ⟨Nat.le_refl _, by dsimp only; omega⟩
      · obtain ⟨hle, hlt⟩ := ih h
        exact ⟨by omega, hlt⟩

theorem pairwise_occurrencesFrom (start : Nat) (ps : List Piece) :
    (occurrencesFrom start ps).Pairwise fun a b => a.stop ≤ b.start := by
  induction ps generalizing start with
  | nil => exact .nil
  | cons p rest ih =>
    cases p with
    | char c => exact ih _
    | reference method letter query =>
      exact .cons (fun o ho => (start_of_mem_occurrencesFrom ho).1) (ih _)

/-- References are listed in order, and their bytes are apart. -/
theorem pairwise_scan (text : String) :
    (scan text).Pairwise fun a b => a.stop ≤ b.start :=
  pairwise_occurrencesFrom 0 _

/-- A reference that occurs after the beginning of a text which begins with one occurs after that
one: only its first character is a dollar sign. -/
theorem exists_of_written_append {first rest before written after query query' : List Char}
    {method method' : Method} (hfirst : Written first method query)
    (hwritten : Written written method' query') (hbefore : before ≠ [])
    (h : first ++ rest = before ++ (written ++ after)) :
    ∃ between, before = first ++ between ∧ rest = between ++ (written ++ after) := by
  rcases List.append_eq_append_iff.mp h with ⟨between, hb, hr⟩ | ⟨overlap, hf, ho⟩
  · exact ⟨between, hb, hr⟩
  · obtain ⟨tail, rfl, hdollar⟩ := hfirst.eq_cons
    obtain ⟨wtail, rfl, -⟩ := hwritten.eq_cons
    cases overlap with
    | nil =>
      rw [List.append_nil] at hf
      exact ⟨[], by rw [List.append_nil, hf], ho.symm⟩
    | cons c overlap =>
      obtain ⟨b, before, rfl⟩ := List.exists_cons_of_ne_nil hbefore
      obtain ⟨-, htail⟩ := List.cons.inj hf
      obtain ⟨hc, -⟩ := List.cons.inj ho
      refine absurd ?_ hdollar
      rw [htail, hc]
      exact List.mem_append_right _ List.mem_cons_self

/-- The references that are listed from a byte on are those that occur from there on. -/
theorem mem_occurrencesFrom_iff {cs : List Char} {ps : List Piece} (h : Cuts cs ps) {start : Nat}
    {o : Occurrence} :
    o ∈ occurrencesFrom start ps ↔ ∃ before written after : List Char,
      cs = before ++ (written ++ after) ∧ Written written o.method o.query ∧
        o.start = start + byteLength before ∧ o.stop = start + byteLength (before ++ written) := by
  induction h generalizing start with
  | nil =>
    constructor
    · intro h
      cases h
    · rintro ⟨before, written, after, he, hwritten, -⟩
      obtain ⟨rest, rfl, -⟩ := hwritten.eq_cons
      simp at he
  | @char c cs ps hnone _ ih =>
    rw [occurrencesFrom, ih]
    constructor
    · rintro ⟨before, written, after, rfl, hwritten, hstart, hstop⟩
      refine ⟨c :: before, written, after, rfl, hwritten, ?_, ?_⟩
      · rw [hstart, byteLength_cons, Nat.add_assoc]
      · rw [hstop, List.cons_append, byteLength_cons, Nat.add_assoc]
    · rintro ⟨before, written, after, he, hwritten, hstart, hstop⟩
      cases before with
      | nil =>
        obtain ⟨letter, hleading, -⟩ := hwritten.leading? after
        rw [he, List.nil_append, hleading] at hnone
        cases hnone
      | cons b before =>
        obtain ⟨rfl, rfl⟩ := List.cons.inj he
        refine ⟨before, written, after, rfl, hwritten, ?_, ?_⟩
        · rw [hstart, byteLength_cons, Nat.add_assoc]
        · rw [hstop, List.cons_append, byteLength_cons, Nat.add_assoc]
  | @reference method letter query rest ps hfirst _ ih =>
    rw [occurrencesFrom, List.mem_cons, ih]
    constructor
    · rintro (rfl | ⟨before, written, after, rfl, hwritten, hstart, hstop⟩)
      · exact ⟨[], _, rest, rfl, hfirst, rfl, rfl⟩
      · refine ⟨(Piece.reference method letter query).text ++ before, written, after,
          (List.append_assoc _ _ _).symm, hwritten, ?_, ?_⟩
        · rw [hstart, byteLength_append, Nat.add_assoc]
        · rw [hstop, List.append_assoc, byteLength_append _ (before ++ written), Nat.add_assoc]
    · rintro ⟨before, written, after, he, hwritten, hstart, hstop⟩
      by_cases hbefore : before = []
      · subst hbefore
        obtain ⟨letter', hleading, rfl⟩ := hwritten.leading? after
        have hsame := leading?_eq_some_iff.mpr ⟨method, letter, query, rest, rfl, rfl, hfirst⟩
        rw [he, List.nil_append, hleading] at hsame
        obtain ⟨rfl, rfl, rfl⟩ := Piece.reference.inj (Option.some.inj hsame)
        refine .inl ?_
        cases o
        simp_all [byteLength]
      · obtain ⟨between, rfl, rfl⟩ := exists_of_written_append hfirst hwritten hbefore he
        refine .inr ⟨between, written, after, rfl, hwritten, ?_, ?_⟩
        · rw [hstart, byteLength_append, Nat.add_assoc]
        · rw [hstop, List.append_assoc, byteLength_append _ (between ++ written), Nat.add_assoc]

/-- The references that are listed are those that occur. -/
theorem mem_scan_iff {text : String} {o : Occurrence} : o ∈ scan text ↔ Occurs text.toList o := by
  rw [scan, mem_occurrencesFrom_iff (cuts_pieces _)]
  simp only [Nat.zero_add, Occurs]

end LiveDocument.Reference
