import LiveDocument.Text.Utf8

/-!
# References in a text

A reference is written `$r{…}` or `$e{…}`, in either case of the letter: the first names a place
in the document, the second a variable of the environment. A text is cut into references and
the characters between them, from left to right.

* `flatMap_text_pieces`: the pieces are the text, nothing lost and nothing added.
-/

namespace LiveDocument.Reference

/-- What a reference stands for. -/
inductive Method where
  | place
  | variable
  deriving DecidableEq

/-- The characters between the braces: ASCII letters and digits, underscores, slashes, dots,
and the two characters beyond ASCII whose simple case folding is an ASCII letter. -/
def isQueryChar (c : Char) : Bool :=
  c.isAlphanum || c == '_' || c == '/' || c == '.' || c == '\u017f' || c == '\u212a'

/-- The method of a letter. -/
def method? (letter : Char) : Option Method :=
  if letter = 'r' ∨ letter = 'R' then some .place
  else if letter = 'e' ∨ letter = 'E' then some .variable
  else none

/-- A reference, or a character outside all references. -/
inductive Piece where
  | char (c : Char)
  | reference (method : Method) (letter : Char) (query : List Char)
  deriving DecidableEq

def Piece.text : Piece → List Char
  | .char c => [c]
  | .reference _ letter query => '$' :: letter :: '\x7b' :: (query ++ ['\x7d'])

/-- The reference at the start of a text. -/
def leading? : List Char → Option Piece
  | '$' :: letter :: '\x7b' :: rest =>
    match method? letter with
    | some method =>
      let query := rest.takeWhile isQueryChar
      match rest.dropWhile isQueryChar with
      | '\x7d' :: _ => if query.isEmpty then none else some (.reference method letter query)
      | _ => none
    | none => none
  | _ => none

/-- The pieces of a text after its first `skip` characters. -/
def piecesFrom : (skip : Nat) → List Char → List Piece
  | _, [] => []
  | skip + 1, _ :: cs => piecesFrom skip cs
  | 0, c :: cs =>
    match leading? (c :: cs) with
    | some piece => piece :: piecesFrom (piece.text.length - 1) cs
    | none => .char c :: piecesFrom 0 cs

def pieces (cs : List Char) : List Piece :=
  piecesFrom 0 cs

/-- A reference and the bytes that it takes up in the UTF-8 form of its text. -/
structure Occurrence where
  method : Method
  query : List Char
  start : Nat
  stop : Nat
  deriving DecidableEq

/-- The references among pieces that start at a byte. -/
def occurrencesFrom : (start : Nat) → List Piece → List Occurrence
  | _, [] => []
  | start, .char c :: rest => occurrencesFrom (start + c.utf8Size) rest
  | start, .reference method letter query :: rest =>
    let stop := start + Text.byteLength (Piece.reference method letter query).text
    ⟨method, query, start, stop⟩ :: occurrencesFrom stop rest

/-- The references in a text, in order. -/
def scan (text : String) : List Occurrence :=
  occurrencesFrom 0 (pieces text.toList)

/-- What the references to places in a text name. -/
def places (text : String) : List String :=
  ((scan text).filter fun r => decide (r.method = .place)).map fun r => String.ofList r.query

/-- What the references to variables in a text name. -/
def variableNames (text : String) : List String :=
  ((scan text).filter fun r => decide (r.method = .variable)).map fun r => String.ofList r.query

/-! ## The pieces are the text -/

theorem text_of_leading? {cs : List Char} {piece : Piece} (h : leading? cs = some piece) :
    ∃ rest, cs = piece.text ++ rest := by
  unfold leading? at h
  split at h
  · rename_i letter rest
    split at h
    · rename_i method _
      simp only at h
      split at h
      · rename_i rest' hd
        split at h
        · cases h
        · cases h
          refine ⟨rest', ?_⟩
          simp only [Piece.text, List.cons_append, List.append_assoc, List.nil_append]
          rw [← hd, List.takeWhile_append_dropWhile]
      · cases h
    · cases h
  · cases h

theorem piecesFrom_eq_drop (skip : Nat) (cs : List Char) :
    piecesFrom skip cs = piecesFrom 0 (cs.drop skip) := by
  induction skip generalizing cs with
  | zero => rfl
  | succ skip ih =>
    cases cs with
    | nil => rfl
    | cons c cs => simpa [piecesFrom] using ih cs

/-- The pieces are the text, nothing lost and nothing added. -/
theorem flatMap_text_pieces (cs : List Char) : (pieces cs).flatMap Piece.text = cs := by
  unfold pieces
  induction hn : cs.length using Nat.strongRecOn generalizing cs with
  | ind n ih =>
    cases cs with
    | nil => rfl
    | cons c cs =>
      simp only [piecesFrom]
      cases hl : leading? (c :: cs) with
      | none =>
        simp only [List.flatMap_cons, Piece.text, List.cons_append, List.nil_append]
        rw [ih cs.length (by simp at hn; omega) cs rfl]
      | some piece =>
        obtain ⟨rest, hr⟩ := text_of_leading? hl
        simp only [List.flatMap_cons]
        rw [piecesFrom_eq_drop]
        have hd : cs.drop (piece.text.length - 1) = rest := by
          cases ht : piece.text with
          | nil => cases piece <;> simp [Piece.text] at ht
          | cons t ts =>
            rw [ht] at hr
            obtain ⟨_, rfl⟩ := List.cons.inj hr
            simp
        have hlen : rest.length < n := by
          have : (c :: cs).length = piece.text.length + rest.length := by rw [hr]; simp
          have hp : 0 < piece.text.length := by cases piece <;> simp [Piece.text]
          omega
        rw [hd, ih rest.length hlen rest rfl, hr]

end LiveDocument.Reference
