/-!
# Delimited text

Texts put together with a delimiter between them, and a text cut at every occurrence of a
delimiter, from the left and without overlaps.
-/

namespace LiveDocument.Text

/-- The parts with `delimiter` between each two neighbours. -/
def join (delimiter : List Char) : List (List Char) → List Char
  | [] => []
  | [part] => part
  | part :: rest => part ++ delimiter ++ join delimiter rest

/-- Puts a character in front of the first part. -/
def consHead (c : Char) : List (List Char) → List (List Char)
  | [] => [[c]]
  | part :: rest => (c :: part) :: rest

/-- Cuts a text after skipping its first `skip` characters, which belong to a delimiter. -/
def splitFrom (delimiter : List Char) : (skip : Nat) → List Char → List (List Char)
  | _, [] => [[]]
  | skip + 1, _ :: cs => splitFrom delimiter skip cs
  | 0, c :: cs =>
    if delimiter.isPrefixOf (c :: cs) then [] :: splitFrom delimiter (delimiter.length - 1) cs
    else consHead c (splitFrom delimiter 0 cs)

/-- The parts of a text between the occurrences of a nonempty delimiter. -/
def split (delimiter cs : List Char) : List (List Char) :=
  splitFrom delimiter 0 cs

/-- The rest of a text after `start`, if the text begins so. -/
def stripPrefix? : (start : List Char) → List Char → Option (List Char)
  | [], cs => some cs
  | _ :: _, [] => none
  | p :: ps, c :: cs => if p = c then stripPrefix? ps cs else none

theorem stripPrefix?_append (start cs : List Char) :
    stripPrefix? start (start ++ cs) = some cs := by
  induction start with
  | nil => rfl
  | cons p ps ih => simp [stripPrefix?, ih]

/-- A text begins with `start` exactly when it is `start` and the rest. -/
theorem stripPrefix?_eq_some_iff {start cs rest : List Char} :
    stripPrefix? start cs = some rest ↔ cs = start ++ rest := by
  induction start generalizing cs with
  | nil => simp [stripPrefix?]
  | cons p ps ih =>
    cases cs with
    | nil => simp [stripPrefix?]
    | cons c cs =>
      by_cases h : p = c
      · simp [stripPrefix?, h, ih]
      · simp only [stripPrefix?, if_neg h, List.cons_append, List.cons.injEq]
        constructor
        · intro hn; cases hn
        · exact fun hc => absurd hc.1.symm h

end LiveDocument.Text
