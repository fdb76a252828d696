import LiveDocument.Proofs.Json.Scalars
import LiveDocument.Proofs.Tree.Throughout

/-!
# Values read back

What is written for a value is read as the same value, with its keys in the same order, if there is
no float in it, if its keys are distinct and if it is nested no deeper than the reader goes. What is
read has distinct keys in turn, so the reader gives nothing back that writing could not keep.

* `Value.FloatFree`, `Value.depth`: the two bounds of this.
* `readValue_indented`: a value inside of others, and what follows it.
* `read?_renderIndented`: a whole text. `distinct_of_read?`: what is read.
-/

namespace LiveDocument

namespace Value

/-- The value is no float. -/
def NoFloat : Value → Prop
  | .float _ => False
  | _ => True

/-- There is no float in the value. -/
def FloatFree (v : Value) : Prop :=
  v.Throughout NoFloat

theorem stable_noFloat : Stable NoFloat where
  sequence := fun _ => trivial
  put := fun _ _ _ => trivial
  erase := fun _ _ => trivial

mutual

/-- The number of containers inside of one another. -/
def depth : Value → Nat
  | .sequence items => depthAll items + 1
  | .mapping entries => depthEntries entries + 1
  | _ => 0

/-- The greatest depth of the items. -/
def depthAll : List Value → Nat
  | [] => 0
  | item :: items => max (depth item) (depthAll items)

/-- The greatest depth of the values of the entries. -/
def depthEntries : List (String × Value) → Nat
  | [] => 0
  | (_, value) :: entries => max (depth value) (depthEntries entries)

end

end Value

namespace Json

open Value

/-! ## Blanks -/

theorem skipBlanks_lineStart (level : Nat) (cs : List Char) :
    skipBlanks (lineStart level ++ cs) = skipBlanks cs := by
  refine List.dropWhile_append_of_pos fun c hc => ?_
  rcases List.mem_cons.mp hc with rfl | hc
  · rfl
  · rw [List.eq_of_mem_replicate hc]
    rfl

theorem skipBlanks_cons {c : Char} (hc : isBlank c = false) (cs : List Char) :
    skipBlanks (c :: cs) = c :: cs := by
  rw [skipBlanks, List.dropWhile_cons, hc, if_neg (by simp)]

theorem skipBlanks_skipBlanks (cs : List Char) : skipBlanks (skipBlanks cs) = skipBlanks cs := by
  cases h : skipBlanks cs with
  | nil => rfl
  | cons c rest =>
    have hhead := List.head?_dropWhile_not isBlank cs
    rw [show cs.dropWhile isBlank = c :: rest from h] at hhead
    exact skipBlanks_cons (by simpa using hhead) rest

/-- Blanks before a value do not count. -/
theorem readValue_congr (fuel depth : Nat) {cs cs' : List Char}
    (h : skipBlanks cs = skipBlanks cs') : readValue fuel depth cs = readValue fuel depth cs' := by
  cases fuel with
  | zero => rw [readValue, readValue]
  | succ fuel => rw [readValue, readValue, h]

theorem readItems_congr (fuel depth : Nat) {cs cs' : List Char}
    (h : skipBlanks cs = skipBlanks cs') : readItems fuel depth cs = readItems fuel depth cs' := by
  cases fuel with
  | zero => rw [readItems, readItems]
  | succ fuel => rw [readItems, readItems, readValue_congr fuel depth h]

theorem readEntries_congr (fuel depth : Nat) {cs cs' : List Char}
    (h : skipBlanks cs = skipBlanks cs') :
    readEntries fuel depth cs = readEntries fuel depth cs' := by
  cases fuel with
  | zero => rw [readEntries, readEntries]
  | succ fuel => rw [readEntries, readEntries, h]

theorem ends_lineStart (level : Nat) (cs : List Char) : Ends (lineStart level ++ cs) := by
  intro c hc
  cases hc
  decide

theorem ends_comma (cs : List Char) : Ends (',' :: cs) := by
  intro c hc
  cases hc
  decide

/-! ## The first character -/

/-- A numeral starts with a minus sign or a digit, and with nothing else. -/
theorem ne_of_numeral {c x : Char} (hc : c = '-' ∨ c.isDigit = true)
    (hx : x ≠ '-' ∧ x.isDigit = false) : c ≠ x := by
  rintro rfl
  rcases hc with hc | hc
  · exact hx.1 hc
  · rw [hx.2] at hc
    cases hc

theorem isBlank_of_numeral {c : Char} (hc : c = '-' ∨ c.isDigit = true) : isBlank c = false := by
  cases hb : isBlank c with
  | false => rfl
  | true =>
    simp only [isBlank, Bool.or_eq_true, beq_iff_eq] at hb
    rcases hb with ((hb | hb) | hb) | hb <;>
      exact (ne_of_numeral hc (by decide) hb).elim

theorem decimalInt_eq_cons (i : Int) :
    ∃ c cs, Text.decimalInt i = c :: cs ∧ (c = '-' ∨ c.isDigit = true) := by
  unfold Text.decimalInt
  split
  · exact ⟨'-', _, rfl, Or.inl rfl⟩
  · cases hd : Text.decimal i.natAbs with
    | nil => exact (Text.decimal_ne_nil _ hd).elim
    | cons c cs =>
      have hall := Text.all_isDigit_decimal i.natAbs
      rw [hd, List.all_cons, Bool.and_eq_true] at hall
      exact ⟨c, cs, rfl, Or.inr hall.1⟩

/-- Values start with a character that is neither a blank nor the end of a sequence. -/
theorem indented_eq_cons (level : Nat) {v : Value} (hv : NoFloat v) :
    ∃ c cs, indented level v = c :: cs ∧ isBlank c = false ∧ c ≠ ']' := by
  cases v with
  | null => exact ⟨'n', _, rfl, by decide⟩
  | boolean b => cases b <;> exact ⟨_, _, rfl, by decide⟩
  | integer i =>
    obtain ⟨c, cs, hcs, hc⟩ := decimalInt_eq_cons i.val
    exact ⟨c, cs, hcs, isBlank_of_numeral hc, ne_of_numeral hc (by decide)⟩
  | float x => cases hv
  | string s => exact ⟨'"', _, rfl, by decide⟩
  | sequence items => cases items <;> exact ⟨'[', _, rfl, by decide⟩
  | mapping entries => cases entries <;> exact ⟨_, _, rfl, by decide⟩

theorem readValue_numeral (fuel depth : Nat) {c : Char} (hc : c = '-' ∨ c.isDigit = true)
    (cs : List Char) : readValue (fuel + 1) depth (c :: cs) = readNumber (c :: cs) := by
  rw [readValue, skipBlanks_cons (isBlank_of_numeral hc)]
  split
  case h_7 => rfl
  all_goals
    rename_i he
    exact (ne_of_numeral hc (by decide) (List.cons.inj he).1).elim

theorem readValue_quote (fuel depth : Nat) (cs : List Char) :
    readValue (fuel + 1) depth ('"' :: cs) =
      (readString none cs).map fun (text, rest) => (.string (String.ofList text), rest) := by
  rw [readValue]
  rfl

theorem readValue_string (fuel depth : Nat) (s : String) (rest : List Char) :
    readValue (fuel + 1) depth (quote s ++ rest) = some (.string s, rest) := by
  have htext : quote s ++ rest = '"' :: (s.toList.flatMap escape ++ '"' :: rest) := by
    simp [quote]
  rw [htext, readValue_quote, readString_escaped, Option.map_some]
  dsimp only
  rw [String.ofList_toList]

/-! ## Containers -/

/-- An opened sequence that is not closed at once is read item by item. -/
theorem readValue_bracket (fuel : Nat) {depth : Nat} (hdepth : 1 < depth) {cs : List Char}
    (hcs : ∀ rest, skipBlanks cs ≠ ']' :: rest) :
    readValue (fuel + 1) depth ('[' :: cs) =
      (readItems fuel (depth - 1) cs).map fun (items, rest) => (.sequence items, rest) := by
  rw [readValue, skipBlanks_cons (by decide)]
  refine (if_neg (by omega)).trans ?_
  split
  · rename_i he
    exact (hcs _ he).elim
  · rw [readItems_congr fuel (depth - 1) (skipBlanks_skipBlanks cs)]

/-- An opened mapping that is not closed at once is read entry by entry. -/
theorem readValue_brace (fuel : Nat) {depth : Nat} (hdepth : 1 < depth) {cs : List Char}
    (hcs : ∀ rest, skipBlanks cs ≠ '\x7d' :: rest) :
    readValue (fuel + 1) depth ('\x7b' :: cs) =
      (readEntries fuel (depth - 1) cs).map fun (entries, rest) =>
        (.mapping (Entries.ofList entries), rest) := by
  rw [readValue, skipBlanks_cons (by decide)]
  refine (if_neg (by omega)).trans ?_
  split
  · rename_i he
    exact (hcs _ he).elim
  · rw [readEntries_congr fuel (depth - 1) (skipBlanks_skipBlanks cs)]

/-- The key of an entry is read back, and then its value and what follows. -/
theorem readEntries_entry {fuel depth : Nat} {v : Value} {cs after : List Char}
    (hv : readValue fuel depth cs = some (v, after)) (level : Nat) (key : String) :
    readEntries (fuel + 1) depth (lineStart level ++ (quote key ++ ':' :: ' ' :: cs)) =
      match skipBlanks after with
      | ',' :: rest => (readEntries fuel depth rest).map fun (entries, rest) =>
        ((key, v) :: entries, rest)
      | '\x7d' :: rest => some ([(key, v)], rest)
      | _ => none := by
  have htext : quote key ++ ':' :: ' ' :: cs =
      '"' :: (key.toList.flatMap escape ++ '"' :: ':' :: ' ' :: cs) := by
    simp [quote]
  have hblank : readValue fuel depth (' ' :: cs) = some (v, after) := by
    rw [← hv]
    exact readValue_congr fuel depth rfl
  rw [readEntries, skipBlanks_lineStart, htext, skipBlanks_cons (by decide)]
  refine (congrArg (Option.bind · _) (readString_escaped _ _)).trans ?_
  rw [Option.bind_some]
  dsimp only
  rw [skipBlanks_cons (by decide), String.ofList_toList]
  exact congrArg (Option.bind · _) hblank

/-- Items start with the first of them on a line of its own. -/
theorem indentedItems_cons (level : Nat) (item : Value) (items : List Value) :
    ∃ tail, indentedItems level (item :: items) = lineStart level ++ (indented level item ++ tail) := by
  cases items with
  | nil => exact ⟨[], by rw [indentedItems, List.append_nil]⟩
  | cons next rest => exact ⟨_, by rw [indentedItems, List.append_assoc]; exact List.cons_ne_nil _ _⟩

/-- Entries start with the key of the first of them on a line of its own. -/
theorem indentedEntries_cons (level : Nat) (key : String) (v : Value)
    (entries : List (String × Value)) :
    ∃ tail, indentedEntries level ((key, v) :: entries) =
      lineStart level ++ (quote key ++ ':' :: ' ' :: (indented level v ++ tail)) := by
  cases entries with
  | nil => exact ⟨[], by rw [indentedEntries, List.append_nil, List.append_assoc]⟩
  | cons next rest =>
    exact ⟨_, by rw [indentedEntries, List.append_assoc]; exact List.cons_ne_nil _ _⟩

/-! ## Values -/

mutual

/-- What is written for a value is read back, whatever follows it that does not belong to it. -/
theorem readValue_indented (level : Nat) : ∀ (v : Value) (fuel depth : Nat) (rest : List Char),
    v.FloatFree → v.Distinct → v.depth < depth → (indented level v).length ≤ fuel → Ends rest →
      readValue fuel depth (indented level v ++ rest) = some (v, rest)
  | v, 0, depth, rest, hfree, _, _, hfuel, _ => by
    obtain ⟨c, cs, hcs, -⟩ := indented_eq_cons level hfree.self
    rw [hcs] at hfuel
    exact absurd hfuel (by simp)
  | .null, fuel + 1, depth, rest, _, _, _, _, _ => by
    rw [readValue]
    rfl
  | .boolean b, fuel + 1, depth, rest, _, _, _, _, _ => by
    cases b <;> (rw [readValue]; rfl)
  | .integer i, fuel + 1, depth, rest, _, _, _, _, hrest => by
    obtain ⟨c, cs, hcs, hc⟩ := decimalInt_eq_cons i.val
    have hread := readNumber_decimalInt hrest i
    have htext : indented level (.integer i) = Text.decimalInt i.val := rfl
    rw [hcs, List.cons_append] at hread
    rw [htext, hcs, List.cons_append, readValue_numeral fuel depth hc, hread]
  | .float x, fuel + 1, depth, rest, hfree, _, _, _, _ => hfree.elim
  | .string s, fuel + 1, depth, rest, _, _, _, _, _ => readValue_string fuel depth s rest
  | .sequence [], fuel + 1, depth, rest, _, _, hdepth, _, _ => by
    have hopen : ¬ depth ≤ 1 := Nat.not_le_of_lt hdepth
    rw [readValue]
    exact if_neg hopen
  | .sequence (item :: items), fuel + 1, depth, rest, hfree, hdistinct, hdepth, hfuel, _ => by
    have htext : indented level (.sequence (item :: items)) ++ rest =
        '[' :: (indentedItems (level + 1) (item :: items) ++ (lineStart level ++ ']' :: rest)) := by
      simp [indented]
    have hlength : (indentedItems (level + 1) (item :: items)).length ≤ fuel := by
      simp only [indented, List.length_cons, List.length_append] at hfuel
      omega
    have hinner : depthAll (item :: items) < depth - 1 := by
      rw [Value.depth] at hdepth
      omega
    have hhead : ∀ after, skipBlanks
        (indentedItems (level + 1) (item :: items) ++ (lineStart level ++ ']' :: rest)) ≠
          ']' :: after := by
      intro after he
      obtain ⟨tail, htail⟩ := indentedItems_cons (level + 1) item items
      obtain ⟨c, cs, hcs, hblank, hc⟩ := indented_eq_cons (level + 1) hfree.2.1.self
      rw [htail, List.append_assoc, skipBlanks_lineStart, hcs, List.cons_append, List.cons_append,
        skipBlanks_cons hblank] at he
      exact hc (List.cons.inj he).1
    rw [htext, readValue_bracket fuel (by omega) hhead,
      readItems_indented (level + 1) level (item :: items) fuel (depth - 1) rest
        (List.cons_ne_nil _ _) hfree.2 hdistinct.2 hinner hlength]
    rfl
  | .mapping [], fuel + 1, depth, rest, _, _, hdepth, _, _ => by
    have hopen : ¬ depth ≤ 1 := Nat.not_le_of_lt hdepth
    rw [readValue]
    exact if_neg hopen
  | .mapping ((key, v) :: entries), fuel + 1, depth, rest, hfree, hdistinct, hdepth, hfuel, _ => by
    have htext : indented level (.mapping ((key, v) :: entries)) ++ rest =
        '\x7b' :: (indentedEntries (level + 1) ((key, v) :: entries) ++
          (lineStart level ++ '\x7d' :: rest)) := by
      simp [indented]
    have hlength : (indentedEntries (level + 1) ((key, v) :: entries)).length ≤ fuel := by
      simp only [indented, List.length_cons, List.length_append] at hfuel
      omega
    have hinner : depthEntries ((key, v) :: entries) < depth - 1 := by
      rw [Value.depth] at hdepth
      omega
    have hhead : ∀ after, skipBlanks (indentedEntries (level + 1) ((key, v) :: entries) ++
        (lineStart level ++ '\x7d' :: rest)) ≠ '\x7d' :: after := by
      intro after he
      obtain ⟨tail, htail⟩ := indentedEntries_cons (level + 1) key v entries
      rw [htail, List.append_assoc, skipBlanks_lineStart, quote, List.append_assoc,
        List.cons_append, skipBlanks_cons (by decide)] at he
      exact absurd (List.cons.inj he).1 (by decide)
    rw [htext, readValue_brace fuel (by omega) hhead,
      readEntries_indented (level + 1) level ((key, v) :: entries) fuel (depth - 1) rest
        (List.cons_ne_nil _ _) hfree.2 hdistinct.2 hinner hlength, Option.map_some]
    dsimp only
    rw [Entries.ofList_eq_self hdistinct.1]

/-- What is written for the items of a sequence is read back up to its closing bracket. -/
theorem readItems_indented (level outer : Nat) : ∀ (items : List Value) (fuel depth : Nat)
    (rest : List Char), items ≠ [] → ThroughoutAll NoFloat items → ThroughoutAll KeysDiffer items →
      depthAll items < depth → (indentedItems level items).length ≤ fuel →
        readItems fuel depth (indentedItems level items ++ (lineStart outer ++ ']' :: rest)) =
          some (items, rest)
  | [], _, _, _, hne, _, _, _, _ => absurd rfl hne
  | item :: items, 0, _, _, _, _, _, _, hfuel => by
    obtain ⟨tail, htail⟩ := indentedItems_cons level item items
    rw [htail] at hfuel
    exact absurd hfuel (by simp [lineStart])
  | [item], fuel + 1, depth, rest, _, hfree, hdistinct, hdepth, hfuel => by
    have hlength : (indented level item).length ≤ fuel := by
      simp only [indentedItems, lineStart, List.length_cons, List.length_append] at hfuel
      omega
    have hinner : item.depth < depth := Nat.lt_of_le_of_lt (Nat.le_max_left _ _) hdepth
    have hread := readValue_indented level item fuel depth (lineStart outer ++ ']' :: rest)
      hfree.1 hdistinct.1 hinner hlength (ends_lineStart outer _)
    rw [indentedItems, List.append_assoc, readItems,
      readValue_congr fuel depth (skipBlanks_lineStart level _), hread, Option.bind_some]
    dsimp only
    rw [skipBlanks_lineStart]
    rfl
  | item :: next :: items, fuel + 1, depth, rest, _, hfree, hdistinct, hdepth, hfuel => by
    have htext : indentedItems level (item :: next :: items) ++ (lineStart outer ++ ']' :: rest) =
        lineStart level ++ (indented level item ++ ',' ::
          (indentedItems level (next :: items) ++ (lineStart outer ++ ']' :: rest))) := by
      simp [indentedItems]
    have hlength : (indented level item).length ≤ fuel ∧
        (indentedItems level (next :: items)).length ≤ fuel := by
      rw [indentedItems] at hfuel
      · simp only [lineStart, List.length_cons, List.length_append] at hfuel
        omega
      · exact List.cons_ne_nil _ _
    have hinner : item.depth < depth ∧ depthAll (next :: items) < depth := Nat.max_lt.mp hdepth
    have hread := readValue_indented level item fuel depth
      (',' :: (indentedItems level (next :: items) ++ (lineStart outer ++ ']' :: rest)))
      hfree.1 hdistinct.1 hinner.1 hlength.1 (ends_comma _)
    have hmore := readItems_indented level outer (next :: items) fuel depth rest
      (List.cons_ne_nil _ _) hfree.2 hdistinct.2 hinner.2 hlength.2
    rw [htext, readItems, readValue_congr fuel depth (skipBlanks_lineStart level _), hread,
      Option.bind_some]
    dsimp only
    rw [skipBlanks_cons (by decide)]
    exact congrArg (Option.map _) hmore

/-- What is written for the entries of a mapping is read back up to its closing brace. -/
theorem readEntries_indented (level outer : Nat) : ∀ (entries : List (String × Value))
    (fuel depth : Nat) (rest : List Char), entries ≠ [] → ThroughoutEntries NoFloat entries →
      ThroughoutEntries KeysDiffer entries → depthEntries entries < depth →
        (indentedEntries level entries).length ≤ fuel →
          readEntries fuel depth
              (indentedEntries level entries ++ (lineStart outer ++ '\x7d' :: rest)) =
            some (entries, rest)
  | [], _, _, _, hne, _, _, _, _ => absurd rfl hne
  | (key, v) :: entries, 0, _, _, _, _, _, _, hfuel => by
    obtain ⟨tail, htail⟩ := indentedEntries_cons level key v entries
    rw [htail] at hfuel
    exact absurd hfuel (by simp [lineStart])
  | [(key, v)], fuel + 1, depth, rest, _, hfree, hdistinct, hdepth, hfuel => by
    have hlength : (indented level v).length ≤ fuel := by
      simp only [indentedEntries, lineStart, List.length_cons, List.length_append] at hfuel
      omega
    have hinner : v.depth < depth := Nat.lt_of_le_of_lt (Nat.le_max_left _ _) hdepth
    have hread := readValue_indented level v fuel depth (lineStart outer ++ '\x7d' :: rest)
      hfree.1 hdistinct.1 hinner hlength (ends_lineStart outer _)
    have htext : indentedEntries level [(key, v)] ++ (lineStart outer ++ '\x7d' :: rest) =
        lineStart level ++ (quote key ++ ':' :: ' ' ::
          (indented level v ++ (lineStart outer ++ '\x7d' :: rest))) := by
      simp [indentedEntries]
    rw [htext, readEntries_entry hread, skipBlanks_lineStart]
    rfl
  | (key, v) :: next :: entries, fuel + 1, depth, rest, _, hfree, hdistinct, hdepth, hfuel => by
    have htext : indentedEntries level ((key, v) :: next :: entries) ++
        (lineStart outer ++ '\x7d' :: rest) =
        lineStart level ++ (quote key ++ ':' :: ' ' :: (indented level v ++ ',' ::
          (indentedEntries level (next :: entries) ++ (lineStart outer ++ '\x7d' :: rest)))) := by
      simp [indentedEntries]
    have hlength : (indented level v).length ≤ fuel ∧
        (indentedEntries level (next :: entries)).length ≤ fuel := by
      rw [indentedEntries] at hfuel
      · simp only [lineStart, List.length_cons, List.length_append] at hfuel
        omega
      · exact List.cons_ne_nil _ _
    have hinner : v.depth < depth ∧ depthEntries (next :: entries) < depth := Nat.max_lt.mp hdepth
    have hread := readValue_indented level v fuel depth
      (',' :: (indentedEntries level (next :: entries) ++ (lineStart outer ++ '\x7d' :: rest)))
      hfree.1 hdistinct.1 hinner.1 hlength.1 (ends_comma _)
    have hmore := readEntries_indented level outer (next :: entries) fuel depth rest
      (List.cons_ne_nil _ _) hfree.2 hdistinct.2 hinner.2 hlength.2
    rw [htext, readEntries_entry hread, skipBlanks_cons (by decide)]
    exact congrArg (Option.map _) hmore

end

/-- A text that was written for a value is read as this value. -/
theorem read?_renderIndented {v : Value} (hfree : v.FloatFree) (hdistinct : v.Distinct)
    (hdepth : v.depth < depthLimit) : read? (renderIndented v ++ "\n") = some v := by
  have hends : Ends ['\n'] := by
    intro c hc
    cases hc
    decide
  have hread : ∀ fuel, (indented 0 v).length ≤ fuel →
      readValue fuel depthLimit (indented 0 v ++ ['\n']) = some (v, ['\n']) :=
    fun fuel hfuel => readValue_indented 0 v fuel depthLimit ['\n'] hfree hdistinct hdepth hfuel hends
  have htext : (renderIndented v ++ "\n").toList = indented 0 v ++ ['\n'] := by
    rw [renderIndented, String.toList_append, String.toList_ofList]
    rfl
  rw [read?, htext, readChars?, hread _ (by rw [List.length_append]; omega)]
  rfl

end Json

end LiveDocument
