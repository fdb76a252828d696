import LiveDocument.Proofs.Address.Canonical

/-!
# Canonical texts read back

The canonical text of a path is cut into its segments again if no occurrence of the delimiter
begins inside the text of a segment. Whatever the delimiter is, what a text has been cut into
satisfies this, and it goes on to do so when leading zeros of numerals are dropped, because then
each part is replaced by its own end. So the path of a query without signs and slices is read back
from its canonical text, and with a delimiter that is one character that no numeral or slice is
spelled with, the path of every query is.

* `Text.Parted`: no occurrence of the delimiter begins inside a part. `Text.parted_split`,
  `Text.split_join_of_parted`: parts of a text are such, and such parts are cut as they were joined.
* `Text.decimal_digitsValue_suffix`: reading digits and writing the number drops leading zeros.
* `Segment.classify_text_classify`: a segment from a text reads back from its own text.
* `Path.ReadsBack`: a path that is read back from its canonical text.
-/

namespace LiveDocument

namespace Text

/-! ## Cutting at any delimiter -/

/-- No occurrence of the delimiter in `part ++ tail` begins inside `part`. -/
def Free (delimiter part tail : List Char) : Prop :=
  ∀ k < part.length, ¬ delimiter <+: (part ++ tail).drop k

/-- No occurrence of the delimiter begins inside one of the parts when they are joined. -/
def Parted (delimiter : List Char) : List (List Char) → Prop
  | [] => True
  | part :: rest =>
    Free delimiter part (if rest.isEmpty then [] else delimiter) ∧ Parted delimiter rest

section

variable {d part rest tail : List Char} {parts : List (List Char)}

theorem free_nil (d tail : List Char) : Free d [] tail :=
  fun k hk => absurd hk (Nat.not_lt_zero k)

/-- The end of a part is free if the part is. -/
theorem Free.suffix {part' : List Char} (h : Free d part tail) (hs : part' <:+ part) :
    Free d part' tail := by
  obtain ⟨front, rfl⟩ := hs
  intro k hk hd
  refine h (front.length + k) (by rw [List.length_append]; omega) ?_
  rw [List.append_assoc, List.drop_length_add_append]
  exact hd

theorem splitFrom_eq_drop (d : List Char) (skip : Nat) (cs : List Char) :
    splitFrom d skip cs = splitFrom d 0 (cs.drop skip) := by
  induction skip generalizing cs with
  | zero => rfl
  | succ skip ih =>
    cases cs with
    | nil => rfl
    | cons c cs => exact ih cs

/-- A text that begins with the delimiter begins with an empty part. -/
theorem split_delimiter_append (hd : d ≠ []) (rest : List Char) :
    split d (d ++ rest) = [] :: split d rest := by
  obtain ⟨c, ds, rfl⟩ := List.exists_cons_of_ne_nil hd
  have hprefix : (c :: ds).isPrefixOf (c :: (ds ++ rest)) = true :=
    List.isPrefixOf_iff_prefix.mpr ⟨rest, rfl⟩
  unfold split
  rw [List.cons_append, splitFrom.eq_3, if_pos hprefix, splitFrom_eq_drop, List.length_cons,
    Nat.add_sub_cancel, List.drop_left]

/-- A character at which no delimiter begins goes into the first part. -/
theorem split_cons_of_not_begins {c : Char} {cs : List Char} (h : ¬ d <+: c :: cs) :
    split d (c :: cs) = consHead c (split d cs) := by
  unfold split
  rw [splitFrom.eq_3, if_neg (fun hp => h (List.isPrefixOf_iff_prefix.mp hp))]

theorem split_append_of_free (hd : d ≠ []) (h : Free d part d) (rest : List Char) :
    split d (part ++ (d ++ rest)) = part :: split d rest := by
  induction part with
  | nil => exact split_delimiter_append hd rest
  | cons c part ih =>
    have hrest : Free d part d := h.suffix (List.suffix_cons c part)
    have hfirst : ¬ d <+: c :: (part ++ (d ++ rest)) := by
      intro hp
      -- An occurrence at the front is short enough to end with the delimiter that follows.
      have hlong : c :: (part ++ d) <+: c :: (part ++ (d ++ rest)) :=
        ⟨rest, by simp⟩
      have hlength : d.length ≤ (c :: (part ++ d)).length := by
        rw [List.length_cons, List.length_append]
        omega
      exact h 0 (Nat.zero_lt_succ _) (List.prefix_of_prefix_length_le hp hlong hlength)
    rw [List.cons_append, split_cons_of_not_begins hfirst, ih hrest]
    rfl

theorem split_of_free (h : Free d part []) : split d part = [part] := by
  induction part with
  | nil => rfl
  | cons c part ih =>
    have hfirst : ¬ d <+: c :: part := by
      have h0 := h 0 (Nat.zero_lt_succ _)
      rwa [List.append_nil] at h0
    rw [split_cons_of_not_begins hfirst, ih (h.suffix (List.suffix_cons c part))]
    rfl

theorem join_cons (d part : List Char) (hne : parts ≠ []) :
    join d (part :: parts) = part ++ (d ++ join d parts) := by
  rw [join.eq_3 d part parts hne, List.append_assoc]

/-- Parts are cut as they were joined, if no delimiter begins inside one of them. -/
theorem split_join_of_parted (hd : d ≠ []) (hne : parts ≠ []) (h : Parted d parts) :
    split d (join d parts) = parts := by
  induction parts with
  | nil => exact absurd rfl hne
  | cons part rest ih =>
    obtain ⟨hfree, hrest⟩ := h
    cases rest with
    | nil => exact split_of_free hfree
    | cons next rest =>
      have hne' : next :: rest ≠ [] := List.cons_ne_nil _ _
      rw [join_cons d part hne', split_append_of_free hd hfree, ih hne' hrest]

theorem parts_ne_nil (d cs : List Char) : split d cs ≠ [] := by
  cases cs with
  | nil => exact List.cons_ne_nil _ _
  | cons c cs =>
    unfold split
    rw [splitFrom.eq_3]
    split
    · exact List.cons_ne_nil _ _
    · cases splitFrom d 0 cs <;> exact List.cons_ne_nil _ _

/-- Joining the parts of a text gives the text, and no delimiter begins inside one of them. -/
theorem join_split_and_parted (hd : d ≠ []) (cs : List Char) :
    join d (split d cs) = cs ∧ Parted d (split d cs) := by
  induction hn : cs.length using Nat.strongRecOn generalizing cs with
  | ind n ih =>
    by_cases hp : d <+: cs
    · obtain ⟨rest, rfl⟩ := hp
      have hlt : rest.length < n := by
        have hpos : 0 < d.length := List.length_pos_iff.mpr hd
        rw [List.length_append] at hn
        omega
      obtain ⟨hjoin, hparted⟩ := ih rest.length hlt rest rfl
      rw [split_delimiter_append hd, join_cons d [] (parts_ne_nil d rest), hjoin]
      exact ⟨rfl, free_nil _ _, hparted⟩
    · cases cs with
      | nil => exact ⟨rfl, free_nil _ _, trivial⟩
      | cons c cs =>
        obtain ⟨hjoin, hparted⟩ := ih cs.length (by rw [← hn]; exact Nat.lt_succ_self _) cs rfl
        rw [split_cons_of_not_begins hp]
        obtain ⟨first, rest, hs⟩ := List.exists_cons_of_ne_nil (parts_ne_nil d cs)
        rw [hs] at hjoin hparted ⊢
        obtain ⟨hfree, hrest⟩ := hparted
        have hfront : first ++ (if rest.isEmpty then [] else d) <+: cs := by
          rw [← hjoin]
          cases rest with
          | nil => exact ⟨[], by simp [join]⟩
          | cons next rest => exact ⟨join d (next :: rest), by simp [join]⟩
        refine ⟨?_, ?_, hrest⟩
        · rw [← hjoin]
          cases rest <;> rfl
        · intro k hk
          cases k with
          | zero =>
            exact fun hbegins => hp (hbegins.trans (List.cons_prefix_cons.mpr ⟨rfl, hfront⟩))
          | succ k => exact hfree k (Nat.lt_of_succ_lt_succ hk)

theorem join_split (hd : d ≠ []) (cs : List Char) : join d (split d cs) = cs :=
  (join_split_and_parted hd cs).1

theorem parted_split (hd : d ≠ []) (cs : List Char) : Parted d (split d cs) :=
  (join_split_and_parted hd cs).2

/-- Every character of a part is one of the text. -/
theorem mem_of_mem_split (hd : d ≠ []) {cs : List Char} (h : part ∈ split d cs) {c : Char}
    (hc : c ∈ part) : c ∈ cs := by
  have hmem : ∀ parts : List (List Char), part ∈ parts → c ∈ join d parts := by
    intro parts hp
    induction parts with
    | nil => cases hp
    | cons first rest ih =>
      cases rest with
      | nil =>
        rw [List.mem_singleton.mp hp] at hc
        exact hc
      | cons next rest =>
        rw [join_cons d first (List.cons_ne_nil next rest)]
        rcases List.mem_cons.mp hp with rfl | hp
        · exact List.mem_append_left _ hc
        · exact List.mem_append_right _ (List.mem_append_right _ (ih hp))
  have hjoin := hmem _ h
  rwa [join_split hd] at hjoin

/-- Replacing parts by their ends keeps them parted. -/
theorem Parted.map_suffix {α : Type} {f g : α → List Char} {l : List α}
    (h : Parted d (l.map g)) (hs : ∀ a ∈ l, f a <:+ g a) : Parted d (l.map f) := by
  induction l with
  | nil => trivial
  | cons a l ih =>
    obtain ⟨hfree, hrest⟩ := h
    refine ⟨?_, ih hrest fun b hb => hs b (List.mem_cons_of_mem _ hb)⟩
    have htail : (l.map f).isEmpty = (l.map g).isEmpty := by
      rw [List.isEmpty_map, List.isEmpty_map]
    rw [htail]
    exact hfree.suffix (hs a List.mem_cons_self)

/-- With one character as the delimiter, parts without it are parted. -/
theorem parted_of_notMem {c : Char} (h : ∀ part ∈ parts, c ∉ part) : Parted [c] parts := by
  induction parts with
  | nil => trivial
  | cons part rest ih =>
    refine ⟨?_, ih fun p hp => h p (List.mem_cons_of_mem _ hp)⟩
    intro k hk hd
    obtain ⟨tail, htail⟩ := hd
    have hget : part[k]? = some c := by
      have hhead := congrArg List.head? htail.symm
      rwa [List.head?_drop, List.getElem?_append_left hk] at hhead
    exact h part List.mem_cons_self (List.mem_of_getElem? hget)

end

/-! ## Numerals -/

theorem digit_digitValue {c : Char} (h : c.isDigit = true) : digit (digitValue c) = c := by
  simp only [Char.isDigit, Bool.and_eq_true, decide_eq_true_eq, ge_iff_le] at h
  have hlow : 48 ≤ c.toNat := h.1
  rw [digit, digitValue, Nat.add_sub_cancel' hlow, Char.ofNat_toNat]

theorem digitValue_lt {c : Char} (h : c.isDigit = true) : digitValue c < 10 := by
  simp only [Char.isDigit, Bool.and_eq_true, decide_eq_true_eq] at h
  have hhigh : c.toNat ≤ 57 := h.2
  rw [digitValue]
  omega

/-- Any fuel that suffices gives the same digits. -/
theorem decimalOnto_fuel {fuel fuel' n : Nat} (h : n < fuel) (h' : n < fuel')
    (tail : List Char) : decimalOnto fuel n tail = decimalOnto fuel' n tail := by
  induction fuel generalizing fuel' n tail with
  | zero => omega
  | succ fuel ih =>
    cases fuel' with
    | zero => omega
    | succ fuel' =>
      simp only [decimalOnto]
      by_cases hn : n < 10
      · rw [if_pos hn, if_pos hn]
      · rw [if_neg hn, if_neg hn]
        exact ih (by omega) (by omega) _

theorem decimal_of_lt {n : Nat} (h : n < 10) : decimal n = [digit n] := by
  rw [decimal, decimalOnto, if_pos h]

theorem decimal_of_le {n : Nat} (h : 10 ≤ n) :
    decimal n = decimal (n / 10) ++ [digit (n % 10)] := by
  rw [decimal, decimalOnto, if_neg (by omega), decimalOnto_append, decimal,
    decimalOnto_fuel (show n / 10 < n by omega) (Nat.lt_succ_self (n / 10))]

/-- Reading digits and writing the number drops leading zeros and nothing else. -/
theorem decimal_digitsValue_suffix {ds : List Char} (hne : ds ≠ [])
    (h : ds.all Char.isDigit = true) : decimal (digitsValue ds) <:+ ds := by
  induction hn : ds.length generalizing ds with
  | zero => exact absurd (List.length_eq_zero_iff.mp hn) hne
  | succ n ih =>
    obtain ⟨front, c, rfl⟩ : ∃ front c, ds = front ++ [c] :=
      ⟨ds.dropLast, ds.getLast hne, (List.dropLast_concat_getLast hne).symm⟩
    rw [List.all_append, Bool.and_eq_true] at h
    obtain ⟨hfront, hlast⟩ := h
    have hc : c.isDigit = true := by simpa using hlast
    have hlt := digitValue_lt hc
    rw [digitsValue_append]
    by_cases hz : digitsValue front = 0
    · rw [hz, Nat.zero_mul, Nat.zero_add, decimal_of_lt hlt, digit_digitValue hc]
      exact List.suffix_append _ _
    · have hnonempty : front ≠ [] := by
        rintro rfl
        exact hz rfl
      have hlength : front.length = n := by
        rw [List.length_append, List.length_singleton] at hn
        omega
      have hrec := ih hnonempty hfront hlength
      have hdiv : (digitsValue front * 10 + digitValue c) / 10 = digitsValue front := by omega
      have hmod : (digitsValue front * 10 + digitValue c) % 10 = digitValue c := by omega
      rw [decimal_of_le (by omega), hdiv, hmod, digit_digitValue hc]
      obtain ⟨zeros, hzeros⟩ := hrec
      exact ⟨zeros, by rw [← List.append_assoc, hzeros]⟩

/-- What is read as a natural number, and as which. -/
theorem natural?_eq_some_iff {ds : List Char} {n : Nat} :
    natural? ds = some n ↔ ds ≠ [] ∧ ds.all Char.isDigit = true ∧ digitsValue ds = n := by
  unfold natural?
  rw [Option.ite_none_left_eq_some, Option.some.injEq, Bool.or_eq_true, not_or,
    List.isEmpty_iff, Bool.not_eq_true', Bool.not_eq_false, and_assoc]

/-- What is read as an integer, and as which. -/
theorem integer?_eq_some_iff {cs : List Char} {i : Int} :
    integer? cs = some i ↔ (∃ n : Nat, natural? cs = some n ∧ i = n) ∨
      ∃ (ds : List Char) (n : Nat), cs = '-' :: ds ∧ natural? ds = some n ∧ i = -n := by
  unfold integer?
  split
  · rename_i ds
    constructor
    · intro h
      cases hn : natural? ds with
      | none =>
        rw [hn] at h
        cases h
      | some n =>
        rw [hn] at h
        exact .inr ⟨ds, n, rfl, hn, (Option.some.inj h).symm⟩
    · rintro (⟨n, hn, -⟩ | ⟨ds', n, he, hn, rfl⟩)
      · rw [natural?_ne_minus] at hn
        cases hn
      · cases he
        rw [hn]
        rfl
  · rename_i hsign
    constructor
    · intro h
      cases hn : natural? cs with
      | none =>
        rw [hn] at h
        cases h
      | some n =>
        rw [hn] at h
        exact .inl ⟨n, rfl, (Option.some.inj h).symm⟩
    · rintro (⟨n, hn, rfl⟩ | ⟨ds, n, he, -⟩)
      · rw [hn]
        rfl
      · exact absurd he (hsign ds)

theorem natural?_eq_none_of_mem {c : Char} {cs : List Char} (hc : c ∈ cs)
    (hdigit : c.isDigit = false) : natural? cs = none := by
  have hall : cs.all Char.isDigit = false := by
    rw [List.all_eq_false]
    exact ⟨c, hc, by rw [hdigit]; exact Bool.false_ne_true⟩
  rw [natural?, hall, if_pos (by simp)]

theorem integer?_eq_none_of_mem {c : Char} {cs : List Char} (hc : c ∈ cs)
    (hdigit : c.isDigit = false) (hminus : c ≠ '-') : integer? cs = none := by
  unfold integer?
  split
  · rename_i ds
    have hm : c ∈ ds := (List.mem_cons.mp hc).resolve_left hminus
    rw [natural?_eq_none_of_mem hm hdigit]
    rfl
  · rw [natural?_eq_none_of_mem hc hdigit]
    rfl

theorem mem_of_mem_trim {c : Char} {cs : List Char} (h : c ∈ trim cs) : c ∈ cs := by
  unfold trim trimEnd trimStart at h
  have hrev := List.mem_reverse.mp h
  have hdrop := (List.dropWhile_sublist _).subset hrev
  exact (List.dropWhile_sublist _).subset (List.mem_reverse.mp hdrop)

end Text

namespace Segment

/-! ## Segments -/

theorem read?_eq_none_of_colon {cs : List Char} (h : ':' ∈ cs) : Position.read? cs = none := by
  rw [Position.read?, Text.integer?_eq_none_of_mem h rfl (by decide)]
  rfl

theorem slice_read?_eq_none {cs : List Char} (h : ':' ∉ cs) : Slice.read? cs = none := by
  unfold Slice.read?
  rw [Text.split_of_notMem h]

/-- A slice reads back from its text. -/
theorem slice_read?_text (s : Slice) : Slice.read? s.text = some s := by
  have hfree : ∀ p : Option Int64, ':' ∉ (p.map Position.text).getD [] := by
    intro p
    cases p with
    | none => simp
    | some i => exact notMem_text_index rfl (by decide) i
  have hread : ∀ p : Option Int64, Slice.readPart? ((p.map Position.text).getD []) = some p := by
    intro p
    cases p with
    | none => rfl
    | some i =>
      have hne : Position.text i ≠ [] := by
        intro he
        have hback := Position.read?_text i
        rw [he] at hback
        cases hback
      rw [Option.map_some, Option.getD_some, Slice.readPart?,
        if_neg (by rw [List.isEmpty_iff]; exact hne), Position.read?_text, Option.map_some]
  unfold Slice.read? Slice.text
  rw [Text.split_append (hfree s.start), Text.split_append (hfree s.stop),
    Text.split_of_notMem (hfree s.step)]
  dsimp only
  rw [hread, hread, hread]

theorem classify_text_slice (s : Slice) : classify s.text = slice s := by
  have hcolon : ':' ∈ s.text := List.mem_append_right _ List.mem_cons_self
  rw [classify, read?_eq_none_of_colon hcolon, slice_read?_text]

/-- A segment from a text reads back from its own text. -/
theorem classify_text_classify (cs : List Char) : classify (classify cs).text = classify cs := by
  cases h : classify cs with
  | index place => exact classify_text_index place
  | slice s => exact classify_text_slice s
  | key name =>
    have hslice : (classify cs).isSlice = false := by rw [h]; rfl
    have hparsed := isParsed_classify hslice
    rw [h] at hparsed
    exact hparsed

theorem isSlice_classify {cs : List Char} (h : ':' ∉ cs) : (classify cs).isSlice = false := by
  unfold classify
  rw [slice_read?_eq_none h]
  cases Position.read? cs <;> rfl

/-- Without signs and colons, the text of a segment is what it was read from, less leading zeros. -/
theorem text_classify_suffix {cs : List Char} (hminus : '-' ∉ cs) (hcolon : ':' ∉ cs) :
    (classify cs).text <:+ cs := by
  unfold classify
  rw [slice_read?_eq_none hcolon]
  cases hr : Position.read? cs with
  | none =>
    have htext : (String.ofList cs).toList = cs := String.toList_ofList
    exact ⟨[], htext⟩
  | some place =>
    obtain ⟨i, hi, hp⟩ := Option.bind_eq_some_iff.mp hr
    obtain ⟨n, hn, rfl⟩ : ∃ n : Nat, Text.natural? cs = some n ∧ i = n := by
      rcases Text.integer?_eq_some_iff.mp hi with hn | ⟨ds, -, rfl, -⟩
      · exact hn
      · exact absurd List.mem_cons_self hminus
    have hplace : place.toInt = n := Position.toInt_of_ofInt? hp
    obtain ⟨hne, hdigits, hvalue⟩ := Text.natural?_eq_some_iff.mp hn
    show Position.text place <:+ cs
    rw [Position.text, hplace, Text.decimalInt, if_neg (by omega), Int.natAbs_natCast, ← hvalue]
    exact Text.decimal_digitsValue_suffix hne hdigits

theorem text_classify_ne_nil {cs : List Char} (hne : cs ≠ []) : (classify cs).text ≠ [] := by
  intro h
  have hback : classify cs = key "" := by
    rw [← classify_text_classify cs, h]
    rfl
  exact hne (eq_of_classify_key hback)

/-- A character that no numeral or slice is spelled with is not in the text of a slice. -/
theorem notMem_text_slice {c : Char} (hdigit : c.isDigit = false) (hminus : c ≠ '-')
    (hcolon : c ≠ ':') (s : Slice) : c ∉ (slice s).text := by
  have hpart : ∀ p : Option Int64, c ∉ (p.map Position.text).getD [] := by
    intro p
    cases p with
    | none => simp
    | some i => exact notMem_text_index hdigit hminus i
  show c ∉ _ ++ ':' :: (_ ++ ':' :: _)
  simp only [List.mem_append, List.mem_cons, not_or]
  exact ⟨hpart s.start, hcolon, hpart s.stop, hcolon, hpart s.step⟩

/-- A character that no numeral or slice is spelled with is in the text of a segment only if it was
in what the segment was read from. -/
theorem notMem_text_of_notMem {c : Char} (hdigit : c.isDigit = false) (hminus : c ≠ '-')
    (hcolon : c ≠ ':') {cs : List Char} (h : c ∉ cs) : c ∉ (classify cs).text := by
  cases hs : (classify cs).isSlice with
  | false => exact notMem_text_classify hdigit hminus h hs
  | true =>
    cases hc : classify cs with
    | slice s => exact notMem_text_slice hdigit hminus hcolon s
    | key name =>
      rw [hc] at hs
      cases hs
    | index place =>
      rw [hc] at hs
      cases hs

end Segment

/-! ## Paths -/

/-- The path is read back from its canonical text. -/
def Path.ReadsBack (delimiter : String) (p : Path) : Prop :=
  Address.segmentsOf delimiter.toList (p.text delimiter).toList = p

namespace Path

variable {delimiter : String} {p q : Path}

theorem readsBack_nil (delimiter : String) : ReadsBack delimiter [] := by
  rw [ReadsBack, Path.text, String.toList_ofList]
  rfl

/-- Paths that are read back are told apart by their canonical texts. -/
theorem ReadsBack.inj (hp : p.ReadsBack delimiter) (hq : q.ReadsBack delimiter)
    (h : p.text delimiter = q.text delimiter) : p = q := by
  rw [← hp, h, hq]

/-- A path is read back if its segments are, no delimiter begins inside one of their texts, and the
path is not the empty key alone. -/
theorem readsBack_of_parted (hd : delimiter.toList ≠ [])
    (hread : ∀ s ∈ p, Segment.classify s.text = s)
    (hparted : Text.Parted delimiter.toList (p.map Segment.text)) (hne : p ≠ [.key ""]) :
    p.ReadsBack delimiter := by
  have hmap : (p.map Segment.text).map Segment.classify = p := by
    rw [List.map_map]
    exact (List.map_congr_left hread).trans (List.map_id p)
  by_cases hnil : p = []
  · rw [hnil]
    exact readsBack_nil delimiter
  · have hsplit := Text.split_join_of_parted hd (by simpa using hnil) hparted
    have hjoin : Text.join delimiter.toList (p.map Segment.text) ≠ [] := by
      intro he
      rw [he] at hsplit
      have hone : [Segment.classify []] = p := by
        rw [← hmap, ← hsplit]
        rfl
      exact hne hone.symm
    rw [ReadsBack, Path.text, String.toList_ofList, Address.segmentsOf,
      if_neg (by rw [List.isEmpty_iff]; exact hjoin), if_neg (by rw [List.isEmpty_iff]; exact hd),
      hsplit, hmap]

/-- Every segment is read back from its text and has no delimiter in it. -/
def Legible (c : Char) (p : Path) : Prop :=
  ∀ s ∈ p, Segment.classify s.text = s ∧ c ∉ s.text

theorem Legible.append {c : Char} (hp : p.Legible c) (hq : q.Legible c) : Legible c (p ++ q) := by
  intro s hs
  rcases List.mem_append.mp hs with h | h
  · exact hp s h
  · exact hq s h

theorem Legible.dropLast {c : Char} (hp : p.Legible c) : Legible c (List.dropLast p) :=
  fun s hs => hp s (List.dropLast_subset _ hs)

theorem legible_index {c : Char} (hdigit : c.isDigit = false) (hminus : c ≠ '-') (i : Int64) :
    Legible c [.index i] := by
  intro s hs
  rw [List.mem_singleton.mp hs]
  exact ⟨Segment.classify_text_index i, Segment.notMem_text_index hdigit hminus i⟩

/-- A legible path other than the empty key alone is read back. -/
theorem Legible.readsBack {c : Char} (hp : p.Legible c) (hd : delimiter.toList = [c])
    (hne : p ≠ [.key ""]) : p.ReadsBack delimiter := by
  refine readsBack_of_parted (by simp [hd]) (fun s hs => (hp s hs).1) ?_ hne
  rw [hd]
  refine Text.parted_of_notMem fun part hpart => ?_
  obtain ⟨s, hs, rfl⟩ := List.mem_map.mp hpart
  exact (hp s hs).2

end Path

namespace Address

variable {delimiter : String} {cs : List Char}

theorem fullPath_nil (a : Address) : a.fullPath [] = a.segments := by
  unfold fullPath
  split <;> rfl

theorem segmentsOf_eq_map (hd : delimiter.toList ≠ []) (hne : cs ≠ []) :
    segmentsOf delimiter.toList cs =
      (Text.split delimiter.toList cs).map Segment.classify := by
  rw [segmentsOf, if_neg (by rw [List.isEmpty_iff]; exact hne),
    if_neg (by rw [List.isEmpty_iff]; exact hd)]

/-- No text is read as the empty key alone. -/
theorem segmentsOf_ne_empty_key (hd : delimiter.toList ≠ []) (cs : List Char) :
    segmentsOf delimiter.toList cs ≠ [.key ""] := by
  intro h
  by_cases hne : cs = []
  · rw [hne] at h
    cases h
  · rw [segmentsOf_eq_map hd hne] at h
    obtain ⟨part, hsplit, hpart⟩ := List.map_eq_singleton_iff.mp h
    rw [Segment.eq_of_classify_key hpart] at hsplit
    have hjoin := Text.join_split hd cs
    rw [hsplit] at hjoin
    exact hne hjoin.symm

/-- Whatever the delimiter is, the path of a text without signs and colons is read back. -/
theorem readsBack_segmentsOf (delimiter : String) (hminus : '-' ∉ cs) (hcolon : ':' ∉ cs) :
    (segmentsOf delimiter.toList cs).ReadsBack delimiter := by
  by_cases hne : cs = []
  · rw [hne]
    exact Path.readsBack_nil delimiter
  · by_cases hd : delimiter.toList = []
    · have hone : segmentsOf delimiter.toList cs = [Segment.classify cs] := by
        rw [segmentsOf, if_neg (by rw [List.isEmpty_iff]; exact hne), hd]
        rfl
      rw [hone, Path.ReadsBack, Path.text, String.toList_ofList, List.map_singleton, Text.join,
        segmentsOf, if_neg (by rw [List.isEmpty_iff]; exact Segment.text_classify_ne_nil hne), hd,
        Segment.classify_text_classify]
      rfl
    · refine Path.readsBack_of_parted hd ?_ ?_ (segmentsOf_ne_empty_key hd cs)
      · rw [segmentsOf_eq_map hd hne]
        intro s hs
        obtain ⟨part, -, rfl⟩ := List.mem_map.mp hs
        exact Segment.classify_text_classify part
      · rw [segmentsOf_eq_map hd hne, List.map_map]
        have hparts := Text.parted_split hd cs
        rw [← List.map_id (Text.split delimiter.toList cs)] at hparts
        refine hparts.map_suffix fun part hpart => ?_
        -- Every part lies in the text, so it has neither signs nor colons.
        have hsub : ∀ c ∈ part, c ∈ cs := fun c hc => Text.mem_of_mem_split hd hpart hc
        exact Segment.text_classify_suffix (fun h => hminus (hsub _ h)) fun h => hcolon (hsub _ h)

theorem segments_parse_text (delimiter q : String) :
    ∃ cs, (∀ c ∈ cs, c ∈ q.toList) ∧
      (parse (.text q) delimiter).segments = segmentsOf delimiter.toList cs := by
  have htrim : ∀ c ∈ Text.trim q.toList, c ∈ q.toList := fun c hc => Text.mem_of_mem_trim hc
  unfold parse
  dsimp only
  split
  · rename_i rest hrest
    refine ⟨rest, fun c hc => htrim c ?_, rfl⟩
    rw [Option.ite_none_left_eq_some] at hrest
    rw [Text.stripPrefix?_eq_some_iff.mp hrest.2]
    exact List.mem_append_right _ hc
  · exact ⟨Text.trim q.toList, htrim, rfl⟩

/-- Whatever the delimiter is, the path of a text query without signs and colons is read back from
its canonical text. -/
theorem readsBack_parse_text (delimiter : String) {q : String} (hminus : '-' ∉ q.toList)
    (hcolon : ':' ∉ q.toList) : (parse (.text q) delimiter).segments.ReadsBack delimiter := by
  obtain ⟨cs, hcs, he⟩ := segments_parse_text delimiter q
  rw [he]
  exact readsBack_segmentsOf delimiter (fun h => hminus (hcs _ h)) fun h => hcolon (hcs _ h)

/-- A text query without colons has no slices. -/
theorem isSlice_of_mem_parse_text {delimiter q : String} (hcolon : ':' ∉ q.toList) {s : Segment}
    (hs : s ∈ (parse (.text q) delimiter).segments) : s.isSlice = false := by
  obtain ⟨cs, hcs, he⟩ := segments_parse_text delimiter q
  rw [he] at hs
  by_cases hne : cs = []
  · rw [hne] at hs
    cases hs
  · by_cases hd : delimiter.toList = []
    · rw [segmentsOf, if_neg (by rw [List.isEmpty_iff]; exact hne), hd] at hs
      rw [List.mem_singleton.mp hs]
      exact Segment.isSlice_classify fun h => hcolon (hcs _ h)
    · rw [segmentsOf_eq_map hd hne] at hs
      obtain ⟨part, hpart, rfl⟩ := List.mem_map.mp hs
      exact Segment.isSlice_classify fun h => hcolon (hcs _ (Text.mem_of_mem_split hd hpart h))

/-! ## Text queries with one character as the delimiter -/

section

variable {c : Char} (hdigit : c.isDigit = false) (hminus : c ≠ '-') (hcolon : c ≠ ':')
  (hd : delimiter.toList = [c])

include hdigit hminus hcolon hd

/-- The path of a text query is legible, and it is not the empty key alone. -/
theorem legible_parse_text (q : String) :
    (parse (.text q) delimiter).segments.Legible c ∧
      (parse (.text q) delimiter).segments ≠ [.key ""] := by
  have hne : delimiter.toList ≠ [] := by simp [hd]
  obtain ⟨cs, -, he⟩ := segments_parse_text delimiter q
  rw [he]
  refine ⟨fun s hs => ?_, segmentsOf_ne_empty_key hne cs⟩
  by_cases hnil : cs = []
  · rw [hnil] at hs
    cases hs
  · rw [segmentsOf_eq_map hne hnil, hd] at hs
    obtain ⟨part, hpart, rfl⟩ := List.mem_map.mp hs
    have hfree := Text.notMem_of_mem_split hpart
    exact ⟨Segment.classify_text_classify part,
      Segment.notMem_text_of_notMem hdigit hminus hcolon hfree⟩

/-- The paths that a text query names from the root are read back. -/
theorem readsBack_of_mem_locate? {q : String} {v : Value} {targets : List Target}
    (hl : v.locate? (parse (.text q) delimiter) [] = some targets) {t : Target}
    (ht : t ∈ targets) : t.path.ReadsBack delimiter := by
  obtain ⟨hlegible, hne⟩ := legible_parse_text hdigit hminus hcolon hd q
  rcases Value.of_mem_locate? hl ht with ⟨-, hp, -⟩ | ⟨-, items, p, item, -, -, rfl⟩
  · rw [hp, fullPath_nil]
    exact hlegible.readsBack hd hne
  · rw [fullPath_nil]
    refine (hlegible.dropLast.append (Path.legible_index hdigit hminus _)).readsBack hd fun he => ?_
    rcases List.append_eq_singleton_iff.mp he with ⟨-, he⟩ | ⟨-, he⟩
    · cases he
    · cases he

end

end Address

end LiveDocument
