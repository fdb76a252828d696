import LiveDocument.Proofs.Value.Coherence

/-!
# The lexicographic order

Sequences are ordered by the first place at which they differ, and a proper initial part comes
first; so are the letters of texts. How integers are ordered is left open: whatever ranks integers
ranks the values in which there are no other numbers.

* `Side`: the ordering that a relation gives. `side_iff`: and a comparison that computes it.
* `FirstDecides`: the first place that differs decides. `firstDecides_cons`: and what is before it.
* `Ranked`: how values are ordered, given how integers are. `ranked_sequence_iff` and its likes: what
  it says of two values of one shape.
* `Over`: values whose numbers are integers of a set.
* `order?_eq_some_iff_ranked`: the order of values is that of their integers.
-/

namespace LiveDocument

/-- On which side of another something is, given what comes before what. -/
inductive Side {α : Type} (before : α → α → Prop) : α → α → Ordering → Prop
  | before {x y : α} (h : before x y) : Side before x y .lt
  | same (x : α) : Side before x x .eq
  | after {x y : α} (h : before y x) : Side before x y .gt

section

variable {α : Type} {before : α → α → Prop} {x y : α}

theorem side_iff {f o : Ordering} (hlt : f = .lt ↔ before x y) (heq : f = .eq ↔ x = y)
    (hgt : f = .gt ↔ before y x) : f = o ↔ Side before x y o := by
  constructor
  · rintro rfl
    cases hf : f with
    | lt => exact .before (hlt.mp hf)
    | eq =>
      obtain rfl := heq.mp hf
      exact .same x
    | gt => exact .after (hgt.mp hf)
  · intro h
    cases h with
    | before h => exact hlt.mpr h
    | same => exact heq.mpr rfl
    | after h => exact hgt.mpr h

end

/-- One number is less than another. -/
def Less (m n : Nat) : Prop :=
  m < n

/-- False comes before true. -/
def Precedes (x y : Bool) : Prop :=
  x = false ∧ y = true

instance (x y : Bool) : Decidable (Precedes x y) :=
  inferInstanceAs (Decidable (_ ∧ _))

theorem side_compare {m n : Nat} {o : Ordering} : compare m n = o ↔ Side Less m n o :=
  side_iff Nat.compare_eq_lt Nat.compare_eq_eq Nat.compare_eq_gt

theorem side_toNat {x y : Bool} {o : Ordering} :
    compare x.toNat y.toNat = o ↔ Side Precedes x y o := by
  refine side_iff ?_ ?_ ?_ <;> cases x <;> cases y <;> decide

theorem side_succ {m n : Nat} {o : Ordering} : Side Less (m + 1) (n + 1) o ↔ Side Less m n o := by
  rw [← side_compare]
  exact side_iff (Nat.compare_eq_lt.trans Nat.succ_lt_succ_iff)
    (Nat.compare_eq_eq.trans Nat.succ_inj) (Nat.compare_eq_gt.trans Nat.succ_lt_succ_iff)

namespace Value

/-! ## Texts -/

/-- The first letter that differs has the smaller number, or the text ends there. -/
def TextBefore (s t : String) : Prop :=
  List.Lex (fun c d => c.toNat < d.toNat) s.toList t.toList

theorem compareText_eq_lt_iff (cs ds : List Char) :
    compareText cs ds = .lt ↔ List.Lex (fun c d => c.toNat < d.toNat) cs ds := by
  induction cs generalizing ds with
  | nil =>
    cases ds with
    | nil => constructor <;> intro h <;> cases h
    | cons d ds => exact ⟨fun _ => .nil, fun _ => rfl⟩
  | cons c cs ih =>
    cases ds with
    | nil => constructor <;> intro h <;> cases h
    | cons d ds =>
      rw [List.cons_lex_cons_iff, ← Char.toNat_inj, ← ih ds]
      rcases Nat.lt_trichotomy c.toNat d.toNat with h | h | h
      · simp [compareText_of_lt h, h]
      · simp [compareText_of_eq h, h]
      · simp [compareText_of_gt h, Nat.ne_of_gt h, Nat.lt_asymm h]

theorem side_compareText (s t : String) (o : Ordering) :
    compareText s.toList t.toList = o ↔ Side TextBefore s t o := by
  refine side_iff (compareText_eq_lt_iff _ _) ?_ ?_
  · rw [compareText_eq_iff, String.toList_inj]
  · rw [compareText_swap, Ordering.swap_eq_gt, compareText_eq_lt_iff]
    rfl

/-! ## Sequences -/

/-- The first place at which elements are not of the same rank decides, or else the lengths do. -/
def FirstDecides (R : Value → Value → Ordering → Prop) (as bs : List Value) (o : Ordering) : Prop :=
  (∃ (p : Nat) (a b : Value), as[p]? = some a ∧ bs[p]? = some b ∧ R a b o ∧ o ≠ .eq ∧
      ∀ q < p, ∀ x y, as[q]? = some x → bs[q]? = some y → R x y .eq) ∨
    (∀ (p : Nat) (a b : Value), as[p]? = some a → bs[p]? = some b → R a b .eq) ∧
      Side Less as.length bs.length o

section

variable {R Q : Value → Value → Ordering → Prop} {as bs : List Value} {o : Ordering}

theorem firstDecides_nil (h : as = [] ∨ bs = []) :
    FirstDecides R as bs o ↔ Side Less as.length bs.length o := by
  have hnone : ∀ {p : Nat} {a b : Value}, as[p]? = some a → bs[p]? = some b → False := by
    rintro p a b ha hb
    rcases h with rfl | rfl
    · cases ha
    · cases hb
  constructor
  · rintro (⟨p, a, b, ha, hb, -⟩ | ⟨-, hside⟩)
    · exact (hnone ha hb).elim
    · exact hside
  · exact fun hside => .inr ⟨fun p a b ha hb => (hnone ha hb).elim, hside⟩

theorem firstDecides_cons {a b : Value} : FirstDecides R (a :: as) (b :: bs) o ↔
    (R a b o ∧ o ≠ .eq) ∨ (R a b .eq ∧ FirstDecides R as bs o) := by
  constructor
  · rintro (⟨p, x, y, hx, hy, hR, ho, hbefore⟩ | ⟨hall, hside⟩)
    · cases p with
      | zero =>
        cases hx
        cases hy
        exact .inl ⟨hR, ho⟩
      | succ p =>
        refine .inr ⟨hbefore 0 (Nat.succ_pos p) a b rfl rfl, .inl ⟨p, x, y, hx, hy, hR, ho, ?_⟩⟩
        exact fun q hq => hbefore (q + 1) (Nat.succ_lt_succ hq)
    · exact .inr ⟨hall 0 a b rfl rfl, .inr ⟨fun p => hall (p + 1), side_succ.mp hside⟩⟩
  · rintro (⟨hR, ho⟩ | ⟨hR, ⟨p, x, y, hx, hy, hxy, ho, hbefore⟩ | ⟨hall, hside⟩⟩)
    · exact .inl ⟨0, a, b, rfl, rfl, hR, ho, fun q hq => absurd hq (Nat.not_lt_zero q)⟩
    · refine .inl ⟨p + 1, x, y, hx, hy, hxy, ho, fun q hq u v hu hv => ?_⟩
      cases q with
      | zero =>
        cases hu
        cases hv
        exact hR
      | succ q => exact hbefore q (Nat.lt_of_succ_lt_succ hq) u v hu hv
    · refine .inr ⟨fun p u v hu hv => ?_, side_succ.mpr hside⟩
      cases p with
      | zero =>
        cases hu
        cases hv
        exact hR
      | succ p => exact hall p u v hu hv

theorem FirstDecides.imp (h : FirstDecides R as bs o)
    (himp : ∀ a ∈ as, ∀ b ∈ bs, ∀ o, R a b o → Q a b o) : FirstDecides Q as bs o := by
  have hat : ∀ {p : Nat} {a b : Value} {o}, as[p]? = some a → bs[p]? = some b → R a b o →
      Q a b o := fun ha hb =>
    himp _ (List.mem_of_getElem? ha) _ (List.mem_of_getElem? hb) _
  rcases h with ⟨p, a, b, ha, hb, hR, ho, hbefore⟩ | ⟨hall, hside⟩
  · exact .inl ⟨p, a, b, ha, hb, hat ha hb hR, ho, fun q hq x y hx hy =>
      hat hx hy (hbefore q hq x y hx hy)⟩
  · exact .inr ⟨fun p a b ha hb => hat ha hb (hall p a b ha hb), hside⟩

theorem firstDecides_congr (h : ∀ a ∈ as, ∀ b ∈ bs, ∀ o, (R a b o ↔ Q a b o)) :
    FirstDecides R as bs o ↔ FirstDecides Q as bs o :=
  ⟨fun hR => hR.imp fun a ha b hb o => (h a ha b hb o).mp,
    fun hQ => hQ.imp fun a ha b hb o => (h a ha b hb o).mpr⟩

end

/-- Sequences are compared by the first place that decides. -/
theorem orderAll?_eq_some_iff {as bs : List Value} {o : Ordering} :
    orderAll? as bs = some o ↔ FirstDecides (fun a b o => a.order? b = some o) as bs o := by
  induction as generalizing bs with
  | nil =>
    have hend : orderAll? [] bs = some (compare 0 bs.length) := by cases bs <;> rfl
    rw [firstDecides_nil (.inl rfl), hend, Option.some_inj]
    exact side_compare
  | cons a as ih =>
    cases bs with
    | nil =>
      rw [firstDecides_nil (.inr rfl), ← side_compare]
      exact Option.some_inj
    | cons b bs =>
      rw [firstDecides_cons, ← @ih bs, orderAll?]
      cases a.order? b with
      | none => simp
      | some first =>
        cases first <;> cases o <;> simp

/-! ## Values -/

/-- How values are ordered, if integers are ranked in some way. Mappings, floats and values of two
shapes are not. -/
inductive Ranked (rank : Integer → Integer → Ordering → Prop) : Value → Value → Ordering → Prop
  | null : Ranked rank .null .null .eq
  | boolean {x y : Bool} {o : Ordering} (h : Side Precedes x y o) :
    Ranked rank (.boolean x) (.boolean y) o
  | integer {i j : Integer} {o : Ordering} (h : rank i j o) :
    Ranked rank (.integer i) (.integer j) o
  | string {s t : String} {o : Ordering} (h : Side TextBefore s t o) :
    Ranked rank (.string s) (.string t) o
  | decided {as bs : List Value} {o : Ordering} {p : Nat} {a b : Value} (ha : as[p]? = some a)
    (hb : bs[p]? = some b) (hab : Ranked rank a b o) (ho : o ≠ .eq)
    (hbefore : ∀ q < p, ∀ x y, as[q]? = some x → bs[q]? = some y → Ranked rank x y .eq) :
    Ranked rank (.sequence as) (.sequence bs) o
  | extended {as bs : List Value} {o : Ordering}
    (hall : ∀ (p : Nat) (a b : Value), as[p]? = some a → bs[p]? = some b → Ranked rank a b .eq)
    (hlength : Side Less as.length bs.length o) : Ranked rank (.sequence as) (.sequence bs) o

section

variable {rank : Integer → Integer → Ordering → Prop} {o : Ordering}

theorem ranked_null_iff : Ranked rank .null .null o ↔ .eq = o := by
  constructor
  · intro h
    cases h
    rfl
  · rintro rfl
    exact .null

theorem ranked_boolean_iff {x y : Bool} :
    Ranked rank (.boolean x) (.boolean y) o ↔ Side Precedes x y o := by
  constructor
  · intro h
    cases h
    assumption
  · exact .boolean

theorem ranked_integer_iff {i j : Integer} :
    Ranked rank (.integer i) (.integer j) o ↔ rank i j o := by
  constructor
  · intro h
    cases h
    assumption
  · exact .integer

theorem ranked_string_iff {s t : String} :
    Ranked rank (.string s) (.string t) o ↔ Side TextBefore s t o := by
  constructor
  · intro h
    cases h
    assumption
  · exact .string

theorem ranked_sequence_iff {as bs : List Value} :
    Ranked rank (.sequence as) (.sequence bs) o ↔ FirstDecides (Ranked rank) as bs o := by
  constructor
  · intro h
    cases h with
    | decided ha hb hab ho hbefore => exact .inl ⟨_, _, _, ha, hb, hab, ho, hbefore⟩
    | extended hall hlength => exact .inr ⟨hall, hlength⟩
  · rintro (⟨p, a, b, ha, hb, hab, ho, hbefore⟩ | ⟨hall, hlength⟩)
    · exact .decided ha hb hab ho hbefore
    · exact .extended hall hlength

end

/-- A value is no float, and if it is an integer, then one of the set. -/
def NumberIn (S : Integer → Prop) : Value → Prop
  | .integer i => S i
  | .float _ => False
  | _ => True

/-- A value without double keys whose numbers are integers of a set. -/
structure Over (S : Integer → Prop) (v : Value) : Prop where
  distinct : v.Distinct
  numbers : v.Throughout (NumberIn S)

section

variable {S : Integer → Prop}

theorem Over.item {items : List Value} (h : Over S (.sequence items)) {item : Value}
    (hitem : item ∈ items) : Over S item :=
  ⟨(throughout_sequence.mp h.distinct).2 item hitem,
    (throughout_sequence.mp h.numbers).2 item hitem⟩

theorem Over.entry {entries : List (String × Value)} (h : Over S (.mapping entries))
    {e : String × Value} (he : e ∈ entries) : Over S e.2 :=
  ⟨(throughout_mapping.mp h.distinct).2 e he, (throughout_mapping.mp h.numbers).2 e he⟩

variable {rank : Integer → Integer → Ordering → Prop} {a b : Value}

theorem order?_scalar_iff_ranked
    (hrank : ∀ i j, S i → S j → ∀ o, ((integer i).order? (.integer j) = some o ↔ rank i j o))
    (hscalar : a.kind.isContainer = false) (ha : Over S a) (hb : Over S b) (o : Ordering) :
    a.order? b = some o ↔ Ranked rank a b o := by
  cases a with
  | null =>
    cases b with
    | null => rw [order?, Option.some_inj, ranked_null_iff]
    | _ => constructor <;> intro h <;> cases h
  | boolean x =>
    cases b with
    | boolean y => rw [order?, Option.some_inj, side_toNat, ranked_boolean_iff]
    | _ => constructor <;> intro h <;> cases h
  | string s =>
    cases b with
    | string t => rw [order?, Option.some_inj, side_compareText, ranked_string_iff]
    | _ => constructor <;> intro h <;> cases h
  | integer i =>
    cases b with
    | integer j => rw [hrank i j ha.numbers hb.numbers o, ranked_integer_iff]
    | float y => exact False.elim hb.numbers
    | _ => constructor <;> intro h <;> cases h
  | float x => exact False.elim ha.numbers
  | sequence _ => cases hscalar
  | mapping _ => cases hscalar

/-- Whatever ranks the integers of a set ranks the values in which there are no other numbers. -/
theorem order?_eq_some_iff_ranked
    (hrank : ∀ i j, S i → S j → ∀ o, ((integer i).order? (.integer j) = some o ↔ rank i j o))
    (ha : Over S a) (hb : Over S b) (o : Ordering) : a.order? b = some o ↔ Ranked rank a b o := by
  induction a using induction_members generalizing b o with
  | scalar a hscalar => exact order?_scalar_iff_ranked hrank hscalar ha hb o
  | sequence as ih =>
    cases b with
    | sequence bs =>
      rw [ranked_sequence_iff, order?, orderAll?_eq_some_iff]
      exact firstDecides_congr fun a hmem b hmemb => ih a hmem (ha.item hmem) (hb.item hmemb)
    | _ => constructor <;> intro h <;> cases h
  | mapping as ih => cases b <;> constructor <;> intro h <;> cases h

end

end Value

end LiveDocument
