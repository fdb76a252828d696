import LiveDocument.Proofs.Value.Correspondence

/-!
# Equality and order fit together

Equality holds between a value and itself and between two values in either direction, whatever the
order of entries. The order of two values turns around with them, and it finds them equal if they
are, unless they hold mappings, which it never compares.

* `equals_sequence_iff`, `equals_mapping_iff`: containers are equal by their members.
* `equals_comm`, `Rearranged.equals_left`: equality and the order of entries.
* `orderAll?_eq_some_eq_iff`: sequences are of the same rank by their elements.
* `order?_swap`, `equals_of_order?_eq`, `order?_eq_of_equals`: order against equality.
* `comparisons_coherent`: all of it.
-/

namespace LiveDocument

namespace Binary64

section

variable {x y : Binary64}

theorem order_of_lt (h : x.units < y.units) : x.order y = .lt :=
  if_pos h

theorem order_of_eq (h : x.units = y.units) : x.order y = .eq := by
  rw [order, if_neg (by omega), if_pos h]

theorem order_of_gt (h : y.units < x.units) : x.order y = .gt := by
  rw [order, if_neg (by omega), if_neg (by omega)]

end

theorem order_swap (x y : Binary64) : y.order x = (x.order y).swap := by
  rcases Int.lt_trichotomy x.units y.units with h | h | h
  · rw [order_of_lt h, order_of_gt h]
    rfl
  · rw [order_of_eq h, order_of_eq h.symm]
    rfl
  · rw [order_of_gt h, order_of_lt h]
    rfl

/-- Numbers are of the same rank if they are equal. -/
theorem order_eq_iff (x y : Binary64) : x.order y = .eq ↔ x.same y = true := by
  rw [same, beq_iff_eq]
  rcases Int.lt_trichotomy x.units y.units with h | h | h
  · simp [order_of_lt h, Int.ne_of_lt h]
  · simp [order_of_eq h, h]
  · simp [order_of_gt h, (Int.ne_of_lt h).symm]

end Binary64

namespace Value

/-! ## Numbers and texts -/

theorem equalNumbers_self {a : Value} {x : Binary64} (h : a.toBinary64? = some x) :
    equalNumbers a a = true := by
  unfold equalNumbers
  rw [h]
  cases a.toSigned? with
  | none => exact beq_self_eq_true _
  | some i => exact beq_self_eq_true _

theorem equalNumbers_comm (a b : Value) : equalNumbers a b = equalNumbers b a := by
  unfold equalNumbers
  cases a.toSigned? <;> cases b.toSigned? <;> cases a.toBinary64? <;> cases b.toBinary64? <;>
    first | rfl | exact BEq.comm

theorem compareNumbers_swap (a b : Value) :
    compareNumbers b a = (compareNumbers a b).map Ordering.swap := by
  unfold compareNumbers
  cases a.toSigned? <;> cases b.toSigned? <;> cases a.toBinary64? <;> cases b.toBinary64? <;>
    first
    | rfl
    | exact congrArg some Std.OrientedOrd.eq_swap
    | exact congrArg some (Binary64.order_swap _ _)

/-- Numbers are of the same rank if they are equal. -/
theorem compareNumbers_eq_iff (a b : Value) :
    compareNumbers a b = some .eq ↔ equalNumbers a b = true := by
  unfold compareNumbers equalNumbers
  cases a.toSigned? <;> cases b.toSigned? <;> cases a.toBinary64? <;> cases b.toBinary64? <;>
    simp [Binary64.order_eq_iff, Int64.toInt_inj]

section

variable {c d : Char} {cs ds : List Char}

theorem compareText_of_lt (h : c.toNat < d.toNat) : compareText (c :: cs) (d :: ds) = .lt :=
  if_pos h

theorem compareText_of_eq (h : c.toNat = d.toNat) :
    compareText (c :: cs) (d :: ds) = compareText cs ds := by
  rw [compareText, if_neg (by omega), if_neg (by omega)]

theorem compareText_of_gt (h : d.toNat < c.toNat) : compareText (c :: cs) (d :: ds) = .gt := by
  rw [compareText, if_neg (by omega), if_pos h]

end

theorem compareText_swap (cs ds : List Char) :
    compareText ds cs = (compareText cs ds).swap := by
  induction cs generalizing ds with
  | nil => cases ds <;> rfl
  | cons c cs ih =>
    cases ds with
    | nil => rfl
    | cons d ds =>
      rcases Nat.lt_trichotomy c.toNat d.toNat with h | h | h
      · rw [compareText_of_lt h, compareText_of_gt h]
        rfl
      · rw [compareText_of_eq h, compareText_of_eq h.symm, ih ds]
      · rw [compareText_of_gt h, compareText_of_lt h]
        rfl

theorem compareText_eq_iff (cs ds : List Char) : compareText cs ds = .eq ↔ cs = ds := by
  induction cs generalizing ds with
  | nil => cases ds <;> simp [compareText]
  | cons c cs ih =>
    cases ds with
    | nil => simp [compareText]
    | cons d ds =>
      rw [List.cons.injEq, ← Char.toNat_inj, ← ih ds]
      rcases Nat.lt_trichotomy c.toNat d.toNat with h | h | h
      · simp [compareText_of_lt h, Nat.ne_of_lt h]
      · simp [compareText_of_eq h, h]
      · simp [compareText_of_gt h, Nat.ne_of_gt h]

/-! ## Containers -/

theorem equals_sequence_iff {as bs : List Value} :
    (sequence as).equals (.sequence bs) = true ↔ Paired (fun a b => a.equals b = true) as bs := by
  rw [equals, Bool.and_eq_true, beq_iff_eq]
  induction as generalizing bs with
  | nil => cases bs <;> simp [equalsAll, Paired]
  | cons a as ih =>
    cases bs with
    | nil => simp [Paired]
    | cons b bs =>
      rw [paired_cons, ← ih, equalsAll, Bool.and_eq_true, List.length_cons, List.length_cons,
        Nat.add_right_cancel_iff, and_left_comm]

theorem equals_mapping_iff {as bs : List (String × Value)} :
    (mapping as).equals (.mapping bs) = true ↔ Included (fun a b => a.equals b = true) as bs := by
  rw [equals, Bool.and_eq_true, beq_iff_eq]
  refine and_congr_right fun _ => ?_
  clear * -
  induction as with
  | nil => simp [includes]
  | cons e as ih =>
    obtain ⟨k, a⟩ := e
    rw [includes, Bool.and_eq_true, ih, List.forall_mem_cons]
    refine and_congr_left fun _ => ?_
    cases Entries.get? k bs <;> simp

/-- Sequences are of the same rank if they have as many elements and these are of the same rank. -/
theorem orderAll?_eq_some_eq_iff {as bs : List Value} :
    orderAll? as bs = some .eq ↔ Paired (fun a b => a.order? b = some .eq) as bs := by
  induction as generalizing bs with
  | nil => cases bs <;> simp [orderAll?, Paired]
  | cons a as ih =>
    cases bs with
    | nil => simp [orderAll?, Paired]
    | cons b bs =>
      rw [paired_cons, ← ih, orderAll?]
      cases a.order? b with
      | none => simp
      | some o => cases o <;> simp

theorem orderAll?_swap {as : List Value}
    (h : ∀ a ∈ as, ∀ b : Value, b.order? a = (a.order? b).map Ordering.swap) (bs : List Value) :
    orderAll? bs as = (orderAll? as bs).map Ordering.swap := by
  induction as generalizing bs with
  | nil => cases bs <;> rfl
  | cons a as ih =>
    cases bs with
    | nil => rfl
    | cons b bs =>
      obtain ⟨hfirst, hrest⟩ := List.forall_mem_cons.mp h
      rw [orderAll?, orderAll?, hfirst b, ih hrest bs]
      cases a.order? b with
      | none => rfl
      | some o => cases o <;> rfl

/-! ## Equality -/

theorem equals_self {a : Value} (ha : a.Distinct) : a.equals a = true := by
  induction a using induction_members with
  | scalar a hcontainer =>
    cases a with
    | null => rfl
    | boolean b => exact beq_self_eq_true _
    | string s => exact beq_self_eq_true _
    | integer i =>
      rw [equals]
      exact equalNumbers_self rfl
    | float x =>
      rw [equals]
      exact equalNumbers_self rfl
    | sequence _ => cases hcontainer
    | mapping _ => cases hcontainer
  | sequence items ih =>
    have hall := (throughout_sequence.mp ha).2
    refine equals_sequence_iff.mpr ⟨rfl, fun p a b hp hq => ?_⟩
    rw [hp] at hq
    cases hq
    have hmem := List.mem_of_getElem? hp
    exact ih a hmem (hall a hmem)
  | mapping entries ih =>
    obtain ⟨hkeys, hall⟩ := throughout_mapping.mp ha
    exact equals_mapping_iff.mpr
      ⟨rfl, fun e he => ⟨e.2, Entries.get?_of_mem hkeys he, ih e he (hall e he)⟩⟩

/-- Equality goes both ways: with distinct keys, it does not matter which mapping is looked up in
the other. -/
theorem equals_comm {a b : Value} (ha : a.Distinct) (hb : b.Distinct) :
    a.equals b = b.equals a := by
  induction a using induction_members generalizing b with
  | scalar a hcontainer =>
    cases a <;> cases b <;>
      first
      | rfl
      | exact BEq.comm
      | (rw [equals, equals]; exact equalNumbers_comm _ _)
      | cases hcontainer
  | sequence as ih =>
    cases b with
    | sequence bs =>
      have has := (throughout_sequence.mp ha).2
      have hbs := (throughout_sequence.mp hb).2
      rw [Bool.eq_iff_iff, equals_sequence_iff, equals_sequence_iff]
      constructor
      · intro h
        exact h.symm.imp fun b hb a ha hab => by rwa [← ih a ha (has a ha) (hbs b hb)]
      · intro h
        exact h.symm.imp fun a ha b hb hab => by rwa [ih a ha (has a ha) (hbs b hb)]
    | _ => rfl
  | mapping as ih =>
    cases b with
    | mapping bs =>
      obtain ⟨haskeys, has⟩ := throughout_mapping.mp ha
      obtain ⟨hbskeys, hbs⟩ := throughout_mapping.mp hb
      rw [Bool.eq_iff_iff, equals_mapping_iff, equals_mapping_iff]
      -- The keys of one mapping are looked up in the other, never the other way round: that none is
      -- left over there follows from their number.
      constructor
      · intro h
        refine (h.symm haskeys hbskeys).imp fun f hf a ha hab => ?_
        rwa [← ih _ ha (has _ ha) (hbs f hf)]
      · intro h
        refine (h.symm hbskeys haskeys).imp fun e he b hb hab => ?_
        rwa [ih e he (has e he) (hbs _ hb)]
    | _ => rfl

/-- The order of entries makes no difference to equality. -/
theorem Rearranged.equals_left {a a' : Value} (h : Rearranged a a') (b : Value) :
    a.equals b = a'.equals b := by
  induction h generalizing b with
  | scalar _ _ => rfl
  | integer h => rw [h]
  | @sequence as as' hlength hitems ih =>
    cases b with
    | sequence bs =>
      rw [Bool.eq_iff_iff, equals_sequence_iff, equals_sequence_iff]
      constructor
      · rintro ⟨hbs, hall⟩
        refine ⟨hlength.symm.trans hbs, fun p a' b ha' hb => ?_⟩
        obtain ⟨a, ha⟩ := exists_getElem?_of_length hlength.symm ha'
        rw [← ih p a a' ha ha' b]
        exact hall p a b ha hb
      · rintro ⟨hbs, hall⟩
        refine ⟨hlength.trans hbs, fun p a b ha hb => ?_⟩
        obtain ⟨a', ha'⟩ := exists_getElem?_of_length hlength ha
        rw [ih p a a' ha ha' b]
        exact hall p a' b ha' hb
    | _ => rfl
  | @mapping as as' cs hperm hkeys hvalues ih =>
    cases b with
    | mapping bs =>
      -- Both are looked up in the third mapping, so neither needs distinct keys: their entries are
      -- matched by the arrangement.
      have hlength : as.length = as'.length := (length_eq_of_keys hkeys).symm.trans hperm.length_eq
      rw [Bool.eq_iff_iff, equals_mapping_iff, equals_mapping_iff]
      constructor
      · rintro ⟨hbs, hall⟩
        refine ⟨hlength.symm.trans hbs, fun e he => ?_⟩
        obtain ⟨p, hc⟩ := List.mem_iff_getElem?.mp (hperm.mem_iff.mpr he)
        obtain ⟨a, ha⟩ := exists_getElem?_of_keys hkeys.symm hc
        obtain ⟨b, hb, hab⟩ := hall _ (List.mem_of_getElem? ha)
        exact ⟨b, hb, (ih p e.1 a e.2 ha hc b).symm.trans hab⟩
      · rintro ⟨hbs, hall⟩
        refine ⟨hlength.trans hbs, fun e he => ?_⟩
        obtain ⟨p, ha⟩ := List.mem_iff_getElem?.mp he
        obtain ⟨c, hc⟩ := exists_getElem?_of_keys hkeys ha
        obtain ⟨b, hb, hcb⟩ := hall _ (hperm.mem_iff.mp (List.mem_of_getElem? hc))
        exact ⟨b, hb, (ih p e.1 e.2 c ha hc b).trans hcb⟩
    | _ => rfl

theorem Rearranged.equals_eq {a a' b b' : Value} (ha : a.Distinct) (hb : b.Distinct)
    (hab : Rearranged a a') (hbb : Rearranged b b') : a'.equals b' = a.equals b := by
  have ha' := hab.distinct ha
  have hb' := hbb.distinct hb
  calc a'.equals b'
    _ = a.equals b' := (hab.equals_left b').symm
    _ = b'.equals a := equals_comm ha hb'
    _ = b.equals a := (hbb.equals_left a).symm
    _ = a.equals b := equals_comm hb ha

/-! ## Order -/

theorem order?_swap (a b : Value) : b.order? a = (a.order? b).map Ordering.swap := by
  induction a using induction_members generalizing b with
  | scalar a hcontainer =>
    cases a <;> cases b <;>
      first
      | rfl
      | exact congrArg some Std.OrientedOrd.eq_swap
      | exact congrArg some (compareText_swap _ _)
      | (rw [order?, order?]; exact compareNumbers_swap _ _)
      | cases hcontainer
  | sequence as ih =>
    cases b with
    | sequence bs => exact orderAll?_swap ih bs
    | _ => rfl
  | mapping as ih => cases b <;> rfl

/-- Scalars are of the same rank if they are equal. -/
theorem order?_scalar_eq_iff {a : Value} (ha : a.kind.isContainer = false) (b : Value) :
    a.order? b = some .eq ↔ a.equals b = true := by
  cases a with
  | null => cases b <;> simp [order?, equals]
  | boolean x =>
    cases b with
    | boolean y => cases x <;> cases y <;> decide
    | _ => simp [order?, equals]
  | string s =>
    cases b with
    | string t => simp [order?, equals, compareText_eq_iff, String.toList_inj]
    | _ => simp [order?, equals]
  | integer i => cases b <;> simp [order?, equals, compareNumbers_eq_iff]
  | float x => cases b <;> simp [order?, equals, compareNumbers_eq_iff]
  | sequence _ => cases ha
  | mapping _ => cases ha

/-- Values of the same rank are equal. -/
theorem equals_of_order?_eq {a b : Value} (h : a.order? b = some .eq) : a.equals b = true := by
  induction a using induction_members generalizing b with
  | scalar a hcontainer => exact (order?_scalar_eq_iff hcontainer b).mp h
  | sequence as ih =>
    cases b with
    | sequence bs =>
      refine equals_sequence_iff.mpr ((orderAll?_eq_some_eq_iff.mp h).imp ?_)
      exact fun a ha b _ hab => ih a ha hab
    | _ => cases h
  | mapping as ih => cases b <;> cases h

/-- A value without mappings in it. -/
def MappingFree (v : Value) : Prop :=
  v.Throughout fun w => w.kind ≠ .mapping

/-- Equal values are of the same rank, unless there are mappings in them. -/
theorem order?_eq_of_equals {a b : Value} (ha : a.MappingFree) (h : a.equals b = true) :
    a.order? b = some .eq := by
  induction a using induction_members generalizing b with
  | scalar a hcontainer => exact (order?_scalar_eq_iff hcontainer b).mpr h
  | sequence as ih =>
    cases b with
    | sequence bs =>
      have has := (throughout_sequence.mp ha).2
      refine orderAll?_eq_some_eq_iff.mpr ((equals_sequence_iff.mp h).imp ?_)
      exact fun a ha b _ hab => ih a ha (has a ha) hab
    | _ => cases h
  | mapping as ih => exact absurd rfl (Throughout.self ha)

/-! ## Both together -/

/-- Comparisons of values without double keys fit together. A value equals itself, equality goes
both ways, and it is the same however the entries are arranged. The order of two values turns
around with them. Values that it finds equal are equal, and if one of two equal values holds no
mapping, the order finds them equal. -/
theorem comparisons_coherent {a b : Value} (ha : a.Distinct) (hb : b.Distinct) :
    a.equals a = true ∧ a.equals b = b.equals a ∧
      (∀ a' b', Rearranged a a' → Rearranged b b' → a'.equals b' = a.equals b) ∧
        b.order? a = (a.order? b).map Ordering.swap ∧
          (a.order? b = some .eq → a.equals b = true) ∧
            (a.MappingFree ∨ b.MappingFree → a.equals b = true → a.order? b = some .eq) := by
  refine ⟨equals_self ha, equals_comm ha hb, fun a' b' => Rearranged.equals_eq ha hb,
    order?_swap a b, equals_of_order?_eq, ?_⟩
  rintro (hfree | hfree) h
  · exact order?_eq_of_equals hfree h
  · have hswap : b.order? a = some .eq := order?_eq_of_equals hfree (equals_comm ha hb ▸ h)
    rw [order?_swap b a, hswap]
    rfl

/-- The number seven as an integer and as a float. -/
def sevenInteger : Value :=
  .integer ⟨7, by decide, by decide⟩

def sevenFloat : Value :=
  .float ⟨false, 7 * Nat.pow 2 50, 1024, by decide, by decide, by decide⟩

/-- Sevens in a mapping, with the entries in both orders, and in a sequence. -/
def sevens : Value :=
  .mapping [("m", sevenInteger), ("n", .sequence [sevenFloat])]

def sevensTurned : Value :=
  .mapping [("n", .sequence [sevenFloat]), ("m", sevenInteger)]

/-- Entries in another order are equal; and a float is of the same rank as an integer. -/
theorem comparisons_coherent_sevens :
    sevensTurned.equals sevens = true ∧
      (sequence [sevenFloat]).order? (.sequence [sevenInteger]) = some .eq ∧
        (sequence [sevenInteger]).equals (.sequence [sevenFloat]) = true := by
  have hsevens : sevens.Distinct := by
    simp [sevens, sevenInteger, sevenFloat, Distinct, Throughout, ThroughoutEntries,
      ThroughoutAll, KeysDiffer, Entries.keys]
  have hturned : Rearranged sevens sevensTurned :=
    .mapping (List.Perm.swap _ _ []) rfl fun p k a c ha hc => by
      rw [ha] at hc
      cases hc
      exact .refl (fun _ => rfl) a
  have hfloat : (sequence [sevenFloat]).Distinct := by
    simp [sevenFloat, Distinct, Throughout, ThroughoutAll, KeysDiffer]
  have hinteger : (sequence [sevenInteger]).Distinct := by
    simp [sevenInteger, Distinct, Throughout, ThroughoutAll, KeysDiffer]
  have hfree : (sequence [sevenFloat]).MappingFree := by
    simp [sevenFloat, MappingFree, Throughout, ThroughoutAll, kind]
  have hequal : (sequence [sevenFloat]).equals (.sequence [sevenInteger]) = true := by
    decide +kernel
  obtain ⟨hself, -, harranged, -⟩ := comparisons_coherent hsevens hsevens
  obtain ⟨-, hcomm, -, -, -, hrank⟩ := comparisons_coherent hfloat hinteger
  exact ⟨(harranged _ _ hturned (.refl (fun _ => rfl) _)).trans hself, hrank (.inl hfree) hequal,
    hcomm ▸ hequal⟩

end Value

end LiveDocument
