import LiveDocument.Proofs.Tree.Throughout
import LiveDocument.Value.Comparison
import Mathlib.Data.List.Nodup
import Mathlib.Data.List.Perm.Subperm

/-!
# Values that correspond

Two values correspond if they are built alike, with the entries of mappings in any order and with
integers that a relation connects. With equality as the relation they are the same value up to the
order of entries. Where keys are distinct, it is enough to look every key of one mapping up in the
other, if both have as many.

* `induction_members`: induction on a value by its members.
* `Corresponds`, `Rearranged`: the correspondence, and the one that keeps integers.
* `Paired`, `Included`: elements at the same places and entries under the same keys.
* `Included.symm`: with distinct keys, as many entries that are all found are all entries.
* `corresponds_scalar_iff`, `corresponds_sequence_iff`, `corresponds_mapping_iff`: when values of one
  shape correspond.
* `Corresponds.distinct`: distinct keys stay distinct.
-/

namespace LiveDocument.Value

/-- A property of scalars that containers have if their members have it holds of all values. -/
@[elab_as_elim] theorem induction_members {P : Value → Prop}
    (scalar : ∀ v, v.kind.isContainer = false → P v)
    (sequence : ∀ items, (∀ item ∈ items, P item) → P (.sequence items))
    (mapping : ∀ entries, (∀ e ∈ entries, P e.2) → P (.mapping entries)) : ∀ v, P v
  | .sequence items => sequence items fun item _ => induction_members scalar sequence mapping item
  | .mapping entries => mapping entries fun e _ => induction_members scalar sequence mapping e.2
  | .null => scalar _ rfl
  | .boolean _ => scalar _ rfl
  | .integer _ => scalar _ rfl
  | .float _ => scalar _ rfl
  | .string _ => scalar _ rfl
termination_by v => sizeOf v
decreasing_by
  · rename_i h
    have := List.sizeOf_lt_of_mem h
    simp only [Value.sequence.sizeOf_spec]
    omega
  · rename_i h
    have := List.sizeOf_lt_of_mem h
    obtain ⟨k, v⟩ := e
    simp only [Value.mapping.sizeOf_spec, Prod.mk.sizeOf_spec] at this ⊢
    omega

/-- Built alike, with the entries of mappings in any order and with integers that are connected. -/
inductive Corresponds (r : Integer → Integer → Prop) : Value → Value → Prop
  | scalar {v : Value} (hcontainer : v.kind.isContainer = false) (hinteger : v.kind ≠ .integer) :
    Corresponds r v v
  | integer {i j : Integer} (h : r i j) : Corresponds r (.integer i) (.integer j)
  | sequence {as bs : List Value} (hlength : as.length = bs.length)
    (hitems : ∀ (p : Nat) (a b : Value), as[p]? = some a → bs[p]? = some b → Corresponds r a b) :
    Corresponds r (.sequence as) (.sequence bs)
  | mapping {as bs cs : List (String × Value)} (hperm : cs.Perm bs)
    (hkeys : Entries.keys cs = Entries.keys as)
    (hvalues : ∀ (p : Nat) (k : String) (a c : Value), as[p]? = some (k, a) →
      cs[p]? = some (k, c) → Corresponds r a c) :
    Corresponds r (.mapping as) (.mapping bs)

/-- The same value up to the order of the entries of mappings. -/
def Rearranged : Value → Value → Prop :=
  Corresponds Eq

/-- Two lists have as many elements, and those at the same places are related. -/
def Paired (R : Value → Value → Prop) (as bs : List Value) : Prop :=
  as.length = bs.length ∧ ∀ (p : Nat) (a b : Value), as[p]? = some a → bs[p]? = some b → R a b

/-- Two lists have as many entries, and every entry of the first has a partner under its key in the
second. -/
def Included (R : Value → Value → Prop) (as bs : List (String × Value)) : Prop :=
  as.length = bs.length ∧ ∀ e ∈ as, ∃ b, Entries.get? e.1 bs = some b ∧ R e.2 b

section

variable {R Q : Value → Value → Prop} {as bs : List Value}

theorem paired_cons {a b : Value} : Paired R (a :: as) (b :: bs) ↔ R a b ∧ Paired R as bs := by
  constructor
  · rintro ⟨hlength, hall⟩
    refine ⟨hall 0 a b rfl rfl, Nat.succ.inj hlength, fun p x y hx hy => ?_⟩
    exact hall (p + 1) x y hx hy
  · rintro ⟨hab, hlength, hall⟩
    refine ⟨congrArg (· + 1) hlength, fun p x y hx hy => ?_⟩
    cases p with
    | zero =>
      cases hx
      cases hy
      exact hab
    | succ p => exact hall p x y hx hy

theorem Paired.symm (h : Paired R as bs) : Paired (fun b a => R a b) bs as :=
  ⟨h.1.symm, fun p b a hb ha => h.2 p a b ha hb⟩

theorem Paired.imp (h : Paired R as bs) (himp : ∀ a ∈ as, ∀ b ∈ bs, R a b → Q a b) :
    Paired Q as bs :=
  ⟨h.1, fun p a b ha hb =>
    himp a (List.mem_of_getElem? ha) b (List.mem_of_getElem? hb) (h.2 p a b ha hb)⟩

theorem paired_congr (h : ∀ a ∈ as, ∀ b ∈ bs, (R a b ↔ Q a b)) :
    Paired R as bs ↔ Paired Q as bs :=
  ⟨fun hR => hR.imp fun a ha b hb => (h a ha b hb).mp,
    fun hQ => hQ.imp fun a ha b hb => (h a ha b hb).mpr⟩

theorem exists_getElem?_of_length (hlength : as.length = bs.length) {p : Nat} {a : Value}
    (ha : as[p]? = some a) : ∃ b, bs[p]? = some b :=
  ⟨_, List.getElem?_eq_getElem (hlength ▸ (List.getElem?_eq_some_iff.mp ha).1)⟩

end

section

variable {r : Integer → Integer → Prop} {R Q : Value → Value → Prop}
  {as bs cs : List (String × Value)}

theorem Included.imp (h : Included R as bs)
    (himp : ∀ e ∈ as, ∀ b, (e.1, b) ∈ bs → R e.2 b → Q e.2 b) : Included Q as bs := by
  refine ⟨h.1, fun e he => ?_⟩
  obtain ⟨b, hb, hR⟩ := h.2 e he
  exact ⟨b, hb, himp e he b (Entries.mem_of_get? hb) hR⟩

theorem included_congr (h : ∀ e ∈ as, ∀ b, (e.1, b) ∈ bs → (R e.2 b ↔ Q e.2 b)) :
    Included R as bs ↔ Included Q as bs :=
  ⟨fun hR => hR.imp fun e he b hb => (h e he b hb).mp,
    fun hQ => hQ.imp fun e he b hb => (h e he b hb).mpr⟩

/-- Lists with the same keys have them at the same places. -/
theorem exists_getElem?_of_keys (hkeys : Entries.keys cs = Entries.keys as) {p : Nat} {k : String}
    {a : Value} (ha : as[p]? = some (k, a)) : ∃ c, cs[p]? = some (k, c) := by
  have hkey : (Entries.keys cs)[p]? = some k := by
    rw [hkeys, Entries.keys, List.getElem?_map, ha]
    rfl
  rw [Entries.keys, List.getElem?_map] at hkey
  obtain ⟨⟨_, c⟩, hc, rfl⟩ := Option.map_eq_some_iff.mp hkey
  exact ⟨c, hc⟩

theorem length_eq_of_keys (hkeys : Entries.keys cs = Entries.keys as) : cs.length = as.length := by
  simpa [Entries.keys] using congrArg List.length hkeys

/-- With distinct keys, as many keys that are all found are all keys. -/
theorem keys_perm_of_included (has : (Entries.keys as).Nodup) (h : Included R as bs) :
    (Entries.keys as).Perm (Entries.keys bs) := by
  have hsub : Entries.keys as ⊆ Entries.keys bs := by
    intro k hk
    obtain ⟨e, he, rfl⟩ := List.mem_map.mp hk
    obtain ⟨b, hb, -⟩ := h.2 e he
    exact List.mem_map.mpr ⟨_, Entries.mem_of_get? hb, rfl⟩
  refine (List.subperm_of_subset has hsub).perm_of_length_le (Nat.le_of_eq ?_)
  rw [Entries.keys, Entries.keys, List.length_map, List.length_map, h.1]

/-- With distinct keys, inclusion goes both ways. -/
theorem Included.symm (has : (Entries.keys as).Nodup) (hbs : (Entries.keys bs).Nodup)
    (h : Included R as bs) : Included (fun b a => R a b) bs as := by
  refine ⟨h.1.symm, fun e he => ?_⟩
  obtain ⟨k, b⟩ := e
  have hkey : k ∈ Entries.keys as :=
    (keys_perm_of_included has h).mem_iff.mpr (List.mem_map.mpr ⟨_, he, rfl⟩)
  obtain ⟨a, ha⟩ := Entries.exists_get?_of_mem_keys hkey
  obtain ⟨b', hb', hR⟩ := h.2 _ (Entries.mem_of_get? ha)
  rw [Entries.get?_of_mem hbs he] at hb'
  cases hb'
  exact ⟨a, ha, hR⟩

/-- The partners of the entries, in the order of the first list. -/
def partners (as bs : List (String × Value)) : List (String × Value) :=
  as.map fun e => (e.1, (Entries.get? e.1 bs).getD e.2)

theorem keys_partners : Entries.keys (partners as bs) = Entries.keys as := by
  rw [Entries.keys, partners, List.map_map]
  rfl

/-- Partners of all entries are the second list in another order. -/
theorem partners_perm (has : (Entries.keys as).Nodup) (h : Included R as bs) :
    (partners as bs).Perm bs := by
  have hnodup : (partners as bs).Nodup := by
    have hkeys : (Entries.keys (partners as bs)).Nodup := by
      rw [keys_partners]
      exact has
    exact List.Nodup.of_map Prod.fst hkeys
  have hsub : partners as bs ⊆ bs := by
    intro c hc
    obtain ⟨e, he, rfl⟩ := List.mem_map.mp hc
    obtain ⟨b, hb, -⟩ := h.2 e he
    rw [hb]
    exact Entries.mem_of_get? hb
  refine (List.subperm_of_subset hnodup hsub).perm_of_length_le (Nat.le_of_eq ?_)
  rw [partners, List.length_map, h.1]

theorem Corresponds.refl (hr : ∀ i, r i i) (v : Value) : Corresponds r v v := by
  induction v using induction_members with
  | scalar v hcontainer =>
    cases v with
    | integer i => exact .integer (hr i)
    | _ => exact .scalar hcontainer (by simp [kind])
  | sequence items ih =>
    refine .sequence rfl fun p a b ha hb => ?_
    rw [ha] at hb
    cases hb
    exact ih a (List.mem_of_getElem? ha)
  | mapping entries ih =>
    refine .mapping (List.Perm.refl entries) rfl fun p k a c ha hc => ?_
    rw [ha] at hc
    cases hc
    exact ih _ (List.mem_of_getElem? ha)

/-- Scalars that are no integers correspond if they are the same. -/
theorem corresponds_scalar_iff {v w : Value} (hcontainer : v.kind.isContainer = false)
    (hinteger : v.kind ≠ .integer) : Corresponds r v w ↔ v = w := by
  constructor
  · intro h
    cases h with
    | scalar => rfl
    | integer => exact absurd rfl hinteger
    | sequence => cases hcontainer
    | mapping => cases hcontainer
  · rintro rfl
    exact .scalar hcontainer hinteger

theorem corresponds_integer_iff {i j : Integer} :
    Corresponds r (.integer i) (.integer j) ↔ r i j := by
  constructor
  · intro h
    cases h with
    | scalar _ hinteger => exact absurd rfl hinteger
    | integer h => exact h
  · exact .integer

theorem corresponds_sequence_iff {as bs : List Value} :
    Corresponds r (.sequence as) (.sequence bs) ↔ Paired (Corresponds r) as bs := by
  constructor
  · intro h
    cases h with
    | scalar hcontainer _ => cases hcontainer
    | sequence hlength hitems => exact ⟨hlength, hitems⟩
  · exact fun h => .sequence h.1 h.2

/-- Mappings with distinct keys correspond if every entry has a partner. -/
theorem corresponds_mapping_iff (has : (Entries.keys as).Nodup) (hbs : (Entries.keys bs).Nodup) :
    Corresponds r (.mapping as) (.mapping bs) ↔ Included (Corresponds r) as bs := by
  constructor
  · intro h
    cases h with
    | scalar hcontainer _ => cases hcontainer
    | mapping hperm hkeys hvalues =>
      refine ⟨(length_eq_of_keys hkeys).symm.trans hperm.length_eq, fun e he => ?_⟩
      obtain ⟨p, hp⟩ := List.mem_iff_getElem?.mp he
      obtain ⟨c, hc⟩ := exists_getElem?_of_keys hkeys hp
      exact ⟨c, Entries.get?_of_mem hbs (hperm.mem_iff.mp (List.mem_of_getElem? hc)),
        hvalues p _ _ _ hp hc⟩
  · intro h
    refine .mapping (partners_perm has h) keys_partners fun p k a c ha hc => ?_
    obtain ⟨b, hb, hab⟩ := h.2 _ (List.mem_of_getElem? ha)
    rw [partners, List.getElem?_map, ha, Option.map_some, hb] at hc
    cases hc
    exact hab

/-- What corresponds to a value with distinct keys has distinct keys. -/
theorem Corresponds.distinct {a b : Value} (h : Corresponds r a b) (ha : a.Distinct) :
    b.Distinct := by
  induction h with
  | scalar _ _ => exact ha
  | integer _ => trivial
  | @sequence as bs hlength hitems ih =>
    refine throughout_sequence.mpr ⟨trivial, fun b hb => ?_⟩
    obtain ⟨p, hp⟩ := List.mem_iff_getElem?.mp hb
    obtain ⟨a, has⟩ := exists_getElem?_of_length hlength.symm hp
    exact ih p _ b has hp ((throughout_sequence.mp ha).2 _ (List.mem_of_getElem? has))
  | @mapping as bs cs hperm hkeys hvalues ih =>
    obtain ⟨hnodup, hall⟩ := throughout_mapping.mp ha
    have hcs : (Entries.keys cs).Nodup := by
      rw [hkeys]
      exact hnodup
    refine throughout_mapping.mpr ⟨(hperm.map Prod.fst).nodup_iff.mp hcs, fun e he => ?_⟩
    obtain ⟨p, hp⟩ := List.mem_iff_getElem?.mp (hperm.mem_iff.mpr he)
    obtain ⟨a, has⟩ := exists_getElem?_of_keys hkeys.symm hp
    exact ih p _ _ _ has hp (hall _ (List.mem_of_getElem? has))

end

end LiveDocument.Value
