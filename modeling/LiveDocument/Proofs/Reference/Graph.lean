import Mathlib.Logic.Relation
import LiveDocument.Proofs.Address.Decoding
import LiveDocument.Proofs.Reference.Substitution

/-!
# The graph of references

An address refers to another if a string somewhere inside the value there has a reference to it.
Both are told by their canonical texts, so it does not matter how a reference spells an address.
What a value expands to is told without any guard against going round in circles: a derivation is a
finite tree, so a value that expands leads to no cycle of the graph.

* `node`, `nodes`: the canonical texts of what references name.
* `Refers`: the graph. `LeadsToCycle`: a cycle can be reached from a value.
* `Expands`: a value and what it stands for.
* `Expands.unique`: a value stands for one value at most.
* `Expands.not_leadsToCycle`: a value that stands for something leads to no cycle.
-/

namespace LiveDocument.Reference

/-! ## The graph -/

/-- The canonical text of the address that a reference names. -/
def node (delimiter q : String) : String :=
  (Address.parse (.text q) delimiter).canonical []

/-- The canonical texts of the addresses that the references in a value name. -/
def nodes (delimiter : String) (v : Value) : List String :=
  v.queries.map (node delimiter)

/-- The stored value at a canonical address. -/
def valueAt? (root : Value) (delimiter a : String) : Option Value :=
  root.walk? (Address.segmentsOf delimiter.toList a.toList)

/-- A string somewhere inside the value at `a` has a reference to `b`. -/
def Refers (root : Value) (delimiter a b : String) : Prop :=
  ∃ v, valueAt? root delimiter a = some v ∧ b ∈ nodes delimiter v

/-- A cycle of the graph can be reached from the references in a value. -/
def LeadsToCycle (root : Value) (delimiter : String) (v : Value) : Prop :=
  ∃ a ∈ nodes delimiter v, ∃ b, Relation.ReflTransGen (Refers root delimiter) a b ∧
    Relation.TransGen (Refers root delimiter) b b

/-- A text whose references to places stand for given values. -/
def replaced (env : Environment) (meaning : String → Value) (s : String) : Value :=
  (expandText env (fun q => (pure (meaning q) : Id Value)) s).run

/-- What a value stands for when all its references are followed: containers keep their keys and
their order, scalars that are no strings stay as they are, and a string is replaced with what its
references stand for, which is null where there is nothing. -/
inductive Expands (env : Environment) (root : Value) (delimiter : String) : Value → Value → Prop
  | scalar {v : Value} (hcontainer : v.kind.isContainer = false) (hstring : v.kind ≠ .string) :
    Expands env root delimiter v v
  | sequence {items items' : List Value} (hlength : items'.length = items.length)
    (hitems : ∀ (i : Nat) (v w : Value), items[i]? = some v → items'[i]? = some w →
      Expands env root delimiter v w) :
    Expands env root delimiter (.sequence items) (.sequence items')
  | mapping {entries entries' : List (String × Value)}
    (hkeys : entries'.map Prod.fst = entries.map Prod.fst)
    (hentries : ∀ (i : Nat) (k : String) (v w : Value), entries[i]? = some (k, v) →
      entries'[i]? = some (k, w) → Expands env root delimiter v w) :
    Expands env root delimiter (.mapping entries) (.mapping entries')
  | string {s : String} (meaning : String → Value)
    (hmissing : ∀ q ∈ places s, valueAt? root delimiter (node delimiter q) = none →
      meaning q = .null)
    (hfound : ∀ q ∈ places s, ∀ v, valueAt? root delimiter (node delimiter q) = some v →
      Expands env root delimiter v (meaning q)) :
    Expands env root delimiter (.string s) (replaced env meaning s)

section

variable {env : Environment} {root : Value} {delimiter : String} {v w : Value}

theorem mem_nodes {a : String} : a ∈ nodes delimiter v ↔ ∃ q ∈ v.queries, node delimiter q = a :=
  List.mem_map

theorem nodes_subset {v w : Value} (h : v.queries ⊆ w.queries) :
    nodes delimiter v ⊆ nodes delimiter w :=
  List.map_subset _ h

theorem queries_sequence {items : List Value} {q : String} :
    q ∈ (Value.sequence items).queries ↔ ∃ item ∈ items, q ∈ item.queries := by
  simp only [Value.mem_queries, Value.strings, Value.mem_stringsAll]
  constructor
  · rintro ⟨s, ⟨item, hitem, hs⟩, hq⟩
    exact ⟨item, hitem, s, hs, hq⟩
  · rintro ⟨item, hitem, s, hs, hq⟩
    exact ⟨s, ⟨item, hitem, hs⟩, hq⟩

theorem queries_mapping {entries : List (String × Value)} {q : String} :
    q ∈ (Value.mapping entries).queries ↔ ∃ e ∈ entries, q ∈ e.2.queries := by
  simp only [Value.mem_queries, Value.strings, Value.mem_stringsEntries]
  constructor
  · rintro ⟨s, ⟨e, he, hs⟩, hq⟩
    exact ⟨e, he, s, hs, hq⟩
  · rintro ⟨e, he, s, hs, hq⟩
    exact ⟨s, ⟨e, he, hs⟩, hq⟩

theorem queries_string (s : String) : (Value.string s).queries = places s := by
  simp [Value.queries, Value.strings]

theorem queries_scalar (hcontainer : v.kind.isContainer = false) (hstring : v.kind ≠ .string) :
    v.queries = [] := by
  cases v with
  | sequence items => cases hcontainer
  | mapping entries => cases hcontainer
  | string s => exact absurd rfl hstring
  | _ => rfl

/-- What the references of a text stand for settles what the text is replaced by. -/
theorem replaced_congr {meaning meaning' : String → Value} {s : String}
    (h : ∀ q ∈ places s, meaning q = meaning' q) :
    replaced env meaning s = replaced env meaning' s := by
  have heq : expandText env (fun q => (pure (meaning q) : Id Value)) s =
      expandText env (fun q => (pure (meaning' q) : Id Value)) s :=
    passes_eq.expandText fun q hq => congrArg _ (h q hq)
  exact congrArg Id.run heq

/-! ## Containers -/

theorem keys_getElem? {entries entries' : List (String × Value)}
    (hkeys : entries'.map Prod.fst = entries.map Prod.fst) {i : Nat} {k : String} {v : Value}
    (h : entries[i]? = some (k, v)) : ∃ w, entries'[i]? = some (k, w) := by
  have hk : (entries'.map Prod.fst)[i]? = some k := by
    rw [hkeys, List.getElem?_map, h, Option.map_some]
  rw [List.getElem?_map] at hk
  obtain ⟨⟨k', w⟩, hw, rfl⟩ := Option.map_eq_some_iff.mp hk
  exact ⟨w, hw⟩

namespace Expands

/-! ## One value at most -/

/-- A value stands for one value at most. -/
theorem unique (h : Expands env root delimiter v w) {w' : Value}
    (h' : Expands env root delimiter v w') : w = w' := by
  induction h generalizing w' with
  | scalar hcontainer hstring =>
    cases h' with
    | scalar _ _ => rfl
    | sequence _ _ => cases hcontainer
    | mapping _ _ => cases hcontainer
    | string _ _ _ => exact absurd rfl hstring
  | @sequence items items' hlength hitems ih =>
    cases h' with
    | scalar hcontainer _ => cases hcontainer
    | @sequence _ items'' hlength' hitems' =>
      refine congrArg Value.sequence (List.ext_getElem? fun i => ?_)
      by_cases hi : i < items.length
      · have hv := List.getElem?_eq_getElem hi
        have hu := List.getElem?_eq_getElem (l := items') (i := i) (by omega)
        have hw := List.getElem?_eq_getElem (l := items'') (i := i) (by omega)
        rw [hu, hw, ih i _ _ hv hu (hitems' i _ _ hv hw)]
      · rw [List.getElem?_eq_none (by omega), List.getElem?_eq_none (by omega)]
  | @mapping entries entries' hkeys hentries ih =>
    cases h' with
    | scalar hcontainer _ => cases hcontainer
    | @mapping _ entries'' hkeys' hentries' =>
      refine congrArg Value.mapping (List.ext_getElem? fun i => ?_)
      cases he : entries[i]? with
      | none =>
        have hlength : entries'.length = entries.length := by
          simpa using congrArg List.length hkeys
        have hlength' : entries''.length = entries.length := by
          simpa using congrArg List.length hkeys'
        have hi := List.getElem?_eq_none_iff.mp he
        rw [List.getElem?_eq_none (by omega), List.getElem?_eq_none (by omega)]
      | some e =>
        obtain ⟨k, v⟩ := e
        obtain ⟨u, hu⟩ := keys_getElem? hkeys he
        obtain ⟨w, hw⟩ := keys_getElem? hkeys' he
        rw [hu, hw, ih i k v u he hu (hentries' i k v w he hw)]
  | @string s meaning hmissing hfound ih =>
    cases h' with
    | scalar _ hstring => exact absurd rfl hstring
    | string meaning' hmissing' hfound' =>
      refine replaced_congr fun q hq => ?_
      cases hv : valueAt? root delimiter (node delimiter q) with
      | none => rw [hmissing q hq hv, hmissing' q hq hv]
      | some v => exact ih q hq v hv (hfound' q hq v hv)

/-! ## No cycle -/

/-- From the references of a value that stands for something, every way through the graph ends. -/
theorem acc (h : Expands env root delimiter v w) :
    ∀ a ∈ nodes delimiter v, Acc (fun b a => Refers root delimiter a b) a := by
  induction h with
  | scalar hcontainer hstring =>
    intro a ha
    rw [nodes, queries_scalar hcontainer hstring] at ha
    cases ha
  | @sequence items items' hlength hitems ih =>
    intro a ha
    obtain ⟨q, hq, rfl⟩ := mem_nodes.mp ha
    obtain ⟨item, hitem, hq⟩ := queries_sequence.mp hq
    obtain ⟨i, hi⟩ := List.mem_iff_getElem?.mp hitem
    have hlt := (List.getElem?_eq_some_iff.mp hi).1
    have hw := List.getElem?_eq_getElem (l := items') (i := i) (by omega)
    exact ih i item _ hi hw _ (mem_nodes.mpr ⟨q, hq, rfl⟩)
  | @mapping entries entries' hkeys hentries ih =>
    intro a ha
    obtain ⟨q, hq, rfl⟩ := mem_nodes.mp ha
    obtain ⟨⟨k, u⟩, he, hq⟩ := queries_mapping.mp hq
    obtain ⟨i, hi⟩ := List.mem_iff_getElem?.mp he
    obtain ⟨w, hw⟩ := keys_getElem? hkeys hi
    exact ih i k u w hi hw _ (mem_nodes.mpr ⟨q, hq, rfl⟩)
  | @string s meaning hmissing hfound ih =>
    intro a ha
    obtain ⟨q, hq, rfl⟩ := mem_nodes.mp ha
    rw [queries_string] at hq
    refine Acc.intro _ fun b hb => ?_
    obtain ⟨v, hv, hbv⟩ := hb
    exact ih q hq v hv b hbv

end Expands

/-- What is reached from where every way ends is such as well. -/
theorem acc_of_reflTransGen {a b : String}
    (ha : Acc (fun b a => Refers root delimiter a b) a)
    (h : Relation.ReflTransGen (Refers root delimiter) a b) :
    Acc (fun b a => Refers root delimiter a b) b := by
  induction h with
  | refl => exact ha
  | tail _ hstep ih => exact ih.inv hstep

theorem not_cycle_of_acc {a : String} (ha : Acc (fun b a => Refers root delimiter a b) a) :
    ¬ Relation.TransGen (Refers root delimiter) a a := by
  induction ha with
  | intro a _ ih =>
    intro hcycle
    -- The next address on the cycle lies on it too.
    obtain ⟨c, hstep, hrest⟩ := Relation.TransGen.head'_iff.mp hcycle
    exact ih c hstep (Relation.TransGen.tail' hrest hstep)

/-- A value that stands for something leads to no cycle. -/
theorem Expands.not_leadsToCycle (h : Expands env root delimiter v w) :
    ¬ LeadsToCycle root delimiter v := by
  rintro ⟨a, ha, b, hab, hcycle⟩
  exact not_cycle_of_acc (acc_of_reflTransGen (h.acc a ha) hab) hcycle

end

end LiveDocument.Reference
