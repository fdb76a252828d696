import LiveDocument.Proofs.Reference.Graph

/-!
# Following references

The recursion that expands references, on a value that never changes and without any handle. The
active addresses are those on the way from the outermost value to the reference that is being
followed. Each of them leads to the next, so a reference back to an active address closes a cycle;
and no two of those that were entered are the same, so they are never more than there are addresses
to name.

* `follow`: what a reference stands for, with the active addresses watched.
* `expands_of_follow_ok`: what it gives is what the reference stands for.
* `Approach`: how the active addresses lead to the one that is asked for. `Approach.enter`: they go
  on to do so when it is entered.
* `cycle_of_follow_error`: it fails only at a cycle, and never for want of fuel.
* `expands_of_followAll_ok`, `cycle_of_followAll_error`: the same for a whole value.
-/

namespace LiveDocument.Reference

/-- What a reference stands for, or the failure that it leads back to an active address. -/
def follow (env : Environment) (root : Value) (delimiter : String) :
    (fuel : Nat) → (active : List String) → String → Except Failure Value
  | 0, _, query => .error (.referenceCycle query)
  | fuel + 1, active, query =>
    if active.contains (node delimiter query) then
      .error (.referenceCycle (node delimiter query))
    else
      match valueAt? root delimiter (node delimiter query) with
      | none => .ok .null
      | some v =>
        v.substitute (expandText env (follow env root delimiter fuel
          (node delimiter query :: active)))

/-- A value with its references followed, with as much fuel as it can take. -/
def followAll (env : Environment) (root : Value) (delimiter : String) (active : List String)
    (v : Value) : Except Failure Value :=
  v.substitute (expandText env (follow env root delimiter
    (root.referenceCount + v.referenceCount + 1) active))

section

variable {env : Environment} {root : Value} {delimiter : String}

/-! ## Success -/

/-- What a reference stands for: null where there is nothing, else what the value there does. -/
def StandsFor (env : Environment) (root : Value) (delimiter q : String) (w : Value) : Prop :=
  (valueAt? root delimiter (node delimiter q) = none → w = .null) ∧
    ∀ v, valueAt? root delimiter (node delimiter q) = some v → Expands env root delimiter v w

/-- A text whose references stand for what their meanings say. -/
theorem expands_of_expandText {ε : Type} {f : String → Except ε Value} {s : String} {w : Value}
    (hf : ∀ q ∈ places s, ∀ u, f q = .ok u → StandsFor env root delimiter q u)
    (h : expandText env f s = .ok w) : Expands env root delimiter (.string s) w := by
  let meaning : String → Value := fun q =>
    match f q with
    | .ok u => u
    | .error _ => .null
  have hmeaning : ∀ q ∈ places s, f q = .ok (meaning q) := by
    intro q hq
    obtain ⟨u, hu⟩ := ok_of_mem_places h hq
    simp only [meaning, hu]
  have hw : expandText env f s = .ok (replaced env meaning s) :=
    passes_ok.expandText hmeaning
  rw [h] at hw
  rw [Except.ok.inj hw]
  exact .string meaning (fun q hq hnone => (hf q hq _ (hmeaning q hq)).1 hnone)
    fun q hq v hv => (hf q hq _ (hmeaning q hq)).2 v hv

mutual

theorem expands_of_substitute {ε : Type} {f : String → Except ε Value} :
    ∀ (v : Value) {w : Value},
      (∀ q ∈ v.queries, ∀ u, f q = .ok u → StandsFor env root delimiter q u) →
      v.substitute (expandText env f) = .ok w → Expands env root delimiter v w
  | .string s, w, hf, h => by
    rw [queries_string] at hf
    rw [Value.substitute] at h
    exact expands_of_expandText hf h
  | .sequence items, w, hf, h => by
    rw [Value.substitute] at h
    obtain ⟨items', hitems, hw⟩ := exists_of_bind_ok h
    obtain ⟨hlength, hall⟩ := expands_of_substituteAll items
      (fun item hitem q hq => hf q (queries_sequence.mpr ⟨item, hitem, hq⟩)) hitems
    cases hw
    exact .sequence hlength hall
  | .mapping entries, w, hf, h => by
    rw [Value.substitute] at h
    obtain ⟨entries', hentries, hw⟩ := exists_of_bind_ok h
    obtain ⟨hkeys, hall⟩ := expands_of_substituteEntries entries
      (fun e he q hq => hf q (queries_mapping.mpr ⟨e, he, hq⟩)) hentries
    cases hw
    exact .mapping hkeys hall
  | .null, w, _, h => by
    cases h
    exact .scalar rfl (by decide)
  | .boolean b, w, _, h => by
    cases h
    exact .scalar rfl (by simp [Value.kind])
  | .integer i, w, _, h => by
    cases h
    exact .scalar rfl (by simp [Value.kind])
  | .float x, w, _, h => by
    cases h
    exact .scalar rfl (by simp [Value.kind])

theorem expands_of_substituteAll {ε : Type} {f : String → Except ε Value} :
    ∀ (items : List Value) {items' : List Value},
      (∀ item ∈ items, ∀ q ∈ item.queries, ∀ u, f q = .ok u → StandsFor env root delimiter q u) →
      Value.substituteAll (expandText env f) items = .ok items' →
        items'.length = items.length ∧ ∀ (i : Nat) (v w : Value), items[i]? = some v →
          items'[i]? = some w → Expands env root delimiter v w
  | [], items', _, h => by
    cases h
    refine ⟨rfl, fun i v w hv => ?_⟩
    cases hv
  | item :: items, items', hf, h => by
    rw [Value.substituteAll] at h
    obtain ⟨u, hu, h⟩ := exists_of_bind_ok h
    obtain ⟨rest, hrest, h⟩ := exists_of_bind_ok h
    cases h
    have hfirst := expands_of_substitute item (hf item List.mem_cons_self) hu
    obtain ⟨hlength, hall⟩ := expands_of_substituteAll items
      (fun item hitem => hf item (List.mem_cons_of_mem _ hitem)) hrest
    refine ⟨congrArg (· + 1) hlength, fun i v w hv hw => ?_⟩
    cases i with
    | zero =>
      cases hv
      cases hw
      exact hfirst
    | succ i => exact hall i v w hv hw

theorem expands_of_substituteEntries {ε : Type} {f : String → Except ε Value} :
    ∀ (entries : List (String × Value)) {entries' : List (String × Value)},
      (∀ e ∈ entries, ∀ q ∈ e.2.queries, ∀ u, f q = .ok u → StandsFor env root delimiter q u) →
      Value.substituteEntries (expandText env f) entries = .ok entries' →
        entries'.map Prod.fst = entries.map Prod.fst ∧
          ∀ (i : Nat) (k : String) (v w : Value), entries[i]? = some (k, v) →
            entries'[i]? = some (k, w) → Expands env root delimiter v w
  | [], entries', _, h => by
    cases h
    refine ⟨rfl, fun i k v w hv => ?_⟩
    cases hv
  | (key, value) :: entries, entries', hf, h => by
    rw [Value.substituteEntries] at h
    obtain ⟨u, hu, h⟩ := exists_of_bind_ok h
    obtain ⟨rest, hrest, h⟩ := exists_of_bind_ok h
    cases h
    have hfirst := expands_of_substitute value (hf (key, value) List.mem_cons_self) hu
    obtain ⟨hkeys, hall⟩ := expands_of_substituteEntries entries
      (fun e he => hf e (List.mem_cons_of_mem _ he)) hrest
    refine ⟨congrArg (key :: ·) hkeys, fun i k v w hv hw => ?_⟩
    cases i with
    | zero =>
      cases hv
      cases hw
      exact hfirst
    | succ i => exact hall i k v w hv hw

end

/-- What following a reference gives is what the reference stands for. -/
theorem expands_of_follow_ok {fuel : Nat} {active : List String} {q : String} {w : Value}
    (h : follow env root delimiter fuel active q = .ok w) :
    StandsFor env root delimiter q w := by
  induction fuel generalizing active q w with
  | zero => cases h
  | succ fuel ih =>
    rw [follow] at h
    split at h
    · cases h
    · cases hv : valueAt? root delimiter (node delimiter q) with
      | none =>
        rw [hv] at h
        cases h
        refine ⟨fun _ => rfl, fun v hsome => ?_⟩
        rw [hv] at hsome
        cases hsome
      | some v =>
        rw [hv] at h
        have hexpands := expands_of_substitute v (fun q' _ u hu => ih hu) h
        refine ⟨fun hnone => ?_, fun v' hv' => ?_⟩
        · rw [hv] at hnone
          cases hnone
        · rw [hv] at hv'
          cases hv'
          exact hexpands

theorem expands_of_followAll_ok {active : List String} {v w : Value}
    (h : followAll env root delimiter active v = .ok w) : Expands env root delimiter v w :=
  expands_of_substitute v (fun _ _ _ hu => expands_of_follow_ok hu) h

/-! ## Failure -/

/-- The addresses that references of the document or of a value name. -/
def named (root : Value) (delimiter : String) (v : Value) : List String :=
  nodes delimiter root ++ nodes delimiter v

/-- How the active addresses lead to the one that is asked for: it is reached from the outermost
value, each active address leads to it, and there is more fuel than addresses left to enter. -/
structure Approach (root : Value) (delimiter : String) (v : Value) (active : List String)
    (fuel : Nat) (a : String) : Prop where
  reached : ∃ b ∈ nodes delimiter v, Relation.ReflTransGen (Refers root delimiter) b a
  leads : ∀ b ∈ active, Relation.TransGen (Refers root delimiter) b a
  named : a ∈ named root delimiter v
  fuel : ∃ entered : List String, entered.Nodup ∧ entered ⊆ active ∧
    entered ⊆ Reference.named root delimiter v ∧
      (Reference.named root delimiter v).length < fuel + entered.length

variable {v : Value} {active : List String} {fuel : Nat} {a : String}

/-- There is always fuel to enter one more address. -/
theorem Approach.fuel_ne_zero (h : Approach root delimiter v active fuel a) : fuel ≠ 0 := by
  rintro rfl
  obtain ⟨entered, hnodup, -, hnamed, hlt⟩ := h.fuel
  have hle := hnodup.length_le_of_subset hnamed
  omega

/-- The references in the value at an address are approached through it. -/
theorem Approach.enter (h : Approach root delimiter v active (fuel + 1) a) (hnew : a ∉ active)
    {w : Value} (hw : valueAt? root delimiter a = some w) {b : String}
    (hb : b ∈ nodes delimiter w) : Approach root delimiter v (a :: active) fuel b where
  reached := by
    obtain ⟨c, hc, hreach⟩ := h.reached
    exact ⟨c, hc, hreach.tail ⟨w, hw, hb⟩⟩
  leads := by
    intro c hc
    rcases List.mem_cons.mp hc with rfl | hc
    · exact .single ⟨w, hw, hb⟩
    · exact (h.leads c hc).tail ⟨w, hw, hb⟩
  named := by
    have hsub : nodes delimiter w ⊆ nodes delimiter root :=
      nodes_subset (Value.queries_subset_of_walk? hw)
    exact List.mem_append_left _ (hsub hb)
  fuel := by
    obtain ⟨entered, hnodup, hactive, hnamed, hlt⟩ := h.fuel
    have hfresh : a ∉ entered := fun hm => hnew (hactive hm)
    refine ⟨a :: entered, List.nodup_cons.mpr ⟨hfresh, hnodup⟩, ?_, ?_, ?_⟩
    · exact List.cons_subset_cons a hactive
    · exact List.cons_subset.mpr ⟨h.named, hnamed⟩
    · rw [List.length_cons]
      omega

/-- Following a reference fails only at a cycle, and never for want of fuel. -/
theorem cycle_of_follow_error {q : String} {e : Failure}
    (ha : Approach root delimiter v active fuel (node delimiter q))
    (h : follow env root delimiter fuel active q = .error e) :
    (∃ b, e = .referenceCycle b) ∧ LeadsToCycle root delimiter v := by
  induction fuel generalizing active q e with
  | zero => exact absurd rfl ha.fuel_ne_zero
  | succ fuel ih =>
    rw [follow] at h
    split at h
    · rename_i hactive
      cases h
      have hmem := List.contains_iff_mem.mp hactive
      obtain ⟨b, hb, hreach⟩ := ha.reached
      exact ⟨⟨_, rfl⟩, b, hb, _, hreach, ha.leads _ hmem⟩
    · rename_i hnew
      have hnotMem : node delimiter q ∉ active := fun hm => hnew (List.contains_iff_mem.mpr hm)
      cases hw : valueAt? root delimiter (node delimiter q) with
      | none =>
        rw [hw] at h
        cases h
      | some w =>
        rw [hw] at h
        have hinner : ∀ q' ∈ w.queries, ∀ e',
            follow env root delimiter fuel (node delimiter q :: active) q' = .error e' →
              (∃ b, e' = .referenceCycle b) ∧ LeadsToCycle root delimiter v :=
          fun q' hq' e' he' => ih (ha.enter hnotMem hw (mem_nodes.mpr ⟨q', hq', rfl⟩)) he'
        exact passes_error.expand (g := fun _ => (pure .null : Id Value)) hinner e h

theorem length_nodes (delimiter : String) (v : Value) :
    (nodes delimiter v).length = v.referenceCount := by
  rw [nodes, List.length_map]
  rfl

/-- A value at which the active addresses are fails to be followed only at a cycle that it leads
to. -/
theorem cycle_of_followAll_error {e : Failure}
    (hactive : ∀ a ∈ active, valueAt? root delimiter a = some v)
    (h : followAll env root delimiter active v = .error e) :
    (∃ b, e = .referenceCycle b) ∧ LeadsToCycle root delimiter v := by
  have hstart : ∀ q ∈ v.queries, Approach root delimiter v active
      (root.referenceCount + v.referenceCount + 1) (node delimiter q) := by
    intro q hq
    have hnode : node delimiter q ∈ nodes delimiter v := mem_nodes.mpr ⟨q, hq, rfl⟩
    refine ⟨⟨_, hnode, .refl⟩, fun a ha => .single ⟨v, hactive a ha, hnode⟩,
      List.mem_append_right _ hnode, [], List.nodup_nil, List.nil_subset _, List.nil_subset _, ?_⟩
    rw [named, List.length_append, length_nodes, length_nodes, List.length_nil]
    omega
  exact passes_error.expand (g := fun _ => (pure .null : Id Value))
    (fun q hq e' he' => cycle_of_follow_error (hstart q hq) he') e h

end

end LiveDocument.Reference
