import LiveDocument.Proofs.Session.Keys

/-!
# Edits through views

A view edits the container that its handle watches: it puts an entry into a mapping, takes one out
or adds an element to a sequence. The key is taken as it is, whatever it looks like, and so is the
path of the handle, so the container is replaced where the path leads and nothing else changes. What
counts is the value that the handle reads, not the kind that it had when the view was made.

* `runOn_value`: what a view reads.
* `outcome_insert`, `outcome_remove`, `outcome_push`: edits of a container of the right kind.
* `view_edits`: all edits, in every state that a session reaches.
-/

namespace LiveDocument

open Document Live

namespace View

section

variable {d : Document} {view : View} {S : Value} {entries : List (String × Value)}

/-- A view reads what the path of its handle leads to. -/
theorem runOn_value (hvalid : d.isValid view.handle = true)
    (hS : d.value.walk? view.handle.path = some S) : view.value.runOn d = (.ok S, d) := by
  unfold value
  rw [runOn_rawValue, if_pos hvalid, hS]

/-- What a view does with the value that it reads. -/
theorem runOn_value_bind {α : Type} (hvalid : d.isValid view.handle = true)
    (hS : d.value.walk? view.handle.path = some S) (f : Value → Live α) :
    (view.value >>= f).runOn d = (f S).runOn d := by
  rw [runOn_bind, runOn_value hvalid hS]

theorem runOn_writeChild {h : Handle} (hvalid : d.isValid h = true) (s : Segment) (v : Value) :
    (h.writeChild s v).runOn d = (write (h.path ++ [s]) d.delimiter v).runOn d := by
  unfold Handle.writeChild
  rw [runOn_guarded, if_pos hvalid, runOn_get_bind]

theorem runOn_deleteChild {h : Handle} (hvalid : d.isValid h = true) (s : Segment) :
    (h.deleteChild s).runOn d = (Live.remove (h.path ++ [s]) d.delimiter).runOn d := by
  unfold Handle.deleteChild
  rw [runOn_guarded, if_pos hvalid, runOn_get_bind]

theorem runOn_setRawValue {h : Handle} (hvalid : d.isValid h = true) (v : Value) :
    (h.setRawValue v).runOn d = (write h.path d.delimiter v).runOn d := by
  unfold Handle.setRawValue
  rw [runOn_guarded, if_pos hvalid, runOn_get_bind]

/-! ## Containers of the right kind -/

/-- The key gets its value in place, or comes last; and what it had before is told. -/
theorem outcome_insert (hdistinct : d.value.Distinct) (hvalid : d.isValid view.handle = true)
    (hpath : ∀ s ∈ view.handle.path, s.isSlice = false)
    (hS : d.value.walk? view.handle.path = some (.mapping entries)) (key : String) (v : Value) :
    outcome (view.insert key v) d = (.ok (Entries.get? key entries),
      d.value.replaceAt view.handle.path (.mapping (Entries.put key v entries))) := by
  have hwrite := Value.write?_concat_key hdistinct hpath hS (s := .key key) rfl v
  obtain ⟨d', hvalue, hthen⟩ := outcome_write_then d.delimiter hwrite
    (return Entries.get? key entries)
  have hrun : (view.insert key v).runOn d = (do
      write (view.handle.path ++ [.key key]) d.delimiter v
      return Entries.get? key entries : Live (Option Value)).runOn d := by
    unfold insert
    rw [runOn_value_bind hvalid hS, runOn_bind, runOn_bind, runOn_writeChild hvalid]
  rw [outcome, hrun, ← outcome, hthen, ← hvalue]
  rfl

/-- The entry with the key is taken out, if there is one, and told. -/
theorem outcome_remove (hdistinct : d.value.Distinct) (hvalid : d.isValid view.handle = true)
    (hpath : ∀ s ∈ view.handle.path, s.isSlice = false)
    (hS : d.value.walk? view.handle.path = some (.mapping entries)) (key : String) :
    outcome (view.remove key) d = (.ok (Entries.get? key entries),
      d.value.replaceAt view.handle.path
        (.mapping (entries.filter fun e => decide (e.1 ≠ key)))) := by
  cases hget : Entries.get? key entries with
  | none =>
    have hnew := Entries.notMem_keys_of_get? hget
    have hall : ∀ e ∈ entries, decide (e.1 ≠ key) = true := by
      intro e he
      exact decide_eq_true fun hek => hnew (List.mem_map.mpr ⟨e, he, hek⟩)
    rw [List.filter_eq_self.mpr hall, Value.replaceAt_walk? hdistinct hpath hS, outcome, remove,
      runOn_value_bind hvalid hS]
    dsimp only
    rw [hget]
    rfl
  | some old =>
    have htake := Value.remove?_concat_key hdistinct hpath hS (s := .key key) rfl hget
    have hrun : (view.remove key).runOn d = (do
        return some (← Live.remove (view.handle.path ++ [.key key]) d.delimiter) :
          Live (Option Value)).runOn d := by
      rw [remove, runOn_value_bind hvalid hS]
      dsimp only
      rw [hget, Option.isSome_some, if_pos rfl, runOn_told, runOn_told, runOn_deleteChild hvalid]
    have hremove : outcome (Live.remove (view.handle.path ++ [.key key]) d.delimiter) d = _ :=
      Live.outcome_remove htake
    rw [outcome, Prod.mk.injEq] at hremove
    rw [outcome, hrun, runOn_told, hremove.1, hremove.2]
    rfl

/-- The value comes after all elements. -/
theorem outcome_push {items : List Value} (hdistinct : d.value.Distinct)
    (hvalid : d.isValid view.handle = true)
    (hpath : ∀ s ∈ view.handle.path, s.isSlice = false)
    (hS : d.value.walk? view.handle.path = some (.sequence items)) (v : Value) :
    outcome (view.push v) d = (.ok (),
      d.value.replaceAt view.handle.path (.sequence (items ++ [v]))) := by
  obtain ⟨v', hwrite⟩ := Value.exists_write?_of_walk? hpath hS (.sequence (items ++ [v]))
  have hrun : (view.push v).runOn d =
      (write view.handle.path d.delimiter (.sequence (items ++ [v]))).runOn d := by
    unfold push
    rw [runOn_value_bind hvalid hS, runOn_setRawValue hvalid]
  rw [outcome, hrun, ← outcome, ← Value.eq_replaceAt_of_write? hdistinct hpath hS hwrite]
  exact outcome_write_eq_ok_iff.mpr hwrite

/-! ## Values of other kinds -/

/-- What is no mapping gets no entry. -/
theorem runOn_insert_of_ne (hvalid : d.isValid view.handle = true)
    (hS : d.value.walk? view.handle.path = some S) (hkind : S.kind ≠ .mapping) (key : String)
    (v : Value) :
    (view.insert key v).runOn d = (.error (.typeConversion .mapping view.variant), d) := by
  rw [insert, runOn_value_bind hvalid hS]
  cases S with
  | mapping entries => exact absurd rfl hkind
  | _ => rfl

/-- What is no mapping loses no entry. -/
theorem runOn_remove_of_ne (hvalid : d.isValid view.handle = true)
    (hS : d.value.walk? view.handle.path = some S) (hkind : S.kind ≠ .mapping) (key : String) :
    (view.remove key).runOn d = (.error (.typeConversion .mapping view.variant), d) := by
  rw [remove, runOn_value_bind hvalid hS]
  cases S with
  | mapping entries => exact absurd rfl hkind
  | _ => rfl

/-- What is no sequence gets no element. -/
theorem runOn_push_of_ne (hvalid : d.isValid view.handle = true)
    (hS : d.value.walk? view.handle.path = some S) (hkind : S.kind ≠ .sequence) (v : Value) :
    (view.push v).runOn d = (.error (.typeConversion .sequence view.variant), d) := by
  rw [push, runOn_value_bind hvalid hS]
  cases S with
  | sequence items => exact absurd rfl hkind
  | _ => rfl

end

end View

namespace Session

/-- In every state that a session reaches, a view of a valid handle whose path has no slice edits the
container that the path leads to. Inserting tells what the key had and gives it the new value, in
place or after all other entries; removing tells what the key had and leaves the other entries in
their order; and a value that is pushed comes last. The container is replaced by the edited one and
nothing else changes. What is no container of the right kind is refused, and then the document is as
it was. -/
theorem view_edits (env : Environment) {value : Value} (hvalue : value.Distinct)
    (settings : Settings) {steps : List Step}
    (hsteps : ∀ step ∈ steps, ∀ v ∈ step.action.brought, v.Distinct) {n : Nat} {d : Document}
    (hd : ((opening env value settings).after steps).document? n = some d) {view : View}
    (hvalid : d.isValid view.handle = true)
    (hpath : ∀ s ∈ view.handle.path, s.isSlice = false) {S : Value}
    (hS : d.value.walk? view.handle.path = some S) :
    (∀ entries, S = .mapping entries →
        (∀ key v, outcome (view.insert key v) d = (.ok (Entries.get? key entries),
          d.value.replaceAt view.handle.path (.mapping
            (if key ∈ Entries.keys entries then
              entries.map fun e => if e.1 = key then (key, v) else e
            else entries ++ [(key, v)])))) ∧
          ∀ key, outcome (view.remove key) d = (.ok (Entries.get? key entries),
            d.value.replaceAt view.handle.path
              (.mapping (entries.filter fun e => decide (e.1 ≠ key))))) ∧
      (∀ items, S = .sequence items → ∀ v, outcome (view.push v) d = (.ok (),
        d.value.replaceAt view.handle.path (.sequence (items ++ [v])))) ∧
        (S.kind ≠ .mapping → ∀ key v,
          (view.insert key v).runOn d = (.error (.typeConversion .mapping view.variant), d) ∧
            (view.remove key).runOn d =
              (.error (.typeConversion .mapping view.variant), d)) ∧
          (S.kind ≠ .sequence → ∀ v,
            (view.push v).runOn d = (.error (.typeConversion .sequence view.variant), d)) := by
  have hdistinct : d.value.Distinct :=
    throughout_after Value.stable_keysDiffer env hvalue settings hsteps n d hd
  refine ⟨?_, ?_, fun hkind key v => ?_, fun hkind v => ?_⟩
  · rintro entries rfl
    have hkeys : (Entries.keys entries).Nodup :=
      (hdistinct.walk? Value.stable_keysDiffer hS).self
    refine ⟨fun key v => ?_, View.outcome_remove hdistinct hvalid hpath hS⟩
    rw [← Entries.put_eq hkeys]
    exact View.outcome_insert hdistinct hvalid hpath hS key v
  · rintro items rfl
    exact View.outcome_push hdistinct hvalid hpath hS
  · exact ⟨View.runOn_insert_of_ne hvalid hS hkind key v,
      View.runOn_remove_of_ne hvalid hS hkind key⟩
  · exact View.runOn_push_of_ne hvalid hS hkind v

/-- A mapping at the end of a sequence, with keys that no address reaches or that read like
something else. -/
def oddKeys : List (String × Value) :=
  [("", .null), ("a/b", .boolean true), ("1:", .string "x")]

def oddRows : Value :=
  .mapping [("rows", .sequence [.null, .mapping oddKeys])]

/-- Somebody holds the mapping, by its position from the end. -/
def oddSteps : List Step :=
  [⟨.document (.member (.text "rows/-1")), some "x"⟩]

/-- A view of the mapping that was made when there was something else. -/
def oddView : View :=
  ⟨⟨⟨0, 0, 0⟩, [.key "rows", .index (-1)]⟩, .null⟩

/-- An empty key, one with the delimiter and one like a slice are told apart by a view. -/
theorem view_edits_odd_keys :
    ∃ d, ((opening [] oddRows {}).after oddSteps).document? 0 = some d ∧
      outcome (oddView.insert "" (.boolean false)) d = (.ok (some .null),
        d.value.replaceAt oddView.handle.path (.mapping
          [("", .boolean false), ("a/b", .boolean true), ("1:", .string "x")])) ∧
        outcome (oddView.remove "a/b") d = (.ok (some (.boolean true)),
          d.value.replaceAt oddView.handle.path
            (.mapping [("", .null), ("1:", .string "x")])) ∧
          (oddView.push .null).runOn d = (.error (.typeConversion .sequence .null), d) := by
  have hdistinct : oddRows.Distinct := by
    simp [oddRows, oddKeys, Value.Distinct, Value.Throughout, Value.ThroughoutEntries,
      Value.ThroughoutAll, Value.KeysDiffer, Entries.keys]
  have hsteps : ∀ step ∈ oddSteps, ∀ v ∈ step.action.brought, v.Distinct := by
    simp [oddSteps, Action.brought, DocumentCall.brought]
  have hd : ((opening [] oddRows {}).after oddSteps).document? 0 =
    some ((opening [] oddRows {}).after oddSteps).document := rfl
  have hS : ((opening [] oddRows {}).after oddSteps).document.value.walk?
      oddView.handle.path = some (.mapping oddKeys) := by rfl
  have hvalid : ((opening [] oddRows {}).after oddSteps).document.isValid oddView.handle = true := by
    decide +kernel
  obtain ⟨hmapping, -, -, hpush⟩ := view_edits [] hdistinct {} hsteps hd hvalid (by decide) hS
  obtain ⟨hinsert, hremove⟩ := hmapping oddKeys rfl
  refine ⟨_, hd, (hinsert "" (.boolean false)).trans ?_, (hremove "a/b").trans ?_,
    hpush (by decide) .null⟩ <;> rfl

end Session

end LiveDocument
