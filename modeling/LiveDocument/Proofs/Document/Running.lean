import LiveDocument.Handle.Access

/-!
# Running operations

What an operation answers and which document it leaves, as one pair. An operation through a handle
fails first if the handle is not valid, and then leaves the document as it is.

* `runOn_bind`: an operation after another. `runOn_told`: what it gives, told in another way.
* `runOn_guarded`: an operation through a handle.
* `runOn_write`, `runOn_remove`, `runOn_require`: the operations that look whether they can.
-/

namespace LiveDocument

namespace Live

variable {α β : Type}

@[simp] theorem runOn_get (d : Document) : (get : Live Document).runOn d = (.ok d, d) := rfl

@[simp] theorem runOn_ofFunction (f : Document → α × Document) (d : Document) :
    (ofFunction f).runOn d = (.ok (f d).1, (f d).2) := rfl

theorem runOn_bind (x : Live α) (f : α → Live β) (d : Document) :
    (x >>= f).runOn d =
      match x.runOn d with
      | (.ok a, d') => (f a).runOn d'
      | (.error e, d') => (.error e, d') := by
  simp only [runOn, ExceptT.run, StateT.run, bind, ExceptT.bind, ExceptT.mk, StateT.bind,
    ExceptT.bindCont]
  cases x d with
  | mk r d' => cases r <;> rfl

/-- An operation after another succeeds if both do. -/
theorem of_runOn_bind_ok {x : Live α} {f : α → Live β} {d d'' : Document} {b : β}
    (h : (x >>= f).runOn d = (.ok b, d'')) :
    ∃ a d', x.runOn d = (.ok a, d') ∧ (f a).runOn d' = (.ok b, d'') := by
  rw [runOn_bind] at h
  split at h
  · rename_i a d' hx
    exact ⟨a, d', hx, h⟩
  · cases h

theorem runOn_get_bind (f : Document → Live β) (d : Document) :
    (get >>= f).runOn d = (f d).runOn d := by
  rw [runOn_bind, runOn_get]

/-- Telling what an operation gives. -/
theorem runOn_told (x : Live α) (f : α → β) (d : Document) :
    (x >>= fun a => pure (f a)).runOn d = ((x.runOn d).1.map f, (x.runOn d).2) := by
  rw [runOn_bind]
  cases x.runOn d with
  | mk r d' => cases r <;> rfl

/-! ## Operations on documents -/

@[simp] theorem runOn_resolve (a : Address) (context : Path) (useCache : Bool) (d : Document) :
    (Live.resolve a context useCache).runOn d =
      (.ok (d.resolve a context useCache).1, (d.resolve a context useCache).2) := rfl

theorem runOn_require (a : Address) (context : Path) (useCache : Bool) (d : Document) :
    (Live.require a context useCache).runOn d =
      (match (d.resolve a context useCache).1 with
        | h :: _ => .ok h
        | [] => .error (.missingMember (a.canonical context)),
        (d.resolve a context useCache).2) := by
  unfold Live.require
  rw [runOn_bind, runOn_resolve]
  cases (d.resolve a context useCache).1 <;> rfl

theorem runOn_write (path : Path) (delimiter : String) (v : Value) (d : Document) :
    (Live.write path delimiter v).runOn d =
      match d.write? path v with
      | some d' => (.ok (), d')
      | none => (.error (.writeTargetMissing (path.address delimiter)), d) := by
  unfold Live.write
  rw [runOn_get_bind]
  cases d.write? path v <;> rfl

theorem runOn_remove (path : Path) (delimiter : String) (d : Document) :
    (Live.remove path delimiter).runOn d =
      match d.remove? path with
      | some (old, d') => (.ok old, d')
      | none => (.error (.writeTargetMissing (path.address delimiter)), d) := by
  unfold Live.remove
  rw [runOn_get_bind]
  cases d.remove? path <;> rfl

/-! ## Operations through a handle -/

/-- An operation through a handle fails first if the handle is not valid. -/
theorem runOn_guarded (h : Handle) (f : Unit → Live β) (d : Document) :
    (h.ensureValid >>= f).runOn d =
      if d.isValid h then (f ()).runOn d else (.error (h.invalid d), d) := by
  unfold Handle.ensureValid
  rw [runOn_bind, runOn_get_bind]
  cases d.isValid h <;> rfl

theorem runOn_rawValue (h : Handle) (d : Document) :
    h.rawValue.runOn d =
      (if d.isValid h then
          match d.value.walk? h.path with
          | some v => .ok v
          | none => .error (h.invalid d)
        else .error (h.invalid d), d) := by
  unfold Handle.rawValue
  rw [runOn_guarded, runOn_get_bind]
  cases d.isValid h with
  | false => rfl
  | true => cases d.value.walk? h.path <;> rfl

theorem runOn_kind (h : Handle) (d : Document) :
    h.kind.runOn d = ((h.rawValue.runOn d).1.map Value.kind, d) := by
  unfold Handle.kind
  rw [runOn_bind, runOn_rawValue]
  cases d.isValid h with
  | false => rfl
  | true => cases d.value.walk? h.path <;> rfl

theorem runOn_queryWith (k : Handle) (q : Query) (useCache : Bool) (d : Document) :
    (k.queryWith q useCache).runOn d =
      if d.isValid k then (Live.resolve (d.addressOf q) k.path useCache).runOn d
      else (.error (k.invalid d), d) := by
  unfold Handle.queryWith
  rw [runOn_guarded, runOn_get_bind]

theorem runOn_query (k : Handle) (q : Query) (d : Document) :
    (k.query q).runOn d = (k.queryWith q d.settings.useCache).runOn d := by
  unfold Handle.query
  rw [runOn_get_bind]

theorem runOn_get? (k : Handle) (q : Query) (d : Document) :
    (k.get? q).runOn d =
      if d.isValid k then
        (.ok (d.resolve (d.addressOf q) k.path d.settings.useCache).1.head?,
          (d.resolve (d.addressOf q) k.path d.settings.useCache).2)
      else (.error (k.invalid d), d) := by
  unfold Handle.get?
  rw [runOn_bind, runOn_query, runOn_queryWith]
  cases d.isValid k <;> rfl

theorem runOn_member (k : Handle) (q : Query) (d : Document) :
    (k.member q).runOn d =
      if d.isValid k then
        (Live.require (d.addressOf q) k.path d.settings.useCache).runOn d
      else (.error (k.invalid d), d) := by
  unfold Handle.member
  rw [runOn_guarded, runOn_get_bind]

theorem runOn_child? (k : Handle) (segment : Segment) (d : Document) :
    (k.child? segment).runOn d =
      if d.isValid k then
        (.ok (d.resolve ⟨[segment], false, d.delimiter⟩ k.path d.settings.useCache).1.head?,
          (d.resolve ⟨[segment], false, d.delimiter⟩ k.path d.settings.useCache).2)
      else (.error (k.invalid d), d) := by
  unfold Handle.child?
  rw [runOn_guarded, runOn_get_bind, runOn_bind, runOn_resolve]
  cases d.isValid k <;> rfl

end Live

end LiveDocument
