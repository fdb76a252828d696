import LiveDocument.Proofs.Document.Ensures
import LiveDocument.Proofs.Document.Faithful
import LiveDocument.Proofs.Tree.Writable
import LiveDocument.View

/-!
# Operations that fail without a trace

Every edit looks whether it can be made before it changes anything. An edit of several places could
fail half way; it does not, because its places are elements of one sequence, which stays where it is
and keeps its length.

* `Atomic`: an operation that leaves the document as it is when it fails.
* `atomic_update`: writing at every place that an address names.
* `atomic_push`, `atomic_insert`, `atomic_remove`: the edits of views.
-/

namespace LiveDocument

namespace Live

open Document

variable {α β : Type}

/-- An operation that leaves the document as it is when it fails. -/
def Atomic (x : Live α) : Prop :=
  ∀ (d d' : Document) (f : Failure), x.runOn d = (.error f, d') → d' = d

theorem Reads.atomic {x : Live α} (hx : Reads x) : Atomic x := by
  intro d d' f h
  have hd := hx d
  rw [h] at hd
  exact hd

/-- What only reads may go before an atomic operation. -/
theorem Reads.bind_atomic {x : Live α} {f : α → Live β} (hx : Reads x) (hf : ∀ a, Atomic (f a)) :
    Atomic (x >>= f) := by
  intro d d' e h
  have hd := hx d
  rw [runOn_bind] at h
  cases hrun : x.runOn d with
  | mk r d₁ =>
    rw [hrun] at h hd
    obtain rfl : d₁ = d := hd
    cases r with
    | error e' =>
      cases h
      rfl
    | ok a => exact hf a d₁ d' e h

/-- Telling the answer of an atomic operation cannot fail. -/
theorem Atomic.told {x : Live α} (hx : Atomic x) (f : α → β) :
    Atomic (x >>= fun a => pure (f a)) := by
  intro d d' e h
  rw [runOn_bind] at h
  cases hrun : x.runOn d with
  | mk r d₁ =>
    rw [hrun] at h
    cases r with
    | error e' =>
      cases h
      exact hx d d' e hrun
    | ok a => cases h

theorem atomic_get {f : Document → Live β} (hf : ∀ d, Atomic (f d)) : Atomic (get >>= f) :=
  Reads.bind_atomic (fun _ => rfl) hf

/-! ## Edits of a document -/

theorem atomic_write (path : Path) (delimiter : String) (v : Value) :
    Atomic (write path delimiter v) := by
  intro d d' f h
  rw [runOn_write] at h
  cases hw : d.write? path v with
  | some d₁ =>
    rw [hw] at h
    cases h
  | none =>
    rw [hw] at h
    cases h
    rfl

theorem atomic_remove (path : Path) (delimiter : String) : Atomic (remove path delimiter) := by
  intro d d' f h
  rw [runOn_remove] at h
  cases hr : d.remove? path with
  | some e =>
    rw [hr] at h
    cases h
  | none =>
    rw [hr] at h
    cases h
    rfl

/-- A write in the document succeeds if it does in the value. -/
theorem exists_write? {d : Document} {path : Path} {v v' : Value}
    (h : d.value.write? v path = some v') : ∃ d', d.write? path v = some d' ∧ d'.value = v' := by
  cases hw : d.write? path v with
  | none =>
    rw [Document.write?, h] at hw
    cases hw
  | some d' =>
    have hvalue := value_write? hw
    rw [h] at hvalue
    exact ⟨d', rfl, (Option.some.inj hvalue).symm⟩

/-- Without a slice on the way, writing elements of one sequence one after the other never fails. -/
theorem runOn_writeAll_elements (delimiter : String) (v : Value) {front : Path}
    (hfront : ∀ s ∈ front, s.isSlice = false) {paths : List Path} {d : Document}
    (h : d.value.Elements front paths) :
    ∃ d', (writeAll delimiter v paths).runOn d = (.ok (), d') := by
  induction paths generalizing d with
  | nil => exact ⟨d, rfl⟩
  | cons path rest ih =>
    obtain ⟨v', hwrite, hrest⟩ := h.write? hfront v
    obtain ⟨d₁, hd₁, rfl⟩ := exists_write? hwrite
    obtain ⟨d', hd'⟩ := ih hrest
    refine ⟨d', ?_⟩
    rw [writeAll, runOn_bind, runOn_write, hd₁]
    exact hd'

/-- Writing elements of one sequence fails at the first of them or not at all. -/
theorem atomic_writeAll_elements (delimiter : String) (v : Value) {front : Path}
    {paths : List Path} {d d' : Document} {f : Failure} (h : d.value.Elements front paths)
    (hrun : (writeAll delimiter v paths).runOn d = (.error f, d')) : d' = d := by
  cases paths with
  | nil => cases hrun
  | cons path rest =>
    by_cases hfront : ∀ s ∈ front, s.isSlice = false
    · obtain ⟨d₁, hd₁⟩ := runOn_writeAll_elements delimiter v hfront h
      rw [hd₁] at hrun
      cases hrun
    · have hnone := h.write?_eq_none hfront v
      rw [writeAll, runOn_bind, runOn_write, Document.write?, hnone] at hrun
      cases hrun
      rfl

theorem atomic_update (a : Address) (context : Path) (v : Value) : Atomic (update a context v) := by
  intro d d' f h
  rw [update, runOn_get_bind] at h
  rcases Value.writePaths_cases d.value a context with ⟨path, hp⟩ | ⟨front, hfront⟩
  · rw [hp] at h
    exact (atomic_write path a.delimiter v).told (fun _ => ()) d d' f h
  · exact atomic_writeAll_elements a.delimiter v hfront h

theorem atomic_set (q : Query) (v : Value) : Atomic (Document.set q v) :=
  atomic_get fun _ => atomic_update _ _ _

theorem atomic_delete (q : Query) : Atomic (Document.delete q) :=
  atomic_get fun _ => atomic_remove _ _

/-! ## Edits through a handle -/

/-- An operation through a handle that goes on with an atomic one. -/
theorem atomic_guarded (h : Handle) {f : Document → Live β} (hf : ∀ d, Atomic (f d)) :
    Atomic (h.ensureValid >>= fun _ => get >>= f) :=
  (reads_ensureValid h).bind_atomic fun _ => atomic_get hf

theorem atomic_setRawValue (h : Handle) (v : Value) : Atomic (h.setRawValue v) :=
  atomic_guarded h fun _ => atomic_write _ _ _

theorem atomic_handleSet (h : Handle) (q : Query) (v : Value) : Atomic (h.set q v) :=
  atomic_guarded h fun _ => atomic_update _ _ _

theorem atomic_deleteAt (h : Handle) (q : Query) : Atomic (h.deleteAt q) :=
  atomic_guarded h fun _ => atomic_remove _ _

theorem atomic_handleDelete (h : Handle) : Atomic h.delete :=
  atomic_guarded h fun _ => atomic_remove _ _

theorem atomic_writeChild (h : Handle) (segment : Segment) (v : Value) :
    Atomic (h.writeChild segment v) :=
  atomic_guarded h fun _ => atomic_write _ _ _

theorem atomic_deleteChild (h : Handle) (segment : Segment) : Atomic (h.deleteChild segment) :=
  atomic_guarded h fun _ => atomic_remove _ _

/-! ## Edits through a view -/

theorem atomic_mismatch (v : View) (kind : Kind) : Atomic (v.mismatch kind : Live α) :=
  Reads.atomic (reads_throw _)

theorem atomic_push (v : View) (item : Value) : Atomic (v.push item) := by
  refine (reads_rawValue v.handle).bind_atomic fun value => ?_
  cases value with
  | sequence items => exact atomic_setRawValue v.handle _
  | _ => exact atomic_mismatch v _

theorem atomic_insert (v : View) (key : String) (item : Value) : Atomic (v.insert key item) := by
  refine (reads_rawValue v.handle).bind_atomic fun value => ?_
  cases value with
  | mapping entries => exact (atomic_writeChild v.handle _ item).told fun _ => _
  | _ => exact atomic_mismatch v _

theorem atomic_viewRemove (v : View) (key : String) : Atomic (v.remove key) := by
  refine (reads_rawValue v.handle).bind_atomic fun value => ?_
  cases value with
  | mapping entries =>
    dsimp only
    split
    · exact (atomic_deleteChild v.handle _).told some
    · exact (reads_pure none).atomic
  | _ => exact atomic_mismatch v _

end Live

end LiveDocument
