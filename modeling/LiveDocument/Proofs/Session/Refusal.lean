import LiveDocument.Proofs.Document.Atomic
import LiveDocument.Proofs.Session.Run

/-!
# Refused edits

An edit that is refused changes nothing at all: no value, no handle's validity, no count of cached
handles and no register, neither in the document that it was asked of nor in another. This holds for
every way to edit, whatever the settings are and whatever is held, also for handles whose paths go
through slices, and so a write at several places is done at all of them or at none.

* `Action.Edits`: the actions that edit.
* `atomic_documentCall`, `atomic_handleCall`, `atomic_viewCall`: their calls fail without a trace.
* `release_after`: after a step nothing is held that could be let go of.
* `run_of_refused`: a refused edit leaves the session as it is.
-/

namespace LiveDocument

/-- The call writes or removes. -/
def DocumentCall.Edits : DocumentCall → Prop
  | set _ _ | delete _ | write _ _ _ | remove _ _ => True
  | _ => False

/-- The call writes or removes. -/
def HandleCall.Edits : HandleCall → Prop
  | set _ _ | setRaw _ | delete | deleteAt _ => True
  | _ => False

/-- The call writes or removes. -/
def ViewCall.Edits : ViewCall → Prop
  | push _ | insert _ _ | remove _ => True
  | _ => False

/-- The action writes or removes, through the document, a handle or a view. -/
def Action.Edits : Action → Prop
  | .document call => call.Edits
  | .handle _ call => call.Edits
  | .view _ call => call.Edits
  | _ => False

namespace Live

theorem atomic_documentCall (env : Environment) {call : DocumentCall} (hcall : call.Edits) :
    Atomic (call.run env) := by
  cases call with
  | set q v => exact (atomic_set q v).told fun _ => Answer.nothing
  | delete q => exact (atomic_delete q).told Answer.value
  | write path delimiter v =>
    exact atomic_get fun d => (atomic_write path _ v).told fun _ => Answer.nothing
  | remove path delimiter => exact atomic_get fun d => (atomic_remove path _).told Answer.value
  | _ => cases hcall

theorem atomic_handleCall (env : Environment) (h : Handle) {call : HandleCall}
    (hcall : call.Edits) : Atomic (call.run env h) := by
  cases call with
  | set q v => exact (atomic_handleSet h q v).told fun _ => Answer.nothing
  | setRaw v => exact (atomic_setRawValue h v).told fun _ => Answer.nothing
  | delete => exact (atomic_handleDelete h).told Answer.value
  | deleteAt q => exact (atomic_deleteAt h q).told Answer.value
  | _ => cases hcall

theorem atomic_viewCall (v : View) {call : ViewCall} (hcall : call.Edits) :
    Atomic (call.run v) := by
  cases call with
  | push item => exact (atomic_push v item).told fun _ => Answer.nothing
  | insert key item => exact (atomic_insert v key item).told Answer.entry
  | remove key => exact (atomic_viewRemove v key).told Answer.entry
  | _ => cases hcall

end Live

namespace Session

section

variable {s : Session}

/-! ## Letting go twice -/

theorem releaseIn_releaseIn (s : Session) (n : Nat) (d : Document) :
    s.releaseIn n (s.releaseIn n d) = s.releaseIn n d := by
  have hfilter : ∀ (p : Nat → Bool), (d.keep p).keep p = d.keep p := by
    intro p
    simp only [Document.keep, Arena.keep, List.filter_filter, Bool.and_self]
  exact hfilter _

theorem release_release (s : Session) : s.release.release = s.release := by
  have hdetached : s.release.release.detached = s.release.detached := by
    apply List.ext_getElem?
    intro i
    simp only [release, List.getElem?_map, List.getElem?_zipIdx, Option.map_map]
    cases s.detached[i]? with
    | none => rfl
    | some d => exact congrArg some (releaseIn_releaseIn s _ d)
  have hdocument : s.release.release.document = s.release.document :=
    releaseIn_releaseIn s 0 s.document
  have hparts : s.release.release = ⟨s.environment, s.release.release.document,
      s.release.release.detached, s.registers⟩ := rfl
  rw [hparts, hdetached, hdocument]
  rfl

theorem release_of_after (h : s.release = s) (steps : List Step) :
    (s.after steps).release = s.after steps := by
  induction steps generalizing s with
  | nil => exact h
  | cons step rest ih =>
    refine ih ?_
    rw [run_snd, release_release]

/-- After a run nothing is held that could be let go of. -/
theorem release_after (env : Environment) (value : Value) (settings : Settings)
    (steps : List Step) :
    ((opening env value settings).after steps).release =
      (opening env value settings).after steps :=
  release_of_after rfl steps

/-! ## Refusals -/

/-- An atomic operation that is refused leaves the session as it is. -/
theorem perform_of_refused {n : Nat} {call : Live (Answer Handle)} (hcall : Live.Atomic call)
    {name : Option String} {r : Refusal} (h : (s.perform n call name).1 = .error r) :
    (s.perform n call name).2 = s := by
  cases hd : s.document? n with
  | none =>
    unfold perform
    rw [hd]
  | some d =>
    cases hrun : call.runOn d with
    | mk result d' =>
      cases result with
      | ok answer =>
        rw [perform_of_ok hd hrun] at h
        unfold conclude at h
        cases name <;> cases h
      | error f =>
        have hsame : d' = d := hcall d d' f hrun
        rw [perform_of_error hd hrun, hsame]
        exact setDocument_self hd

theorem act_of_refused {step : Step} (hedits : step.action.Edits) {r : Refusal}
    (h : (s.act step).1 = .error r) : (s.act step).2 = s := by
  unfold act at h ⊢
  cases ha : step.action with
  | document call =>
    rw [ha] at h hedits
    exact perform_of_refused (Live.atomic_documentCall s.environment hedits) h
  | handle name call =>
    rw [ha] at h hedits
    dsimp only at h ⊢
    cases hr : s.register? name with
    | none => rfl
    | some register =>
      rw [hr] at h
      exact perform_of_refused
        (Live.atomic_handleCall s.environment register.watched hedits) h
  | view name call =>
    rw [ha] at h hedits
    dsimp only at h ⊢
    split
    · rename_i n v hr
      rw [hr] at h
      exact perform_of_refused (Live.atomic_viewCall v hedits) h
    · rfl
  | _ =>
    rw [ha] at hedits
    cases hedits

end

/-- In every state that a session reaches, an edit that is refused leaves the whole session as it
is: the value of every document, the validity of every handle, the count of cached handles and the
registers. -/
theorem run_of_refused (env : Environment) (value : Value) (settings : Settings)
    (steps : List Step) {step : Step} (hedits : step.action.Edits) {r : Refusal}
    (h : (((opening env value settings).after steps).run step).1.answer = .error r) :
    (((opening env value settings).after steps).run step).2 =
      (opening env value settings).after steps := by
  have hact := act_of_refused hedits h
  rw [run_snd, hact]
  exact release_after env value settings steps

/-- A write of two elements through a slice on the way is refused, and the handle that is held
beside stays as it is. -/
theorem run_of_refused_inner_slice :
    (((opening [] (.mapping [("m", .sequence [.sequence [.null, .null], .null])]) {}).after
      [⟨.document (.member (.text "m/0/1")), some "x"⟩]).run
        ⟨.document (.set (.text "m/0:2/0:2") (.boolean true)), none⟩).2 =
      (opening [] (.mapping [("m", .sequence [.sequence [.null, .null], .null])]) {}).after
        [⟨.document (.member (.text "m/0/1")), some "x"⟩] :=
  run_of_refused [] _ {} _ trivial (r := .failed (.writeTargetMissing "/m/0:2:/0")) (by rfl)

end Session

end LiveDocument
