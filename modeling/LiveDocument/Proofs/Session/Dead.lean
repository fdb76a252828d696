import LiveDocument.Proofs.Session.Refusal

/-!
# Handles that are not valid

Whoever works through a handle that is not valid is refused, with the address of the handle, and
nothing changes. This holds for the operations of the handle and for those of every view of it,
whatever kind the view has kept. One operation answers before it looks at the handle: a view that
has kept the kind of a scalar refuses a lookup for that kind.

* `Live.Refuses`: a refusal that changes nothing, `refuses_bind` its composition.
* `HandleCall.Identifies`, `ViewCall.overlooks`: the calls that do not look whether the handle is
  valid.
* `refuses_handleCall`, `refuses_viewCall`: all other calls are refused.
* `dead_handle_refuses`: in every state that a session reaches.
-/

namespace LiveDocument

/-- The call tells which handle this is, or ends its validity. -/
def HandleCall.Identifies : HandleCall → Prop
  | describe | isValid | invalidate | path | address | cacheKey | description => True
  | _ => False

/-- The call on a view that has kept this kind does not come to look at the handle. -/
def ViewCall.overlooks (variant : Kind) : ViewCall → Bool
  | get _ => !variant.isContainer && variant != .null
  | _ => false

namespace Live

variable {α β : Type} {d : Document} {f : Failure}

/-- The operation fails, and the document stays as it is. -/
def Refuses (d : Document) (f : Failure) (x : Live α) : Prop :=
  x.runOn d = (.error f, d)

theorem refuses_throw : Refuses d f (throw f : Live α) := rfl

/-- An operation whose first part is refused is refused. -/
theorem refuses_bind {x : Live α} (hx : Refuses d f x) (g : α → Live β) : Refuses d f (x >>= g) := by
  rw [Refuses, runOn_bind, hx]

theorem refuses_get {g : Document → Live β} (hg : Refuses d f (g d)) : Refuses d f (get >>= g) := by
  rw [Refuses, runOn_get_bind]
  exact hg

/-! ## Operations through a handle -/

section

variable {h : Handle} (hdead : d.isValid h = false)

include hdead

theorem refuses_guarded (g : Unit → Live β) : Refuses d (h.invalid d) (h.ensureValid >>= g) := by
  rw [Refuses, runOn_guarded, hdead]
  rfl

theorem refuses_rawValue : Refuses d (h.invalid d) h.rawValue :=
  refuses_guarded hdead _

theorem refuses_kind : Refuses d (h.invalid d) h.kind :=
  refuses_bind (refuses_rawValue hdead) _

theorem refuses_query (q : Query) : Refuses d (h.invalid d) (h.query q) :=
  refuses_get (refuses_guarded hdead _)

theorem refuses_get? (q : Query) : Refuses d (h.invalid d) (h.get? q) :=
  refuses_bind (refuses_query hdead q) _

theorem refuses_parsedValue (env : Environment) : Refuses d (h.invalid d) (h.parsedValue env) :=
  refuses_bind (refuses_rawValue hdead) _

theorem refuses_expecting (kind : Kind) : Refuses d (h.invalid d) (View.expecting kind h) :=
  refuses_bind (refuses_kind hdead) _

/-- Every call through a handle that is not valid is refused, unless it tells which handle this
is. -/
theorem refuses_handleCall (env : Environment) {call : HandleCall} (hcall : ¬ call.Identifies) :
    Refuses d (h.invalid d) (call.run env h) := by
  cases call with
  | describe | isValid | invalidate | path | address | cacheKey | description =>
    exact (hcall trivial).elim
  | raw => exact refuses_bind (refuses_rawValue hdead) _
  | parsed => exact refuses_bind (refuses_parsedValue hdead env) _
  | setRaw v => exact refuses_bind (refuses_guarded hdead _) _
  | kind => exact refuses_bind (refuses_kind hdead) _
  | exportAs format => exact refuses_bind (refuses_bind (refuses_parsedValue hdead env) _) _
  | query q => exact refuses_bind (refuses_query hdead q) _
  | queryWith q useCache => exact refuses_bind (refuses_guarded hdead _) _
  | get q => exact refuses_bind (refuses_get? hdead q) _
  | member q => exact refuses_bind (refuses_guarded hdead _) _
  | set q v => exact refuses_bind (refuses_guarded hdead _) _
  | deleteAt q => exact refuses_bind (refuses_guarded hdead _) _
  | delete => exact refuses_bind (refuses_guarded hdead _) _
  | view => exact refuses_bind (refuses_bind (refuses_kind hdead) _) _
  | sequenceView => exact refuses_bind (refuses_expecting hdead .sequence) _
  | mappingView => exact refuses_bind (refuses_expecting hdead .mapping) _

end

/-! ## Operations on a view -/

section

variable {v : View}

/-- An operation on a view that first reads the value. -/
theorem refuses_value (hdead : d.isValid v.handle = false) (g : Value → Live β) :
    Refuses d (v.handle.invalid d) (v.value >>= g) :=
  refuses_bind (refuses_rawValue hdead) g

/-- A lookup is refused for the kind that the view has kept if that is the kind of a scalar, else
for the handle. -/
theorem refuses_viewGet (hdead : d.isValid v.handle = false) (q : Query) :
    Refuses d (if (ViewCall.get q).overlooks v.variant then .typeConversion .mapping v.variant
      else v.handle.invalid d) (v.get? q) := by
  obtain ⟨h, variant⟩ := v
  cases variant with
  | mapping | sequence => exact refuses_get? hdead q
  | null => exact refuses_bind (refuses_rawValue hdead) _
  | boolean | integer | float | string => exact refuses_throw

/-- Every call on a view of a handle that is not valid is refused; all that the view tells is the
kind it has kept. -/
theorem refuses_viewCall (hdead : d.isValid v.handle = false) {call : ViewCall}
    (hcall : call ≠ .variant) :
    Refuses d (if call.overlooks v.variant then .typeConversion .mapping v.variant
      else v.handle.invalid d) (call.run v) := by
  have hlength : Refuses d (v.handle.invalid d) v.length := refuses_value hdead _
  cases call with
  | variant => exact (hcall rfl).elim
  | get q => exact refuses_bind (refuses_viewGet hdead q) _
  | kind => exact refuses_bind (refuses_kind hdead) _
  | length => exact refuses_bind hlength _
  | isEmpty => exact refuses_bind (refuses_bind hlength _) _
  | _ => exact refuses_bind (refuses_value hdead _) _

end

end Live

namespace Session

variable {s : Session}

/-- A session in which nothing is held that could be let go of stays as it is when an operation is
refused and leaves its document as it is. -/
theorem run_of_refuses {n : Nat} {d : Document} (hd : s.document? n = some d)
    (hrelease : s.release = s) {f : Failure} {x : Live (Answer Handle)} (hx : Live.Refuses d f x)
    {step : Step} (hact : s.act step = s.perform n x step.store) :
    (s.run step).1.answer = .error (.failed f) ∧ (s.run step).2 = s := by
  rw [perform_of_error hd hx, setDocument_self hd] at hact
  refine ⟨congrArg Prod.fst hact, ?_⟩
  rw [run_snd, hact]
  exact hrelease

/-- In every state that a session reaches, whoever works through a handle that is not valid, or on
a view of it, is refused, and the session stays as it is. The refusal names the handle's address,
except that a view which has kept the kind of a scalar refuses a lookup for that kind. -/
theorem dead_handle_refuses (env : Environment) (value : Value) (settings : Settings)
    (steps : List Step) {name : String} {r : Register}
    (hr : ((opening env value settings).after steps).register? name = some r)
    (hdead : ((opening env value settings).after steps).isLive r = false) (store : Option String) :
    (∀ call : HandleCall, ¬ call.Identifies →
      (((opening env value settings).after steps).run ⟨.handle name call, store⟩).1.answer =
          .error (.failed (.invalidReference (r.watched.address settings.delimiter))) ∧
        (((opening env value settings).after steps).run ⟨.handle name call, store⟩).2 =
          (opening env value settings).after steps) ∧
    ∀ (n : Nat) (v : View), r = .view n v → ∀ call : ViewCall, call ≠ .variant →
      (((opening env value settings).after steps).run ⟨.view name call, store⟩).1.answer =
          .error (.failed (if call.overlooks v.variant then .typeConversion .mapping v.variant
            else .invalidReference (v.handle.address settings.delimiter))) ∧
        (((opening env value settings).after steps).run ⟨.view name call, store⟩).2 =
          (opening env value settings).after steps := by
  have hopening := sound_opening env value settings
  have hsound := sound_after hopening steps
  have hrelease := release_after env value settings steps
  have hset : ((opening env value settings).after steps).document.settings = settings :=
    settings_after hopening steps
  obtain ⟨d, hd, -⟩ := hsound.register (mem_of_register? hr)
  have hdelimiter : d.delimiter = settings.delimiter := by
    rw [Document.delimiter, (hsound.document hd).2, hset]
  have hinvalid : d.isValid r.watched = false := by
    rw [isLive, hd] at hdead
    exact hdead
  constructor
  · intro call hcall
    have hx := Live.refuses_handleCall hinvalid
      ((opening env value settings).after steps).environment hcall
    rw [Handle.invalid, hdelimiter] at hx
    exact run_of_refuses hd hrelease hx (act_handle hr call store)
  · rintro n v rfl call hcall
    have hx := Live.refuses_viewCall (v := v) hinvalid hcall
    rw [Handle.invalid, hdelimiter] at hx
    exact run_of_refuses hd hrelease hx (act_view hr call store)

/-- A view of an integer that a string has replaced: a lookup is refused for the kind of an
integer, the length for the handle. -/
theorem dead_handle_refuses_scalar_lookup :
    ((((opening [] (.mapping [("a", .integer (.ofInt64 1))]) {}).after
      [⟨.document (.member (.text "a")), some "x"⟩, ⟨.handle "x" .view, some "v"⟩,
        ⟨.document (.set (.text "a") (.string "s")), none⟩]).run
      ⟨.view "v" (.get (.text "k")), none⟩).1.answer =
        .error (.failed (.typeConversion .mapping .integer))) ∧
    ((((opening [] (.mapping [("a", .integer (.ofInt64 1))]) {}).after
      [⟨.document (.member (.text "a")), some "x"⟩, ⟨.handle "x" .view, some "v"⟩,
        ⟨.document (.set (.text "a") (.string "s")), none⟩]).run
      ⟨.view "v" .length, none⟩).1.answer = .error (.failed (.invalidReference "/a"))) := by
  have hregister : ((opening [] (.mapping [("a", .integer (.ofInt64 1))]) {}).after
      [⟨.document (.member (.text "a")), some "x"⟩, ⟨.handle "x" .view, some "v"⟩,
        ⟨.document (.set (.text "a") (.string "s")), none⟩]).register? "v" =
          some (.view 0 ⟨⟨⟨0, 0, 0⟩, [.key "a"]⟩, .integer⟩) := by
    decide +kernel
  have hall := (dead_handle_refuses [] _ {} _ hregister (by decide +kernel) none).2 0 _ rfl
  exact ⟨(hall (.get (.text "k")) (by simp)).1, (hall .length (by simp)).1⟩

end Session

end LiveDocument
