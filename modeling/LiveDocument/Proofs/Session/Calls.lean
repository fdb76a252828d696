import LiveDocument.Proofs.Document.Ensures
import LiveDocument.Session.Call

/-!
# What calls ensure

Every call on a document, a handle or a view is taken apart into operations of the document: the
document after the call follows from the one before, also when the call fails, and somebody has
the handles of the answer.

* `ensures_documentCall`, `ensures_handleCall`, `ensures_viewCall`: every call.
-/

namespace LiveDocument

/-- The handles in an answer. -/
def Answer.found {H : Type} : Answer H → List H
  | .handle h => [h]
  | .optional h => h.toList
  | .handles hs => hs
  | .view h _ => [h]
  | _ => []

/-- Whether the handles that a call issues are issued for the cache. -/
def DocumentCall.caches (settings : Settings) : DocumentCall → Bool
  | queryWith _ useCache => useCache
  | _ => settings.useCache

/-- Whether the handles that a call issues are issued for the cache. -/
def HandleCall.caches (settings : Settings) : HandleCall → Bool
  | queryWith _ useCache => useCache
  | _ => settings.useCache

namespace Live

open Document

variable {α β : Type}

/-! ## Calls on documents -/

/-- Somebody has every handle of an answer. -/
def FoundHas (a : Answer Handle) (d : Document) : Prop :=
  ∀ h ∈ a.found, d.Has h

section

variable {useCache : Bool} {start d : Document} {Q : α → Document → Prop}

/-- Telling what an operation gives. -/
theorem ensures_answer {x : Live α} {f : α → Answer Handle} (hx : Ensures useCache start d x Q)
    (h : ∀ a d', Q a d' → ∀ k ∈ (f a).found, d'.Has k) :
    Ensures useCache start d (x >>= fun a => pure (f a)) FoundHas :=
  ensures_bind hx fun a d' hf hq => ensures_pure hf (h a d' hq)

/-- Telling something that is no handle. -/
theorem ensures_told {x : Live α} {f : α → Answer Handle} (hx : Ensures useCache start d x Q)
    (h : ∀ a, (f a).found = []) :
    Ensures useCache start d (x >>= fun a => pure (f a)) FoundHas := by
  refine ensures_answer hx fun a d' _ k hk => ?_
  rw [h a] at hk
  cases hk

theorem ensures_state (hf : Follows useCache start d) :
    Ensures useCache start d (get : Live Document) fun d' d'' => d' = d ∧ d'' = d := by
  refine ⟨hf, fun d' he => ?_⟩
  cases he
  exact ⟨rfl, rfl⟩

end

theorem ensures_documentCall (env : Environment) {d : Document} (hd : d.Sound)
    (call : DocumentCall) :
    Ensures (call.caches d.settings) d d (call.run env) FoundHas := by
  have hf : ∀ {b : Bool}, Follows b d d := Follows.refl hd
  cases call with
  | root =>
    obtain ⟨hfollows, hhas⟩ := follows_obtain hd [] d.value.kind d.settings.useCache
    refine ensures_answer (Q := fun h d' => d'.Has h) (ensures_ofFunction hfollows hhas)
      fun h d' hh k hk => ?_
    rwa [List.mem_singleton.mp hk]
  | member q =>
    refine ensures_answer (ensures_get (ensures_require hf (d.addressOf q) []))
      fun h d' hh k hk => ?_
    rwa [List.mem_singleton.mp hk]
  | get q =>
    obtain ⟨hfollows, hall⟩ := follows_resolve hd (d.addressOf q) [] d.settings.useCache
    refine ensures_answer (Q := fun o d' => ∀ h ∈ o.toList, d'.Has h)
      (ensures_ofFunction hfollows fun h hh => ?_) fun o d' hh => hh
    exact hall h (List.mem_of_mem_head? (Option.mem_toList.mp hh))
  | query q =>
    obtain ⟨hfollows, hall⟩ := follows_resolve hd (d.addressOf q) [] d.settings.useCache
    exact ensures_answer (ensures_ofFunction hfollows hall) fun hs d' hall => hall
  | queryWith q useCache =>
    obtain ⟨hfollows, hall⟩ := follows_resolve hd (d.addressOf q) [] useCache
    exact ensures_answer (ensures_ofFunction hfollows hall) fun hs d' hall => hall
  | contains q => exact ensures_told (ensures_state hf) fun _ => rfl
  | set q v =>
    exact ensures_told (f := fun _ => .nothing)
      (ensures_get (ensures_update hf (d.addressOf q) [] v)) fun _ => rfl
  | delete q => exact ensures_told (ensures_get (ensures_remove hf _ _)) fun _ => rfl
  | raw => exact ensures_told (ensures_state hf) fun _ => rfl
  | parsed => exact ensures_told ((steady_documentParsedValue env).ensures hf) fun _ => rfl
  | exportAs format =>
    refine ensures_told (Q := fun _ _ => True) ?_ fun _ => rfl
    exact ensures_bind ((steady_documentParsedValue env).ensures hf) fun _ _ hf' _ =>
      ensures_pure hf' trivial
  | settings => exact ensures_told (ensures_state hf) fun _ => rfl
  | description => exact ensures_told (ensures_state hf) fun _ => rfl
  | template v => exact ensures_told ((steady_expand env [] v).ensures hf) fun _ => rfl
  | templateFrom v origin =>
    exact ensures_get (ensures_told ((steady_expand env _ v).ensures hf) fun _ => rfl)
  | place path delimiter => exact ensures_told (ensures_state hf) fun _ => rfl
  | write path delimiter v =>
    exact ensures_get (ensures_told (f := fun _ => .nothing) (ensures_write hf path _ v)
      fun _ => rfl)
  | remove path delimiter =>
    exact ensures_get (ensures_told (ensures_remove hf path _) fun _ => rfl)

/-! ## Calls on handles and views -/

section

variable {useCache : Bool} {start d : Document}

theorem ensures_setRawValue (hf : Follows useCache start d) (h : Handle) (v : Value) :
    Ensures useCache start d (h.setRawValue v) fun _ _ => True :=
  ensures_bind ((reads_ensureValid h).ensures hf) fun _ _ hf' _ =>
    ensures_get (ensures_write hf' h.path _ v)

theorem ensures_writeChild (hf : Follows useCache start d) (h : Handle) (segment : Segment)
    (v : Value) : Ensures useCache start d (h.writeChild segment v) fun _ _ => True :=
  ensures_bind ((reads_ensureValid h).ensures hf) fun _ _ hf' _ =>
    ensures_get (ensures_write hf' _ _ v)

theorem ensures_deleteChild (hf : Follows useCache start d) (h : Handle) (segment : Segment) :
    Ensures useCache start d (h.deleteChild segment) fun _ _ => True :=
  ensures_bind ((reads_ensureValid h).ensures hf) fun _ _ hf' _ =>
    ensures_get (ensures_remove hf' _ _)

theorem ensures_queryWith (hf : Follows useCache start d) (h : Handle) (q : Query) :
    Ensures useCache start d (h.queryWith q useCache) fun hs d' => ∀ k ∈ hs, d'.Has k :=
  ensures_bind ((reads_ensureValid h).ensures hf) fun _ _ hf' _ =>
    ensures_get (ensures_resolve hf' _ h.path)

end

section

variable {start d : Document} (hf : Follows start.settings.useCache start d)

include hf

theorem ensures_query (h : Handle) (q : Query) :
    Ensures start.settings.useCache start d (h.query q) fun hs d' => ∀ k ∈ hs, d'.Has k := by
  refine ensures_get ?_
  rw [hf.settings]
  exact ensures_queryWith hf h q

theorem ensures_get? (h : Handle) (q : Query) :
    Ensures start.settings.useCache start d (h.get? q) fun o d' => ∀ k ∈ o.toList, d'.Has k :=
  ensures_bind (ensures_query hf h q) fun _ _ hf' hall => ensures_pure hf' fun k hk =>
    hall k (List.mem_of_mem_head? (Option.mem_toList.mp hk))

theorem ensures_member (h : Handle) (q : Query) :
    Ensures start.settings.useCache start d (h.member q) fun k d' => d'.Has k := by
  refine ensures_bind ((reads_ensureValid h).ensures hf) fun _ d' hf' _ => ensures_get ?_
  rw [hf'.settings]
  exact ensures_require hf' _ h.path

theorem ensures_child? (h : Handle) (segment : Segment) :
    Ensures start.settings.useCache start d (h.child? segment)
      fun o d' => ∀ k ∈ o.toList, d'.Has k := by
  refine ensures_bind ((reads_ensureValid h).ensures hf) fun _ d' hf' _ => ensures_get ?_
  rw [hf'.settings]
  exact ensures_bind (ensures_resolve hf' _ h.path) fun _ _ hf'' hall =>
    ensures_pure hf'' fun k hk => hall k (List.mem_of_mem_head? (Option.mem_toList.mp hk))

omit hf in
theorem ensures_childrenAt (hd : d.Sound) (h : Handle) (segments : List Segment) :
    Ensures d.settings.useCache d d (View.childrenAt h segments)
      fun hs d' => ∀ k ∈ hs, d'.Has k := by
  induction segments generalizing d with
  | nil => exact ensures_pure (Follows.refl hd) fun k hk => by cases hk
  | cons segment rest ih =>
    refine ensures_bind (ensures_child? (Follows.refl hd) h segment) fun o d₁ hf₁ hfirst => ?_
    have hrest := ih hf₁.sound
    rw [hf₁.settings] at hrest
    refine ensures_bind (ensures_after hf₁ hrest) fun hs d₂ hf₂ hrest => ?_
    obtain ⟨hlater, hall⟩ := hrest
    refine ensures_pure hf₂ fun k hk => ?_
    rcases List.mem_append.mp hk with hk | hk
    · exact (hfirst k hk).of_follows hlater
    · exact hall k hk

end

theorem ensures_view {d : Document} (hd : d.Sound) {h : Handle} (hh : d.Has h) {useCache : Bool}
    {x : Live View}
    (hx : Ensures useCache d d x fun v d' => v.handle = h ∧ d' = d) :
    Ensures useCache d d (x >>= fun v => pure (HandleCall.run.viewed v)) FoundHas := by
  refine ensures_answer hx fun v d' he k hk => ?_
  obtain ⟨hv, rfl⟩ := he
  rw [List.mem_singleton.mp hk, hv]
  exact hh

theorem ensures_expecting {useCache : Bool} {d : Document} (hd : d.Sound) (kind : Kind)
    (h : Handle) :
    Ensures useCache d d (View.expecting kind h) fun v d' => v.handle = h ∧ d' = d := by
  refine ensures_bind ((reads_kind h).ensures (Follows.refl hd)) fun found d' hf he => ?_
  split
  · exact ensures_pure hf ⟨rfl, he⟩
  · exact ensures_throw hf

theorem ensures_handleCall (env : Environment) {d : Document} (hd : d.Sound) {h : Handle}
    (hh : d.Has h) (call : HandleCall) :
    Ensures (call.caches d.settings) d d (call.run env h) FoundHas := by
  have hf : ∀ {b : Bool}, Follows b d d := Follows.refl hd
  cases call with
  | describe =>
    refine ensures_pure hf fun k hk => ?_
    rwa [List.mem_singleton.mp hk]
  | isValid => exact ensures_told (ensures_state hf) fun _ => rfl
  | invalidate =>
    exact ensures_told (f := fun _ => .nothing)
      (ensures_of_follows (follows_invalidate hd _ h.ticket)) fun _ => rfl
  | path => exact ensures_pure hf fun k hk => by cases hk
  | address => exact ensures_told (ensures_state hf) fun _ => rfl
  | cacheKey => exact ensures_told (ensures_state hf) fun _ => rfl
  | description => exact ensures_told (ensures_state hf) fun _ => rfl
  | raw => exact ensures_told ((reads_rawValue h).ensures hf) fun _ => rfl
  | parsed => exact ensures_told ((steady_parsedValue env h).ensures hf) fun _ => rfl
  | setRaw v =>
    exact ensures_told (f := fun _ => .nothing) (ensures_setRawValue hf h v) fun _ => rfl
  | kind => exact ensures_told ((reads_kind h).ensures hf) fun _ => rfl
  | exportAs format =>
    refine ensures_told (Q := fun _ _ => True) ?_ fun _ => rfl
    exact ensures_bind ((steady_parsedValue env h).ensures hf) fun _ _ hf' _ =>
      ensures_pure hf' trivial
  | query q => exact ensures_answer (ensures_query hf h q) fun hs d' hall => hall
  | queryWith q useCache => exact ensures_answer (ensures_queryWith hf h q) fun hs d' hall => hall
  | get q => exact ensures_answer (ensures_get? hf h q) fun o d' hall => hall
  | member q =>
    refine ensures_answer (ensures_member hf h q) fun k d' hk l hl => ?_
    rwa [List.mem_singleton.mp hl]
  | set q v =>
    refine ensures_told (f := fun _ => .nothing) (Q := fun _ _ => True) ?_ fun _ => rfl
    exact ensures_bind ((reads_ensureValid h).ensures hf) fun _ _ hf' _ =>
      ensures_get (ensures_update hf' _ h.path v)
  | deleteAt q =>
    refine ensures_told (Q := fun _ _ => True) ?_ fun _ => rfl
    exact ensures_bind ((reads_ensureValid h).ensures hf) fun _ _ hf' _ =>
      ensures_get (ensures_remove hf' _ _)
  | delete =>
    refine ensures_told (Q := fun _ _ => True) ?_ fun _ => rfl
    exact ensures_bind ((reads_ensureValid h).ensures hf) fun _ _ hf' _ =>
      ensures_get (ensures_remove hf' _ _)
  | view =>
    refine ensures_view hd hh ?_
    exact ensures_bind ((reads_kind h).ensures hf) fun _ _ hf' he => ensures_pure hf' ⟨rfl, he⟩
  | sequenceView => exact ensures_view hd hh (ensures_expecting hd .sequence h)
  | mappingView => exact ensures_view hd hh (ensures_expecting hd .mapping h)

/-! ## Calls on views -/

/-- Telling something about the value of a view. -/
theorem reads_view {view : View} {f : Value → Live α} (hf : ∀ v, Reads (f v)) :
    Reads (view.value >>= f) :=
  reads_bind (reads_rawValue view.handle) hf

theorem reads_length (view : View) : Reads view.length := by
  refine reads_view fun v => ?_
  split <;> first | exact reads_pure _ | exact reads_throw _

theorem reads_keys (view : View) : Reads view.keys := by
  refine reads_view fun v => ?_
  split <;> first | exact reads_pure _ | exact reads_throw _

theorem reads_contains (view : View) (needle : Value) : Reads (view.contains needle) := by
  refine reads_view fun v => ?_
  split <;> first | exact reads_pure _ | exact reads_throw _

theorem reads_boolean (view : View) : Reads view.boolean := by
  refine reads_view fun v => ?_
  split <;> first | exact reads_pure _ | exact reads_throw _

theorem reads_integer (view : View) : Reads view.integer := by
  refine reads_view fun v => ?_
  split <;> first | exact reads_pure _ | exact reads_throw _

theorem reads_float (view : View) : Reads view.float := by
  refine reads_view fun v => ?_
  split <;> first | exact reads_pure _ | exact reads_throw _

theorem reads_string (view : View) : Reads view.string := by
  refine reads_view fun v => ?_
  split <;> first | exact reads_pure _ | exact reads_throw _

theorem ensures_viewGet? {d : Document} (hd : d.Sound) (view : View) (q : Query) :
    Ensures d.settings.useCache d d (view.get? q) fun o d' => ∀ k ∈ o.toList, d'.Has k := by
  have hf : Follows d.settings.useCache d d := Follows.refl hd
  unfold View.get?
  split
  · exact ensures_get? hf view.handle q
  · exact ensures_get? hf view.handle q
  · exact ensures_bind ((reads_rawValue view.handle).ensures hf) fun _ _ hf' _ =>
      ensures_pure hf' fun k hk => by cases hk
  · exact ensures_throw hf

theorem ensures_children {d : Document} (hd : d.Sound) (view : View) :
    Ensures d.settings.useCache d d view.children fun hs d' => ∀ k ∈ hs, d'.Has k := by
  refine ensures_bind ((reads_rawValue view.handle).ensures (Follows.refl hd)) fun v d' hf he => ?_
  subst he
  split
  · exact ensures_childrenAt hd view.handle _
  · exact ensures_throw hf

/-- A call on a view reads the value of its handle or works through the handle. -/
theorem ensures_viewCall {d : Document} (hd : d.Sound) (view : View) (call : ViewCall) :
    Ensures d.settings.useCache d d (call.run view) FoundHas := by
  have hf : Follows d.settings.useCache d d := Follows.refl hd
  have hvalue := (reads_rawValue view.handle).ensures hf
  cases call with
  | variant => exact ensures_pure hf fun k hk => by cases hk
  | kind => exact ensures_told ((reads_kind view.handle).ensures hf) fun _ => rfl
  | length => exact ensures_told ((reads_length view).ensures hf) fun _ => rfl
  | isEmpty =>
    exact ensures_told ((reads_bind (reads_length view) fun _ => reads_pure _).ensures hf)
      fun _ => rfl
  | keys => exact ensures_told ((reads_keys view).ensures hf) fun _ => rfl
  | get q => exact ensures_answer (ensures_viewGet? hd view q) fun o d' hall => hall
  | children => exact ensures_answer (ensures_children hd view) fun hs d' hall => hall
  | contains v => exact ensures_told ((reads_contains view v).ensures hf) fun _ => rfl
  | equals v => exact ensures_told ((reads_view fun _ => reads_pure _).ensures hf) fun _ => rfl
  | compare v => exact ensures_told ((reads_view fun _ => reads_pure _).ensures hf) fun _ => rfl
  | push v =>
    refine ensures_told (f := fun _ => .nothing) (Q := fun _ _ => True) ?_ fun _ => rfl
    refine ensures_bind hvalue fun w d' hf' _ => ?_
    split
    · exact ensures_setRawValue hf' view.handle _
    · exact ensures_throw hf'
  | insert key v =>
    refine ensures_told (Q := fun _ _ => True) ?_ fun _ => rfl
    refine ensures_bind hvalue fun w d' hf' _ => ?_
    split
    · exact ensures_bind (ensures_writeChild hf' view.handle _ v) fun _ _ hf'' _ =>
        ensures_pure hf'' trivial
    · exact ensures_throw hf'
  | remove key =>
    refine ensures_told (Q := fun _ _ => True) ?_ fun _ => rfl
    refine ensures_bind hvalue fun w d' hf' _ => ?_
    split
    · split
      · exact ensures_bind (ensures_deleteChild hf' view.handle _) fun _ _ hf'' _ =>
          ensures_pure hf'' trivial
      · exact ensures_pure hf' trivial
    · exact ensures_throw hf'
  | boolean => exact ensures_told ((reads_boolean view).ensures hf) fun _ => rfl
  | integer => exact ensures_told ((reads_integer view).ensures hf) fun _ => rfl
  | float => exact ensures_told ((reads_float view).ensures hf) fun _ => rfl
  | string => exact ensures_told ((reads_string view).ensures hf) fun _ => rfl

end Live

end LiveDocument
