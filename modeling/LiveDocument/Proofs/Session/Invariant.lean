import LiveDocument.Proofs.Document.Faithful
import LiveDocument.Proofs.Session.Run

/-!
# Invariants of sessions

All that a session does to documents comes down to few elementary operations: looking a query up
from the place of a handle, writing and removing entries, letting go of handles and ending their
validity. A condition on documents that these keep, together with one on the paths of handles and
one on the values that are stored, holds in every state of every run. Views look their children up
by segments instead of queries; they are asked for separately.

* `Invariant`: the conditions, and that elementary operations keep them. `Descends`: so do lookups
  of children.
* `Live.Upholds`: what an operation leaves and answers satisfies the conditions.
* `upholds_documentCall`, `upholds_handleCall`, `upholds_viewCall`: every call.
* `Session.Upheld`: the conditions on a session. `upheld_after`: they hold in every state of a run.
-/

namespace LiveDocument

/-- The values that a call stores. -/
def DocumentCall.brought : DocumentCall → List Value
  | set _ v | write _ _ v => [v]
  | _ => []

/-- The values that a call stores. -/
def HandleCall.brought : HandleCall → List Value
  | setRaw v | set _ v => [v]
  | _ => []

/-- The values that a call stores. -/
def ViewCall.brought : ViewCall → List Value
  | push v | insert _ v => [v]
  | _ => []

/-- The values that an action stores, in the document that it works on or in a new one. -/
def Action.brought : Action → List Value
  | .document call => call.brought
  | .orDefault _ v => [v]
  | .handle _ call => call.brought
  | .view _ call => call.brought
  | _ => []

/-- The action asks a view for its children. -/
def Action.AsksChildren : Action → Prop
  | .view _ .children => True
  | _ => False

/-- Conditions on documents, on the paths of handles and on the values that are stored, which
elementary operations keep. -/
structure Invariant (I : Document → Prop) (R : Path → Prop) (V : Value → Prop) : Prop where
  nil : R []
  resolve : ∀ {d : Document} {context : Path}, I d → R context → ∀ (q : Query) (useCache : Bool),
    I (d.resolve (d.addressOf q) context useCache).2 ∧
      ∀ k ∈ (d.resolve (d.addressOf q) context useCache).1, R k.path
  root : ∀ {d : Document}, I d → I d.root.2 ∧ R d.root.1.path
  write : ∀ {d d' : Document} {path : Path} {v : Value}, I d → V v →
    d.write? path v = some d' → I d'
  remove : ∀ {d d' : Document} {path : Path} {old : Value}, I d →
    d.remove? path = some (old, d') → I d'
  append : ∀ {d : Document} {path : Path} {items : List Value} {v : Value}, I d →
    d.value.walk? path = some (.sequence items) → V v → V (.sequence (items ++ [v]))
  hold : ∀ {d : Document}, I d → ∀ held, I { d with arena := { d.arena with held := held } }
  retire : ∀ {d : Document}, I d → ∀ ticket,
    I { d with arena := (d.arena.retireTicket ticket).2 }
  fresh : ∀ {d : Document} {v : Value}, I d → V v → I (Document.ofValue v d.settings)

/-- Looking children up keeps the conditions as well. -/
def Descends (I : Document → Prop) (R : Path → Prop) : Prop :=
  ∀ {d : Document} {path : Path}, I d → R path → ∀ (s : Segment) (useCache : Bool),
    I (d.resolve ⟨[s], false, d.delimiter⟩ path useCache).2 ∧
      ∀ k ∈ (d.resolve ⟨[s], false, d.delimiter⟩ path useCache).1, R k.path

namespace Live

variable {α β : Type} {I : Document → Prop} {R : Path → Prop} {V : Value → Prop} {d : Document}
  {Q : α → Prop} {Q' : β → Prop}

/-- The document that an operation leaves satisfies a condition, also when it fails, and so does its
answer. -/
def Upholds (I : Document → Prop) (d : Document) (x : Live α) (Q : α → Prop) : Prop :=
  I (x.runOn d).2 ∧ ∀ a, (x.runOn d).1 = .ok a → Q a

theorem upholds_pure {a : α} (hd : I d) (ha : Q a) : Upholds I d (pure a) Q := by
  refine ⟨hd, fun b hb => ?_⟩
  cases hb
  exact ha

theorem upholds_throw (hd : I d) (f : Failure) : Upholds I d (throw f) Q := by
  refine ⟨hd, fun b hb => ?_⟩
  cases hb

/-- An operation that cannot fail. -/
theorem upholds_ofFunction {f : Document → α × Document} (hafter : I (f d).2) (hanswer : Q (f d).1) :
    Upholds I d (ofFunction f) Q := by
  refine ⟨hafter, fun a ha => ?_⟩
  cases ha
  exact hanswer

theorem upholds_bind {x : Live α} {f : α → Live β} (hx : Upholds I d x Q)
    (hf : ∀ a d', I d' → Q a → Upholds I d' (f a) Q') : Upholds I d (x >>= f) Q' := by
  obtain ⟨hafter, hanswer⟩ := hx
  rw [Upholds, runOn_bind]
  cases hrun : x.runOn d with
  | mk r d' =>
    rw [hrun] at hafter hanswer
    cases r with
    | ok a => exact hf a d' hafter (hanswer a rfl)
    | error e =>
      refine ⟨hafter, fun b hb => ?_⟩
      cases hb

theorem upholds_get {f : Document → Live β} (hf : Upholds I d (f d) Q') :
    Upholds I d (get >>= f) Q' := by
  rw [Upholds, runOn_get_bind]
  exact hf

/-- Telling what an operation gives. -/
theorem upholds_told {x : Live α} (hx : Upholds I d x Q) {f : α → β} (hf : ∀ a, Q a → Q' (f a)) :
    Upholds I d (x >>= fun a => pure (f a)) Q' :=
  upholds_bind hx fun a _ hd' ha => upholds_pure hd' (hf a ha)

theorem Reads.upholds {x : Live α} (hx : Reads x) (hd : I d) :
    Upholds I d x fun _ => True := by
  refine ⟨?_, fun _ _ => trivial⟩
  rwa [hx d]

theorem upholds_guarded (hd : I d) (h : Handle) {f : Document → Live β}
    (hf : Upholds I d (f d) Q') : Upholds I d (h.ensureValid >>= fun _ => get >>= f) Q' := by
  rw [Upholds, runOn_guarded]
  split
  · exact upholds_get hf
  · exact upholds_throw hd _

/-! ## Lookups -/

section

variable (hI : Invariant I R V) (hd : I d)

include hI hd

theorem upholds_resolve {context : Path} (hcontext : R context) (q : Query) (useCache : Bool) :
    Upholds I d (Live.resolve (d.addressOf q) context useCache) fun hs => ∀ k ∈ hs, R k.path := by
  obtain ⟨hafter, hall⟩ := hI.resolve hd hcontext q useCache
  exact upholds_ofFunction hafter hall

theorem upholds_require {context : Path} (hcontext : R context) (q : Query) (useCache : Bool) :
    Upholds I d (Live.require (d.addressOf q) context useCache) fun k => R k.path := by
  refine upholds_bind (upholds_resolve hI hd hcontext q useCache) fun hs d' hd' hall => ?_
  cases hs with
  | nil => exact upholds_throw hd' _
  | cons k rest => exact upholds_pure hd' (hall k List.mem_cons_self)

theorem upholds_queryWith {h : Handle} (hh : R h.path) (q : Query) (useCache : Bool) :
    Upholds I d (h.queryWith q useCache) fun hs => ∀ k ∈ hs, R k.path :=
  upholds_guarded hd h (upholds_resolve hI hd hh q useCache)

theorem upholds_query {h : Handle} (hh : R h.path) (q : Query) :
    Upholds I d (h.query q) fun hs => ∀ k ∈ hs, R k.path :=
  upholds_get (upholds_queryWith hI hd hh q _)

theorem upholds_get? {h : Handle} (hh : R h.path) (q : Query) :
    Upholds I d (h.get? q) fun o => ∀ k ∈ o.toList, R k.path :=
  upholds_told (upholds_query hI hd hh q) fun _ hall k hk =>
    hall k (List.mem_of_mem_head? (Option.mem_toList.mp hk))

/-! ## Expansions -/

omit hI hd

theorem passes_upholds (I : Document → Prop) :
    Passes fun (α : Type) (x : Live α) (_ : Id α) => ∀ d, I d → Upholds I d x fun _ => True where
  pure := fun _ _ hd => upholds_pure hd trivial
  bind := fun hx hf d hd => upholds_bind (hx d hd) fun a d' hd' _ => hf a d' hd'

theorem upholds_substitute {env : Environment} {f : String → Live Value}
    (hf : ∀ q d, I d → Upholds I d (f q) fun _ => True) (v : Value) :
    ∀ d, I d → Upholds I d (v.substitute (Reference.expandText env f)) fun _ => True :=
  (passes_upholds I).expand (g := fun _ => (pure .null : Id Value)) fun q _ => hf q

theorem upholds_rawTogether (hd : I d) (hs : List Handle) :
    Upholds I d (Reference.rawTogether hs) fun _ => True := by
  have hvalues : ∀ hs d, I d → Upholds I d (Reference.rawValues hs) fun _ => True := by
    intro hs
    induction hs with
    | nil => exact fun d hd => upholds_pure hd trivial
    | cons h rest ih =>
      exact fun d hd => upholds_bind ((reads_rawValue h).upholds hd) fun _ d' hd' _ =>
        upholds_told (ih d' hd') fun _ _ => trivial
  unfold Reference.rawTogether
  split
  · exact (reads_rawValue _).upholds hd
  · exact upholds_told (hvalues _ d hd) fun _ _ => trivial

include hI

theorem upholds_dereference (env : Environment) (fuel : Nat) (active : List String)
    (query : String) : ∀ d, I d →
      Upholds I d (Reference.dereference env fuel active query) fun _ => True := by
  induction fuel generalizing active query with
  | zero => exact fun d hd => upholds_throw hd _
  | succ fuel ih =>
    intro d hd
    refine upholds_get ?_
    dsimp only
    split
    · exact upholds_throw hd _
    · refine upholds_bind (upholds_resolve hI hd hI.nil (.text query) _) fun hs d₁ hd₁ _ => ?_
      split
      · exact upholds_pure hd₁ trivial
      · refine upholds_bind (upholds_rawTogether hd₁ hs) fun raw d₂ hd₂ _ => ?_
        refine upholds_bind (upholds_substitute (ih _) raw d₂ hd₂) fun v d₃ hd₃ _ => ?_
        have hreleased : Upholds I d₃ (Reference.release d.arena.held) fun _ => True :=
          ⟨hI.hold hd₃ d.arena.held, fun _ _ => trivial⟩
        exact upholds_bind hreleased fun _ _ hd₄ _ => upholds_pure hd₄ trivial

include hd

theorem upholds_expand (env : Environment) (active : List String) (v : Value) :
    Upholds I d (Reference.expand env active v) fun _ => True :=
  upholds_get (upholds_substitute (upholds_dereference hI env _ active) v d hd)

theorem upholds_parsedValue (env : Environment) (h : Handle) :
    Upholds I d (h.parsedValue env) fun _ => True :=
  upholds_bind ((reads_rawValue h).upholds hd) fun _ _ hd' _ =>
    upholds_get (upholds_expand hI hd' env _ _)

theorem upholds_documentParsedValue (env : Environment) :
    Upholds I d (Document.parsedValue env) fun _ => True :=
  upholds_get (upholds_expand hI hd env _ _)

/-! ## Edits -/

theorem upholds_write (path : Path) (delimiter : String) {v : Value} (hv : V v) :
    Upholds I d (write path delimiter v) fun _ => True := by
  refine ⟨?_, fun _ _ => trivial⟩
  rw [runOn_write]
  cases hw : d.write? path v with
  | none => exact hd
  | some d' => exact hI.write hd hv hw

theorem upholds_remove (path : Path) (delimiter : String) :
    Upholds I d (remove path delimiter) fun _ => True := by
  refine ⟨?_, fun _ _ => trivial⟩
  rw [runOn_remove]
  cases hr : d.remove? path with
  | none => exact hd
  | some e => exact hI.remove hd hr

theorem upholds_update (a : Address) (context : Path) {v : Value} (hv : V v) :
    Upholds I d (update a context v) fun _ => True := by
  have hall : ∀ paths d, I d → Upholds I d (writeAll a.delimiter v paths) fun _ => True := by
    intro paths
    induction paths with
    | nil => exact fun d hd => upholds_pure hd trivial
    | cons path rest ih =>
      exact fun d hd => upholds_bind (upholds_write hI hd path _ hv) fun _ d' hd' _ => ih d' hd'
  exact upholds_get (hall _ d hd)

theorem upholds_setRawValue (h : Handle) {v : Value} (hv : V v) :
    Upholds I d (h.setRawValue v) fun _ => True :=
  upholds_guarded hd h (upholds_write hI hd _ _ hv)

omit hI in
/-- Reading the value of a handle, and going on with it. -/
theorem upholds_value {h : Handle} {f : Value → Live β}
    (hf : ∀ w, d.value.walk? h.path = some w → Upholds I d (f w) Q') :
    Upholds I d (h.rawValue >>= f) Q' := by
  rw [Upholds, runOn_bind, runOn_rawValue]
  cases d.isValid h with
  | false => exact upholds_throw hd _
  | true =>
    cases hw : d.value.walk? h.path with
    | none => exact upholds_throw hd _
    | some w => exact hf w hw

/-- What an item is added to was a part of the document before. -/
theorem upholds_push (view : View) {v : Value} (hv : V v) :
    Upholds I d (view.push v) fun _ => True := by
  refine upholds_value hd fun w hw => ?_
  cases w with
  | sequence items => exact upholds_setRawValue hI hd view.handle (hI.append hd hw hv)
  | _ => exact upholds_throw hd _

theorem upholds_insert (view : View) (key : String) {v : Value} (hv : V v) :
    Upholds I d (view.insert key v) fun _ => True := by
  refine upholds_value hd fun w _ => ?_
  have hwrite : Upholds I d (view.handle.writeChild (.key key) v) fun _ => True :=
    upholds_guarded hd _ (upholds_write hI hd _ _ hv)
  cases w with
  | mapping entries => exact upholds_told hwrite fun _ _ => trivial
  | _ => exact upholds_throw hd _

theorem upholds_viewRemove (view : View) (key : String) :
    Upholds I d (view.remove key) fun _ => True := by
  refine upholds_value hd fun w _ => ?_
  have hremove : Upholds I d (view.handle.deleteChild (.key key)) fun _ => True :=
    upholds_guarded hd _ (upholds_remove hI hd _ _)
  cases w with
  | mapping entries =>
    dsimp only
    split
    · exact upholds_told hremove fun _ _ => trivial
    · exact upholds_pure hd trivial
  | _ => exact upholds_throw hd _

/-! ## Calls -/

/-- The paths of the handles of an answer satisfy a condition. -/
def FoundAt (R : Path → Prop) (a : Answer Handle) : Prop :=
  ∀ k ∈ a.found, R k.path

omit hI hd

theorem foundAt_of_nil {a : Answer Handle} (ha : a.found = []) : FoundAt R a := by
  intro k hk
  rw [ha] at hk
  cases hk

theorem foundAt_singleton {a : Answer Handle} {h : Handle} (ha : a.found = [h]) (hh : R h.path) :
    FoundAt R a := by
  intro k hk
  rw [ha] at hk
  rwa [List.mem_singleton.mp hk]

/-- Telling something that is no handle. -/
theorem upholds_silent {x : Live α} (hx : Upholds I d x Q) {f : α → Answer Handle}
    (hf : ∀ a, (f a).found = []) : Upholds I d (x >>= fun a => pure (f a)) (FoundAt R) :=
  upholds_told hx fun a _ => foundAt_of_nil (hf a)

include hI hd

theorem upholds_documentCall (env : Environment) {call : DocumentCall}
    (hcall : ∀ v ∈ call.brought, V v) : Upholds I d (call.run env) (FoundAt R) := by
  have hpure : ∀ a : Answer Handle, a.found = [] → Upholds I d (pure a) (FoundAt R) :=
    fun a ha => upholds_pure hd (foundAt_of_nil ha)
  cases call with
  | root =>
    obtain ⟨hafter, hpath⟩ := hI.root hd
    have hroot : Upholds I d (ofFunction Document.root) fun h => R h.path :=
      upholds_ofFunction hafter hpath
    exact upholds_told hroot fun h hh => foundAt_singleton rfl hh
  | member q =>
    exact upholds_told (upholds_get (upholds_require hI hd hI.nil q _)) fun h hh =>
      foundAt_singleton rfl hh
  | get q =>
    obtain ⟨hafter, hall⟩ := hI.resolve hd hI.nil q d.settings.useCache
    have hget : Upholds I d (ofFunction fun d => d.get? q) fun o => ∀ k ∈ o.toList, R k.path :=
      upholds_ofFunction hafter fun k hk =>
        hall k (List.mem_of_mem_head? (Option.mem_toList.mp hk))
    exact upholds_told hget fun _ hall => hall
  | query q =>
    obtain ⟨hafter, hall⟩ := hI.resolve hd hI.nil q d.settings.useCache
    have hquery : Upholds I d (ofFunction fun d => d.query q) fun hs => ∀ k ∈ hs, R k.path :=
      upholds_ofFunction hafter hall
    exact upholds_told hquery fun _ hall => hall
  | queryWith q useCache =>
    obtain ⟨hafter, hall⟩ := hI.resolve hd hI.nil q useCache
    have hquery : Upholds I d (ofFunction fun d => d.queryWith q useCache) fun hs =>
        ∀ k ∈ hs, R k.path := upholds_ofFunction hafter hall
    exact upholds_told hquery fun _ hall => hall
  | set q v =>
    have hset := upholds_update hI hd (d.addressOf q) [] (hcall v List.mem_cons_self)
    exact upholds_silent (upholds_get hset) (f := fun _ => Answer.nothing) fun _ => rfl
  | delete q => exact upholds_silent (upholds_get (upholds_remove hI hd _ _)) fun _ => rfl
  | parsed => exact upholds_silent (upholds_documentParsedValue hI hd env) fun _ => rfl
  | exportAs format =>
    have hexport : Upholds I d (Document.exportAs env format) fun _ => True :=
      upholds_told (upholds_documentParsedValue hI hd env) fun _ _ => trivial
    exact upholds_silent hexport fun _ => rfl
  | template v => exact upholds_silent (upholds_expand hI hd env _ v) fun _ => rfl
  | templateFrom v origin =>
    exact upholds_get (upholds_silent (upholds_expand hI hd env _ v) fun _ => rfl)
  | write path delimiter v =>
    have hwrite := fun delimiter =>
      upholds_write hI hd path delimiter (hcall v List.mem_cons_self)
    exact upholds_get (upholds_silent (hwrite _) (f := fun _ => Answer.nothing) fun _ => rfl)
  | remove path delimiter =>
    exact upholds_get (upholds_silent (upholds_remove hI hd path _) fun _ => rfl)
  | contains | raw | settings | description | place => exact upholds_get (hpure _ rfl)

theorem upholds_handleCall (env : Environment) {h : Handle} (hh : R h.path) {call : HandleCall}
    (hcall : ∀ v ∈ call.brought, V v) : Upholds I d (call.run env h) (FoundAt R) := by
  have hkind : Upholds I d h.kind fun _ => True := (reads_kind h).upholds hd
  have hexpecting : ∀ kind, Upholds I d (View.expecting kind h) fun v => v.handle = h := by
    intro kind
    refine upholds_bind hkind fun found d' hd' _ => ?_
    split
    · exact upholds_pure hd' rfl
    · exact upholds_throw hd' _
  have hviewed : ∀ v : View, v.handle = h → FoundAt R (HandleCall.run.viewed v) :=
    fun v hv => foundAt_singleton rfl (by rwa [hv])
  cases call with
  | describe => exact upholds_pure hd (foundAt_singleton rfl hh)
  | path => exact upholds_pure hd (foundAt_of_nil rfl)
  | isValid | address | cacheKey | description =>
    exact upholds_get (upholds_pure hd (foundAt_of_nil rfl))
  | invalidate =>
    have hretired : Upholds I d h.invalidate fun _ => True := ⟨hI.retire hd _, fun _ _ => trivial⟩
    exact upholds_silent hretired (f := fun _ => Answer.nothing) fun _ => rfl
  | raw => exact upholds_silent ((reads_rawValue h).upholds hd) fun _ => rfl
  | parsed => exact upholds_silent (upholds_parsedValue hI hd env h) fun _ => rfl
  | setRaw v =>
    have hset := upholds_setRawValue hI hd h (hcall v List.mem_cons_self)
    exact upholds_silent hset (f := fun _ => Answer.nothing) fun _ => rfl
  | kind => exact upholds_silent hkind fun _ => rfl
  | exportAs format =>
    have hexport : Upholds I d (h.exportAs env format) fun _ => True :=
      upholds_told (upholds_parsedValue hI hd env h) fun _ _ => trivial
    exact upholds_silent hexport fun _ => rfl
  | query q => exact upholds_told (upholds_query hI hd hh q) fun _ hall => hall
  | queryWith q useCache =>
    exact upholds_told (upholds_queryWith hI hd hh q useCache) fun _ hall => hall
  | get q => exact upholds_told (upholds_get? hI hd hh q) fun _ hall => hall
  | member q =>
    exact upholds_told (upholds_guarded hd h (upholds_require hI hd hh q _)) fun k hk =>
      foundAt_singleton rfl hk
  | set q v =>
    have hset := upholds_update hI hd (d.addressOf q) h.path (hcall v List.mem_cons_self)
    exact upholds_silent (upholds_guarded hd h hset) (f := fun _ => Answer.nothing) fun _ => rfl
  | deleteAt q =>
    exact upholds_silent (upholds_guarded hd h (upholds_remove hI hd _ _)) fun _ => rfl
  | delete => exact upholds_silent (upholds_guarded hd h (upholds_remove hI hd _ _)) fun _ => rfl
  | view =>
    have hview : Upholds I d (View.ofHandle h) fun v => v.handle = h :=
      upholds_told hkind fun _ _ => rfl
    exact upholds_told hview hviewed
  | sequenceView => exact upholds_told (hexpecting .sequence) hviewed
  | mappingView => exact upholds_told (hexpecting .mapping) hviewed

omit hI in
theorem upholds_children (hdescends : Descends I R) {h : Handle} (hh : R h.path)
    (names : List Segment) :
    Upholds I d (View.childrenAt h names) fun hs => ∀ k ∈ hs, R k.path := by
  induction names generalizing d with
  | nil => exact upholds_pure hd (List.forall_mem_nil _)
  | cons s rest ih =>
    obtain ⟨hafter, hall⟩ := hdescends hd hh s d.settings.useCache
    have hchild : Upholds I d (h.child? s) fun o => ∀ k ∈ o.toList, R k.path := by
      refine upholds_guarded hd h (upholds_told (Q := fun hs => ∀ k ∈ hs, R k.path) ⟨hafter, ?_⟩
        fun hs hall k hk => hall k (List.mem_of_mem_head? (Option.mem_toList.mp hk)))
      intro hs hhs
      cases hhs
      exact hall
    refine upholds_bind hchild fun o d' hd' hfirst => ?_
    exact upholds_told (ih hd') fun hs hrest k hk =>
      (List.mem_append.mp hk).elim (hfirst k) (hrest k)

theorem upholds_viewCall {view : View} (hh : R view.handle.path) {call : ViewCall}
    (hcall : ∀ v ∈ call.brought, V v) (hchildren : call = .children → Descends I R) :
    Upholds I d (call.run view) (FoundAt R) := by
  cases call with
  | variant => exact upholds_pure hd (foundAt_of_nil rfl)
  | kind => exact upholds_silent ((reads_kind view.handle).upholds hd) fun _ => rfl
  | length => exact upholds_silent ((reads_length view).upholds hd) fun _ => rfl
  | isEmpty =>
    have hempty : Upholds I d view.isEmpty fun _ => True :=
      upholds_told ((reads_length view).upholds hd) fun _ _ => trivial
    exact upholds_silent hempty fun _ => rfl
  | keys => exact upholds_silent ((reads_keys view).upholds hd) fun _ => rfl
  | get q =>
    have hget : Upholds I d (view.get? q) fun o => ∀ k ∈ o.toList, R k.path := by
      unfold View.get?
      split
      · exact upholds_get? hI hd hh q
      · exact upholds_get? hI hd hh q
      · exact upholds_told ((reads_rawValue view.handle).upholds hd) fun _ _ k hk => by cases hk
      · exact upholds_throw hd _
    exact upholds_told hget fun _ hall => hall
  | children =>
    have hfound : Upholds I d view.children fun hs => ∀ k ∈ hs, R k.path := by
      refine upholds_value hd fun w _ => ?_
      split
      · exact upholds_children hd (hchildren rfl) hh _
      · exact upholds_throw hd _
    exact upholds_told hfound fun _ hall => hall
  | contains v => exact upholds_silent ((reads_contains view v).upholds hd) fun _ => rfl
  | equals v =>
    exact upholds_silent ((reads_view fun _ => reads_pure _).upholds hd) fun _ => rfl
  | compare v =>
    exact upholds_silent ((reads_view fun _ => reads_pure _).upholds hd) fun _ => rfl
  | push v =>
    have hpush := upholds_push hI hd view (hcall v List.mem_cons_self)
    exact upholds_silent hpush (f := fun _ => Answer.nothing) fun _ => rfl
  | insert key v =>
    exact upholds_silent (upholds_insert hI hd view key (hcall v List.mem_cons_self)) fun _ => rfl
  | remove key => exact upholds_silent (upholds_viewRemove hI hd view key) fun _ => rfl
  | boolean => exact upholds_silent ((reads_boolean view).upholds hd) fun _ => rfl
  | integer => exact upholds_silent ((reads_integer view).upholds hd) fun _ => rfl
  | float => exact upholds_silent ((reads_float view).upholds hd) fun _ => rfl
  | string => exact upholds_silent ((reads_string view).upholds hd) fun _ => rfl

end

end Live

namespace Session

variable {I : Document → Prop} {R : Path → Prop} {V : Value → Prop} {s : Session}

/-- Every document of the session satisfies a condition, and so does every path of a handle that a
register keeps. -/
structure Upheld (I : Document → Prop) (R : Path → Prop) (s : Session) : Prop where
  document : ∀ {n : Nat} {d : Document}, s.document? n = some d → I d
  register : ∀ {entry : String × Register}, entry ∈ s.registers → R entry.2.watched.path

namespace Upheld

theorem setDocument (hs : s.Upheld I R) {n : Nat} {d d' : Document} (hd : s.document? n = some d)
    (hd' : I d') : (s.setDocument n d').Upheld I R where
  document := by
    intro m e he
    rw [document?_setDocument hd] at he
    split at he
    · cases he
      exact hd'
    · exact hs.document he
  register := by
    intro entry he
    rw [registers_setDocument] at he
    exact hs.register he

theorem conclude (hs : s.Upheld I R) {n : Nat} {d d' : Document} (hd : s.document? n = some d)
    (hd' : I d') (name : Option String) {answer : Answer Handle}
    (hanswer : Live.FoundAt R answer) : (s.conclude n d' name answer).2.Upheld I R := by
  have hset := hs.setDocument hd hd'
  cases name with
  | none => exact hset
  | some name =>
    refine ⟨fun he => ?_, fun he => ?_⟩
    · rw [show (s.conclude n d' (some name) answer).2 =
        (s.setDocument n d').store (kept n name answer) from rfl, document?_store] at he
      exact hset.document he
    · rcases mem_store he with hold | hnew
      · exact hset.register hold
      · exact hanswer _ (of_mem_kept hnew).2

theorem perform (hs : s.Upheld I R) (n : Nat) {call : Live (Answer Handle)}
    (hcall : ∀ d, I d → Live.Upholds I d call (Live.FoundAt R)) (name : Option String) :
    (s.perform n call name).2.Upheld I R := by
  cases hd : s.document? n with
  | none =>
    unfold Session.perform
    rw [hd]
    exact hs
  | some d =>
    obtain ⟨hafter, hanswer⟩ := hcall d (hs.document hd)
    cases hrun : call.runOn d with
    | mk r d' =>
      rw [hrun] at hafter hanswer
      cases r with
      | ok answer =>
        rw [perform_of_ok hd hrun]
        exact hs.conclude hd hafter name (hanswer answer rfl)
      | error f =>
        rw [perform_of_error hd hrun]
        exact hs.setDocument hd hafter

theorem performOrDefault (hI : Invariant I R V) (hs : s.Upheld I R) (q : Query) {v : Value}
    (hv : V v) (name : Option String) : (s.performOrDefault q v name).2.Upheld I R := by
  obtain ⟨hlooked, hall⟩ := hI.resolve (hs.document (n := 0) rfl) hI.nil q
    s.document.settings.useCache
  have hset : (s.setDocument 0 (s.document.query q).2).Upheld I R :=
    hs.setDocument (n := 0) rfl hlooked
  rw [performOrDefault_eq]
  cases hhead : (s.document.query q).1.head? with
  | some h =>
    exact hs.conclude (n := 0) rfl hlooked name
      (Live.foundAt_singleton rfl (hall h (List.mem_of_mem_head? hhead)))
  | none =>
    let fresh := (Document.ofValue v (s.document.query q).2.settings).root
    obtain ⟨hfresh, hpath⟩ := hI.root (hI.fresh hlooked hv)
    have happend : ∀ n, (Session.mk s.environment (s.document.query q).2
        (s.detached ++ [fresh.2]) s.registers).document? n =
          if n = s.detached.length + 1 then some fresh.2
          else (s.setDocument 0 (s.document.query q).2).document? n :=
      document?_append (s.setDocument 0 (s.document.query q).2) fresh.2
    have hwith : (Session.mk s.environment (s.document.query q).2 (s.detached ++ [fresh.2])
        s.registers).Upheld I R := by
      refine ⟨fun {n d} hd => ?_, hset.register⟩
      rw [happend] at hd
      split at hd
      · cases hd
        exact hfresh
      · exact hset.document hd
    exact hwith.conclude ((happend _).trans (if_pos rfl)) hfresh name
      (Live.foundAt_singleton (a := .handle fresh.1) rfl hpath)

theorem release (hI : Invariant I R V) (hs : s.Upheld I R) : s.release.Upheld I R where
  document := by
    intro n d hd
    rw [document?_release] at hd
    obtain ⟨e, he, rfl⟩ := Option.map_eq_some_iff.mp hd
    exact hI.hold (hs.document he) _
  register := hs.register

/-- What a step has to satisfy: its values, and lookups of children if it makes them. -/
def Allows (I : Document → Prop) (R : Path → Prop) (V : Value → Prop) (step : Step) : Prop :=
  (∀ v ∈ step.action.brought, V v) ∧ (step.action.AsksChildren → Descends I R)

theorem act (hI : Invariant I R V) (hs : s.Upheld I R) {step : Step} (hstep : Allows I R V step) :
    (s.act step).2.Upheld I R := by
  obtain ⟨hbrought, hchildren⟩ := hstep
  unfold Session.act
  cases ha : step.action with
  | document call =>
    rw [ha] at hbrought
    exact hs.perform 0 (fun d hd => Live.upholds_documentCall hI hd s.environment hbrought) step.store
  | orDefault q v =>
    rw [ha] at hbrought
    exact hs.performOrDefault hI q (hbrought v List.mem_cons_self) step.store
  | handle name call =>
    rw [ha] at hbrought
    dsimp only
    split
    · rename_i r hr
      have hpath := hs.register (mem_of_register? hr)
      exact hs.perform _ (fun d hd => Live.upholds_handleCall hI hd s.environment hpath hbrought)
        step.store
    · exact hs
  | view name call =>
    rw [ha] at hbrought hchildren
    dsimp only
    split
    · rename_i n v hr
      have hpath := hs.register (mem_of_register? hr)
      refine hs.perform _ (fun d hd => Live.upholds_viewCall hI hd hpath hbrought ?_) step.store
      rintro rfl
      exact hchildren trivial
    · exact hs
  | same name other =>
    dsimp only
    split <;> exact hs
  | drop name => exact ⟨hs.document, fun he => hs.register (List.mem_filter.mp he).1⟩
  | dropAll => exact ⟨hs.document, fun he => by cases he⟩

theorem run (hI : Invariant I R V) (hs : s.Upheld I R) {step : Step} (hstep : Allows I R V step) :
    (s.run step).2.Upheld I R :=
  (hs.act hI hstep).release hI

theorem after (hI : Invariant I R V) (hs : s.Upheld I R) {steps : List Step}
    (hsteps : ∀ step ∈ steps, Allows I R V step) : (s.after steps).Upheld I R := by
  induction steps generalizing s with
  | nil => exact hs
  | cons step rest ih =>
    obtain ⟨hstep, hrest⟩ := List.forall_mem_cons.mp hsteps
    exact ih (hs.run hI hstep) hrest

end Upheld

/-- The conditions hold in every state of a run from the beginning. -/
theorem upheld_after (hI : Invariant I R V) (env : Environment) {value : Value}
    (settings : Settings) (hopening : I (Document.ofValue value settings)) {steps : List Step}
    (hsteps : ∀ step ∈ steps, Upheld.Allows I R V step) :
    ((opening env value settings).after steps).Upheld I R := by
  refine Upheld.after hI ⟨fun {n d} hd => ?_, fun he => by cases he⟩ hsteps
  cases n with
  | zero =>
    cases hd
    exact hopening
  | succ n => cases hd

end Session

end LiveDocument
