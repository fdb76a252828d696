import LiveDocument.Proofs.Document.Course
import LiveDocument.Proofs.Document.Running
import LiveDocument.Proofs.Reference.Substitution

/-!
# Operations one after the other

What a composed operation does to a document is settled by its parts: the document afterwards
follows from the one before, also when the operation fails on the way, and the answer satisfies a
condition.

* `Ensures`: the document after an operation follows, and the answer satisfies a condition.
* `ensures_bind`: from the parts of an operation to the whole.
* `Reads`: an operation that leaves every document as it is.
* `Steady`, `passes_steady`: whatever document an operation is carried out on, the one after
  follows.
* `steady_expand`: expanding references, which looks handles up and lets go of them.
-/

namespace LiveDocument

namespace Live

open Document

variable {α β : Type}

/-! ## Conditions on answers and documents -/

/-- The document after a call follows from an earlier one, also when the call fails, and an answer
satisfies a condition together with the document after it. -/
def Ensures (useCache : Bool) (start d : Document) (x : Live α) (Q : α → Document → Prop) : Prop :=
  Follows useCache start (x.runOn d).2 ∧ ∀ a, (x.runOn d).1 = .ok a → Q a (x.runOn d).2

section

variable {useCache : Bool} {start d : Document} {Q : α → Document → Prop} {R : β → Document → Prop}

theorem ensures_pure {a : α} (hf : Follows useCache start d) (h : Q a d) :
    Ensures useCache start d (pure a) Q := by
  refine ⟨hf, fun b hb => ?_⟩
  cases hb
  exact h

theorem ensures_throw {f : Failure} (hf : Follows useCache start d) :
    Ensures useCache start d (throw f) Q := by
  refine ⟨hf, fun b hb => ?_⟩
  cases hb

theorem ensures_bind {x : Live α} {f : α → Live β} (hx : Ensures useCache start d x Q)
    (hf : ∀ a d', Follows useCache start d' → Q a d' → Ensures useCache start d' (f a) R) :
    Ensures useCache start d (x >>= f) R := by
  obtain ⟨hfollows, hq⟩ := hx
  rw [Ensures, runOn_bind]
  cases hrun : x.runOn d with
  | mk r d' =>
    rw [hrun] at hfollows hq
    cases r with
    | ok a => exact hf a d' hfollows (hq a rfl)
    | error e =>
      refine ⟨hfollows, fun b hb => ?_⟩
      cases hb

theorem ensures_ofFunction {f : Document → α × Document} (hf : Follows useCache start (f d).2)
    (h : Q (f d).1 (f d).2) : Ensures useCache start d (ofFunction f) Q := by
  refine ⟨hf, fun a ha => ?_⟩
  cases ha
  exact h

theorem ensures_get {f : Document → Live β} (hf : Ensures useCache start d (f d) R) :
    Ensures useCache start d (get >>= f) R := by
  rw [Ensures, runOn_bind]
  exact hf

/-- What a call ensures from its own document on, it ensures from an earlier one on. -/
theorem ensures_after {x : Live α} (hf : Follows useCache start d) (hx : Ensures useCache d d x Q) :
    Ensures useCache start d x fun a d' => Follows useCache d d' ∧ Q a d' :=
  ⟨hf.trans hx.1, fun a ha => ⟨hx.1, hx.2 a ha⟩⟩

theorem ensures_of_follows {x : Live α} (hf : Follows useCache start (x.runOn d).2) :
    Ensures useCache start d x fun _ _ => True :=
  ⟨hf, fun _ _ => trivial⟩

end

/-! ## Lookups -/

theorem ensures_resolve {useCache : Bool} {start d : Document} (hf : Follows useCache start d)
    (a : Address) (context : Path) :
    Ensures useCache start d (Live.resolve a context useCache)
      fun hs d' => ∀ h ∈ hs, d'.Has h := by
  obtain ⟨hfollows, hall⟩ := follows_resolve hf.sound a context useCache
  exact ensures_ofFunction (hf.trans hfollows) hall

theorem ensures_require {useCache : Bool} {start d : Document} (hf : Follows useCache start d)
    (a : Address) (context : Path) :
    Ensures useCache start d (Live.require a context useCache) fun h d' => d'.Has h := by
  refine ensures_bind (ensures_resolve hf a context) fun hs d' hf' hall => ?_
  cases hs with
  | nil => exact ensures_throw hf'
  | cons h rest => exact ensures_pure hf' (hall h List.mem_cons_self)

/-! ## Reading the value -/

/-- The call leaves every document as it is. -/
def Reads (x : Live α) : Prop :=
  ∀ d : Document, (x.runOn d).2 = d

theorem reads_pure (a : α) : Reads (pure a) := fun _ => rfl

theorem reads_throw (f : Failure) : Reads (throw f : Live α) := fun _ => rfl

theorem reads_bind {x : Live α} {f : α → Live β} (hx : Reads x) (hf : ∀ a, Reads (f a)) :
    Reads (x >>= f) := by
  intro d
  rw [runOn_bind]
  have hd := hx d
  cases hrun : x.runOn d with
  | mk r d' =>
    rw [hrun] at hd
    subst hd
    cases r with
    | ok a => exact hf a d'
    | error e => rfl

theorem reads_get {f : Document → Live β} (hf : ∀ d, Reads (f d)) : Reads (get >>= f) :=
  reads_bind (fun _ => rfl) hf

theorem reads_ensureValid (h : Handle) : Reads h.ensureValid := by
  refine reads_get fun d => ?_
  split
  · exact reads_pure _
  · exact reads_throw _

theorem reads_rawValue (h : Handle) : Reads h.rawValue := by
  refine reads_bind (reads_ensureValid h) fun _ => reads_get fun d => ?_
  split
  · exact reads_pure _
  · exact reads_throw _

theorem reads_kind (h : Handle) : Reads h.kind :=
  reads_bind (reads_rawValue h) fun _ => reads_pure _

variable {useCache : Bool} {start d : Document}

theorem Reads.ensures {x : Live α} (hx : Reads x) (hf : Follows useCache start d) :
    Ensures useCache start d x fun _ d' => d' = d :=
  ⟨by rwa [hx d], fun _ _ => hx d⟩

/-! ## Editing -/

theorem ensures_write (hf : Follows useCache start d) (path : Path) (delimiter : String)
    (v : Value) : Ensures useCache start d (write path delimiter v) fun _ _ => True := by
  refine ensures_get ?_
  cases hw : d.write? path v with
  | some d' => exact ensures_of_follows (hf.trans (follows_write? hf.sound useCache hw))
  | none => exact ensures_throw hf

theorem ensures_remove (hf : Follows useCache start d) (path : Path) (delimiter : String) :
    Ensures useCache start d (remove path delimiter) fun _ _ => True := by
  refine ensures_get ?_
  cases hr : d.remove? path with
  | some e => exact ensures_of_follows (hf.trans (follows_remove? hf.sound useCache hr))
  | none => exact ensures_throw hf

theorem ensures_writeAll (hf : Follows useCache start d) (delimiter : String) (v : Value)
    (paths : List Path) :
    Ensures useCache start d (writeAll delimiter v paths) fun _ _ => True := by
  induction paths generalizing d with
  | nil => exact ensures_pure hf trivial
  | cons path rest ih =>
    exact ensures_bind (ensures_write hf path delimiter v) fun _ _ hf' _ => ih hf'

theorem ensures_update (hf : Follows useCache start d) (a : Address) (context : Path) (v : Value) :
    Ensures useCache start d (update a context v) fun _ _ => True :=
  ensures_get (ensures_writeAll hf a.delimiter v _)

/-! ## Expanding references -/

/-- Whatever document with these settings it is carried out on, the document after it follows. -/
def Steady (settings : Settings) (x : Live α) : Prop :=
  ∀ d : Document, d.Sound → d.settings = settings → Follows settings.useCache d (x.runOn d).2

section

variable {settings : Settings}

theorem steady_pure (a : α) : Steady settings (pure a) :=
  fun _ hd _ => Follows.refl hd

theorem steady_throw (f : Failure) : Steady settings (throw f : Live α) :=
  fun _ hd _ => Follows.refl hd

theorem Steady.ensures {x : Live α} {start d : Document} (hx : Steady start.settings x)
    (hf : Follows start.settings.useCache start d) :
    Ensures start.settings.useCache start d x fun _ _ => True :=
  ensures_of_follows (hf.trans (hx d hf.sound hf.settings))

theorem steady_bind {x : Live α} {f : α → Live β} (hx : Steady settings x)
    (hf : ∀ a, Steady settings (f a)) : Steady settings (x >>= f) := by
  rintro d hd rfl
  exact (ensures_bind (hx.ensures (Follows.refl hd)) fun a _ hf' _ => (hf a).ensures hf').1

theorem steady_get {f : Document → Live β} (hf : ∀ d, Steady settings (f d)) :
    Steady settings (get >>= f) := by
  intro d hd hs
  rw [runOn_bind]
  exact hf d d hd hs

theorem steady_rawValue (h : Handle) : Steady settings h.rawValue :=
  fun _ hd _ => ((reads_rawValue h).ensures (Follows.refl hd)).1

theorem steady_rawValues (hs : List Handle) : Steady settings (Reference.rawValues hs) := by
  induction hs with
  | nil => exact steady_pure _
  | cons h rest ih =>
    exact steady_bind (steady_rawValue h) fun _ => steady_bind ih fun _ => steady_pure _

theorem steady_rawTogether (hs : List Handle) : Steady settings (Reference.rawTogether hs) := by
  unfold Reference.rawTogether
  split
  · exact steady_rawValue _
  · exact steady_bind (steady_rawValues _) fun _ => steady_pure _

/-- Operations are steady if those that they are composed of are. -/
theorem passes_steady (settings : Settings) :
    Passes fun (α : Type) (x : Live α) (_ : Id α) => Steady settings x where
  pure := fun a => steady_pure a
  bind := fun hx hf => steady_bind hx hf

/-- Expanding a value is steady if following its references is. -/
theorem steady_substitute {env : Environment} {f : String → Live Value}
    (hf : ∀ q, Steady settings (f q)) (v : Value) :
    Steady settings (v.substitute (Reference.expandText env f)) :=
  (passes_steady settings).expand (g := fun _ => (pure .null : Id Value)) fun q _ => hf q

/-- Letting go of what was found on the way leaves what had been held before. -/
theorem follows_release {useCache : Bool} {start d : Document} (hf : Follows useCache start d) :
    Follows useCache start ((Reference.release start.arena.held).runOn d).2 where
  sound := hf.sound.hold hf.held
  settings := hf.settings
  leads := hf.leads.trans (Arena.Leads.of_slots_eq rfl rfl)
  held := List.Subset.refl _
  fresh := hf.fresh

theorem steady_dereference (env : Environment) (fuel : Nat) (active : List String)
    (query : String) : Steady settings (Reference.dereference env fuel active query) := by
  induction fuel generalizing active query with
  | zero => exact steady_throw _
  | succ fuel ih =>
    rintro d hd rfl
    have hrefl : Follows d.settings.useCache d d := Follows.refl hd
    rw [Reference.dereference]
    refine And.left (ensures_get (R := fun _ _ => True) ?_)
    dsimp only
    split
    · exact ensures_throw hrefl
    · refine ensures_bind (ensures_resolve hrefl _ _) fun hs d' hf _ => ?_
      split
      · exact ensures_pure hf trivial
      · refine ensures_bind ((steady_rawTogether hs).ensures hf) fun raw d₁ hf₁ _ => ?_
        refine ensures_bind ((steady_substitute (ih _) raw).ensures hf₁)
          fun v d₂ hf₂ _ => ?_
        exact ensures_bind (ensures_of_follows (follows_release hf₂)) fun _ _ hf₃ _ =>
          ensures_pure hf₃ trivial

theorem steady_expand (env : Environment) (active : List String) (v : Value) :
    Steady settings (Reference.expand env active v) :=
  steady_get fun _ => steady_substitute (steady_dereference env _ active) v

theorem steady_parsedValue (env : Environment) (h : Handle) : Steady settings (h.parsedValue env) :=
  steady_bind (steady_rawValue h) fun raw => steady_get fun _ => steady_expand env _ raw

theorem steady_documentParsedValue (env : Environment) :
    Steady settings (Document.parsedValue env) :=
  steady_get fun _ => steady_expand env _ _

end

end Live

end LiveDocument
