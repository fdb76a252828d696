import LiveDocument.Proofs.Session.Direct

/-!
# Which handles are valid

In a run of direct steps with cascading, the validity of a handle that a register keeps is a matter
of history: the handle is valid as long as nobody ends its validity explicitly, no removal succeeds
at exactly its path, and its path leads to a value of the kind that it was issued for.

* `Invalidates`, `Deletes`: what a step says that it ends. `ends_iff`: this is what its deed ends.
* `Undisturbed`: the history of a handle since some session.
* `isValid_after_iff`: how a history decides about a handle.
* `kept_handles_valid_iff`: the history since the issue decides about every handle that is kept.
-/

namespace LiveDocument

namespace Session

/-- The action ends the validity of the handle explicitly. -/
def Invalidates (s : Session) (action : Action) (k : Handle) : Prop :=
  ∃ name r, action = .handle name .invalidate ∧ s.register? name = some r ∧ r.holds 0 k = true

/-- The typed path that a direct action removes. -/
def removed? (s : Session) : Action → Option Path
  | .document (.delete q) => some ((s.document.addressOf q).fullPath [])
  | .handle name .delete => (s.register? name).map fun r => r.watched.path
  | .handle name (.deleteAt q) =>
    (s.register? name).map fun r => (s.document.addressOf q).fullPath r.watched.path
  | _ => none

/-- The step removes the entry at exactly this path. -/
def Deletes (s : Session) (step : Step) (path : Path) : Prop :=
  s.removed? step.action = some path ∧ ∃ a, (s.run step).1.answer = .ok a

/-- From a session on, while steps are carried out: nobody ends the validity of the handle
explicitly, no removal succeeds at exactly its path, and in every state its path leads to a value
of the kind. -/
structure Undisturbed (s : Session) (steps : List Step) (k : Handle) (kind : Kind) : Prop where
  invalidate : ∀ (before : List Step) (step : Step) (rest : List Step),
    steps = before ++ step :: rest → ¬ (s.after before).Invalidates step.action k
  delete : ∀ (before : List Step) (step : Step) (rest : List Step),
    steps = before ++ step :: rest → ¬ (s.after before).Deletes step k.path
  kind : ∀ before rest : List Step, steps = before ++ rest →
    (s.after before).document.value.kindAt? k.path = some kind

/-- The step issues the handle in the session's document, for a value of the kind. -/
def IssuesFor (s : Session) (step : Step) (k : Handle) (kind : Kind) : Prop :=
  s.Issues step 0 k ∧ ∃ t, (s.run step).2.document.arena.Houses t ∧ t.ticket = k.ticket ∧
    t.path = k.path ∧ t.kind = kind

/-! ## What a step ends -/

section

variable {s : Session}

theorem exists_ok_perform (s : Session) (call : Live (Answer Handle)) (name : Option String) :
    (∃ a, (s.perform 0 call name).1 = .ok a) ↔ ∃ a, (call.runOn s.document).1 = .ok a := by
  cases hrun : call.runOn s.document with
  | mk result d' =>
    cases result with
    | error f =>
      rw [perform_of_error (n := 0) rfl hrun]
      constructor
      · rintro ⟨a, ha⟩
        cases ha
      · rintro ⟨a, ha⟩
        cases ha
    | ok answer =>
      rw [perform_of_ok (n := 0) rfl hrun]
      refine ⟨fun _ => ⟨answer, rfl⟩, fun _ => ?_⟩
      cases name <;> exact ⟨_, rfl⟩

theorem ends_remove_iff (d : Document) (path : Path) (k : Handle) :
    (Deed.remove path).Ends d k ↔ path = k.path ∧ ∃ a, ((Deed.remove path).run d).1 = .ok a := by
  simp only [Deed.Ends, Deed.run]
  cases d.remove? path with
  | none =>
    constructor
    · rintro ⟨-, hsome⟩
      cases hsome
    · rintro ⟨-, a, ha⟩
      cases ha
  | some e => exact ⟨fun h => ⟨h.1.symm, _, rfl⟩, fun h => ⟨h.1.symm, rfl⟩⟩

theorem ends_through_iff (d : Document) (h : Handle) (path : Path) (k : Handle) :
    (Deed.through d h (.remove path)).Ends d k ↔
      path = k.path ∧ ∃ a, ((Deed.through d h (.remove path)).run d).1 = .ok a := by
  unfold Deed.through
  split
  · exact ends_remove_iff d path k
  · refine ⟨False.elim, ?_⟩
    rintro ⟨-, a, ha⟩
    cases ha

theorem not_ends_through (d : Document) (h k : Handle) {x : Deed} (hx : ¬ x.Ends d k) :
    ¬ (Deed.through d h x).Ends d k := by
  unfold Deed.through
  split
  · exact hx
  · exact id

theorem invalidates_handle_iff {name : String} {r : Register} (hr : s.register? name = some r)
    (call : HandleCall) (k : Handle) :
    s.Invalidates (.handle name call) k ↔ call = .invalidate ∧ r.holds 0 k = true := by
  constructor
  · rintro ⟨other, r', he, hr', hholds⟩
    cases he
    rw [hr] at hr'
    cases hr'
    exact ⟨rfl, hholds⟩
  · rintro ⟨rfl, hholds⟩
    exact ⟨name, r, rfl, hr, hholds⟩

/-- A direct call on the document succeeds if its deed does. -/
theorem exists_ok_documentCall (call : DocumentCall) (hcall : call.Direct s.document.delimiter)
    (store : Option String) : (∃ a, (s.run ⟨.document call, store⟩).1.answer = .ok a) ↔
      ∃ a, ((call.deed s.document).run s.document).1 = .ok a := by
  rw [← Live.runOn_documentCall s.environment s.document hcall]
  exact exists_ok_perform s _ store

/-- A direct call through a register succeeds if its deed does. -/
theorem exists_ok_handleCall (hf : s.Faithful) {name : String} {r : Register}
    (hr : s.register? name = some r) {call : HandleCall}
    (hcall : call.Direct s.document.delimiter) (store : Option String) :
    (∃ a, (s.run ⟨.handle name call, store⟩).1.answer = .ok a) ↔
      ∃ a, ((call.deed s.document r.watched).run s.document).1 = .ok a := by
  rw [← Live.runOn_handleCall s.environment s.document r.watched hcall,
    ← exists_ok_perform s _ store]
  show (∃ a, (s.act ⟨.handle name call, store⟩).1 = .ok a) ↔ _
  rw [act_handle hr, hf.register (mem_of_register? hr)]

theorem removed?_eq_none {name : String} (hr : s.register? name = none) (call : HandleCall) :
    s.removed? (.handle name call) = none := by
  cases call with
  | delete => rw [removed?, hr, Option.map_none]
  | deleteAt q => rw [removed?, hr, Option.map_none]
  | _ => rfl

/-- A step that neither ends validity nor removes says nothing. -/
theorem ends_iff_of_silent {action : Action} {store : Option String} {k : Handle}
    (hends : ¬ (s.deed action).Ends s.document k) (hinv : ¬ s.Invalidates action k)
    (hnone : s.removed? action = none) :
    (s.deed action).Ends s.document k ↔
      s.Invalidates action k ∨ s.Deletes ⟨action, store⟩ k.path := by
  refine ⟨fun h => (hends h).elim, ?_⟩
  rintro (h | ⟨h, -⟩)
  · exact (hinv h).elim
  · rw [hnone] at h
    cases h

theorem ends_documentCall_iff {call : DocumentCall} {store : Option String}
    (hcall : call.Direct s.document.delimiter) (k : Handle) :
    (s.deed (.document call)).Ends s.document k ↔
      s.Invalidates (.document call) k ∨ s.Deletes ⟨.document call, store⟩ k.path := by
  have hinv : ¬ s.Invalidates (.document call) k := by
    rintro ⟨_, _, he, -⟩
    cases he
  cases call with
  | delete q =>
    rw [Deletes, exists_ok_documentCall (.delete q) hcall]
    refine (ends_remove_iff _ _ k).trans ⟨fun h => Or.inr ⟨congrArg some h.1, h.2⟩, ?_⟩
    rintro (h | ⟨he, hok⟩)
    · exact (hinv h).elim
    · exact ⟨Option.some.inj he, hok⟩
  | _ => exact ends_iff_of_silent id hinv rfl

/-- A removal through a valid handle ends what has the removed path. -/
theorem ends_removal_iff (hf : s.Faithful) {name : String} {r : Register}
    (hr : s.register? name = some r) {call : HandleCall} {store : Option String}
    (hcall : call.Direct s.document.delimiter) (hne : call ≠ .invalidate) {path : Path}
    (hpath : s.removed? (.handle name call) = some path)
    (hdeed : call.deed s.document r.watched = .through s.document r.watched (.remove path))
    (k : Handle) : (s.deed (.handle name call)).Ends s.document k ↔
      s.Invalidates (.handle name call) k ∨ s.Deletes ⟨.handle name call, store⟩ k.path := by
  rw [deed_handle hr, invalidates_handle_iff hr, Deletes, exists_ok_handleCall hf hr hcall, hdeed,
    ends_through_iff, hpath, Option.some.injEq]
  exact ⟨Or.inr, fun h => h.resolve_left fun hinv => hne hinv.1⟩

theorem ends_handleCall_iff (hf : s.Faithful) {name : String} {r : Register}
    (hr : s.register? name = some r) {call : HandleCall} {store : Option String}
    (hcall : call.Direct s.document.delimiter) (k : Handle) :
    (s.deed (.handle name call)).Ends s.document k ↔
      s.Invalidates (.handle name call) k ∨ s.Deletes ⟨.handle name call, store⟩ k.path := by
  have hkeeps : call ≠ .invalidate → ¬ s.Invalidates (.handle name call) k := by
    intro hne hinv
    exact hne ((invalidates_handle_iff hr call k).mp hinv).1
  have hsilent : ¬ (call.deed s.document r.watched).Ends s.document k → call ≠ .invalidate →
      s.removed? (.handle name call) = none → ((s.deed (.handle name call)).Ends s.document k ↔
        s.Invalidates (.handle name call) k ∨ s.Deletes ⟨.handle name call, store⟩ k.path) := by
    intro hends hne hnone
    rw [← deed_handle hr] at hends
    exact ends_iff_of_silent hends (hkeeps hne) hnone
  cases call with
  | invalidate =>
    rw [deed_handle hr, invalidates_handle_iff hr]
    refine Iff.trans ?_ (or_iff_left ?_).symm
    · have hzero : r.document = 0 := hf.register (mem_of_register? hr)
      show k.ticket.serial = r.watched.ticket.serial ↔ _
      rw [Register.holds, Handle.same, hzero, beq_self_eq_true, Bool.true_and, beq_iff_eq]
      exact ⟨fun h => ⟨rfl, h.symm⟩, fun h => h.2.symm⟩
    · rintro ⟨h, -⟩
      cases h
  | delete =>
    exact ends_removal_iff hf hr hcall (by simp) (by rw [removed?, hr, Option.map_some]) rfl k
  | deleteAt q =>
    exact ends_removal_iff hf hr hcall (by simp) (by rw [removed?, hr, Option.map_some]) rfl k
  | describe | isValid | raw | kind => exact hsilent id (by simp) rfl
  | setRaw | query | queryWith | get | member | set =>
    exact hsilent (not_ends_through _ _ _ id) (by simp) rfl
  | _ => cases hcall

/-- What the deed of a direct step ends is what the step says. -/
theorem ends_iff (hf : s.Faithful) {action : Action} {store : Option String}
    (haction : action.Direct s.document.delimiter) (k : Handle) :
    (s.deed action).Ends s.document k ↔
      s.Invalidates action k ∨ s.Deletes ⟨action, store⟩ k.path := by
  cases action with
  | document call => exact ends_documentCall_iff haction k
  | handle name call =>
    cases hr : s.register? name with
    | none =>
      refine ends_iff_of_silent ?_ ?_ (removed?_eq_none hr call)
      · rw [deed_handle_none hr]
        exact id
      · rintro ⟨other, r, he, hr', -⟩
        cases he
        rw [hr] at hr'
        cases hr'
    | some r => exact ends_handleCall_iff hf hr haction k
  | _ =>
    refine ends_iff_of_silent id ?_ rfl
    rintro ⟨_, _, he, -⟩
    cases he

/-! ## Histories -/

theorem undisturbed_nil_iff {k : Handle} {kind : Kind} :
    s.Undisturbed [] k kind ↔ s.document.value.kindAt? k.path = some kind := by
  constructor
  · intro h
    exact h.kind [] [] rfl
  · intro h
    refine ⟨fun before step rest he => ?_, fun before step rest he => ?_, fun before rest he => ?_⟩
    · exact absurd he.symm (by simp)
    · exact absurd he.symm (by simp)
    · obtain ⟨rfl, rfl⟩ := List.append_eq_nil_iff.mp he.symm
      exact h

/-- A history is that of its first step and that of the others. -/
theorem undisturbed_cons_iff {step : Step} {rest : List Step} {k : Handle} {kind : Kind} :
    s.Undisturbed (step :: rest) k kind ↔ s.document.value.kindAt? k.path = some kind ∧
      ¬ (s.Invalidates step.action k ∨ s.Deletes step k.path) ∧
        (s.run step).2.Undisturbed rest k kind := by
  constructor
  · intro h
    refine ⟨h.kind [] _ rfl, ?_, ?_, ?_, ?_⟩
    · rintro (hinv | hdel)
      · exact h.invalidate [] step rest rfl hinv
      · exact h.delete [] step rest rfl hdel
    · rintro before next later rfl
      exact h.invalidate (step :: before) next later rfl
    · rintro before next later rfl
      exact h.delete (step :: before) next later rfl
    · rintro before later rfl
      exact h.kind (step :: before) later rfl
  · rintro ⟨hkind, hstep, hrest⟩
    refine ⟨fun before next later he => ?_, fun before next later he => ?_,
      fun before later he => ?_⟩
    · rcases List.cons_eq_append_iff.mp he with ⟨rfl, hnext⟩ | ⟨before, rfl, hnext⟩
      · cases hnext
        exact fun hinv => hstep (Or.inl hinv)
      · exact hrest.invalidate before next later hnext
    · rcases List.cons_eq_append_iff.mp he with ⟨rfl, hnext⟩ | ⟨before, rfl, hnext⟩
      · cases hnext
        exact fun hdel => hstep (Or.inr hdel)
      · exact hrest.delete before next later hnext
    · rcases List.cons_eq_append_iff.mp he with ⟨rfl, -⟩ | ⟨before, rfl, hnext⟩
      · exact hkind
      · exact hrest.kind before later hnext

/-- A handle that a register keeps at the end of a run was kept from the beginning, or a step of
the run issued it. -/
theorem keeps_after (hf : s.Faithful) (hs : s.Sound) {steps : List Step}
    (hsteps : ∀ step ∈ steps, step.action.Direct s.document.delimiter) {k : Handle}
    (hk : (s.after steps).Keeps k) :
    s.Keeps k ∨ ∃ before step rest kind, steps = before ++ step :: rest ∧
      (s.after before).IssuesFor step k kind ∧ ((s.after before).run step).2.Keeps k := by
  induction steps generalizing s with
  | nil => exact Or.inl hk
  | cons step rest ih =>
    have hstep := hsteps step List.mem_cons_self
    have hrest : ∀ next ∈ rest, next.action.Direct (s.run step).2.document.delimiter := by
      intro next hnext
      rw [delimiter_run hs]
      exact hsteps next (List.mem_cons_of_mem _ hnext)
    rcases ih (hf.run hs hstep) (hs.run step) hrest hk with hkept | hlater
    · refine (keeps_run hf hs hstep hkept).imp_right ?_
      rintro ⟨hissues, t, ht, hticket, hpath⟩
      exact ⟨[], step, rest, t.kind, rfl, ⟨hissues, t, ht, hticket, hpath, rfl⟩, hkept⟩
    · obtain ⟨before, next, later, kind, rfl, hissues, hkeeps⟩ := hlater
      exact Or.inr ⟨step :: before, next, later, kind, rfl, hissues, hkeeps⟩

/-- A handle that has been issued and that a register keeps later on is kept all the time. -/
theorem keeps_of_after (hf : s.Faithful) (hs : s.Sound) {steps : List Step}
    (hsteps : ∀ step ∈ steps, step.action.Direct s.document.delimiter) {k : Handle}
    (hlt : k.ticket.serial < s.issued 0) (hk : (s.after steps).Keeps k) : s.Keeps k := by
  refine (keeps_after hf hs hsteps hk).resolve_right ?_
  rintro ⟨before, step, rest, kind, rfl, ⟨hissues, -⟩, -⟩
  obtain ⟨d, hd, hleads⟩ := leads_after hs before (n := 0) rfl
  have hle := hleads.issued_le
  have hlow := hissues.1
  rw [issued_eq (d := s.document) rfl] at hlt
  rw [issued_eq hd] at hlow
  omega

/-- The history of a valid handle decides whether it stays valid. -/
theorem isValid_after_iff (hf : s.Faithful) (hs : s.Sound) {steps : List Step}
    (hsteps : ∀ step ∈ steps, step.action.Direct s.document.delimiter) {t : Tenant Digest}
    (ht : s.document.arena.Houses t) (hk : (s.after steps).Keeps ⟨t.ticket, t.path⟩) :
    (s.after steps).document.isValid ⟨t.ticket, t.path⟩ = true ↔
      s.Undisturbed steps ⟨t.ticket, t.path⟩ t.kind := by
  have hkind := hf.document.kind ht
  have hd := hs.own
  induction steps generalizing s with
  | nil =>
    rw [undisturbed_nil_iff]
    exact ⟨fun _ => hkind, fun _ => ((hf.has hs hk).isValid_iff hd).mpr ⟨t, ht, rfl⟩⟩
  | cons step rest ih =>
    have hstep := hsteps step List.mem_cons_self
    have hrest : ∀ next ∈ rest, next.action.Direct (s.run step).2.document.delimiter := by
      intro next hnext
      rw [delimiter_run hs]
      exact hsteps next (List.mem_cons_of_mem _ hnext)
    have hlt := hd.arena.toTenancy.serial_lt ht
    have hheld := (hf.has hs (keeps_of_after hf hs hsteps hlt hk)).held
    have hexact := (exact_run hf hs hstep).houses ht (List.contains_iff_mem.mpr hheld)
    rw [ends_iff hf hstep] at hexact
    have hf' := hf.run hs hstep
    have hs' := hs.run step
    have hd' := hs'.own
    rw [undisturbed_cons_iff]
    by_cases ht' : (s.run step).2.document.arena.Houses t
    · have hsame := ih hf' hs' hrest ht' hk (hf'.document.kind ht') hd'
      exact ⟨fun h => ⟨hkind, (hexact.mp ht').1, hsame.mp h⟩, fun h => hsame.mpr h.2.2⟩
    · constructor
      · intro hvalid
        -- A tenant that is housed at the end has been housed ever since it was issued.
        obtain ⟨d, hdoc, hleads⟩ := leads_after hs' rest (n := 0) rfl
        cases hdoc
        have hfend := faithful_after hf' hs' hrest
        have hsend := sound_after hs' rest
        obtain ⟨u, hu, hticket⟩ := ((hfend.has hsend hk).isValid_iff hsend.own).mp hvalid
        obtain ⟨d, hdoc, hfirst, -⟩ := leads_run hs step (n := 0) rfl
        cases hdoc
        have hle := hfirst.issued_le
        have hserial : u.ticket.serial = t.ticket.serial := congrArg Ticket.serial hticket
        have hu' := (hleads.houses hu).resolve_right (by omega)
        have hold := (hfirst.houses hu').resolve_right (by omega)
        rw [hd.arena.serial_inj hold ht hserial] at hu'
        exact absurd hu' ht'
      · rintro ⟨-, hnot, hlater⟩
        have hnow : (s.run step).2.document.value.kindAt? t.path = some t.kind :=
          hlater.kind [] rest rfl
        exact absurd (hexact.mpr ⟨hnot, hnow⟩) ht'

/-! ## The history since the issue -/

/-- A valid handle whose path leads to a value of a kind gives this value and this kind. -/
theorem exists_rawValue {d : Document} {h : Handle} (hvalid : d.isValid h = true) {kind : Kind}
    (hk : d.value.kindAt? h.path = some kind) :
    ∃ v, (h.rawValue.runOn d).1 = .ok v ∧ (h.kind.runOn d).1 = .ok kind ∧ v.kind = kind := by
  obtain ⟨v, hv, hkind⟩ := Option.map_eq_some_iff.mp hk
  have hraw : (h.rawValue.runOn d).1 = .ok v := by
    rw [Live.runOn_rawValue, if_pos hvalid, hv]
  refine ⟨v, hraw, ?_, hkind⟩
  rw [Live.runOn_kind, hraw, ← hkind]
  rfl

/-- In every run of direct steps with cascading, every handle that a register keeps at the end has
been issued by a step of the run, for a value of some kind; it is valid if and only if, since then,
nobody has ended its validity explicitly, no removal has succeeded at exactly its path, and its path
has led to a value of this kind in every state; and while it is valid, it gives its value and still
this kind. -/
theorem kept_handles_valid_iff (env : Environment) {value : Value} (hv : value.Sized)
    {settings : Settings} (hc : settings.cascade = true) {steps : List Step}
    (hsteps : ∀ step ∈ steps, step.action.Direct settings.delimiter) {h : Handle}
    (hkeeps : ((opening env value settings).after steps).Keeps h) :
    ∃ before step rest kind, steps = before ++ step :: rest ∧
      ((opening env value settings).after before).IssuesFor step h kind ∧
      (((opening env value settings).after steps).document.isValid h = true ↔
        (((opening env value settings).after before).run step).2.Undisturbed rest h kind) ∧
      (((opening env value settings).after steps).document.isValid h = true →
        ∃ v, (h.rawValue.runOn ((opening env value settings).after steps).document).1 = .ok v ∧
          (h.kind.runOn ((opening env value settings).after steps).document).1 = .ok kind ∧
            v.kind = kind) := by
  have hf := faithful_opening env hv hc
  have hs := sound_opening env value settings
  rcases keeps_after hf hs hsteps hkeeps with ⟨entry, hentry, -⟩ | hissued
  · cases hentry
  obtain ⟨before, step, rest, kind, rfl, ⟨hissues, t, ht, hticket, hpath, rfl⟩, -⟩ := hissued
  have hh : h = ⟨t.ticket, t.path⟩ := by
    rw [hticket, hpath]
  -- The session right after the step that issues the handle is faithful as well.
  have hbefore : ∀ next ∈ before ++ [step], next.action.Direct settings.delimiter := by
    intro next hnext
    refine hsteps next ?_
    rw [← List.singleton_append, ← List.append_assoc]
    exact List.mem_append_left _ hnext
  have hmiddle := sound_after hs (before ++ [step])
  have hfaithful := faithful_after hf hs hbefore
  have hdelimiter : ((opening env value settings).after (before ++ [step])).document.delimiter =
      settings.delimiter := congrArg Settings.delimiter (settings_after hs (before ++ [step]))
  rw [after_append] at hmiddle hfaithful hdelimiter
  have hrest : ∀ next ∈ rest, next.action.Direct
      (((opening env value settings).after before).run step).2.document.delimiter := by
    intro next hnext
    rw [show (((opening env value settings).after before).run step).2.document.delimiter =
      settings.delimiter from hdelimiter]
    exact hsteps next (List.mem_append_right _ (List.mem_cons_of_mem _ hnext))
  rw [after_append] at hkeeps ⊢
  have hiff := isValid_after_iff hfaithful hmiddle hrest ht (by rw [← hh]; exact hkeeps)
  rw [← hh] at hiff
  refine ⟨before, step, rest, t.kind, rfl, ⟨hissues, t, ht, hticket, hpath, rfl⟩, hiff, ?_⟩
  intro hvalid
  exact exists_rawValue hvalid ((hiff.mp hvalid).kind rest [] (List.append_nil rest).symm)

/-- A write beside the watched place leaves the history of the handle undisturbed. -/
theorem kept_handles_valid_iff_beside :
    ∃ before step rest kind,
      [⟨.document (.member (.text "a")), some "x"⟩,
        ⟨.document (.set (.text "b") (.boolean true)), none⟩] = before ++ step :: rest ∧
      ((opening [] (.mapping [("a", .null)]) {}).after before).IssuesFor step
        ⟨⟨0, 0, 0⟩, [.key "a"]⟩ kind ∧
      (((opening [] (.mapping [("a", .null)]) {}).after before).run step).2.Undisturbed rest
        ⟨⟨0, 0, 0⟩, [.key "a"]⟩ kind := by
  have hkeeps : ((opening [] (.mapping [("a", .null)]) {}).after
      [⟨.document (.member (.text "a")), some "x"⟩,
        ⟨.document (.set (.text "b") (.boolean true)), none⟩]).Keeps
          ⟨⟨0, 0, 0⟩, [.key "a"]⟩ :=
    ⟨("x", .handle 0 ⟨⟨0, 0, 0⟩, [.key "a"]⟩), by decide +kernel, rfl⟩
  obtain ⟨before, step, rest, kind, he, hissues, hiff, -⟩ :=
    kept_handles_valid_iff [] (by decide) rfl (by decide +kernel) hkeeps
  exact ⟨before, step, rest, kind, he, hissues, hiff.mp (by decide +kernel)⟩

end

end Session

end LiveDocument
