import LiveDocument.Proofs.Session.Deed
import LiveDocument.Proofs.Session.Run

/-!
# Direct steps

A direct step carries a direct call out on the document or through a register, or drops registers.
As long as all steps are direct, a session has one document only, and this document is faithful: it
does not matter which handles are dropped, or in which order steps come.

* `deed`: what a direct step comes down to. `act_direct`: that it does.
* `Faithful`: the invariant of a session under direct steps. `faithful_after`: that it is one.
* `keeps_run`: a handle that a register keeps was kept before, or the step issues it.
-/

namespace LiveDocument

/-- The action is a direct call, or drops registers. -/
def Action.Direct (delimiter : String) : Action → Prop
  | .document call => call.Direct delimiter
  | .handle _ call => call.Direct delimiter
  | .drop _ | .dropAll => True
  | _ => False

instance (delimiter : String) (action : Action) : Decidable (action.Direct delimiter) := by
  unfold Action.Direct
  cases action <;> infer_instance

namespace Session

/-- Some register keeps the handle. -/
def Keeps (s : Session) (k : Handle) : Prop :=
  ∃ entry ∈ s.registers, entry.2.watched = k

/-- What a direct action comes down to. -/
def deed (s : Session) : Action → Deed
  | .document call => call.deed s.document
  | .handle name call =>
    match s.register? name with
    | some r => call.deed s.document r.watched
    | none => .tell (.ok .nothing)
  | _ => .tell (.ok .nothing)

/-- The session has handles of its own document only, this document is faithful, and what is held
in it is kept by a register. -/
structure Faithful (s : Session) : Prop where
  document : s.document.Faithful
  register : ∀ {entry : String × Register}, entry ∈ s.registers → entry.2.document = 0
  held : ∀ {n : Nat}, n ∈ s.document.arena.held → ∃ k, s.Keeps k ∧ k.ticket.serial = n

/-! ## Carrying an operation out -/

section

variable {s : Session}

theorem document_perform (s : Session) (call : Live (Answer Handle)) (name : Option String) :
    (s.perform 0 call name).2.document = (call.runOn s.document).2 := by
  cases hrun : call.runOn s.document with
  | mk result d' =>
    cases result with
    | error f =>
      rw [perform_of_error (n := 0) rfl hrun]
      rfl
    | ok answer =>
      rw [perform_of_ok (n := 0) rfl hrun]
      cases name <;> rfl

/-- The registers after an operation are old ones, or are for its answer. -/
theorem of_mem_perform {call : Live (Answer Handle)} {name : Option String}
    {entry : String × Register} (h : entry ∈ (s.perform 0 call name).2.registers) :
    entry ∈ s.registers ∨ entry.2.document = 0 ∧
      ∃ a, (call.runOn s.document).1 = .ok a ∧ entry.2.watched ∈ a.found := by
  cases hrun : call.runOn s.document with
  | mk result d' =>
    cases result with
    | error f =>
      rw [perform_of_error (n := 0) rfl hrun] at h
      exact Or.inl h
    | ok answer =>
      rw [perform_of_ok (n := 0) rfl hrun] at h
      cases name with
      | none => exact Or.inl h
      | some name =>
        rcases mem_store h with hold | hnew
        · exact Or.inl hold
        · obtain ⟨hdoc, hw⟩ := of_mem_kept hnew
          exact Or.inr ⟨hdoc, answer, rfl, hw⟩

theorem deed_handle {name : String} {r : Register} (h : s.register? name = some r)
    (call : HandleCall) : s.deed (.handle name call) = call.deed s.document r.watched := by
  show (match s.register? name with
    | some r => call.deed s.document r.watched
    | none => Deed.tell (.ok .nothing)) = _
  rw [h]

theorem deed_handle_none {name : String} (h : s.register? name = none) (call : HandleCall) :
    s.deed (.handle name call) = .tell (.ok .nothing) := by
  show (match s.register? name with
    | some r => call.deed s.document r.watched
    | none => Deed.tell (.ok .nothing)) = _
  rw [h]

/-- A direct action carries its deed out, or leaves the document alone and drops registers. -/
theorem act_direct (hf : s.Faithful) {step : Step}
    (hstep : step.action.Direct s.document.delimiter) :
    (∃ call, s.act step = s.perform 0 call step.store ∧
      call.runOn s.document = (s.deed step.action).run s.document) ∨
    (s.deed step.action = .tell (.ok .nothing) ∧ ∃ registers, registers ⊆ s.registers ∧
      (s.act step).2 = { s with registers := registers }) := by
  obtain ⟨action, store⟩ := step
  cases action with
  | document call =>
    exact Or.inl ⟨_, rfl, Live.runOn_documentCall s.environment s.document hstep⟩
  | handle name call =>
    cases hr : s.register? name with
    | none =>
      refine Or.inr ⟨deed_handle_none hr call, s.registers, List.Subset.refl _, ?_⟩
      rw [act_handle_none hr]
    | some r =>
      refine Or.inl ⟨call.run s.environment r.watched, ?_, ?_⟩
      · rw [act_handle hr, hf.register (mem_of_register? hr)]
      · rw [deed_handle hr]
        exact Live.runOn_handleCall s.environment s.document r.watched hstep
  | drop name => exact Or.inr ⟨rfl, _, List.filter_sublist.subset, rfl⟩
  | dropAll => exact Or.inr ⟨rfl, [], List.nil_subset _, rfl⟩
  | _ => cases hstep

theorem document_act (hf : s.Faithful) {step : Step}
    (hstep : step.action.Direct s.document.delimiter) :
    (s.act step).2.document = ((s.deed step.action).run s.document).2 := by
  rcases act_direct hf hstep with ⟨call, hact, hrun⟩ | ⟨hdeed, registers, -, hact⟩
  · rw [hact, document_perform, hrun]
  · rw [hact, hdeed]
    rfl

/-- The value after a direct step is that after its deed. -/
theorem value_run (hf : s.Faithful) {step : Step}
    (hstep : step.action.Direct s.document.delimiter) :
    (s.run step).2.document.value = ((s.deed step.action).run s.document).2.value := by
  rw [← document_act hf hstep]
  rfl

/-- So are the tenants. -/
theorem houses_run (hf : s.Faithful) {step : Step}
    (hstep : step.action.Direct s.document.delimiter) {t : Tenant Digest} :
    (s.run step).2.document.arena.Houses t ↔
      ((s.deed step.action).run s.document).2.arena.Houses t := by
  rw [← document_act hf hstep]
  exact Iff.rfl

/-! ## The deed of a direct step -/

theorem keeps_of_register? {name : String} {r : Register} (h : s.register? name = some r) :
    s.Keeps r.watched :=
  ⟨_, mem_of_register? h, rfl⟩

/-- The session's document has the handles that registers keep. -/
theorem Faithful.has (hf : s.Faithful) (hs : s.Sound) {k : Handle} (h : s.Keeps k) :
    s.document.Has k := by
  obtain ⟨entry, hentry, rfl⟩ := h
  obtain ⟨d, hd, hhas⟩ := hs.register hentry
  rw [hf.register hentry] at hd
  cases hd
  exact hhas

/-- A direct step's deed has plain addresses, and tells of handles that registers keep. -/
theorem plain_deed (hf : s.Faithful) (hs : s.Sound) {action : Action}
    (haction : action.Direct s.document.delimiter) :
    (s.deed action).Plain s.document s.Keeps := by
  cases action with
  | document call => exact (Deed.plain_documentCall haction).mono fun k hk => hk.elim
  | handle name call =>
    cases hr : s.register? name with
    | none =>
      rw [deed_handle_none hr]
      exact Deed.plain_nothing
    | some r =>
      have hkeeps := keeps_of_register? hr
      rw [deed_handle hr]
      refine (Deed.plain_handleCall hf.document hs.own (hf.has hs hkeeps) haction).mono ?_
      intro k hk
      rw [hk]
      exact hkeeps
  | drop name => exact Deed.plain_nothing
  | dropAll => exact Deed.plain_nothing
  | _ => cases haction

/-- A direct step is exact about the handles that it leaves valid. -/
theorem exact_run (hf : s.Faithful) (hs : s.Sound) {step : Step}
    (hstep : step.action.Direct s.document.delimiter) :
    Document.Exact (fun k => (s.deed step.action).Ends s.document k) s.document
      (s.run step).2.document := by
  have hexact := Deed.exact_deed hf.document hs.own (plain_deed hf hs hstep)
  rw [← document_act hf hstep] at hexact
  exact ⟨⟨hexact.faithful.cascade, hexact.faithful.sized, hexact.faithful.parsed,
    hexact.faithful.kind⟩, hexact.houses⟩

theorem delimiter_run (hs : s.Sound) (step : Step) :
    (s.run step).2.document.delimiter = s.document.delimiter := by
  rw [Document.delimiter, Document.delimiter, ← settings_after hs [step]]
  rfl

/-! ## Handles that registers keep -/

/-- The handles that registers keep after a direct step were kept before it, or the step issues
them, and then they are valid. -/
theorem keeps_run (hf : s.Faithful) (hs : s.Sound) {step : Step}
    (hstep : step.action.Direct s.document.delimiter) {k : Handle} (hk : (s.run step).2.Keeps k) :
    s.Keeps k ∨ (s.Issues step 0 k ∧
      ∃ t, (s.run step).2.document.arena.Houses t ∧ t.ticket = k.ticket ∧ t.path = k.path) := by
  obtain ⟨entry, hentry, rfl⟩ := hk
  rw [run_snd] at hentry
  rcases act_direct hf hstep with ⟨call, hact, hrun⟩ | ⟨-, registers, hsub, hact⟩
  · rw [hact] at hentry
    rcases of_mem_perform hentry with hold | ⟨-, a, ha, hw⟩
    · exact Or.inl ⟨entry, hold, rfl⟩
    rw [hrun] at ha
    have hd := hs.own
    rcases Deed.found_deed hd (plain_deed hf hs hstep) ha hw with hgiven | hfound
    · exact Or.inl hgiven
    obtain ⟨t, ht, hticket⟩ := hfound.valid
    rcases hfound.origin with hheld | hnew
    · obtain ⟨k, hk, hserial⟩ := hf.held (List.contains_iff_mem.mp hheld)
      obtain ⟨d', hd', hfollows⟩ := (advances_act hs step).follows (n := 0) rfl
      cases hd'
      rw [← document_act hf hstep] at hfound ht
      have hhas := (hf.has hs hk).of_follows hfollows
      rw [← hfound.has.eq_of_serial hhas ht hticket hserial]
      exact Or.inl hk
    · refine Or.inr ⟨⟨hnew, ?_⟩, t, (houses_run hf hstep).mpr ht, hticket,
        hfound.has.path ht hticket⟩
      have hlt := hfound.has.known.serial_lt
      rw [← document_act hf hstep] at hlt
      exact hlt
  · rw [hact] at hentry
    exact Or.inl ⟨entry, hsub hentry, rfl⟩

theorem Faithful.run (hf : s.Faithful) (hs : s.Sound) {step : Step}
    (hstep : step.action.Direct s.document.delimiter) : (s.run step).2.Faithful where
  document := (exact_run hf hs hstep).faithful
  register := by
    intro entry hentry
    rw [run_snd] at hentry
    rcases act_direct hf hstep with ⟨call, hact, -⟩ | ⟨-, registers, hsub, hact⟩
    · rw [hact] at hentry
      rcases of_mem_perform hentry with hold | ⟨hzero, -⟩
      · exact hf.register hold
      · exact hzero
    · rw [hact] at hentry
      exact hf.register (hsub hentry)
  held := by
    intro n hn
    obtain ⟨entry, hentry, -, hserial⟩ := mem_held_run step (n := 0) rfl hn
    exact ⟨entry.2.watched, ⟨entry, hentry, rfl⟩, hserial⟩

theorem faithful_opening (env : Environment) {value : Value} (hv : value.Sized)
    {settings : Settings} (hc : settings.cascade = true) :
    (opening env value settings).Faithful where
  document := Document.faithful_ofValue hv hc
  register := fun he => by cases he
  held := fun hn => by cases hn

theorem faithful_after (hf : s.Faithful) (hs : s.Sound) {steps : List Step}
    (hsteps : ∀ step ∈ steps, step.action.Direct s.document.delimiter) :
    (s.after steps).Faithful := by
  induction steps generalizing s with
  | nil => exact hf
  | cons step rest ih =>
    have hstep := hsteps step List.mem_cons_self
    refine ih (hf.run hs hstep) (hs.run step) fun next hnext => ?_
    rw [delimiter_run hs]
    exact hsteps next (List.mem_cons_of_mem _ hnext)

end

end Session

end LiveDocument
