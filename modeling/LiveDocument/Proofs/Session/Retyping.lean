import LiveDocument.Proofs.Document.Retyping
import LiveDocument.Proofs.Session.Deed
import LiveDocument.Proofs.Session.Run

/-!
# Writes of another kind in a session

In every session with cascading, a step that succeeds in writing a value at a path meets the valid
handles for the same entry. If the value is of another kind than such a handle was issued for, the
handle is valid no more exactly if the two paths spell the entries of mappings alike: places of
sequences are compared as they are counted, but a key and a place with its numeral are not.

* `writes?`: the paths at which a call writes one value.
* `writes_run`: a step that succeeds has written at all of them.
* `retyped_handle_invalid_iff`: which handles for the written entry lose their validity.
-/

namespace LiveDocument

open Document (Writes)

/-- The paths at which a call on the document writes a value. -/
def DocumentCall.writes? (d : Document) : DocumentCall → Option (List Path × Value)
  | set q v => some (Live.writePaths d.value (d.addressOf q) [], v)
  | write path _ v => some ([path], v)
  | _ => none

/-- The paths at which a call through a handle writes a value. -/
def HandleCall.writes? (d : Document) (h : Handle) : HandleCall → Option (List Path × Value)
  | set q v => some (Live.writePaths d.value (d.addressOf q) h.path, v)
  | setRaw v => some ([h.path], v)
  | _ => none

/-- The path at which a call on a view writes a value under a key. -/
def ViewCall.writes? (view : View) : ViewCall → Option (List Path × Value)
  | insert key v => some ([view.handle.path ++ [.key key]], v)
  | _ => none

namespace Live

section

variable {d d' : Document} {v : Value}

theorem writes_of_writeAll {delimiter : String} {paths : List Path} {u : Unit}
    (h : (writeAll delimiter v paths).runOn d = (.ok u, d')) : Writes v paths d d' := by
  obtain ⟨done, rest, he, hwrites, hall⟩ := Deed.exists_writes delimiter v paths d
  rw [hall (by rw [h]), List.append_nil] at he
  rw [h, ← he] at hwrites
  exact hwrites

theorem writes_of_write {path : Path} {delimiter : String} {u : Unit}
    (h : (Live.write path delimiter v).runOn d = (.ok u, d')) : Writes v [path] d d' := by
  rw [runOn_write] at h
  split at h
  · rename_i e he
    cases h
    exact .cons he (.nil _)
  · cases h

theorem writes_of_update {a : Address} {context : Path} {u : Unit}
    (h : (Live.update a context v).runOn d = (.ok u, d')) :
    Writes v (Live.writePaths d.value a context) d d' := by
  unfold Live.update at h
  rw [runOn_get_bind] at h
  exact writes_of_writeAll h

theorem of_guarded_ok {α : Type} {h : Handle} {f : Unit → Live α} {a : α}
    (hrun : (h.ensureValid >>= f).runOn d = (.ok a, d')) : (f ()).runOn d = (.ok a, d') := by
  rw [runOn_guarded] at hrun
  split at hrun
  · exact hrun
  · cases hrun

/-- A call on the document that succeeds has written at all its paths. -/
theorem writes_documentCall (env : Environment) {call : DocumentCall} {paths : List Path}
    (hw : call.writes? d = some (paths, v)) {a : Answer Handle}
    (h : (call.run env).runOn d = (.ok a, d')) : Writes v paths d d' := by
  cases call with
  | set q w =>
    cases hw
    obtain ⟨u, d₁, hset, hpure⟩ := of_runOn_bind_ok h
    cases hpure
    unfold Document.set at hset
    rw [runOn_get_bind] at hset
    exact writes_of_update hset
  | write path delimiter w =>
    cases hw
    unfold DocumentCall.run at h
    rw [runOn_get_bind] at h
    obtain ⟨u, d₁, hwrite, hpure⟩ := of_runOn_bind_ok h
    cases hpure
    exact writes_of_write hwrite
  | _ => cases hw

/-- A call through a handle that succeeds has written at all its paths. -/
theorem writes_handleCall (env : Environment) {k : Handle} {call : HandleCall} {paths : List Path}
    (hw : call.writes? d k = some (paths, v)) {a : Answer Handle}
    (h : (call.run env k).runOn d = (.ok a, d')) : Writes v paths d d' := by
  cases call with
  | set q w =>
    cases hw
    obtain ⟨u, d₁, hset, hpure⟩ := of_runOn_bind_ok h
    cases hpure
    unfold Handle.set at hset
    have hupdate := of_guarded_ok hset
    rw [runOn_get_bind] at hupdate
    exact writes_of_update hupdate
  | setRaw w =>
    cases hw
    obtain ⟨u, d₁, hset, hpure⟩ := of_runOn_bind_ok h
    cases hpure
    unfold Handle.setRawValue at hset
    have hwrite := of_guarded_ok hset
    rw [runOn_get_bind] at hwrite
    exact writes_of_write hwrite
  | _ => cases hw

/-- A call on a view that succeeds has written at its path. -/
theorem writes_viewCall {view : View} {call : ViewCall} {paths : List Path}
    (hw : call.writes? view = some (paths, v)) {a : Answer Handle}
    (h : (call.run view).runOn d = (.ok a, d')) : Writes v paths d d' := by
  cases call with
  | insert key w =>
    cases hw
    obtain ⟨o, d₁, hinsert, hpure⟩ := of_runOn_bind_ok h
    cases hpure
    unfold View.insert at hinsert
    obtain ⟨w, d₂, hvalue, hrest⟩ := of_runOn_bind_ok hinsert
    unfold View.value at hvalue
    rw [runOn_rawValue] at hvalue
    obtain ⟨-, rfl⟩ := Prod.mk.inj hvalue
    split at hrest
    · obtain ⟨u, d₃, hchild, hpure⟩ := of_runOn_bind_ok hrest
      cases hpure
      unfold Handle.writeChild at hchild
      have hwrite := of_guarded_ok hchild
      rw [runOn_get_bind] at hwrite
      exact writes_of_write hwrite
    · cases hrest
  | _ => cases hw

end

/-! ## The paths of one call -/

section

variable {d : Document} {v : Value} {paths : List Path} {p w : Path}

theorem siblings_singleton {value : Value} {path : Path} (hp : p ∈ [path]) (hw : w ∈ [path]) :
    value.Siblings p w := by
  rw [List.mem_singleton.mp hp, List.mem_singleton.mp hw]
  exact Or.inl rfl

theorem siblings_documentCall {call : DocumentCall} (h : call.writes? d = some (paths, v))
    (hp : p ∈ paths) (hw : w ∈ paths) : d.value.Siblings p w := by
  cases call with
  | set q x =>
    cases h
    exact Deed.siblings_writePaths hp hw
  | write path delimiter x =>
    cases h
    exact siblings_singleton hp hw
  | _ => cases h

theorem siblings_handleCall {k : Handle} {call : HandleCall}
    (h : call.writes? d k = some (paths, v)) (hp : p ∈ paths) (hw : w ∈ paths) :
    d.value.Siblings p w := by
  cases call with
  | set q x =>
    cases h
    exact Deed.siblings_writePaths hp hw
  | setRaw x =>
    cases h
    exact siblings_singleton hp hw
  | _ => cases h

theorem siblings_viewCall {value : Value} {view : View} {call : ViewCall}
    (h : call.writes? view = some (paths, v)) (hp : p ∈ paths) (hw : w ∈ paths) :
    value.Siblings p w := by
  cases call with
  | insert key x =>
    cases h
    exact siblings_singleton hp hw
  | _ => cases h

end

end Live

/-- The handle is valid, and it was issued for a value of the kind. -/
def Document.WatchesAs (d : Document) (h : Handle) (kind : Kind) : Prop :=
  ∃ t, d.arena.Houses t ∧ t.ticket = h.ticket ∧ t.kind = kind

namespace Session

/-- What a step writes: the number of the document, the paths, and the value. -/
def writes? (s : Session) : Action → Option (Nat × List Path × Value)
  | .document call => (call.writes? s.document).map fun w => (0, w)
  | .handle name call =>
    (s.register? name).bind fun r => (s.document? r.document).bind fun d =>
      (call.writes? d r.watched).map fun w => (r.document, w)
  | .view name call =>
    match s.register? name with
    | some (.view n view) => (call.writes? view).map fun w => (n, w)
    | _ => none
  | _ => none

section

variable {s : Session} {n : Nat} {d : Document}

theorem document?_conclude (s : Session) (n m : Nat) (d : Document) (name : Option String)
    (answer : Answer Handle) :
    (s.conclude n d name answer).2.document? m = (s.setDocument n d).document? m := by
  cases name with
  | none => rfl
  | some name => exact document?_store _ _ m

/-- An operation that succeeds leaves its document behind. -/
theorem perform_ok (hd : s.document? n = some d) {call : Live (Answer Handle)}
    {name : Option String} (h : (s.perform n call name).1.isOk = true) :
    ∃ a d', call.runOn d = (.ok a, d') ∧ (s.perform n call name).2.document? n = some d' := by
  cases hrun : call.runOn d with
  | mk result d' =>
    cases result with
    | error f =>
      rw [perform_of_error hd hrun] at h
      cases h
    | ok a =>
      refine ⟨a, d', rfl, ?_⟩
      rw [perform_of_ok hd hrun, document?_conclude, document?_setDocument hd, if_pos rfl]

/-- A step that carries a writing operation out and succeeds has written. -/
theorem writes_perform (hd : s.document? n = some d) {step : Step} {paths : List Path} {v : Value}
    {call : Live (Answer Handle)} (hact : s.act step = s.perform n call step.store)
    (hok : (s.run step).1.answer.isOk = true)
    (hwrites : ∀ {a : Answer Handle} {d' : Document}, call.runOn d = (.ok a, d') →
      Writes v paths d d') :
    ∃ d' d'', Writes v paths d d' ∧ (s.run step).2.document? n = some d'' ∧
      ∀ {t : Tenant Digest}, d''.arena.Houses t ↔ d'.arena.Houses t := by
  have hok' : (s.perform n call step.store).1.isOk = true := hact ▸ hok
  obtain ⟨a, d', hrun, hd'⟩ := perform_ok hd hok'
  refine ⟨d', (s.act step).2.releaseIn n d', hwrites hrun, ?_, Iff.rfl⟩
  rw [run_snd, document?_release, hact, hd']
  rfl

/-- A step that succeeds has written at all its paths, which are siblings. -/
theorem writes_run (hd : s.document? n = some d) {step : Step} {paths : List Path} {v : Value}
    (hw : s.writes? step.action = some (n, paths, v))
    (hok : (s.run step).1.answer.isOk = true) :
    (∀ {p w : Path}, p ∈ paths → w ∈ paths → d.value.Siblings p w) ∧
      ∃ d' d'', Writes v paths d d' ∧ (s.run step).2.document? n = some d'' ∧
        ∀ {t : Tenant Digest}, d''.arena.Houses t ↔ d'.arena.Houses t := by
  obtain ⟨action, store⟩ := step
  cases action with
  | document call =>
    obtain ⟨w, hcall, he⟩ := Option.map_eq_some_iff.mp hw
    cases he
    cases hd
    exact ⟨Live.siblings_documentCall hcall,
      writes_perform (n := 0) rfl rfl hok (Live.writes_documentCall s.environment hcall)⟩
  | handle name call =>
    obtain ⟨r, hr, hw⟩ := Option.bind_eq_some_iff.mp hw
    obtain ⟨e, he, hw⟩ := Option.bind_eq_some_iff.mp hw
    obtain ⟨w, hcall, hpaths⟩ := Option.map_eq_some_iff.mp hw
    cases hpaths
    rw [hd] at he
    cases he
    exact ⟨Live.siblings_handleCall hcall, writes_perform hd (act_handle hr call store) hok
      (Live.writes_handleCall s.environment hcall)⟩
  | view name call =>
    unfold writes? at hw
    dsimp only at hw
    split at hw
    · rename_i m view hr
      obtain ⟨w, hcall, hpaths⟩ := Option.map_eq_some_iff.mp hw
      cases hpaths
      exact ⟨Live.siblings_viewCall hcall, writes_perform hd (act_view hr call store) hok
        (Live.writes_viewCall hcall)⟩
    · cases hw
  | _ => cases hw

/-- With cascading, in every session: when a step succeeds in writing a value at a path, a valid
handle for the same entry that was issued for another kind is valid no more exactly if the handle's
path spells the entries of mappings like the path of the write. -/
theorem retyped_handle_invalid_iff (env : Environment) (value : Value) {settings : Settings}
    (hc : settings.cascade = true) (steps : List Step)
    (hd : ((opening env value settings).after steps).document? n = some d) {h : Handle}
    (hkept : ∃ entry ∈ ((opening env value settings).after steps).registers,
      entry.2.document = n ∧ entry.2.watched = h) {kind : Kind} (hk : d.WatchesAs h kind)
    (step : Step) {paths : List Path} {v : Value}
    (hw : ((opening env value settings).after steps).writes? step.action = some (n, paths, v))
    (hok : (((opening env value settings).after steps).run step).1.answer.isOk = true)
    {p : Path} (hp : p ∈ paths) (hsame : d.value.SameEntry p h.path) (hkind : v.kind ≠ kind) :
    ∃ d', (((opening env value settings).after steps).run step).2.document? n = some d' ∧
      (d'.isValid h = false ↔ d.value.SpelledAlike p h.path) := by
  have hstart := sound_opening env value settings
  have hsound := sound_after hstart steps
  obtain ⟨hdsound, hset⟩ := hsound.document hd
  have hcascade : d.settings.cascade = true := by
    rw [hset, settings_after hstart steps]
    exact hc
  obtain ⟨entry, hentry, hdoc, rfl⟩ := hkept
  obtain ⟨e, he, hhas⟩ := hsound.register hentry
  rw [hdoc, hd] at he
  cases he
  obtain ⟨t, ht, hticket, rfl⟩ := hk
  have hpath := hhas.path ht hticket
  rw [← hpath] at hsame ⊢
  obtain ⟨hsiblings, d', d'', hwrites, hd'', hhouses⟩ := writes_run hd hw hok
  obtain ⟨e, he, hleads, -⟩ := leads_run hsound step hd
  rw [hd''] at he
  cases he
  refine ⟨d'', hd'', ?_⟩
  -- The handle is valid as long as its tenant is housed.
  have hvalid : d''.isValid entry.2.watched = true ↔ d'.arena.Houses t := by
    refine ((hhas.known.of_leads hleads).isLive_iff
      ((hsound.run step).document hd'').1.arena.toTenancy).trans
        ⟨?_, fun h => ⟨t, hhouses.mpr h, hticket⟩⟩
    rintro ⟨u, hu, hu'⟩
    have hold := Document.houses_of_writes hcascade hwrites (hhouses.mp hu)
    rw [← hdsound.arena.serial_inj hold ht (by rw [hu', hticket])]
    exact hhouses.mp hu
  have hlen : ∀ w ∈ paths, w.length = p.length := fun w hw => (hsiblings hp hw).length_eq
  rw [← hsame.concrete_eq_iff, ← Bool.not_eq_true, hvalid]
  constructor
  · intro hgone
    apply Classical.byContradiction
    intro hne
    refine hgone (Document.houses_writes hcascade hwrites ht hsame.symm.isSlice
      (fun w hw => (hlen w hw).trans hsame.length_eq) fun w hw he => hne ?_)
    exact hsame.concrete_eq_of_siblings (hsiblings hp hw) he
  · exact Document.not_houses_writes hcascade hwrites hp hlen hsame hkind

/-- A view's child under a numeral stays valid when a query writes a value of another kind at its
entry, since the query spells the entry as a place. -/
theorem retyped_handle_invalid_iff_numeral :
    ∃ d', (((opening [] (.mapping [("m", .mapping [("80", .null)])]) {}).after
      [⟨.document (.member (.text "m")), some "a"⟩, ⟨.handle "a" .view, some "v"⟩,
        ⟨.view "v" .children, some "c"⟩]).run
          ⟨.document (.set (.text "m/80") (.string "x")), none⟩).2.document? 0 = some d' ∧
      ¬ d'.isValid ⟨⟨1, 1, 0⟩, [.key "m", .key "80"]⟩ = false := by
  refine Exists.imp (fun d' hd' => ⟨hd'.1, fun hinvalid => absurd (hd'.2.mp hinvalid) ?_⟩)
    (retyped_handle_invalid_iff [] (.mapping [("m", .mapping [("80", .null)])]) rfl
      [⟨.document (.member (.text "m")), some "a"⟩, ⟨.handle "a" .view, some "v"⟩,
        ⟨.view "v" .children, some "c"⟩] rfl (by decide +kernel)
      ⟨⟨[.key "m", .key "80"], .null, some (Document.keyOf [.key "m", .key "80"] "/"), ⟨1, 1, 0⟩⟩,
        ⟨1, by decide +kernel⟩, rfl, rfl⟩
      ⟨.document (.set (.text "m/80") (.string "x")), none⟩
      (congrArg (fun paths => some (0, paths, Value.string "x"))
        (show Live.writePaths _ _ _ = [[.key "m", .index 80]] by decide +kernel))
      (by decide +kernel) List.mem_cons_self (by decide +kernel) (by decide))
  decide +kernel

end

end Session

end LiveDocument
