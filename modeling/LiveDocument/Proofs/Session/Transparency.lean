import Mathlib.Data.List.Forall2
import LiveDocument.Proofs.Session.Mirrors

/-!
# Runs with and without the cache

Two sessions on one value carry out the same direct steps, one of them perhaps with the cache where
the other has none. As long as no two asked texts have one digest, all that they show is the same
but which handles are the same one.

* `shown`: what a run shows. `texts`: the canonical texts that it asks for.
* `Clear`: the invariants of each of the two sessions.
* `Mirrors.run`: matching steps keep sessions seen as the same, and show the same.
* `cache_transparent`: matching runs show the same.
-/

namespace LiveDocument

namespace Session

/-- What a run shows: the reply to each step, and the value after it. -/
def shown (s : Session) : List Step → List (Reply × Value)
  | [] => []
  | step :: rest =>
    ((s.run step).1.anonymous, (s.run step).2.document.value) :: (s.run step).2.shown rest

/-- The canonical texts that a run asks for. -/
def texts (s : Session) : List Step → List String
  | [] => []
  | step :: rest => (s.deed step.action).texts s.document ++ (s.run step).2.texts rest

/-- The invariants of one of the two sessions. -/
structure Clear (c : Char) (T : String → Prop) (s : Session) : Prop where
  sound : s.Sound
  faithful : s.Faithful
  spelled : s.document.Spelled c T

/-! ## Runs -/

section

variable {c : Char} {T : String → Prop} (hdigit : c.isDigit = false) (hminus : c ≠ '-')

include hdigit hminus

section

variable {s s' : Session} {step step' : Step}

/-- What a direct step looks up is as queries make it. -/
theorem Clear.asks (hc : s.Clear c T) {action : Action}
    (haction : action.Direct s.document.delimiter)
    (hT : ∀ x ∈ (s.deed action).texts s.document, T x) : (s.deed action).Asks c T s.document := by
  cases action with
  | document call =>
    exact Deed.asks_documentCall hdigit hminus hc.spelled.delimiter haction hT
  | handle name call =>
    cases hr : s.register? name with
    | none =>
      rw [deed_handle_none hr]
      trivial
    | some r =>
      rw [deed_handle hr] at hT ⊢
      exact Deed.asks_handleCall hdigit hminus hc.faithful.document hc.sound.own hc.spelled
        (hc.faithful.has hc.sound (keeps_of_register? hr)) haction hT
  | drop name => trivial
  | dropAll => trivial
  | _ => cases haction

variable (hinj : ∀ {x y : String}, T x → T y → Digest.ofText x = Digest.ofText y → x = y)

include hinj

theorem Clear.run (hc : s.Clear c T) (hstep : step.action.Direct s.document.delimiter)
    (hT : ∀ x ∈ (s.deed step.action).texts s.document, T x) : (s.run step).2.Clear c T where
  sound := hc.sound.run step
  faithful := hc.faithful.run hc.sound hstep
  spelled := by
    have hspelled := Deed.spelled_run hdigit hminus hinj hc.faithful.document hc.sound.own
      hc.spelled (plain_deed hc.faithful hc.sound hstep) (hc.asks hdigit hminus hstep hT)
    rw [← document_act hc.faithful hstep] at hspelled
    exact ⟨hspelled.delimiter, hspelled.canonical, hspelled.text⟩

end

end

section

variable {s s' : Session} {step step' : Step} {c : Char} {T : String → Prop}

/-- Whether a kept handle is seen to stay valid depends on the values and on the deed alone. -/
theorem Clear.isValid_run_iff (hc : s.Clear c T) (hstep : step.action.Direct s.document.delimiter)
    {k : Handle} (hk : s.Keeps k) :
    (s.run step).2.document.isValid k = true ↔ s.document.isValid k = true ∧
      ¬ (s.deed step.action).Ends s.document k ∧
      (s.run step).2.document.value.kindAt? k.path = s.document.value.kindAt? k.path := by
  obtain ⟨d', hd', hleads, -⟩ := leads_run hc.sound step (n := 0) rfl
  cases hd'
  exact (exact_run hc.faithful hc.sound hstep).isValid_iff hc.faithful.document hc.sound.own
    (hc.sound.run step).own hleads (hc.faithful.has hc.sound hk)

/-- Matching steps leave one value. -/
theorem Mirrors.value_run (hm : Mirrors s s') (hf : s.Faithful) (hf' : s'.Faithful)
    (h : step.Matches step') (hstep : step.action.Lasting s.document.delimiter) :
    (s.run step).2.document.value = (s'.run step').2.document.value := by
  obtain ⟨hdirect, hdirect'⟩ := hm.direct h.action hstep
  rw [Session.value_run hf hdirect, Session.value_run hf' hdirect']
  exact (hm.like_deed h.action hstep).value_run hm.value hm.delimiter

/-- What is seen of a register after a direct step is what is seen of it after its deed. -/
theorem sightIn_run (hf : s.Faithful) (hstep : step.action.Direct s.document.delimiter) :
    sightIn (s.run step).2.document = sightIn ((s.deed step.action).run s.document).2 := by
  rw [← document_act hf hstep]
  rfl

/-- A reply, from what the step answers and how the registers are seen after it. -/
theorem anonymous_run (hf : (s.run step).2.Faithful) :
    (s.run step).1.anonymous =
      ⟨(s.act step).1.map (Answer.map HandleReport.anonymous),
        (((s.run step).2.registers.map (sightIn (s.run step).2.document)).filter fun entry =>
          entry.2.valid).map Prod.fst,
        (((s.run step).2.registers.map (sightIn (s.run step).2.document)).filter fun entry =>
          !entry.2.valid).map Prod.fst, 0⟩ := by
  rw [← (names_partition hf).1, ← (names_partition hf).2]
  rfl

/-- Registers that are seen as the same before matching steps are so after them. -/
theorem Mirrors.kept_run (hm : Mirrors s s') (hc : s.Clear c T) (hc' : s'.Clear c T)
    (h : step.Matches step') (hstep : step.action.Lasting s.document.delimiter) :
    s.registers.map (sightIn (s.run step).2.document) =
      s'.registers.map (sightIn (s'.run step').2.document) := by
  obtain ⟨hdirect, hdirect'⟩ := hm.direct h.action hstep
  refine map_registers_congr hm.registers fun x hx y hy hxy => ?_
  obtain ⟨hname, hsight⟩ := Prod.mk.inj hxy
  obtain ⟨hpath, hvalid⟩ := Sight.mk.inj hsight
  have hstays := hc.isValid_run_iff hdirect ⟨x, hx, rfl⟩
  rw [hvalid, hpath, (hm.like_deed h.action hstep).ends_iff hm.value hpath,
    hm.value_run hc.faithful hc'.faithful h hstep, hm.value,
    ← hc'.isValid_run_iff hdirect' ⟨y, hy, rfl⟩] at hstays
  rw [sightIn, sightIn, Document.sight, Document.sight, hname, hpath, Bool.eq_iff_iff.mpr hstays]

end

section

variable {c : Char} {T : String → Prop} (hdigit : c.isDigit = false) (hminus : c ≠ '-')
  (hinj : ∀ {x y : String}, T x → T y → Digest.ofText x = Digest.ofText y → x = y)

include hdigit hminus hinj

/-- Matching steps keep sessions seen as the same, and show the same. -/
theorem Mirrors.run {s s' : Session} {step step' : Step} (hm : Mirrors s s') (hc : s.Clear c T)
    (hc' : s'.Clear c T) (h : step.Matches step')
    (hstep : step.action.Lasting s.document.delimiter)
    (hT : ∀ x ∈ (s.deed step.action).texts s.document, T x)
    (hT' : ∀ x ∈ (s'.deed step'.action).texts s'.document, T x) :
    Mirrors (s.run step).2 (s'.run step').2 ∧
      (s.run step).1.anonymous = (s'.run step').1.anonymous := by
  obtain ⟨hdirect, hdirect'⟩ := hm.direct h.action hstep
  have hlike := hm.like_deed h.action hstep
  have hvalue := hm.value_run hc.faithful hc'.faithful h hstep
  have hdelimiter : (s.run step).2.document.delimiter = (s'.run step').2.document.delimiter := by
    rw [delimiter_run hc.sound, delimiter_run hc'.sound, hm.delimiter]
  have hkept := hm.kept_run hc hc' h hstep
  have hacts : (s.act step).1.map (Answer.map HandleReport.anonymous) =
        (s'.act step').1.map (Answer.map HandleReport.anonymous) ∧
      (s.run step).2.registers.map (sightIn (s.run step).2.document) =
        (s'.run step').2.registers.map (sightIn (s'.run step').2.document) := by
    rcases hm.parallel hc.faithful hc'.faithful h hstep with
      ⟨call, call', hact, hact', hcall, hcall'⟩ | ⟨told, p, hact, hact'⟩
    · rw [sightIn_run hc.faithful hdirect, sightIn_run hc'.faithful hdirect'] at hkept ⊢
      rw [run_snd, run_snd, hact, hact', ← h.store]
      refine mirrors_perform hcall hcall' ?_ (hlike.value_run hm.value hm.delimiter) ?_ hkept
        step.store
      · exact hlike.answer_run hdigit hminus hinj hm.value hm.delimiter hc.faithful.document
          hc'.faithful.document hc.sound.own hc'.sound.own hc.spelled hc'.spelled
          (hc.asks hdigit hminus hdirect hT) (hc'.asks hdigit hminus hdirect' hT')
      · rw [← document_act hc.faithful hdirect, ← document_act hc'.faithful hdirect']
        exact hdelimiter
    · have hfilter := congrArg (List.filter fun entry => p entry.1) hkept
      rw [List.filter_map, List.filter_map] at hfilter
      refine ⟨by rw [hact, hact'], ?_⟩
      have hleft : (s.run step).2.registers = s.registers.filter fun entry => p entry.1 := by
        rw [run_snd, hact]
        rfl
      have hright : (s'.run step').2.registers = s'.registers.filter fun entry => p entry.1 := by
        rw [run_snd, hact']
        rfl
      rw [hleft, hright]
      exact hfilter
  obtain ⟨hanswer, hregisters⟩ := hacts
  refine ⟨⟨hvalue, hdelimiter, hregisters⟩, ?_⟩
  rw [anonymous_run (hc.faithful.run hc.sound hdirect),
    anonymous_run (hc'.faithful.run hc'.sound hdirect'), hanswer, hregisters]

/-- Matching runs of sessions that are seen as the same show the same. -/
theorem Mirrors.shown_eq {s s' : Session} {steps steps' : List Step} (hm : Mirrors s s')
    (hc : s.Clear c T) (hc' : s'.Clear c T) (h : List.Forall₂ Step.Matches steps steps')
    (hsteps : ∀ step ∈ steps, step.action.Lasting s.document.delimiter)
    (hT : ∀ x ∈ s.texts steps, T x) : s.shown steps = s'.shown steps' := by
  induction h generalizing s s' with
  | nil => rfl
  | @cons step step' rest rest' hstep hrest ih =>
    have hlasting := hsteps step List.mem_cons_self
    obtain ⟨hdirect, hdirect'⟩ := hm.direct hstep.action hlasting
    have hfirst : ∀ x ∈ (s.deed step.action).texts s.document, T x := fun x hx =>
      hT x (List.mem_append_left _ hx)
    -- The other session asks for the same texts, so they satisfy the condition as well.
    have hfirst' : ∀ x ∈ (s'.deed step'.action).texts s'.document, T x := by
      rw [← (hm.like_deed hstep.action hlasting).texts_eq hm.value]
      exact hfirst
    obtain ⟨hmirrors, hreply⟩ := hm.run hdigit hminus hinj hc hc' hstep hlasting hfirst hfirst'
    have hshown := ih hmirrors (hc.run hdigit hminus hinj hdirect hfirst)
      (hc'.run hdigit hminus hinj hdirect' hfirst')
      (fun next hnext => by
        rw [delimiter_run hc.sound]
        exact hsteps next (List.mem_cons_of_mem _ hnext))
      fun x hx => hT x (List.mem_append_right _ hx)
    unfold shown
    rw [hreply, hmirrors.value, hshown]

end

theorem clear_opening (env : Environment) {value : Value} (hv : value.Sized) {settings : Settings}
    (hcascade : settings.cascade = true) {c : Char} (hc : settings.delimiter.toList = [c])
    (T : String → Prop) : (opening env value settings).Clear c T where
  sound := sound_opening env value settings
  faithful := faithful_opening env hv hcascade
  spelled := Document.spelled_ofValue value hc

/-- Runs of matching steps on one value show the same, whether they use the cache or not, if the
delimiter is one character that indices are not spelled with, and no two canonical texts that the
run asks for have one digest. -/
theorem cache_transparent (env : Environment) {value : Value} (hv : value.Sized)
    {settings : Settings} (hcascade : settings.cascade = true) {c : Char}
    (hc : settings.delimiter.toList = [c]) (hdigit : c.isDigit = false) (hminus : c ≠ '-')
    {steps steps' : List Step} (hsteps : ∀ step ∈ steps, step.action.Lasting settings.delimiter)
    (hmatches : List.Forall₂ Step.Matches steps steps') (b b' : Bool)
    (hinj : ∀ x ∈ (opening env value { settings with useCache := b }).texts steps,
      ∀ y ∈ (opening env value { settings with useCache := b }).texts steps,
        Digest.ofText x = Digest.ofText y → x = y) :
    (opening env value { settings with useCache := b }).shown steps =
      (opening env value { settings with useCache := b' }).shown steps' := by
  have hmirrors : Mirrors (opening env value { settings with useCache := b })
      (opening env value { settings with useCache := b' }) := ⟨rfl, rfl, rfl⟩
  have hclear : ∀ flag, (opening env value { settings with useCache := flag }).Clear c
      (· ∈ (opening env value { settings with useCache := b }).texts steps) := by
    intro flag
    have hcascade' : ({ settings with useCache := flag } : Settings).cascade = true := hcascade
    exact clear_opening env hv hcascade' hc _
  exact hmirrors.shown_eq hdigit hminus (fun hx hy => hinj _ hx _ hy) (hclear b) (hclear b')
    hmatches hsteps fun x hx => hx

/-- A lookup, a write and another lookup, once with the cache and once without it. -/
theorem cache_transparent_reread :
    (opening [] (.mapping [("a", .null)]) {}).shown
        [⟨.document (.queryWith (.text "a") true), some "x"⟩,
          ⟨.document (.set (.text "b") (.boolean true)), none⟩,
          ⟨.document (.queryWith (.text "a") true), none⟩] =
      (opening [] (.mapping [("a", .null)]) { useCache := false }).shown
        [⟨.document (.queryWith (.text "a") false), some "x"⟩,
          ⟨.document (.set (.text "b") (.boolean true)), none⟩,
          ⟨.document (.queryWith (.text "a") false), none⟩] := by
  have hsized : (Value.mapping [("a", .null)]).Sized := by decide
  have hcascade : ({} : Settings).cascade = true := rfl
  have hmatches : List.Forall₂ Step.Matches
      [⟨.document (.queryWith (.text "a") true), some "x"⟩,
        ⟨.document (.set (.text "b") (.boolean true)), none⟩,
        ⟨.document (.queryWith (.text "a") true), none⟩]
      [⟨.document (.queryWith (.text "a") false), some "x"⟩,
        ⟨.document (.set (.text "b") (.boolean true)), none⟩,
        ⟨.document (.queryWith (.text "a") false), none⟩] :=
    .cons ⟨.documentQuery _ _ _, rfl⟩ (.cons ⟨.same _, rfl⟩
      (.cons ⟨.documentQuery _ _ _, rfl⟩ .nil))
  exact cache_transparent [] hsized hcascade (c := '/') rfl rfl (by decide) (by decide +kernel)
    hmatches true false (by decide +kernel)

end Session

end LiveDocument
