import LiveDocument.Proofs.Session.Lookups
import LiveDocument.Proofs.Session.Run

/-!
# Which handle a lookup gives

In a run of a session, a canonical text belongs to at most one handle that a register keeps, that
is valid, and that was issued by a step that caches. While there is one, every step that looks its
text up through the cache is answered with this very handle, whichever way it asks; and the
number of cached handles that is told is the number of such handles.

* `KeepsCached`: a register keeps such a handle after a run. `keepsCached_iff`: it is in the cache
  of its document.
* `tellsSame_run`: what a step that caches answers to a text that it asks for.
* `cached_handles_exact`: one handle for each text, given to all who ask, and counted.
-/

namespace LiveDocument

theorem Answer.found_map {H K : Type} (f : H → K) (a : Answer H) :
    (a.map f).found = a.found.map f := by
  cases a with
  | optional h => cases h <;> rfl
  | _ => rfl

namespace Session

/-- What a step looks up: the number of the document, and the canonical texts that it asks for in
the order of its answer. -/
def asks (s : Session) (step : Step) : Option (Nat × List String) :=
  match step.action with
  | .document call => some (0, call.asks s.document)
  | .orDefault q _ => some (0, (s.document.asked (s.document.addressOf q) []).take 1)
  | .handle name call =>
    (s.register? name).bind fun r => (s.document? r.document).bind fun d =>
      if d.isValid r.watched then some (r.document, call.asks d r.watched) else none
  | .view name call =>
    match s.register? name with
    | some (.view n v) =>
      (s.document? n).bind fun d => if d.isValid v.handle then some (n, call.asks d v) else none
    | _ => none
  | _ => none

/-- The answer has a handle at a place, and tells that a register keeps the same one. -/
def TellsSame (answer : Except Refusal (Answer HandleReport)) (i : Nat) (name : String) : Prop :=
  ∃ a report, answer = .ok a ∧ a.found[i]? = some report ∧ name ∈ report.same

/-- After a run, a register keeps the handle of a document; the handle is valid, and the step that
issued it caches. -/
structure KeepsCached (start : Session) (steps : List Step) (n : Nat) (h : Handle) : Prop where
  kept : ∃ entry ∈ (start.after steps).registers, entry.2.document = n ∧ entry.2.watched = h
  valid : ∃ d, (start.after steps).document? n = some d ∧ d.isValid h = true
  issued : ∃ before step rest, steps = before ++ step :: rest ∧
    (start.after before).Issues step n h ∧ step.action.caches start.document.settings = true

/-! ## What a step finds -/

section

variable {s : Session} {d : Document} {name : String} {r : Register} {i : Nat}

/-- A register that keeps a handle is told about with it. -/
theorem mem_same_report (hentry : (name, r) ∈ s.registers) (d : Document) :
    name ∈ (s.report r.document d r.watched).same := by
  refine List.mem_map.mpr ⟨(name, r), List.mem_filter.mpr ⟨hentry, ?_⟩, rfl⟩
  simp [Register.holds, Handle.same]

theorem tellsSame_conclude (hentry : (name, r) ∈ s.registers) {a : Answer Handle} {i : Nat}
    (hi : a.found[i]? = some r.watched) (d : Document) (store : Option String) :
    TellsSame (s.conclude r.document d store a).1 i name := by
  have hsame := mem_same_report (s := s.setDocument r.document d)
    (by rw [registers_setDocument]; exact hentry) d
  refine ⟨a.map ((s.setDocument r.document d).report r.document d), _, ?_, ?_, hsame⟩
  · cases store <;> rfl
  · rw [Answer.found_map, List.getElem?_map, hi]
    rfl

theorem tellsSame_perform (hentry : (name, r) ∈ s.registers)
    (hd : s.document? r.document = some d) {call : Live (Answer Handle)}
    (hcall : ∃ answer, (call.runOn d).1 = .ok answer ∧ answer.found[i]? = some r.watched)
    (store : Option String) : TellsSame (s.perform r.document call store).1 i name := by
  obtain ⟨answer, hrun, hi⟩ := hcall
  cases hc : call.runOn d with
  | mk result d' =>
    rw [hc] at hrun
    cases hrun
    rw [perform_of_ok hd hc]
    exact tellsSame_conclude hentry hi d' store

section

variable (hs : s.Sound) (hentry : (name, r) ∈ s.registers)
  (hd : s.document? r.document = some d) (hh : d.Caches r.watched)

include hs hentry hd hh

theorem tellsSame_document {call : DocumentCall} {store : Option String}
    (hcaches : call.caches s.document.settings = true) {texts : List String}
    (hasks : s.asks ⟨.document call, store⟩ = some (r.document, texts))
    (hi : texts[i]? = some (r.watched.path.text d.delimiter)) :
    TellsSame (s.act ⟨.document call, store⟩).1 i name := by
  obtain ⟨hn, rfl⟩ := Prod.mk.inj (Option.some.inj hasks)
  show TellsSame (s.perform 0 (call.run s.environment) store).1 i name
  rw [hn]
  rw [← hn] at hd
  cases hd
  exact tellsSame_perform hentry (hn ▸ rfl)
    (Live.found_documentCall s.environment hs.own hh hcaches hi) store

theorem tellsSame_orDefault {q : Query} {v : Value} {store : Option String}
    (hcaches : s.document.settings.useCache = true) {texts : List String}
    (hasks : s.asks ⟨.orDefault q v, store⟩ = some (r.document, texts))
    (hi : texts[i]? = some (r.watched.path.text d.delimiter)) :
    TellsSame (s.act ⟨.orDefault q v, store⟩).1 i name := by
  obtain ⟨hn, rfl⟩ := Prod.mk.inj (Option.some.inj hasks)
  have hd₀ := hd
  rw [← hn] at hd₀
  cases hd₀
  obtain ⟨rfl, rest, hr⟩ := Live.resolve_eq_cons hs.own hh
    (Address.delimiter_parse q s.document.delimiter) hi
  have hhead : (s.document.query q).1.head? = some r.watched := by
    rw [Document.query, Document.queryWith, hcaches]
    exact congrArg List.head? hr
  show TellsSame (s.performOrDefault q v store).1 0 name
  rw [performOrDefault_eq, hhead]
  have htells := tellsSame_conclude hentry (a := .handle r.watched) (i := 0) rfl
    (s.document.query q).2 store
  rwa [← hn] at htells

theorem tellsSame_handle {other : String} {call : HandleCall} {store : Option String}
    (hcaches : call.caches s.document.settings = true) {texts : List String}
    (hasks : s.asks ⟨.handle other call, store⟩ = some (r.document, texts))
    (hi : texts[i]? = some (r.watched.path.text d.delimiter)) :
    TellsSame (s.act ⟨.handle other call, store⟩).1 i name := by
  obtain ⟨q, hq, hasks⟩ := Option.bind_eq_some_iff.mp hasks
  obtain ⟨e, he, hasks⟩ := Option.bind_eq_some_iff.mp hasks
  split at hasks
  · rename_i hvalid
    obtain ⟨hn, rfl⟩ := Prod.mk.inj (Option.some.inj hasks)
    rw [hn, hd] at he
    cases he
    obtain ⟨hsound, hset⟩ := hs.document hd
    rw [← hset] at hcaches
    rw [act_handle hq, hn]
    exact tellsSame_perform hentry hd
      (Live.found_handleCall s.environment hsound hh hvalid hcaches hi) store
  · cases hasks

theorem tellsSame_view {other : String} {call : ViewCall} {store : Option String}
    (hcaches : s.document.settings.useCache = true) {texts : List String}
    (hasks : s.asks ⟨.view other call, store⟩ = some (r.document, texts))
    (hi : texts[i]? = some (r.watched.path.text d.delimiter)) :
    TellsSame (s.act ⟨.view other call, store⟩).1 i name := by
  unfold asks at hasks
  dsimp only at hasks
  cases hq : s.register? other with
  | none =>
    rw [hq] at hasks
    cases hasks
  | some q =>
    rw [hq] at hasks
    cases q with
    | handle n h => cases hasks
    | view n v =>
      obtain ⟨e, he, hasks⟩ := Option.bind_eq_some_iff.mp hasks
      split at hasks
      · rename_i hvalid
        obtain ⟨hn, rfl⟩ := Prod.mk.inj (Option.some.inj hasks)
        obtain ⟨f, hf, hhas⟩ := hs.register (mem_of_register? hq)
        rw [show (Register.view n v).document = n from rfl, he] at hf
        cases hf
        subst hn
        rw [hd] at he
        cases he
        obtain ⟨hsound, hset⟩ := hs.document hd
        rw [← hset] at hcaches
        rw [act_view hq]
        exact tellsSame_perform hentry hd
          (Live.found_viewCall hsound hh hhas hvalid hcaches hi) store
      · cases hasks

/-- A step that asks through the cache for the text of a handle in the cache is answered with this
handle. -/
theorem tellsSame_run {step : Step} (hcaches : step.action.caches s.document.settings = true)
    {texts : List String} (hasks : s.asks step = some (r.document, texts))
    (hi : texts[i]? = some (r.watched.path.text d.delimiter)) :
    TellsSame (s.run step).1.answer i name := by
  obtain ⟨action, store⟩ := step
  show TellsSame (s.act ⟨action, store⟩).1 i name
  cases action with
  | document call => exact tellsSame_document hs hentry hd hh hcaches hasks hi
  | orDefault q v => exact tellsSame_orDefault hs hentry hd hh hcaches hasks hi
  | handle other call => exact tellsSame_handle hs hentry hd hh hcaches hasks hi
  | view other call => exact tellsSame_view hs hentry hd hh hcaches hasks hi
  | same other third => cases hasks
  | drop other => cases hasks
  | dropAll => cases hasks

end

/-! ## Handles in the cache -/

/-- The handles that a register keeps, that are valid, and that were issued by a step that caches
are those in the cache. -/
theorem keepsCached_iff {env : Environment} {value : Value} {settings : Settings}
    {steps : List Step} {n : Nat} {d : Document}
    (hd : ((opening env value settings).after steps).document? n = some d) {h : Handle} :
    KeepsCached (opening env value settings) steps n h ↔ d.Caches h := by
  have hstart := sound_opening env value settings
  have hsound := sound_after hstart steps
  have hdsound := (hsound.document hd).1
  constructor
  · rintro ⟨⟨entry, hentry, rfl, rfl⟩, ⟨e, he, hvalid⟩, before, step, rest, rfl, hissues, hcaches⟩
    rw [hd] at he
    cases he
    obtain ⟨e, he, hhas⟩ := hsound.register hentry
    rw [hd] at he
    cases he
    refine hhas.caches hdsound hvalid fun ht hticket => ?_
    rw [after_append] at hd
    rw [isSome_key_of_issues (sound_after hstart before) hissues hd ht hticket,
      settings_after hstart before, hcaches]
  · intro hh
    obtain ⟨t, ht, hticket, hpath, hkey⟩ := hh.tenant
    have hlt := hdsound.arena.toTenancy.serial_lt ht
    rw [hticket] at hlt
    rw [← issued_eq hd] at hlt
    have hlow := issued_opening env value settings n
    obtain ⟨before, step, rest, rfl, hissues⟩ := exists_issues (by omega) hlt
    obtain ⟨entry, hentry, rfl, hserial⟩ :=
      mem_held_after hd (List.contains_iff_mem.mp hh.held)
    obtain ⟨e, he, hhas⟩ := hsound.register hentry
    rw [hd] at he
    cases he
    have hheld : d.arena.isHeld t.ticket.serial = true := by
      rw [hticket]
      exact hh.held
    have hwatched : entry.2.watched = h := by
      have he := (Document.has_of_houses hdsound ht hheld).eq_of_serial hhas ht rfl
        (by rw [hserial, hticket])
      rw [hticket, hpath] at he
      exact he
    refine ⟨⟨entry, hentry, rfl, hwatched⟩, ⟨d, hd, ?_⟩, before, step, rest, rfl, hissues, ?_⟩
    · rw [← hwatched]
      exact (hhas.isValid_iff hdsound).mpr ⟨t, ht, by rw [hticket, hwatched]⟩
    · rw [after_append] at hd
      rw [← settings_after hstart before, ← isSome_key_of_issues (sound_after hstart before) hissues
        hd ht hticket, hkey]

end

/-! ## One handle for each text -/

/-- After every run, for every document: no two handles that registers keep, that are valid and
that were issued by steps that cache have the same canonical text; a further step that caches and
asks for the text of such a handle is answered with this handle, at the place of the text among
those it asks for; and the number of cached handles is the number of these handles. -/
theorem cached_handles_exact (env : Environment) (value : Value) (settings : Settings)
    (steps : List Step) {n : Nat} {d : Document}
    (hd : ((opening env value settings).after steps).document? n = some d) :
    (∀ h k : Handle, KeepsCached (opening env value settings) steps n h →
      KeepsCached (opening env value settings) steps n k →
        h.path.text d.delimiter = k.path.text d.delimiter → h = k) ∧
    (∀ (name : String) (r : Register) (step : Step) (texts : List String) (i : Nat),
      (name, r) ∈ ((opening env value settings).after steps).registers → r.document = n →
      KeepsCached (opening env value settings) steps n r.watched →
      step.action.caches settings = true →
      ((opening env value settings).after steps).asks step = some (n, texts) →
      texts[i]? = some (r.watched.path.text d.delimiter) →
        TellsSame (((opening env value settings).after steps).run step).1.answer i name) ∧
    ∃ hs : List Handle, hs.Nodup ∧
      (∀ h, h ∈ hs ↔ KeepsCached (opening env value settings) steps n h) ∧
        d.cachedCount = hs.length := by
  have hstart := sound_opening env value settings
  have hsound := sound_after hstart steps
  have hdsound := (hsound.document hd).1
  refine ⟨fun h k hh hk he => ?_, ?_, ?_⟩
  · exact ((keepsCached_iff hd).mp hh).eq_of_text hdsound ((keepsCached_iff hd).mp hk) he
  · rintro name r step texts i hentry rfl hkeeps hstep hasks hi
    refine tellsSame_run hsound hentry hd ((keepsCached_iff hd).mp hkeeps) ?_ hasks hi
    rw [settings_after hstart steps]
    exact hstep
  · obtain ⟨hs, hnodup, hmem, hcount⟩ := Document.exists_caches_list hdsound
    exact ⟨hs, hnodup, fun h => (hmem h).trans (keepsCached_iff hd).symm, hcount⟩

/-- A place that is looked up again while a register keeps its handle gives this handle. -/
theorem cached_handles_exact_again :
    TellsSame (((opening [] (.mapping [("a", .null)]) {}).after
      [⟨.document (.member (.text "a")), some "x"⟩]).run
        ⟨.document (.get (.text "/a")), none⟩).1.answer 0 "x" := by
  have hkeeps : KeepsCached (opening [] (.mapping [("a", .null)]) {})
      [⟨.document (.member (.text "a")), some "x"⟩] 0 ⟨⟨0, 0, 0⟩, [.key "a"]⟩ := by
    refine ⟨⟨("x", .handle 0 ⟨⟨0, 0, 0⟩, [.key "a"]⟩), by decide +kernel, rfl, rfl⟩,
      ⟨_, rfl, by decide +kernel⟩, [], _, [], rfl, ⟨by decide +kernel, by decide +kernel⟩, rfl⟩
  exact (cached_handles_exact [] (.mapping [("a", .null)]) {}
    [⟨.document (.member (.text "a")), some "x"⟩] (n := 0) rfl).2.1 "x"
      (.handle 0 ⟨⟨0, 0, 0⟩, [.key "a"]⟩) ⟨.document (.get (.text "/a")), none⟩ ["a"] 0
      (by decide +kernel) rfl hkeeps rfl (by decide +kernel) (by decide +kernel)

end Session

end LiveDocument
