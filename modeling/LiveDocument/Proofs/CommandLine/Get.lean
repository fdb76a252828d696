import LiveDocument.CommandLine.Run
import LiveDocument.Proofs.Reference.Reading
import LiveDocument.Proofs.Session.Run
import LiveDocument.Value.Equality

/-!
# Getting a part of a file

Without an address the command prints what the whole document stands for, and with one the part of
it at the address. A slice at the end of the address prints a sequence of what it selects, which
may be nothing; any other address that leads nowhere in the stored document is a missing member.

* `run_get`: the command opens its file and prints what it reads.
* `runOn_readHandles`, `runOn_readAddress_of_some`, `runOn_readAddress_of_none`: what is read.
* `parsed_reads_agree`: handles, and the command, read parts of the whole.
-/

namespace LiveDocument.CommandLine

open Document Reference

/-- The program is asked for the expanded value at an address of the file that holds a document. -/
structure Gets (env : Environment) (files : Files) (args : List String) (i : Invocation)
    (file : String) (address : Option String) (d : Document) : Prop where
  request : Request.ofArguments args = .run i
  command : i.command = .get file address
  expanded : i.raw = false
  settings : settingsFor env files i.delimiter = .ok d.settings
  content : Value.ofFile file (files file) = .ok d.value

/-- The command opens its file and prints what it reads. -/
theorem run_get {env : Environment} {files : Files} {args : List String} {i : Invocation}
    {file : String} {address : Option String} {d : Document}
    (h : Gets env files args i file address d) :
    run env files args =
      match ((readValue env false address).runOn (Document.ofValue d.value d.settings)).1 with
      | .ok v => succeeded ⟨formatted i.format v, none⟩
      | .error e => failed "rfx error" e := by
  have hperform : perform env i = (readValue env false address >>= fun v =>
      pure ⟨formatted i.format v, none⟩) := by
    rw [perform, h.command, h.expanded]
  have hexecute : execute env files d.settings i =
      ((readValue env false address).runOn (Document.ofValue d.value d.settings)).1.map
        fun v => ⟨formatted i.format v, none⟩ := by
    rw [execute, h.command, Command.file, h.content, hperform]
    exact congrArg Prod.fst (Live.runOn_told _ _ _)
  rw [run, h.request]
  dsimp only
  rw [h.settings]
  dsimp only
  rw [hexecute]
  cases ((readValue env false address).runOn (Document.ofValue d.value d.settings)).1 <;> rfl

section

variable {T : String → Prop} {env : Environment} {d : Document} {V : Value}

/-- Handles are read one after the other, each as the part of the whole at its path. -/
theorem runOn_readHandles (hr : Reading T env d V) {hs : List Handle}
    (hh : ∀ h ∈ hs, Readable T d h) :
    ∃ ws, ((readHandles env false hs).runOn d).1 = .ok ws ∧
      (hs.map Handle.path).map V.walk? = ws.map some := by
  induction hs generalizing d with
  | nil => exact ⟨[], rfl, rfl⟩
  | cons h hs ih =>
    obtain ⟨w, d', hw, hrun, hreturned⟩ := hr.parsedValue (hh h List.mem_cons_self)
    obtain ⟨ws, hrest, hws⟩ := ih (hr.of_returned hreturned) fun k hk =>
      (hh k (List.mem_cons_of_mem _ hk)).of_returned hr.settled.sound hreturned
    refine ⟨w :: ws, ?_, ?_⟩
    · have hread : (readHandle env false h).runOn d = (.ok w, d') := hrun
      rw [readHandles, Live.runOn_bind, hread]
      dsimp only
      rw [Live.runOn_told, hrest]
      rfl
    · rw [List.map_cons, List.map_cons, List.map_cons, hw, hws]

theorem runOn_readAddress (env : Environment) (raw : Bool) (query : Query) (d : Document) :
    ((readAddress env raw query).runOn d).1 =
      if (d.addressOf query).endsWithSlice then
        ((readHandles env raw (d.query query).1).runOn (d.query query).2).1.map .sequence
      else
        match (d.query query).1 with
        | h :: _ => ((readHandle env raw h).runOn (d.query query).2).1
        | [] => .error (.missingMember ((d.addressOf query).canonical [])) := by
  unfold readAddress
  rw [Live.runOn_get_bind, Live.runOn_bind, Live.runOn_ofFunction]
  dsimp only
  split
  · rw [Live.runOn_told]
  · cases (d.query query).1 <;> rfl

variable {q : String} (hr : Reading T env d V) (hdelimiter : d.settings.delimiter = "/")
  (htexts : ∀ x ∈ d.asked (d.addressOf (.text q)) [], T x)

include hr hdelimiter htexts

/-- What is read at an address with a slice at its end: a sequence of what stands at the places
that it names. -/
theorem runOn_readAddress_of_slice (hslice : (d.addressOf (.text q)).endsWithSlice = true) :
    ∃ ws, ((readAddress env false (.text q)).runOn d).1 = .ok (.sequence ws) ∧
      (((d.value.locate? (d.addressOf (.text q)) []).getD []).map Target.path).map V.walk? =
        ws.map some := by
  obtain ⟨hfound, hread, hpaths⟩ := hr.query hdelimiter hr.apart htexts
  obtain ⟨ws, hrun, hws⟩ := runOn_readHandles hfound hread
  rw [hpaths] at hws
  refine ⟨ws, ?_, hws⟩
  rw [runOn_readAddress, if_pos hslice, Document.query, hrun]
  rfl

/-- What is read at an address that leads to a value: the part of the whole there. -/
theorem runOn_readAddress_of_some
    (hsized : (d.addressOf (.text q)).endsWithSlice = true → d.value.Sized) {v : Value}
    (hv : d.value.walk? (d.addressOf (.text q)).segments = some v) :
    ∃ w, V.walk? (d.addressOf (.text q)).segments = some w ∧
      ((readAddress env false (.text q)).runOn d).1 = .ok w := by
  rw [← Address.fullPath_nil] at hv ⊢
  cases hslice : (d.addressOf (.text q)).endsWithSlice with
  | true =>
    obtain ⟨ws, hrun, hws⟩ := runOn_readAddress_of_slice hr hdelimiter htexts hslice
    rcases Value.walk?_fullPath_of_slice (hsized hslice) hslice [] with
      ⟨hnone, -⟩ | ⟨items, targets, hwalk, hlocate, htargets⟩
    · rw [hv] at hnone
      cases hnone
    · rw [hlocate, Option.getD_some] at hws
      have hplaces : (targets.map Target.path).map d.value.walk? = items.map some := by
        rwa [List.map_map]
      exact ⟨.sequence ws, hr.walk?_of_places hwalk hplaces hws, hrun⟩
  | false =>
    obtain ⟨hfound, hread, hpaths⟩ := hr.query hdelimiter hr.apart htexts
    have hlocate := Value.locate?_of_not_slice hslice d.value []
    rw [Value.kindAt?, hv] at hlocate
    rw [hlocate] at hpaths
    obtain ⟨h, hs, hpath⟩ := List.map_eq_singleton_iff.mp hpaths
    have hmem : h ∈ (d.queryWith (.text q) d.settings.useCache).1 := hs ▸ List.mem_singleton_self h
    obtain ⟨w, d', hw, hrun, -⟩ := hfound.parsedValue (hread h hmem)
    rw [hpath] at hw
    refine ⟨w, hw, ?_⟩
    rw [runOn_readAddress, if_neg (by simp [hslice]), Document.query, hs]
    exact congrArg Prod.fst hrun

/-- What is read at an address that leads nowhere: nothing is selected or a member is missing. -/
theorem runOn_readAddress_of_none
    (hsized : (d.addressOf (.text q)).endsWithSlice = true → d.value.Sized)
    (hv : d.value.walk? (d.addressOf (.text q)).segments = none) :
    ((readAddress env false (.text q)).runOn d).1 =
      if (d.addressOf (.text q)).endsWithSlice then .ok (.sequence [])
      else .error (.missingMember ((d.addressOf (.text q)).canonical [])) := by
  rw [← Address.fullPath_nil] at hv
  cases hslice : (d.addressOf (.text q)).endsWithSlice with
  | true =>
    obtain ⟨ws, hrun, hws⟩ := runOn_readAddress_of_slice hr hdelimiter htexts hslice
    rcases Value.walk?_fullPath_of_slice (hsized hslice) hslice [] with
      ⟨-, hnone⟩ | ⟨items, targets, hwalk, -⟩
    · rw [hnone] at hws
      rw [hrun, List.map_eq_nil_iff.mp hws.symm]
      rfl
    · rw [hv] at hwalk
      cases hwalk
  | false =>
    obtain ⟨-, -, hpaths⟩ := hr.query hdelimiter hr.apart htexts
    have hlocate := Value.locate?_of_not_slice hslice d.value []
    rw [Value.kindAt?, hv] at hlocate
    rw [hlocate] at hpaths
    rw [runOn_readAddress, if_neg (by simp [hslice]), Document.query,
      List.map_eq_nil_iff.mp hpaths]
    rfl

end

/-- Without an address the whole document is read. -/
theorem runOn_readValue_none {T : String → Prop} {env : Environment} {d : Document} {V : Value}
    (hr : Reading T env d V) (htext : T "") :
    ((readValue env false none).runOn d).1 = .ok V := by
  obtain ⟨hsettled, hvalue, hsettings, hpath, hread⟩ := hr.settled.root hr.apart htext
  obtain ⟨w, d', hw, hrun, -⟩ := (hr.congr hsettled hvalue hsettings).parsedValue hread
  rw [hpath] at hw
  obtain rfl : V = w := Option.some.inj hw
  rw [readValue, Live.runOn_bind, Live.runOn_ofFunction]
  exact congrArg Prod.fst hrun

/-- In every state that a session reaches, and for every document with the usual delimiter of which
no handle is held: if expanding the whole document gives a value, then every handle that a text
query finds reads the part of this value that its path leads to. When the program gets the document
from a file, it prints the value, and with the query as the address it prints the part of it there,
which is an empty sequence if a slice at its end selects nothing; without such a slice it fails with
a missing member if and only if the query leads nowhere in the stored document. No two texts that
are asked for may have one digest. -/
theorem parsed_reads_agree (env₀ env : Environment) (value : Value) (settings : Settings)
    (steps : List Step) {n : Nat} {d : Document}
    (hd : ((Session.opening env₀ value settings).after steps).document? n = some d)
    (hheld : d.arena.held = []) (hdelimiter : d.settings.delimiter = "/") (q : String)
    (useCache : Bool)
    (hdigest : d.settings.useCache = true ∨ useCache = true → ∀ x ∈ d.readTexts q,
      ∀ y ∈ d.readTexts q, Digest.ofText x = Digest.ofText y → x = y) {V : Value}
    (hV : ((Document.parsedValue env).runOn d).1 = .ok V ∨
      ((d.root.1.parsedValue env).runOn d.root.2).1 = .ok V) :
    (∀ h ∈ (d.queryWith (.text q) useCache).1, ∃ w, V.walk? h.path = some w ∧
        ((h.parsedValue env).runOn (d.queryWith (.text q) useCache).2).1 = .ok w) ∧
      ∀ (files : Files) (args : List String) (i : Invocation) (file : String),
        (Gets env files args i file none d →
          run env files args = succeeded ⟨formatted i.format V, none⟩) ∧
        (Gets env files args i file (some q) d →
          ((d.addressOf (.text q)).endsWithSlice = true → d.value.Sized) →
            (∀ v, d.value.walk? (d.addressOf (.text q)).segments = some v →
              ∃ w, V.walk? (d.addressOf (.text q)).segments = some w ∧
                run env files args = succeeded ⟨formatted i.format w, none⟩) ∧
            (d.value.walk? (d.addressOf (.text q)).segments = none →
              run env files args =
                if (d.addressOf (.text q)).endsWithSlice then
                  succeeded ⟨formatted i.format (.sequence []), none⟩
                else failed "rfx error"
                  (.missingMember ((d.addressOf (.text q)).canonical [])))) := by
  have hsound : d.Sound :=
    ((Session.sound_after (Session.sound_opening env₀ value settings) steps).document hd).1
  have hsettled : Settled (· ∈ d.readTexts q) d := settled_of_held_nil hsound hheld
  have hapart : d.settings.useCache = true → Apart (· ∈ d.readTexts q) :=
    fun hcache x y hx hy => hdigest (Or.inl hcache) x hx y hy
  have hroot : "" ∈ d.readTexts q := List.mem_cons_self
  have hnamed : ∀ a ∈ nodes d.delimiter d.value, a ∈ d.readTexts q :=
    fun a ha => List.mem_append_left _ (List.mem_cons_of_mem _ ha)
  have htexts : ∀ x ∈ d.asked (d.addressOf (.text q)) [], x ∈ d.readTexts q :=
    fun x hx => List.mem_append_right _ hx
  have hr : Reading (· ∈ d.readTexts q) env d V :=
    hV.elim (Reading.of_parsedValue hsettled hapart hnamed)
      (Reading.of_root_parsedValue hsettled hapart hnamed hroot)
  -- The program reads the same value and settings, of which no handle was ever issued.
  have hopened : Reading (· ∈ d.readTexts q) env (Document.ofValue d.value d.settings) V :=
    hr.congr (settled_of_held_nil (sound_ofValue d.value d.settings) rfl) rfl rfl
  refine ⟨fun h hh => ?_, fun files args i file => ⟨fun hgets => ?_, fun hgets hsized => ?_⟩⟩
  · obtain ⟨hfound, hread, -⟩ := hr.query hdelimiter
      (fun hcache x y hx hy => hdigest (Or.inr hcache) x hx y hy) htexts
    obtain ⟨w, d', hw, hrun, -⟩ := hfound.parsedValue (hread h hh)
    exact ⟨w, hw, congrArg Prod.fst hrun⟩
  · rw [run_get hgets, runOn_readValue_none hopened hroot]
  · refine ⟨fun v hv => ?_, fun hv => ?_⟩
    · obtain ⟨w, hw, hrun⟩ := runOn_readAddress_of_some hopened hdelimiter htexts hsized hv
      refine ⟨w, hw, ?_⟩
      rw [run_get hgets, readValue, hrun]
    · have hrun : ((readAddress env false (.text q)).runOn
          (Document.ofValue d.value d.settings)).1 =
            if (d.addressOf (.text q)).endsWithSlice then .ok (.sequence [])
            else .error (.missingMember ((d.addressOf (.text q)).canonical [])) :=
        runOn_readAddress_of_none hopened hdelimiter htexts hsized hv
      rw [run_get hgets, readValue, hrun]
      cases (d.addressOf (.text q)).endsWithSlice <;> rfl

/-- A document with a reference from one part to another. -/
def linked : Value :=
  .mapping [("a", .mapping [("x", .string "$r\x7bb\x7d")]), ("b", .sequence [.boolean true])]

/-- The part with the reference prints as the part of what the whole file stands for. -/
theorem parsed_reads_agree_linked :
    ∃ V w, ((Document.parsedValue []).runOn (Document.ofValue linked {})).1 = .ok V ∧
      V.walk? [.key "a", .key "x"] = some w ∧
      run [] (fun _ => some (Json.render linked)) ["get", "f.json", "a/x"] =
        succeeded ⟨formatted .pretty w, none⟩ := by
  have hok : ((Document.parsedValue []).runOn (Document.ofValue linked {})).1.isOk = true := by
    decide +kernel
  cases hV : ((Document.parsedValue []).runOn (Document.ofValue linked {})).1 with
  | error e =>
    rw [hV] at hok
    cases hok
  | ok V =>
    obtain ⟨-, hprints⟩ := parsed_reads_agree [] [] linked {} [] (n := 0) rfl rfl rfl "a/x" true
      (fun _ => by decide +kernel) (.inl hV)
    have hread : Json.read? (Json.render linked) = some linked := by decide +kernel
    have hcontent : Value.ofFile "f.json" (some (Json.render linked)) = .ok linked := by
      rw [Value.ofFile, if_pos (by decide +kernel), Value.ofJson, hread]
    have hgets : Gets [] (fun _ => some (Json.render linked))
        ["get", "f.json", "a/x"] ⟨none, .pretty, false, .get "f.json" (some "a/x")⟩ "f.json"
        (some "a/x") (Document.ofValue linked {}) :=
      ⟨by decide +kernel, rfl, rfl, rfl, hcontent⟩
    obtain ⟨hfound, -⟩ := (hprints _ _ _ "f.json").2 hgets fun _ => by decide
    obtain ⟨w, hw, hrun⟩ := hfound (.string "$r\x7bb\x7d") (by decide +kernel)
    exact ⟨V, w, rfl, hw, hrun⟩

end LiveDocument.CommandLine
