import Mathlib.Data.List.Forall2
import LiveDocument.CommandLine.Run
import LiveDocument.Proofs.Document.Atomic
import LiveDocument.Proofs.Json.Distinct
import LiveDocument.Proofs.Json.RoundTrip
import LiveDocument.Proofs.Session.Contents
import LiveDocument.Proofs.Session.Likeness
import LiveDocument.Value.Equality

/-!
# Edits through the file

A command that edits a file in place opens it, makes one edit and writes the document back. Nothing of
a document goes through the file but its value, and what an edit does to the value depends on nothing
else, so commands one after the other do what their edits do one after the other in one document. That
the file holds what was written is the round trip of its text.

* `Edit`: what is done to a document. `Makes`: a command that does it in place.
* `run_edit`: one command. `Edit.apply_congr`: an edit depends on the value and the delimiter.
* `runs`, `outcomes`: commands and edits one after the other.
* `Holds`: the file holds the value of the document. `Holds.after`: one command and one edit preserve
  this. `edits_compose`: commands and edits agree.
* `written_of_not_inPlace`: all other commands write no file.
-/

namespace LiveDocument.CommandLine

open Value

/-- A write or a removal in the document of a file. -/
inductive Edit where
  | set (address value : String)
  | delete (address : String)
  deriving DecidableEq

namespace Edit

/-- The command that makes the edit in place. -/
def command (file : String) : Edit → Command
  | set address value => .set file address value true
  | delete address => .delete file address true

/-- What the edit does to a document. -/
def apply : Edit → Live Unit
  | set address value => Document.set (.text address) (valueOfArgument value)
  | delete address => do
    let _ ← Document.delete (.text address)

/-- The value that is stored. -/
def brought : Edit → List Value
  | set _ value => [valueOfArgument value]
  | delete _ => []

/-- No mapping in what is stored has a key twice. -/
theorem distinct_brought (e : Edit) : ∀ v ∈ e.brought, v.Distinct := by
  cases e with
  | set address value =>
    refine List.forall_mem_singleton.mpr ?_
    unfold valueOfArgument
    cases h : Json.read? value with
    | none => trivial
    | some v => exact Json.distinct_of_read? h
  | delete address => exact List.forall_mem_nil _

variable {e : Edit} {d d' : Document}

theorem atomic_apply (e : Edit) : Live.Atomic e.apply := by
  cases e with
  | set address value => exact Live.atomic_set _ _
  | delete address => exact (Live.atomic_delete _).told fun _ => ()

/-- An edit keeps what its elementary operations keep. -/
theorem upholds_apply {I : Document → Prop} {R : Path → Prop} {V : Value → Prop}
    (hI : Invariant I R V) (hd : I d) (hbrought : ∀ v ∈ e.brought, V v) :
    Live.Upholds I d e.apply fun _ => True := by
  cases e with
  | set address value =>
    have hv := hbrought _ List.mem_cons_self
    exact Live.upholds_get (Live.upholds_update hI hd _ _ hv)
  | delete address =>
    have hdelete : Live.Upholds I d (Document.delete (.text address)) fun _ => True :=
      Live.upholds_get (Live.upholds_remove hI hd _ _)
    exact Live.upholds_told hdelete fun _ _ => trivial

/-- An edit keeps the settings. -/
theorem follows_apply (hd : d.Sound) (e : Edit) :
    Document.Follows d.settings.useCache d (e.apply.runOn d).2 := by
  have hrefl : Document.Follows d.settings.useCache d d := .refl hd
  cases e with
  | set address value => exact (Live.ensures_get (Live.ensures_update hrefl _ _ _)).1
  | delete address =>
    have hdelete : Live.Ensures d.settings.useCache d d (Document.delete (.text address))
        fun _ _ => True := Live.ensures_get (Live.ensures_remove hrefl _ _)
    exact (Live.ensures_bind (R := fun _ _ => True) hdelete fun _ _ hf _ =>
      Live.ensures_pure hf trivial).1

theorem runOn_delete (address : String) (d : Document) :
    (delete address).apply.runOn d =
      match d.remove? ((d.addressOf (.text address)).fullPath []) with
      | some (_, after) => (.ok (), after)
      | none => (.error (.writeTargetMissing
          (((d.addressOf (.text address)).fullPath []).address d.delimiter)), d) := by
  rw [apply, Live.runOn_bind, Document.delete, Live.runOn_get_bind, Live.runOn_remove]
  cases d.remove? ((d.addressOf (.text address)).fullPath []) <;> rfl

/-- What an edit comes to depends on the value and the delimiter alone. -/
theorem apply_congr (e : Edit) (hv : d.value = d'.value) (hdelimiter : d.delimiter = d'.delimiter) :
    (e.apply.runOn d).1 = (e.apply.runOn d').1 ∧
      (e.apply.runOn d).2.value = (e.apply.runOn d').2.value := by
  cases e with
  | set address value =>
    have hrun : ∀ d : Document, (set address value).apply.runOn d =
        (Live.writeAll d.delimiter (valueOfArgument value)
          (Live.writePaths d.value (d.addressOf (.text address)) [])).runOn d := by
      intro d
      rw [apply, Document.set, Live.runOn_get_bind, Live.update, Live.runOn_get_bind,
        Document.addressOf, Address.delimiter_parse]
    rw [hrun, hrun, ← hv, Document.addressOf, Document.addressOf, ← hdelimiter]
    exact Deed.runOn_writeAll_congr hv _ _ _
  | delete address =>
    rw [runOn_delete, runOn_delete, Document.addressOf, Document.addressOf, ← hdelimiter]
    have hremove :=
      Deed.map_value_remove? d' ((Address.parse (.text address) d.delimiter).fullPath [])
    rw [← hv, ← Deed.map_value_remove? d] at hremove
    cases hd : d.remove? ((Address.parse (.text address) d.delimiter).fullPath []) with
    | none =>
      rw [hd] at hremove
      rw [Option.map_eq_none_iff.mp hremove]
      exact ⟨rfl, hv⟩
    | some r =>
      rw [hd] at hremove
      obtain ⟨r', hr', he⟩ := Option.map_eq_some_iff.mp hremove
      rw [hr']
      exact ⟨rfl, (congrArg Prod.snd he).symm⟩

end Edit

/-! ## One command -/

/-- The name of the command that makes the edit. -/
def Edit.verb : Edit → Verb
  | set _ _ => .set
  | delete _ => .delete

/-- What the command is given besides its file. -/
def Edit.parts : Edit → List String
  | set address value => [address, value]
  | delete address => [address]

/-- The arguments that ask for the edit of a file in place. -/
def Edit.arguments (file : String) : Edit → List String
  | set address value => ["set", file, address, value, "-i"]
  | delete address => ["delete", file, address, "-i"]

/-- Arguments that are no options are passed over. -/
theorem readAfter_values (verb : Verb) (o : Options) {args : List String}
    (hargs : ∀ arg ∈ args, isValue arg = true) (rest : List String) :
    readAfter verb o none (args ++ rest) =
      (readAfter verb o none rest).map fun (o, others) => (o, args ++ others) := by
  induction args with
  | nil =>
    rw [List.nil_append]
    cases readAfter verb o none rest <;> rfl
  | cons arg args ih =>
    obtain ⟨harg, hargs⟩ := List.forall_mem_cons.mp hargs
    have hoption : readOption? (.after verb) o arg = none := by
      unfold readOption?
      unfold isValue at harg
      split
      · rename_i he
        rw [he] at harg
        cases harg
      · rename_i he
        rw [he] at harg
        cases harg
      · rfl
    have hdashes : arg ≠ "--" := by
      rintro rfl
      cases harg
    rw [List.cons_append, readAfter, if_neg hdashes, hoption, ih hargs, Option.map_map]
    rfl

/-- What follows the name of the command decides what is asked for. -/
theorem ofArguments_eq (e : Edit) (file : String) :
    Request.ofArguments (e.arguments file) =
      match readAfter e.verb {} none (file :: e.parts ++ ["-i"]) with
      | some (after, args) => request e.verb {} after args
      | none => .rejected := by
  cases e <;> rfl

/-- The arguments of an edit ask for it, if none of them looks like an option. -/
theorem ofArguments_arguments (e : Edit) {file : String} (hfile : file.isEmpty = false)
    (hargs : ∀ arg ∈ file :: e.parts, isValue arg = true) :
    Request.ofArguments (e.arguments file) = .run ⟨none, .pretty, false, e.command file⟩ := by
  have hlast : readAfter e.verb {} none ["-i"] = some ({ inPlace := true }, []) := by
    cases e <;> rfl
  have hcommand : commandOf? e.verb true (file :: e.parts) = some (e.command file) := by
    have hnamed : ¬ file.isEmpty = true := by rw [hfile]; simp
    cases e <;> exact if_neg hnamed
  rw [ofArguments_eq, readAfter_values _ _ hargs, hlast, Option.map_some]
  dsimp only
  rw [request, List.append_nil, hcommand]
  rfl

/-- The program is asked to make an edit of a file in place, with these settings. -/
structure Makes (env : Environment) (files : Files) (args : List String) (s : Settings)
    (file : String) (e : Edit) (i : Invocation) : Prop where
  request : Request.ofArguments args = .run i
  command : i.command = e.command file
  settings : settingsFor env files i.delimiter = .ok s

section

variable {env : Environment} {files : Files} {args : List String} {s : Settings} {file : String}
  {e : Edit} {i : Invocation}

/-- A command that makes an edit in place writes the document back after it. -/
theorem runOn_perform (env : Environment) (hi : i.command = e.command file) (d : Document) :
    ((perform env i).runOn d).1 = ((e.apply.runOn d).1.map fun _ =>
      ⟨"", some (file, fileText file (e.apply.runOn d).2.value)⟩) := by
  have hfinish : ∀ d : Document, (finish env i file true).runOn d =
      (.ok ⟨"", some (file, fileText file d.value)⟩, d) := fun _ => rfl
  have hperform : (perform env i).runOn d =
      (e.apply >>= fun _ => finish env i file true).runOn d := by
    cases e with
    | set address value => rw [perform, hi]; rfl
    | delete address =>
      rw [perform, hi]
      dsimp only [Edit.command]
      rw [Live.runOn_bind, Live.runOn_bind, Edit.apply, Live.runOn_bind]
      cases (Document.delete (.text address)).runOn d with
      | mk r d' => cases r <;> rfl
  rw [hperform, Live.runOn_bind]
  cases e.apply.runOn d with
  | mk r d' =>
    cases r with
    | ok a => exact congrArg Prod.fst (hfinish d')
    | error f => rfl

/-- The command opens its file, makes the edit, and writes the document back or fails. -/
theorem run_edit (h : Makes env files args s file e i) {v : Value}
    (hcontent : Value.ofFile file (files file) = .ok v) :
    run env files args =
      match (e.apply.runOn (Document.ofValue v s)).1 with
      | .ok _ => succeeded
          ⟨"", some (file, fileText file (e.apply.runOn (Document.ofValue v s)).2.value)⟩
      | .error f => failed "rfx error" f := by
  have hfile : i.command.file = file := by
    rw [h.command]
    cases e <;> rfl
  have hexecute : execute env files s i = ((perform env i).runOn (Document.ofValue v s)).1 := by
    rw [execute, hfile, hcontent]
    rfl
  rw [run, h.request]
  dsimp only
  rw [h.settings]
  dsimp only
  rw [hexecute, runOn_perform env h.command]
  cases (e.apply.runOn (Document.ofValue v s)).1 <;> rfl

end

/-! ## Commands one after the other -/

/-- The files after a run of the program. -/
def Files.after (files : Files) (r : Result) : Files :=
  match r.written with
  | some (file, text) => fun name => if name = file then some text else files name
  | none => files

theorem Files.after_of_none {files : Files} {r : Result} (h : r.written = none) :
    files.after r = files := by
  rw [Files.after, h]

/-- What runs of the program come to, one after the other, with the files after each of them. -/
def runs (env : Environment) : Files → List (List String) → List (Result × Files)
  | _, [] => []
  | files, args :: rest =>
    let r := run env files args
    (r, files.after r) :: runs env (files.after r) rest

/-- What edits of a document come to, one after the other, with the document after each of them. -/
def outcomes : Document → List Edit → List (Except Failure Unit × Document)
  | _, [] => []
  | d, e :: rest =>
    let o := e.apply.runOn d
    o :: outcomes o.2 rest

/-- Every run of the program is asked to make its edit of the file in place, with the same
settings. -/
def Script (env : Environment) (s : Settings) (file : String) :
    Files → List (List String × Edit) → Prop
  | _, [] => True
  | files, (args, e) :: rest =>
    (∃ i, Makes env files args s file e i) ∧
      Script env s file (files.after (run env files args)) rest

/-- A run of the program and an edit of a document come to the same: the file holds the value of the
document, no other file is written, and where the edit fails the program fails and writes none. -/
structure Agrees (file : String) (r : Result × Files) (o : Except Failure Unit × Document) :
    Prop where
  content : ∃ text, r.2 file = some text ∧ Json.read? text = some o.2.value
  only : ∀ name text, r.1.written = some (name, text) → name = file
  done : o.1 = .ok () → r.1.exit = 0
  failed : ∀ f, o.1 = .error f → r.1.exit = 1 ∧ r.1.written = none

/-- The command writes its file back. -/
def Command.inPlace : Command → Bool
  | .set _ _ _ inPlace | .delete _ _ inPlace => inPlace
  | .get _ _ | .keys _ _ => false

/-- Whatever the operation prints, it writes no file. -/
def Prints (x : Live Printed) : Prop :=
  ∀ d p, (x.runOn d).1 = .ok p → p.written = none

theorem prints_pure (text : String) : Prints (pure ⟨text, none⟩) := by
  intro d p h
  cases h
  rfl

theorem prints_bind {α : Type} (x : Live α) {f : α → Live Printed} (hf : ∀ a, Prints (f a)) :
    Prints (x >>= f) := by
  intro d p h
  rw [Live.runOn_bind] at h
  cases hx : x.runOn d with
  | mk r d' =>
    rw [hx] at h
    cases r with
    | ok a => exact hf a d' p h
    | error f => cases h

theorem prints_perform (env : Environment) {i : Invocation} (hi : i.command.inPlace = false) :
    Prints (perform env i) := by
  have hfinish : ∀ file, Prints (finish env i file false) := by
    intro file
    rw [finish, if_neg (by simp)]
    split <;> exact prints_bind _ fun _ => prints_pure _
  unfold perform
  cases hc : i.command with
  | get file address => exact prints_bind _ fun _ => prints_pure _
  | keys file address => exact prints_bind _ fun _ => prints_pure _
  | set file address value inPlace =>
    rw [hc] at hi
    obtain rfl : inPlace = false := hi
    exact prints_bind _ fun _ => hfinish file
  | delete file address inPlace =>
    rw [hc] at hi
    obtain rfl : inPlace = false := hi
    exact prints_bind _ fun _ => hfinish file

/-- Commands that do not edit in place write no file. -/
theorem written_of_not_inPlace (env : Environment) (files : Files) {args : List String}
    (h : ∀ i, Request.ofArguments args = .run i → i.command.inPlace = false) :
    (run env files args).written = none := by
  unfold run
  cases hr : Request.ofArguments args with
  | version => rfl
  | rejected => rfl
  | run i =>
    dsimp only
    split
    · rfl
    · rename_i s _
      cases he : execute env files s i with
      | error f => rfl
      | ok p =>
        obtain ⟨v, -, hp⟩ := Reference.exists_of_bind_ok he
        exact prints_perform env (h i hr) _ p hp

/-- The file holds the value of a document with these settings, and there is no float in it. -/
structure Holds (s : Settings) (file : String) (files : Files) (d : Document) : Prop where
  content : ∃ text, files file = some text ∧ Json.read? text = some d.value
  settings : d.settings = s
  sound : d.Sound
  floatFree : d.value.FloatFree

section

variable {env : Environment} {files : Files} {args : List String} {s : Settings} {file : String}
  {e : Edit} {i : Invocation} {d : Document}

/-- A document is opened from a file with its value. -/
theorem holds_ofValue {text : String} {v : Value} (htext : files file = some text)
    (hread : Json.read? text = some v) (hfree : v.FloatFree) :
    Holds s file files (Document.ofValue v s) :=
  ⟨⟨text, htext, hread⟩, rfl, Document.sound_ofValue v s, hfree⟩

namespace Holds

theorem distinct (hd : Holds s file files d) : d.value.Distinct := by
  obtain ⟨text, -, hread⟩ := hd.content
  exact Json.distinct_of_read? hread

/-- A command on the file comes to what its edit of the document comes to. -/
theorem run_eq (hd : Holds s file files d) (hjson : isJsonFile file = true)
    (hmakes : Makes env files args s file e i) :
    run env files args =
      match (e.apply.runOn d).1 with
      | .ok _ => succeeded ⟨"", some (file, fileText file (e.apply.runOn d).2.value)⟩
      | .error f => failed "rfx error" f := by
  obtain ⟨text, htext, hread⟩ := hd.content
  have hcontent : Value.ofFile file (files file) = .ok d.value := by
    rw [htext, Value.ofFile, if_pos hjson, Value.ofJson, hread]
  have hvalue : d.value = (Document.ofValue d.value s).value := rfl
  have hdelimiter : d.delimiter = (Document.ofValue d.value s).delimiter :=
    congrArg Settings.delimiter hd.settings
  obtain ⟨hsame, hleft⟩ := e.apply_congr hvalue hdelimiter
  rw [run_edit hmakes hcontent, ← hsame, ← hleft]

/-- After the command the file is read as the value of the document after the edit. -/
theorem content_after (hd : Holds s file files d) (hjson : isJsonFile file = true)
    (hmakes : Makes env files args s file e i) (hbrought : ∀ v ∈ e.brought, v.FloatFree)
    (hdepth : (e.apply.runOn d).2.value.depth < Json.depthLimit) :
    ∃ text, (files.after (run env files args)) file = some text ∧
      Json.read? text = some (e.apply.runOn d).2.value := by
  have hrun := hd.run_eq hjson hmakes
  cases ho : (e.apply.runOn d).1 with
  | ok a =>
    rw [ho] at hrun
    obtain ⟨hfree, -⟩ :=
      e.upholds_apply (invariant_throughout stable_noFloat) hd.floatFree hbrought
    obtain ⟨hdistinct, -⟩ :=
      e.upholds_apply (invariant_throughout stable_keysDiffer) hd.distinct e.distinct_brought
    refine ⟨Json.renderIndented (e.apply.runOn d).2.value ++ "\n", ?_,
      Json.read?_renderIndented hfree hdistinct hdepth⟩
    rw [hrun, Files.after, succeeded]
    dsimp only
    rw [if_pos rfl, fileText, if_pos hjson]
  | error f =>
    -- Neither the file nor the document has changed.
    rw [ho] at hrun
    have hkept : (e.apply.runOn d).2 = d := e.atomic_apply d _ f (by rw [← ho])
    obtain ⟨text, htext, hread⟩ := hd.content
    refine ⟨text, ?_, by rw [hkept]; exact hread⟩
    rw [hrun]
    exact htext

/-- The next command starts where the next edit does. -/
theorem after (hd : Holds s file files d) (hjson : isJsonFile file = true)
    (hmakes : Makes env files args s file e i) (hbrought : ∀ v ∈ e.brought, v.FloatFree)
    (hdepth : (e.apply.runOn d).2.value.depth < Json.depthLimit) :
    Holds s file (files.after (run env files args)) (e.apply.runOn d).2 where
  content := hd.content_after hjson hmakes hbrought hdepth
  settings := (e.follows_apply hd.sound).settings.trans hd.settings
  sound := (e.follows_apply hd.sound).sound
  floatFree := (e.upholds_apply (invariant_throughout stable_noFloat) hd.floatFree hbrought).1

/-- One command agrees with its edit. -/
theorem agrees (hd : Holds s file files d) (hjson : isJsonFile file = true)
    (hmakes : Makes env files args s file e i) (hbrought : ∀ v ∈ e.brought, v.FloatFree)
    (hdepth : (e.apply.runOn d).2.value.depth < Json.depthLimit) :
    Agrees file (run env files args, files.after (run env files args)) (e.apply.runOn d) where
  content := hd.content_after hjson hmakes hbrought hdepth
  only := by
    intro name text hwritten
    dsimp only at hwritten
    rw [hd.run_eq hjson hmakes] at hwritten
    split at hwritten
    · cases hwritten
      rfl
    · cases hwritten
  done := by
    intro ho
    dsimp only
    rw [hd.run_eq hjson hmakes, ho]
    rfl
  failed := by
    intro f ho
    dsimp only
    rw [hd.run_eq hjson hmakes, ho]
    exact ⟨rfl, rfl⟩

end Holds

end

/-- Runs agree with edits from a document whose value the file holds. -/
theorem agrees_runs {env : Environment} {s : Settings} {file : String}
    (hjson : isJsonFile file = true) {files : Files} {d : Document} (hd : Holds s file files d)
    {script : List (List String × Edit)} (hscript : Script env s file files script)
    (hbrought : ∀ step ∈ script, ∀ v ∈ step.2.brought, v.FloatFree)
    (hdepth : ∀ o ∈ outcomes d (script.map Prod.snd), o.2.value.depth < Json.depthLimit) :
    List.Forall₂ (Agrees file) (runs env files (script.map Prod.fst))
      (outcomes d (script.map Prod.snd)) := by
  induction script generalizing files d with
  | nil => exact .nil
  | cons step rest ih =>
    obtain ⟨args, e⟩ := step
    obtain ⟨⟨i, hmakes⟩, hscript⟩ := hscript
    obtain ⟨hnew, hbrought⟩ := List.forall_mem_cons.mp hbrought
    obtain ⟨hdeep, hdepth⟩ := List.forall_mem_cons.mp hdepth
    exact .cons (hd.agrees hjson hmakes hnew hdeep)
      (ih (hd.after hjson hmakes hnew hdeep) hscript hbrought hdepth)

/-- Commands that edit a JSON file in place, one after the other and with the same settings, do what
their edits do in one document that was opened at the start: after each of them the file is read as the
value of the document, and a command whose edit fails fails and writes no file. There may be no floats
in the file and in the values of the commands, and no value may be nested deeper than JSON is read.
Commands that do not edit in place change no file. -/
theorem edits_compose {env : Environment} {s : Settings} {file : String}
    (hjson : isJsonFile file = true) {files : Files} {text : String}
    (htext : files file = some text) {v : Value} (hread : Json.read? text = some v)
    (hfree : v.FloatFree) {script : List (List String × Edit)}
    (hscript : Script env s file files script)
    (hbrought : ∀ step ∈ script, ∀ v ∈ step.2.brought, v.FloatFree)
    (hdepth : ∀ o ∈ outcomes (Document.ofValue v s) (script.map Prod.snd),
      o.2.value.depth < Json.depthLimit) :
    List.Forall₂ (Agrees file) (runs env files (script.map Prod.fst))
        (outcomes (Document.ofValue v s) (script.map Prod.snd)) ∧
      ∀ (env : Environment) (files : Files) (args : List String),
        (∀ i, Request.ofArguments args = .run i → i.command.inPlace = false) →
          files.after (run env files args) = files :=
  ⟨agrees_runs hjson (holds_ofValue htext hread hfree) hscript hbrought hdepth,
    fun env files _ hargs => Files.after_of_none (written_of_not_inPlace env files hargs)⟩

/-- A file with a character in it that is always escaped. -/
def editedText : String :=
  "\x7b\"a\": [\"\\u0001\"]\x7d"

/-- The value of the file. -/
def editedValue : Value :=
  .mapping [("a", .sequence [.string "\x01"])]

/-- A text that is no JSON is written under a new key, and then an entry is removed that is not
there. -/
def editedBy : List (List String × Edit) :=
  [Edit.set "a\"" "x\t", Edit.delete "b"].map fun e => (e.arguments "f.json", e)

/-- The first command succeeds and the second fails. -/
theorem edits_compose_escaped :
    List.Forall₂ (Agrees "f.json")
        (runs [] (fun _ => some editedText) (editedBy.map Prod.fst))
        (outcomes (Document.ofValue editedValue {}) (editedBy.map Prod.snd)) ∧
      (outcomes (Document.ofValue editedValue {}) (editedBy.map Prod.snd)).map (fun o => o.1.isOk) =
        [true, false] := by
  have hread : Json.read? editedText = some editedValue := by decide +kernel
  have hfree : editedValue.FloatFree := ⟨trivial, ⟨trivial, trivial, trivial⟩, trivial⟩
  have hmakes : ∀ (files : Files) (e : Edit), (∀ arg ∈ e.parts, isValue arg = true) →
      ∃ i, Makes [] files (e.arguments "f.json") {} "f.json" e i :=
    fun files e hparts => ⟨_, ofArguments_arguments e rfl
      (List.forall_mem_cons.mpr ⟨by decide, hparts⟩), rfl, rfl⟩
  have hscript : Script [] {} "f.json" (fun _ => some editedText) editedBy :=
    ⟨hmakes _ _ (by decide), hmakes _ _ (by decide), trivial⟩
  have hbrought : ∀ step ∈ editedBy, ∀ v ∈ step.2.brought, v.FloatFree := by
    have hargument : valueOfArgument "x\t" = .string "x\t" := by decide +kernel
    simp [editedBy, Edit.brought, hargument, FloatFree, Throughout, NoFloat]
  have hdepth : ∀ o ∈ outcomes (Document.ofValue editedValue {}) (editedBy.map Prod.snd),
      o.2.value.depth < Json.depthLimit := by
    decide +kernel
  have hjson : isJsonFile "f.json" = true := by decide +kernel
  have htext : (fun _ => some editedText : Files) "f.json" = some editedText := rfl
  obtain ⟨hagree, -⟩ := edits_compose hjson htext hread hfree hscript hbrought hdepth
  exact ⟨hagree, by decide +kernel⟩

end LiveDocument.CommandLine
