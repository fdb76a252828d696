import LiveDocument.Session.Call

/-!
# Sessions

A session works on one document and keeps handles and views in named registers. What a register
keeps is held; what an answer alone kept is let go of at the end of a step. The default of a
lookup that finds nothing lives in a document of its own with the same settings.
-/

namespace LiveDocument

/-- A handle or a view, and the number of its document: zero for that of the session, else one
more than the place among the detached ones. -/
inductive Register where
  | handle (document : Nat) (h : Handle)
  | view (document : Nat) (v : View)
  deriving DecidableEq

namespace Register

def document : Register → Nat
  | handle n _ => n
  | view n _ => n

/-- The handle that is held. -/
def watched : Register → Handle
  | handle _ h => h
  | view _ v => v.handle

/-- The same handle of the same document. -/
def holds (r : Register) (document : Nat) (h : Handle) : Bool :=
  r.document == document && r.watched.same h

end Register

/-- A document, the detached ones, and the registers in the order of their names. -/
structure Session where
  environment : Environment
  document : Document
  detached : List Document
  registers : List (String × Register)

/-- What is asked of a session. -/
inductive Action where
  | document (call : DocumentCall)
  | orDefault (q : Query) (v : Value)
  | handle (register : String) (call : HandleCall)
  | same (register other : String)
  | view (register : String) (call : ViewCall)
  | drop (register : String)
  | dropAll

/-- An action, and the register for what it finds. -/
structure Step where
  action : Action
  store : Option String

/-- What is told about a handle. -/
structure HandleReport where
  address : String
  path : Path
  valid : Bool
  same : List String
  raw : Except Failure Value

/-- Why a step was refused. -/
inductive Refusal where
  | noRegister
  | failed (f : Failure)

/-- What a step answers, and which registers are valid after it. -/
structure Reply where
  answer : Except Refusal (Answer HandleReport)
  live : List String
  dead : List String
  cached : Nat

namespace Session

def start (environment : Environment) (d : Document) : Session :=
  ⟨environment, d, [], []⟩

/-- What a register keeps. -/
def register? (s : Session) (name : String) : Option Register :=
  (s.registers.find? fun entry => entry.1 == name).map Prod.snd

/-- Puts a register in its place among the others. -/
def storeAmong (name : String) (r : Register) : List (String × Register) → List (String × Register)
  | [] => [(name, r)]
  | entry :: rest =>
    if entry.1 = name then (name, r) :: rest
    else if entry.1 < name then entry :: storeAmong name r rest
    else (name, r) :: entry :: rest

/-- Stores registers one after the other. -/
def store (s : Session) (entries : List (String × Register)) : Session :=
  { s with
    registers := entries.foldl (fun known entry => storeAmong entry.1 entry.2 known) s.registers }

def document? (s : Session) : Nat → Option Document
  | 0 => some s.document
  | n + 1 => s.detached[n]?

/-- The session with another document under a number. -/
def setDocument (s : Session) (n : Nat) (d : Document) : Session :=
  match n with
  | 0 => { s with document := d }
  | n + 1 => { s with detached := s.detached.set n d }

/-- What is told about a handle of a document. -/
def report (s : Session) (n : Nat) (d : Document) (h : Handle) : HandleReport where
  address := h.address d.delimiter
  path := h.path
  valid := d.isValid h
  same := (s.registers.filter fun entry => entry.2.holds n h).map Prod.fst
  raw := (h.rawValue.runOn d).1

/-- The registers for the handles of an answer. -/
def kept (n : Nat) (name : String) : Answer Handle → List (String × Register)
  | .handle h => [(name, .handle n h)]
  | .optional (some h) => [(name, .handle n h)]
  | .handles hs =>
    hs.zipIdx.map fun (h, i) => (name ++ String.ofList (Text.decimal i), .handle n h)
  | .view h variant => [(name, .view n ⟨h, variant⟩)]
  | _ => []

/-- Tells an answer and stores its handles. -/
def conclude (s : Session) (n : Nat) (d : Document) (name : Option String)
    (answer : Answer Handle) : Except Refusal (Answer HandleReport) × Session :=
  let s := s.setDocument n d
  let told := answer.map (s.report n d)
  match name with
  | some name => (.ok told, s.store (kept n name answer))
  | none => (.ok told, s)

/-- Carries an operation on a document out. -/
def perform (s : Session) (n : Nat) (call : Live (Answer Handle)) (name : Option String) :
    Except Refusal (Answer HandleReport) × Session :=
  match s.document? n with
  | none => (.error .noRegister, s)
  | some d =>
    match call.runOn d with
    | (.ok answer, after) => s.conclude n after name answer
    | (.error f, after) => (.error (.failed f), s.setDocument n after)

/-- Answers with the first place that a query names, or with a document of its own. -/
def performOrDefault (s : Session) (q : Query) (v : Value) (name : Option String) :
    Except Refusal (Answer HandleReport) × Session :=
  match s.document.get? q with
  | (some h, after) => s.conclude 0 after name (.handle h)
  | (none, after) =>
    let s := { s with document := after }
    let fresh := Document.ofValue v after.settings
    let (h, fresh) := fresh.root
    let s := { s with detached := s.detached ++ [fresh] }
    s.conclude s.detached.length fresh name (.handle h)

def act (s : Session) (step : Step) : Except Refusal (Answer HandleReport) × Session :=
  match step.action with
  | .document call => s.perform 0 (call.run s.environment) step.store
  | .orDefault q v => s.performOrDefault q v step.store
  | .handle name call =>
    match s.register? name with
    | some r => s.perform r.document (call.run s.environment r.watched) step.store
    | none => (.error .noRegister, s)
  | .same name other =>
    match s.register? name, s.register? other with
    | some r, some t => (.ok (.flag (r.holds t.document t.watched)), s)
    | _, _ => (.error .noRegister, s)
  | .view name call =>
    match s.register? name with
    | some (.view n v) => s.perform n (call.run v) step.store
    | _ => (.error .noRegister, s)
  | .drop name =>
    (.ok (.flag (s.register? name).isSome),
      { s with registers := s.registers.filter fun entry => entry.1 != name })
  | .dropAll => (.ok .nothing, { s with registers := [] })

/-- Lets go of the handles of a document that no register keeps. -/
def releaseIn (s : Session) (n : Nat) (d : Document) : Document :=
  d.keep fun serial =>
    s.registers.any fun entry =>
      entry.2.document == n && entry.2.watched.ticket.serial == serial

/-- Lets go of the handles that no register keeps. -/
def release (s : Session) : Session :=
  { s with
    document := s.releaseIn 0 s.document
    detached := s.detached.zipIdx.map fun (d, i) => s.releaseIn (i + 1) d }

/-- A register's handle is valid. -/
def isLive (s : Session) (r : Register) : Bool :=
  match s.document? r.document with
  | some d => d.isValid r.watched
  | none => false

def run (s : Session) (step : Step) : Reply × Session :=
  let (answer, s) := s.act step
  let s := s.release
  let (live, dead) := s.registers.partition fun entry => s.isLive entry.2
  (⟨answer, live.map Prod.fst, dead.map Prod.fst, s.document.cachedCount⟩, s)

end Session

end LiveDocument
