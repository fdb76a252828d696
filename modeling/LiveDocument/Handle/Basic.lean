import LiveDocument.Address.Basic
import LiveDocument.Document.Basic

/-!
# What a handle watches

A handle gives access to the value at its path as long as it is valid. A valid handle whose
path leads nowhere, which can happen without cascading, fails like an invalid one.
-/

namespace LiveDocument.Handle

/-- The absolute address of the watched place. -/
def address (h : Handle) (delimiter : String) : String :=
  h.path.address delimiter

/-- Two handles are the same if they come from the same issue. -/
def same (h k : Handle) : Bool :=
  h.ticket.serial == k.ticket.serial

/-- The failure of a handle that is not valid. -/
def invalid (h : Handle) (d : Document) : Failure :=
  .invalidReference (h.address d.delimiter)

/-- Fails if the handle is not valid. -/
def ensureValid (h : Handle) : Live Unit := do
  let d ← get
  if d.isValid h then return () else throw (h.invalid d)

def rawValue (h : Handle) : Live Value := do
  h.ensureValid
  let d ← get
  match d.value.walk? h.path with
  | some v => return v
  | none => throw (h.invalid d)

def kind (h : Handle) : Live Kind := do
  return (← h.rawValue).kind

/-- Ends the validity of the handle, and of nothing else. -/
def invalidate (h : Handle) : Live Unit :=
  modify fun d => { d with arena := (d.arena.retireTicket h.ticket).2 }

/-- The digest of the canonical path. -/
def cacheKey (h : Handle) (delimiter : String) : Digest :=
  Document.keyOf h.path delimiter

end LiveDocument.Handle
