import LiveDocument.Arena
import LiveDocument.Digest.Basic
import LiveDocument.Failure
import LiveDocument.Settings.Basic
import LiveDocument.Tree.Edit

/-!
# Documents and handles

A document is a value together with the handles that were issued for places in it. A handle
keeps the path it was issued for and a ticket for its slot in the arena; it is valid as long as
the slot is its own. Lookups that use the cache find a handle that is still held by the digest
of its canonical path.
-/

namespace LiveDocument

/-- A place in a document that somebody watches. -/
structure Handle where
  ticket : Ticket
  path : Path
  deriving DecidableEq

/-- A value, its settings, and the handles issued for it. -/
structure Document where
  value : Value
  settings : Settings
  arena : Arena Digest

/-- An operation on a document: an answer or a failure, and the document afterwards. -/
abbrev Live (α : Type) := ExceptT Failure (StateM Document) α

namespace Document

/-- A document for which no handle has been issued. -/
def ofValue (value : Value) (settings : Settings) : Document :=
  ⟨value, settings, Arena.empty⟩

/-- What stands between the segments of an address. -/
def delimiter (d : Document) : String :=
  d.settings.delimiter

/-- The handle is the occupant of its slot. -/
def isValid (d : Document) (h : Handle) : Bool :=
  d.arena.isLive h.ticket

/-- The digest of a path's canonical text. -/
def keyOf (path : Path) (delimiter : String) : Digest :=
  Digest.ofText (path.text delimiter)

/-- The valid handle with this key that was issued for the cache and is still held. -/
def cached? (d : Document) (key : Digest) : Option Handle :=
  (d.arena.lookup? key).map fun t => ⟨t.ticket, t.path⟩

/-- The number of keys in the cache whose handle is still held. -/
def cachedCount (d : Document) : Nat :=
  d.arena.cachedCount

/-- Issues a handle for a path at which there is a value of this kind. -/
def issue (d : Document) (path : Path) (kind : Kind) (useCache : Bool) : Handle × Document :=
  let (ticket, arena) := d.arena.issue path kind (keyOf path d.delimiter) useCache
  (⟨ticket, path⟩, { d with arena := arena })

/-- The cached handle for a path, or a new one. -/
def obtain (d : Document) (path : Path) (kind : Kind) (useCache : Bool) : Handle × Document :=
  match if useCache then d.cached? (keyOf path d.delimiter) else none with
  | some h => (h, d)
  | none => d.issue path kind useCache

/-- Lets go of all handles but those whose serial number satisfies a condition. -/
def keep (d : Document) (p : Nat → Bool) : Document :=
  { d with arena := d.arena.keep p }

end Document

namespace Live

/-- An operation that never fails. -/
def ofFunction {α : Type} (f : Document → α × Document) : Live α :=
  ExceptT.mk fun d => let (a, after) := f d; (.ok a, after)

def runOn {α : Type} (x : Live α) (d : Document) : Except Failure α × Document :=
  x.run.run d

end Live

end LiveDocument
