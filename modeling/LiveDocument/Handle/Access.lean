import LiveDocument.Document.Edit
import LiveDocument.Format
import LiveDocument.Reference.Expansion

/-!
# Working through a handle

Lookups and edits relative to the watched place. Every one of them fails first if the handle is
not valid. A child is named by its segment as it is, so that its key is never taken apart.
-/

namespace LiveDocument.Handle

def setRawValue (h : Handle) (v : Value) : Live Unit := do
  h.ensureValid
  let d ← get
  Live.write h.path d.delimiter v

/-- Handles for the places that a query names from here. -/
def queryWith (h : Handle) (query : Query) (useCache : Bool) : Live (List Handle) := do
  h.ensureValid
  let d ← get
  Live.resolve (d.addressOf query) h.path useCache

/-- Handles for the places that a query names from here, through the cache if the settings say
so. -/
def query (h : Handle) (query : Query) : Live (List Handle) := do
  let d ← get
  h.queryWith query d.settings.useCache

/-- A handle for the first place that a query names from here. -/
def get? (h : Handle) (query : Query) : Live (Option Handle) := do
  return (← h.query query).head?

/-- A handle for the first place that a query names from here; there has to be one. -/
def member (h : Handle) (query : Query) : Live Handle := do
  h.ensureValid
  let d ← get
  Live.require (d.addressOf query) h.path d.settings.useCache

/-- Writes a value at every place that a query names from here. -/
def set (h : Handle) (query : Query) (v : Value) : Live Unit := do
  h.ensureValid
  let d ← get
  Live.update (d.addressOf query) h.path v

/-- Removes the entry that a query names from here. -/
def deleteAt (h : Handle) (query : Query) : Live Value := do
  h.ensureValid
  let d ← get
  Live.remove ((d.addressOf query).fullPath h.path) d.delimiter

/-- Removes the watched entry from its parent. -/
def delete (h : Handle) : Live Value := do
  h.ensureValid
  let d ← get
  Live.remove h.path d.delimiter

/-- A handle for the entry under a segment. -/
def child? (h : Handle) (segment : Segment) : Live (Option Handle) := do
  h.ensureValid
  let d ← get
  return (← Live.resolve ⟨[segment], false, d.delimiter⟩ h.path d.settings.useCache).head?

def writeChild (h : Handle) (segment : Segment) (v : Value) : Live Unit := do
  h.ensureValid
  let d ← get
  Live.write (h.path ++ [segment]) d.delimiter v

def deleteChild (h : Handle) (segment : Segment) : Live Value := do
  h.ensureValid
  let d ← get
  Live.remove (h.path ++ [segment]) d.delimiter

def exportAs (env : Environment) (format : Format) (h : Handle) : Live String := do
  return format.render (← h.parsedValue env)

end LiveDocument.Handle

namespace LiveDocument.Document

/-- The text of the whole expanded value. -/
def exportAs (env : Environment) (format : Format) : Live String := do
  return format.render (← parsedValue env)

end LiveDocument.Document
