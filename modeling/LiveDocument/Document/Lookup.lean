import LiveDocument.Address.Basic
import LiveDocument.Document.Basic

/-!
# Looking places up

An address names no place, one place or, when its last segment is a slice, the selected places
of a sequence, each by its own path. Looking it up gives a handle for each of them. An address
that does not resolve is no failure.
-/

namespace LiveDocument

/-- A place that an address names, and the kind of value there. -/
structure Target where
  path : Path
  kind : Kind
  deriving DecidableEq

namespace Value

/-- The value from which the segments of an address are followed. -/
def startOf? (v : Value) (a : Address) (context : Path) : Option Value :=
  if a.absolute || context.isEmpty then some v else v.walk? context

/-- The places of the elements that a slice selects, below the path of their sequence. -/
def selected? (v : Value) (s : Slice) (path : Path) : Option (List Target) :=
  match v with
  | .sequence items =>
    (s.places? items.length).map fun places =>
      places.filterMap fun place =>
        (items[place]?).map fun item => ⟨path ++ [.index (Int64.ofInt place)], item.kind⟩
  | _ => none

/-- The places that an address names from a context, or nothing if it does not resolve. -/
def locate? (v : Value) (a : Address) (context : Path) : Option (List Target) :=
  let path := a.fullPath context
  match a.segments.getLast? with
  | some (.slice s) =>
    (v.startOf? a context).bind fun start =>
      (start.walk? a.segments.dropLast).bind fun parent => parent.selected? s path.dropLast
  | _ =>
    (v.startOf? a context).bind fun start =>
      (start.kindAt? a.segments).map fun kind => [⟨path, kind⟩]

end Value

namespace Document

def obtainAll (d : Document) (useCache : Bool) : List Target → List Handle × Document
  | [] => ([], d)
  | t :: rest =>
    let (h, next) := d.obtain t.path t.kind useCache
    let (hs, last) := next.obtainAll useCache rest
    (h :: hs, last)

/-- Handles for the places that an address names from a context. An address that does not
select is looked up in the cache before the value is walked. -/
def resolve (d : Document) (a : Address) (context : Path) (useCache : Bool) :
    List Handle × Document :=
  let known :=
    if useCache && !a.endsWithSlice then d.cached? (keyOf (a.fullPath context) a.delimiter)
    else none
  match known with
  | some h => ([h], d)
  | none =>
    match d.value.locate? a context with
    | some targets => d.obtainAll useCache targets
    | none => ([], d)

/-- The address of a query in the spelling of this document. -/
def addressOf (d : Document) (query : Query) : Address :=
  Address.parse query d.delimiter

/-- The handle of the whole document. -/
def root (d : Document) : Handle × Document :=
  d.obtain [] d.value.kind d.settings.useCache

/-- Handles for the places that a query names. -/
def queryWith (d : Document) (query : Query) (useCache : Bool) : List Handle × Document :=
  d.resolve (d.addressOf query) [] useCache

/-- Handles for the places that a query names, through the cache if the settings say so. -/
def query (d : Document) (query : Query) : List Handle × Document :=
  d.queryWith query d.settings.useCache

/-- A handle for the first place that a query names. -/
def get? (d : Document) (query : Query) : Option Handle × Document :=
  let (hs, after) := d.query query
  (hs.head?, after)

/-- A query names at least one place. -/
def contains (d : Document) (query : Query) : Bool :=
  match d.value.locate? (d.addressOf query) [] with
  | some targets => !targets.isEmpty
  | none => false

end Document

namespace Live

/-- Handles for the places that an address names from a context. -/
def resolve (a : Address) (context : Path) (useCache : Bool) : Live (List Handle) :=
  Live.ofFunction fun d => d.resolve a context useCache

/-- A handle for the first place that an address names from a context; there has to be one. -/
def require (a : Address) (context : Path) (useCache : Bool) : Live Handle := do
  match ← Live.resolve a context useCache with
  | h :: _ => return h
  | [] => throw (.missingMember (a.canonical context))

end Live

/-- A handle for the first place that a query names; there has to be one. -/
def Document.member (query : Query) : Live Handle := do
  let d ← get
  Live.require (d.addressOf query) [] d.settings.useCache

end LiveDocument
