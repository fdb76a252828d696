import LiveDocument.Document.Description
import LiveDocument.View

/-!
# Calls

The operations on a document, on a handle and on a view as data, and what each of them answers.
An answer may hold handles; `H` is what stands for them.
-/

namespace LiveDocument

/-- What a path leads to, as somebody sees it who spells addresses with this delimiter. -/
structure PlaceReport where
  path : Path
  delimiter : String
  found : Option Value

/-- What an operation answers. -/
inductive Answer (H : Type) where
  | nothing
  | flag (b : Bool)
  | count (n : Nat)
  | integer (i : Int64)
  | float (x : Binary64)
  | text (s : String)
  | texts (ss : List String)
  | value (v : Value)
  | entry (v : Option Value)
  | order (o : Option Ordering)
  | kind (k : Kind)
  | path (p : Path)
  | settings (s : Settings)
  | place (r : PlaceReport)
  | handle (h : H)
  | optional (h : Option H)
  | handles (hs : List H)
  | view (h : H) (variant : Kind)

namespace Answer

variable {H K : Type}

/-- Puts something else in the place of the handles. -/
def map (f : H → K) : Answer H → Answer K
  | nothing => nothing
  | flag b => flag b
  | count n => count n
  | integer i => integer i
  | float x => float x
  | text s => text s
  | texts ss => texts ss
  | value v => value v
  | entry v => entry v
  | order o => order o
  | kind k => kind k
  | path p => path p
  | settings s => settings s
  | place r => place r
  | handle h => handle (f h)
  | optional h => optional (h.map f)
  | handles hs => handles (hs.map f)
  | view h variant => view (f h) variant

end Answer

/-- The operations on a document. -/
inductive DocumentCall where
  | root
  | member (q : Query)
  | get (q : Query)
  | query (q : Query)
  | queryWith (q : Query) (useCache : Bool)
  | contains (q : Query)
  | set (q : Query) (v : Value)
  | delete (q : Query)
  | raw
  | parsed
  | exportAs (format : Format)
  | settings
  | description
  | template (v : Value)
  | templateFrom (v : Value) (origin : Path)
  | place (path : Path) (delimiter : Option String)
  | write (path : Path) (delimiter : Option String) (v : Value)
  | remove (path : Path) (delimiter : Option String)

/-- The operations on a handle. -/
inductive HandleCall where
  | describe
  | isValid
  | invalidate
  | path
  | address
  | cacheKey
  | description
  | raw
  | parsed
  | setRaw (v : Value)
  | kind
  | exportAs (format : Format)
  | query (q : Query)
  | queryWith (q : Query) (useCache : Bool)
  | get (q : Query)
  | member (q : Query)
  | set (q : Query) (v : Value)
  | deleteAt (q : Query)
  | delete
  | view
  | sequenceView
  | mappingView

/-- The operations on a view. -/
inductive ViewCall where
  | variant
  | kind
  | length
  | isEmpty
  | keys
  | get (q : Query)
  | children
  | contains (v : Value)
  | equals (v : Value)
  | compare (v : Value)
  | push (v : Value)
  | insert (key : String) (v : Value)
  | remove (key : String)
  | boolean
  | integer
  | float
  | string

/-- Carries an operation on the document out. -/
def DocumentCall.run (env : Environment) : DocumentCall → Live (Answer Handle)
  | root => return .handle (← Live.ofFunction Document.root)
  | member q => return .handle (← Document.member q)
  | get q => return .optional (← Live.ofFunction fun d => d.get? q)
  | query q => return .handles (← Live.ofFunction fun d => d.query q)
  | queryWith q useCache => return .handles (← Live.ofFunction fun d => d.queryWith q useCache)
  | contains q => return .flag ((← MonadState.get).contains q)
  | set q v => do
    Document.set q v
    return .nothing
  | delete q => return .value (← Document.delete q)
  | raw => return .value (← MonadState.get).value
  | parsed => return .value (← Document.parsedValue env)
  | exportAs format => return .text (← Document.exportAs env format)
  | settings => return .settings (← MonadState.get).settings
  | description => return .text (← MonadState.get).description
  | template v => return .value (← Reference.expand env [] v)
  | templateFrom v origin => do
    let d ← MonadState.get
    return .value (← Reference.expand env [origin.text d.delimiter] v)
  | place path delimiter => do
    let d ← MonadState.get
    return .place ⟨path, delimiter.getD d.delimiter, d.value.walk? path⟩
  | write path delimiter v => do
    let d ← MonadState.get
    Live.write path (delimiter.getD d.delimiter) v
    return .nothing
  | remove path delimiter => do
    let d ← MonadState.get
    return .value (← Live.remove path (delimiter.getD d.delimiter))

/-- Carries an operation on a handle out. -/
def HandleCall.run (env : Environment) (h : Handle) : HandleCall → Live (Answer Handle)
  | describe => return .handle h
  | isValid => return .flag ((← MonadState.get).isValid h)
  | invalidate => do
    h.invalidate
    return .nothing
  | path => return .path h.path
  | address => return .text (h.address (← MonadState.get).delimiter)
  | cacheKey => return .text (h.cacheKey (← MonadState.get).delimiter).hex
  | description => return .text (h.description (← MonadState.get))
  | raw => return .value (← h.rawValue)
  | parsed => return .value (← h.parsedValue env)
  | setRaw v => do
    h.setRawValue v
    return .nothing
  | kind => return .kind (← h.kind)
  | exportAs format => return .text (← h.exportAs env format)
  | query q => return .handles (← h.query q)
  | queryWith q useCache => return .handles (← h.queryWith q useCache)
  | get q => return .optional (← h.get? q)
  | member q => return .handle (← h.member q)
  | set q v => do
    h.set q v
    return .nothing
  | deleteAt q => return .value (← h.deleteAt q)
  | delete => return .value (← h.delete)
  | view => return viewed (← View.ofHandle h)
  | sequenceView => return viewed (← View.sequence h)
  | mappingView => return viewed (← View.mapping h)
where
  /-- The answer that is a view. -/
  viewed (v : View) : Answer Handle := .view v.handle v.variant

/-- Carries an operation on a view out. -/
def ViewCall.run (view : View) : ViewCall → Live (Answer Handle)
  | variant => return .kind view.variant
  | kind => return .kind (← view.kind)
  | length => return .count (← view.length)
  | isEmpty => return .flag (← view.isEmpty)
  | keys => return .texts (← view.keys)
  | get q => return .optional (← view.get? q)
  | children => return .handles (← view.children)
  | contains v => return .flag (← view.contains v)
  | equals v => return .flag (← view.equals v)
  | compare v => return .order (← view.order? v)
  | push v => do
    view.push v
    return .nothing
  | insert key v => return .entry (← view.insert key v)
  | remove key => return .entry (← view.remove key)
  | boolean => return .flag (← view.boolean)
  | integer => return .integer (← view.integer)
  | float => return .float (← view.float)
  | string => return .text (← view.string)

end LiveDocument
