import LiveDocument.Yaml.Lexer
import LiveDocument.Yaml.Node

/-!
# The node of a text

The tokens of a text are put together to the one node of its one document. A node that may be
left out, such as the value of a key, is then the empty scalar; so is a text without a
document.
-/

namespace LiveDocument.Yaml

/-- What the meaning of the next tokens hangs on: the tag handles of the document, and the
number that each name of an anchor stands for by now. -/
structure Scope where
  handles : List (List Char × Tag)
  names : List (List Char × Nat)

namespace Scope

/-- The handles that every document knows. -/
def usualHandles : List (List Char × Tag) :=
  [(['!'], Tag.ownMark), (['!', '!'], Tag.coreMark)]

/-- The scope at the start of a document with these handles of its own. -/
def ofHandles (handles : List (List Char × Tag)) : Scope :=
  ⟨handles ++ usualHandles, []⟩

/-- The number that a name stands for. -/
def number? (s : Scope) (name : List Char) : Option Nat :=
  (s.names.find? fun entry => entry.1 == name).map Prod.snd

/-- Gives a name a number: how many names were known. -/
def declare (s : Scope) (name : List Char) : Nat × Scope :=
  let number := s.names.length
  (number, { s with names := (name, number) :: s.names.filter fun entry => entry.1 != name })

/-- The tag that a handle and a suffix stand for. -/
def tag? (s : Scope) (handle : List Char) (suffix : Tag) : Option Tag :=
  if handle.isEmpty then some suffix
  else (s.handles.find? fun entry => entry.1 == handle).map fun entry => entry.2 ++ suffix

end Scope

/-- The tokens that are left, and what their meaning hangs on. -/
structure Reading where
  tokens : List Token
  scope : Scope

/-- Takes tokens off and says what they mean, or refuses them. -/
abbrev Read (α : Type) := StateT Reading Option α

def next : Read Token :=
  fun r => r.tokens.head?.map fun t => (t, r)

def advance : Read Unit :=
  fun r => some ((), { r with tokens := r.tokens.tail })

/-- Takes the anchor off that is next, if one is. -/
def readAnchor : Read (Option (List Char)) := do
  match ← next with
  | .anchor name =>
    advance
    return some name
  | _ => return none

/-- Takes the tag off that is next, if one is. -/
def readTag : Read (Option (List Char × Tag)) := do
  match ← next with
  | .tag handle suffix =>
    advance
    return some (handle, suffix)
  | _ => return none

/-- Takes an anchor and a tag off, each at most once and in either order. -/
def readProperties : Read (Option (List Char) × Option (List Char × Tag)) := do
  match ← readAnchor with
  | some name => return (some name, ← readTag)
  | none =>
    match ← readTag with
    | some tag => return (← readAnchor, some tag)
    | none => return (none, none)

/-- The tag that a handle and a suffix stand for; an unknown handle is refused. -/
def resolveTag : Option (List Char × Tag) → Read (Option Tag)
  | none => return none
  | some (handle, suffix) => fun r => (r.scope.tag? handle suffix).map fun tag => (some tag, r)

def declareAnchor : Option (List Char) → Read (Option Nat)
  | none => return none
  | some name => fun r =>
    let (number, scope) := r.scope.declare name
    some (some number, { r with scope := scope })

/-- The number of an alias; an unknown name is refused. -/
def resolveAlias (name : List Char) : Read Nat :=
  fun r => (r.scope.number? name).map fun number => (number, r)

/-- Ends a loop that has no steps left, or refuses what is next. -/
def refuse {α : Type} : Read α :=
  fun _ => none

/-- The tokens that end an entry of a sequence without a start of its own. -/
def endsLooseItem (t : Token) : Bool :=
  t == .blockEntry || t == .key || t == .value || t == .blockEnd

/-- The tokens that end a key or a value of a mapping in block form. -/
def endsBlockPart (t : Token) : Bool :=
  t == .key || t == .value || t == .blockEnd

/-- Where a node stands: whether it may be in block form, and whether it may be a sequence
whose dashes are no further in than the key. -/
structure Place where
  block : Bool
  loose : Bool

mutual

def readNode : (fuel : Nat) → Place → Read Node
  | 0, _ => refuse
  | fuel + 1, place => do
    match ← next with
    | .alias name =>
      advance
      return .alias (← resolveAlias name)
    | _ =>
      let (name, mark) ← readProperties
      let tag ← resolveTag mark
      let start ← next
      if place.loose && start == .blockEntry then
        let anchor ← declareAnchor name
        return .sequence anchor tag (← readLooseItems fuel)
      else
        match start with
        | .scalar text style =>
          advance
          return .scalar (← declareAnchor name) tag text style
        | .flowSequenceStart =>
          advance
          let anchor ← declareAnchor name
          return .sequence anchor tag (← readFlowItems fuel true)
        | .flowMappingStart =>
          advance
          let anchor ← declareAnchor name
          return .mapping anchor tag (← readFlowEntries fuel true)
        | _ =>
          if place.block && start == .blockSequenceStart then
            advance
            let anchor ← declareAnchor name
            return .sequence anchor tag (← readBlockItems fuel)
          else if place.block && start == .blockMappingStart then
            advance
            let anchor ← declareAnchor name
            return .mapping anchor tag (← readBlockEntries fuel)
          else if name.isSome || mark.isSome then
            return .scalar (← declareAnchor name) tag [] .plain
          else refuse

/-- Reads the items of a sequence in block form and the end of its block. -/
def readBlockItems : (fuel : Nat) → Read (List Node)
  | 0 => refuse
  | fuel + 1 => do
    match ← next with
    | .blockEntry =>
      advance
      let after ← next
      let item ←
        if after == .blockEntry || after == .blockEnd then pure Node.absent
        else readNode fuel ⟨true, false⟩
      return item :: (← readBlockItems fuel)
    | .blockEnd =>
      advance
      return []
    | _ => refuse

/-- Reads the items of a sequence that has no block of its own. -/
def readLooseItems : (fuel : Nat) → Read (List Node)
  | 0 => refuse
  | fuel + 1 => do
    match ← next with
    | .blockEntry =>
      advance
      let item ←
        if endsLooseItem (← next) then pure Node.absent else readNode fuel ⟨true, false⟩
      return item :: (← readLooseItems fuel)
    | _ => return []

/-- Reads the entries of a mapping in block form and the end of its block. -/
def readBlockEntries : (fuel : Nat) → Read (List (Node × Node))
  | 0 => refuse
  | fuel + 1 => do
    match ← next with
    | .key =>
      advance
      let key ← if endsBlockPart (← next) then pure Node.absent else readNode fuel ⟨true, true⟩
      let value ← readBlockValue fuel
      return (key, value) :: (← readBlockEntries fuel)
    | .blockEnd =>
      advance
      return []
    | _ => refuse

/-- Reads the value of an entry in block form. -/
def readBlockValue : (fuel : Nat) → Read Node
  | 0 => refuse
  | fuel + 1 => do
    match ← next with
    | .value =>
      advance
      if endsBlockPart (← next) then return Node.absent else readNode fuel ⟨true, true⟩
    | _ => return Node.absent

/-- Reads the items of a sequence in brackets and the closing bracket. All but the first follow
a comma, which may also come last. -/
def readFlowItems : (fuel : Nat) → (first : Bool) → Read (List Node)
  | 0, _ => refuse
  | fuel + 1, first => do
    if (← next) == .flowSequenceEnd then
      advance
      return []
    else
      if !first then
        if (← next) == .flowEntry then advance else refuse
      match ← next with
      | .flowSequenceEnd =>
        advance
        return []
      | .key =>
        advance
        let pair ← readFlowPair fuel
        return .mapping none none [pair] :: (← readFlowItems fuel false)
      | _ =>
        let item ← readNode fuel ⟨false, false⟩
        return item :: (← readFlowItems fuel false)

/-- Reads a mapping of one entry inside brackets. A token that stands where the key is left out
is taken off with it. -/
def readFlowPair : (fuel : Nat) → Read (Node × Node)
  | 0 => refuse
  | fuel + 1 => do
    let start ← next
    let key ←
      if start == .value || start == .flowEntry || start == .flowSequenceEnd then do
        advance
        pure Node.absent
      else readNode fuel ⟨false, false⟩
    match ← next with
    | .value =>
      advance
      let after ← next
      if after == .flowEntry || after == .flowSequenceEnd then return (key, Node.absent)
      else return (key, ← readNode fuel ⟨false, false⟩)
    | _ => return (key, Node.absent)

/-- Reads the entries of a mapping in braces and the closing brace. All but the first follow a
comma, which may also come last. -/
def readFlowEntries : (fuel : Nat) → (first : Bool) → Read (List (Node × Node))
  | 0, _ => refuse
  | fuel + 1, first => do
    if (← next) == .flowMappingEnd then
      advance
      return []
    else
      if !first then
        if (← next) == .flowEntry then advance else refuse
      match ← next with
      | .flowMappingEnd =>
        advance
        return []
      | .key =>
        advance
        let after ← next
        let key ←
          if after == .value || after == .flowEntry || after == .flowMappingEnd then
            pure Node.absent
          else readNode fuel ⟨false, false⟩
        let value ← readFlowValue fuel
        return (key, value) :: (← readFlowEntries fuel false)
      | _ =>
        let key ← readNode fuel ⟨false, false⟩
        return (key, Node.absent) :: (← readFlowEntries fuel false)

/-- Reads the value of an entry in braces. -/
def readFlowValue : (fuel : Nat) → Read Node
  | 0 => refuse
  | fuel + 1 => do
    match ← next with
    | .value =>
      advance
      let after ← next
      if after == .flowEntry || after == .flowMappingEnd then return Node.absent
      else readNode fuel ⟨false, false⟩
    | _ => return Node.absent

end

/-- The directives before a document: the handles they declare, and the tokens after them.
There may be one version, of those that are understood, and one declaration of each handle. -/
def takeDirectives : (versioned : Bool) → (handles : List (List Char × Tag)) →
    List Token → Option (List (List Char × Tag) × List Token)
  | versioned, handles, .versionDirective major minor :: rest =>
    if versioned || major != 1 || (minor != 1 && minor != 2) then none
    else takeDirectives true handles rest
  | versioned, handles, .tagDirective handle leading :: rest =>
    if handles.any fun entry => entry.1 == handle then none
    else takeDirectives versioned (handles ++ [(handle, leading)]) rest
  | _, handles, rest => some (handles, rest)

/-- The tokens that end the content of a document. -/
def endsDocument : Token → Bool
  | .versionDirective _ _ | .tagDirective _ _ => true
  | t => t == .documentStart || t == .documentEnd || t == .streamEnd

/-- Reads the content of a document that has a start. -/
def readContent (fuel : Nat) : Read Node := do
  if endsDocument (← next) then return Node.absent else readNode fuel ⟨true, false⟩

/-- The node of the one document that these tokens hold. Marks of its end may follow it, and
nothing else. -/
def nodeOfTokens? (tokens : List Token) : Option Node :=
  let fuel := 3 * tokens.length + 3
  let finish (read : Option (Node × Reading)) : Option Node :=
    read.bind fun (node, r) =>
      if r.tokens.dropWhile (· == .documentEnd) == [.streamEnd] then some node else none
  match tokens with
  | [.streamEnd] => some Node.absent
  | .versionDirective _ _ :: _ | .tagDirective _ _ :: _ | .documentStart :: _ =>
    (takeDirectives false [] tokens).bind fun (handles, rest) =>
      match rest with
      | .documentStart :: rest =>
        finish (readContent fuel ⟨rest, Scope.ofHandles handles⟩)
      | _ => none
  | _ => finish (readNode fuel ⟨true, false⟩ ⟨tokens, Scope.ofHandles []⟩)

def node? (cs : List Char) : Option Node :=
  (tokens? cs).bind fun tokens => nodeOfTokens? tokens.toList

end LiveDocument.Yaml
