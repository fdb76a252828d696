import LiveDocument.Value.Entries
import LiveDocument.Yaml.Grammar
import LiveDocument.Yaml.Scalar

/-!
# Reading YAML text

The node of a text becomes a value. Keys are the texts of scalars, whatever their style; a
repeated key keeps its first place and its last value. Aliases stand for the nodes they name,
but not too often, and collections may be nested 128 deep. Tags of one's own are refused,
except those that no text spells, which mean nothing.
-/

namespace LiveDocument.Yaml

/-- How deep collections may be nested. -/
def depthLimit : Nat :=
  128

/-- How often, for each part of a text, its aliases may be followed. -/
def repetitionLimit : Nat :=
  100

/-- The anchored nodes of a text, and how often its aliases may be followed. -/
structure Anchors where
  nodes : List (Nat × Node)
  limit : Nat

def Anchors.ofRoot (root : Node) : Anchors :=
  ⟨root.anchors, repetitionLimit * root.size⟩

/-- The node with an anchor: the last that starts. -/
def Anchors.node? (a : Anchors) (anchor : Nat) : Option Node :=
  (a.nodes.reverse.find? fun entry => entry.1 == anchor).map Prod.snd

/-- Counts the aliases that have been followed. -/
abbrev Follow (α : Type) := StateT Nat Option α

def reject {α : Type} : Follow α :=
  fun _ => none

/-- The node that a node stands for. -/
def follow (a : Anchors) : Node → Follow Node
  | .alias anchor => fun followed =>
    if a.limit ≤ followed then none
    else (a.node? anchor).map fun n => (n, followed + 1)
  | n => return n

/-- The text of a node that is a key. -/
def keyText (a : Anchors) (key : Node) : Follow String := do
  match ← follow a key with
  | .scalar _ _ text _ => return String.ofList text
  | _ => reject

/-- Reads all items with a reader of one. -/
def readItems (read : Node → Follow Value) : List Node → Follow (List Value)
  | [] => return []
  | item :: items => do
    let v ← read item
    return v :: (← readItems read items)

/-- Reads all entries with a reader of a key and one of a value. -/
def readEntries (readKey : Node → Follow String) (read : Node → Follow Value) :
    List (Node × Node) → Follow (List (String × Value))
  | [] => return []
  | (key, value) :: entries => do
    let k ← readKey key
    let v ← read value
    return (k, v) :: (← readEntries readKey read entries)

/-- Reads a node with readers for the parts of a collection; there are none at the greatest
depth. -/
def readWith (a : Anchors) (parts : Option (Node → Follow Value)) (node : Node) :
    Follow Value := do
  let n ← follow a node
  if n.tag?.any fun tag => Tag.isOwn tag && Text.isText tag then
    reject
  else
    match n, parts with
    | .scalar _ tag text style, _ => liftM (scalarValue? tag text style)
    | .sequence _ _ items, some read => return .sequence (← readItems read items)
    | .mapping _ _ entries, some read =>
      return .mapping (Entries.ofList (← readEntries (keyText a) read entries))
    | _, _ => reject

/-- Reads a node inside which collections may still be nested `depth` deep. -/
def readValue (a : Anchors) : (depth : Nat) → Node → Follow Value
  | 0 => readWith a none
  | depth + 1 => readWith a (some (readValue a depth))

def valueOf? (root : Node) : Option Value :=
  ((readValue (Anchors.ofRoot root) depthLimit root).run 0).map Prod.fst

def read? (text : String) : Option Value :=
  (node? text.toList).bind valueOf?

end LiveDocument.Yaml
