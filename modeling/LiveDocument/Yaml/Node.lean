import LiveDocument.Yaml.Token

/-!
# YAML nodes

The tree that a text describes before its scalars are given a meaning. An alias stands for the
node that carries its anchor. Anchors are numbers; a number may be given out twice, and then
the node that starts last has it.
-/

namespace LiveDocument.Yaml

/-- A node: its anchor and its tag, if it has them, and its content. -/
inductive Node where
  | alias (anchor : Nat)
  | scalar (anchor : Option Nat) (tag : Option Tag) (text : List Char) (style : Style)
  | sequence (anchor : Option Nat) (tag : Option Tag) (items : List Node)
  | mapping (anchor : Option Nat) (tag : Option Tag) (entries : List (Node × Node))

namespace Node

/-- What stands where a node is left out. -/
def absent : Node :=
  .scalar none none [] .plain

def anchor? : Node → Option Nat
  | .alias _ => none
  | .scalar anchor _ _ _ => anchor
  | .sequence anchor _ _ => anchor
  | .mapping anchor _ _ => anchor

def tag? : Node → Option Tag
  | .alias _ => none
  | .scalar _ tag _ _ => tag
  | .sequence _ tag _ => tag
  | .mapping _ tag _ => tag

mutual

/-- The size of a node: scalars and aliases count once, collections twice. -/
def size : Node → Nat
  | .alias _ => 1
  | .scalar _ _ _ _ => 1
  | .sequence _ _ items => sizeAll items + 2
  | .mapping _ _ entries => sizeEntries entries + 2

def sizeAll : List Node → Nat
  | [] => 0
  | item :: items => size item + sizeAll items

/-- The size of all keys and values. -/
def sizeEntries : List (Node × Node) → Nat
  | [] => 0
  | (key, value) :: entries => size key + size value + sizeEntries entries

end

/-- A node under its anchor, if it has one. -/
def anchored (n : Node) : List (Nat × Node) :=
  match n.anchor? with
  | some anchor => [(anchor, n)]
  | none => []

mutual

/-- The anchored nodes of a tree, in the order in which they start. -/
def anchors : Node → List (Nat × Node)
  | .alias _ => []
  | .scalar anchor tag text style => anchored (.scalar anchor tag text style)
  | .sequence anchor tag items => anchored (.sequence anchor tag items) ++ anchorsAll items
  | .mapping anchor tag entries =>
    anchored (.mapping anchor tag entries) ++ anchorsEntries entries

def anchorsAll : List Node → List (Nat × Node)
  | [] => []
  | item :: items => anchors item ++ anchorsAll items

/-- The anchored nodes of all keys and values. -/
def anchorsEntries : List (Node × Node) → List (Nat × Node)
  | [] => []
  | (key, value) :: entries => anchors key ++ anchors value ++ anchorsEntries entries

end

end Node

end LiveDocument.Yaml
