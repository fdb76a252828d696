import LiveDocument.Text.Utf8

/-!
# YAML tokens

The smallest parts of a YAML text that have a meaning of their own. Besides those that are
written, there are tokens for the start and the end of a block, which the indentation gives.
A tag is made of bytes: its percent escapes may spell what is no text.
-/

namespace LiveDocument.Yaml

/-- How a scalar is written. -/
inductive Style where
  | plain
  | singleQuoted
  | doubleQuoted
  | literal
  | folded
  deriving DecidableEq

/-- A tag or a part of one, as bytes. -/
abbrev Tag := List UInt8

namespace Tag

/-- The part of the bytes before the first that is zero. -/
def ofBytes (bs : List UInt8) : Tag :=
  bs.takeWhile (· != 0)

/-- What the tags of one's own begin with: an exclamation mark. Alone it is one of them. -/
def ownMark : Tag :=
  Text.bytes ['!']

/-- What the tags of the core schema begin with. -/
def coreMark : Tag :=
  Text.bytes "tag:yaml.org,2002:".toList

/-- The tag of a type of the core schema. -/
def core (name : String) : Tag :=
  coreMark ++ Text.bytes name.toList

/-- The tag is one's own. -/
def isOwn (t : Tag) : Bool :=
  ownMark.isPrefixOf t

end Tag

/-- The tokens of a text. -/
inductive Token where
  | streamEnd
  | versionDirective (major minor : Nat)
  | tagDirective (handle : List Char) (leading : Tag)
  | documentStart
  | documentEnd
  | blockSequenceStart
  | blockMappingStart
  | blockEnd
  | flowSequenceStart
  | flowSequenceEnd
  | flowMappingStart
  | flowMappingEnd
  | blockEntry
  | flowEntry
  | key
  | value
  | alias (name : List Char)
  | anchor (name : List Char)
  | tag (handle : List Char) (suffix : Tag)
  | scalar (text : List Char) (style : Style)
  deriving DecidableEq

end LiveDocument.Yaml
