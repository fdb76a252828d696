import LiveDocument.Digest.Compression
import LiveDocument.Text.Hex

/-!
# The BLAKE3 digest of a text

The bytes are cut into chunks of 1024, each compressed block by block, and the chunks are
combined pairwise, level by level, an odd last one moving up as it is. The last compression of
all carries the root flag, so every node is kept as a compression still to be done.
-/

namespace LiveDocument

/-- A digest of 32 bytes. -/
structure Digest where
  words : Digest.Chain
  deriving DecidableEq

namespace Digest

/-- A compression still to be done. -/
structure Node where
  chain : Chain
  message : Block
  frame : Frame

/-- The flag of a chunk's first block. -/
def chunkStart : UInt32 := 1

/-- The flag of a chunk's last block. -/
def chunkEnd : UInt32 := 2

/-- The flag of a node above two others. -/
def parent : UInt32 := 4

/-- The flag of the last compression. -/
def root : UInt32 := 8

def Node.value (n : Node) : Chain :=
  compress n.chain n.message n.frame

def Node.digest (n : Node) : Digest :=
  ⟨compress n.chain n.message { n.frame with flags := n.frame.flags ||| root }⟩

/-- Four bytes as a word, the least significant first; missing bytes are zero. -/
def word : List UInt8 → UInt32
  | [] => 0
  | b :: bs => b.toUInt32 ||| (word bs <<< 8)

/-- Sixteen bytes as a row. -/
def row (bs : List UInt8) : Row :=
  ⟨word (bs.take 4), word ((bs.drop 4).take 4), word ((bs.drop 8).take 4),
    word ((bs.drop 12).take 4)⟩

/-- Up to 64 bytes as a block, filled up with zeros. -/
def block (bs : List UInt8) : Block :=
  ⟨row (bs.take 16), row ((bs.drop 16).take 16), row ((bs.drop 32).take 16),
    row ((bs.drop 48).take 16)⟩

/-- Cuts a list into pieces of `size`, at most `fuel` of them; the empty list is one piece. -/
def pieces {α : Type} (size : Nat) : (fuel : Nat) → List α → List (List α)
  | 0, bs => [bs]
  | fuel + 1, bs =>
    if bs.length ≤ size then [bs] else bs.take size :: pieces size fuel (bs.drop size)

/-- The node of a chunk from its blocks on. -/
def chunkFrom (counter : UInt64) (chain : Chain) (flags : UInt32) : List (List UInt8) → Node
  | [] => ⟨chain, block [], ⟨counter, 0, flags ||| chunkEnd⟩⟩
  | [b] => ⟨chain, block b, ⟨counter, b.length.toUInt32, flags ||| chunkEnd⟩⟩
  | b :: rest =>
    chunkFrom counter (compress chain (block b) ⟨counter, b.length.toUInt32, flags⟩) 0 rest

def chunk (counter : UInt64) (bs : List UInt8) : Node :=
  chunkFrom counter initialChain chunkStart (pieces 64 16 bs)

/-- The node above two others. -/
def above (left right : Node) : Node :=
  let l := left.value
  let r := right.value
  ⟨initialChain, ⟨l.low, l.high, r.low, r.high⟩, ⟨0, 64, parent⟩⟩

def pairUp : List Node → List Node
  | l :: r :: rest => above l r :: pairUp rest
  | rest => rest

/-- Combines level by level until one node is left; every level halves the list. -/
def top : (fuel : Nat) → List Node → Option Node
  | 0, nodes => nodes.head?
  | _ + 1, [] => none
  | _ + 1, [n] => some n
  | fuel + 1, nodes => top fuel (pairUp nodes)

/-- The nodes of the chunks, numbered from `counter`. -/
def chunks (counter : UInt64) : List (List UInt8) → List Node
  | [] => []
  | bs :: rest => chunk counter bs :: chunks (counter + 1) rest

/-- The digest of a list of bytes. -/
def ofBytes (bs : List UInt8) : Digest :=
  match top bs.length (chunks 0 (pieces 1024 bs.length bs)) with
  | some n => n.digest
  | none => ⟨initialChain⟩

/-- The digest of a text's UTF-8 form. -/
def ofText (text : String) : Digest :=
  ofBytes text.toUTF8.toList

/-- The bytes of a word, the least significant first. -/
def wordBytes (w : UInt32) : List UInt8 :=
  [w.toUInt8, (w >>> 8).toUInt8, (w >>> 16).toUInt8, (w >>> 24).toUInt8]

def rowBytes (r : Row) : List UInt8 :=
  wordBytes r.a ++ wordBytes r.b ++ wordBytes r.c ++ wordBytes r.d

def bytes (d : Digest) : List UInt8 :=
  rowBytes d.words.low ++ rowBytes d.words.high

def hex (d : Digest) : String :=
  String.ofList (d.bytes.flatMap fun b =>
    [Text.hexDigit (b.toNat / 16), Text.hexDigit (b.toNat % 16)])

/-- The first sixteen digits, for short messages. -/
def short (d : Digest) : String :=
  String.ofList (d.hex.toList.take 16)

end Digest

end LiveDocument
