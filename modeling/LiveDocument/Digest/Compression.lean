/-!
# The BLAKE3 compression function

The state is a square of sixteen words held as four rows. A round mixes the four columns and
then the four diagonals; turning the rows makes the diagonals columns, so one step on whole
rows serves both.
-/

namespace LiveDocument.Digest

/-- A row of four words. -/
structure Row where
  a : UInt32
  b : UInt32
  c : UInt32
  d : UInt32
  deriving DecidableEq

namespace Row

def add (x y : Row) : Row :=
  ⟨x.a + y.a, x.b + y.b, x.c + y.c, x.d + y.d⟩

/-- The exclusive or of the words, each then turned right by `n` bits. -/
def xorTurned (n : UInt32) (x y : Row) : Row :=
  let turn (w : UInt32) : UInt32 := (w >>> n) ||| (w <<< (32 - n))
  ⟨turn (x.a ^^^ y.a), turn (x.b ^^^ y.b), turn (x.c ^^^ y.c), turn (x.d ^^^ y.d)⟩

def xor (x y : Row) : Row :=
  ⟨x.a ^^^ y.a, x.b ^^^ y.b, x.c ^^^ y.c, x.d ^^^ y.d⟩

/-- The row turned left by one word. -/
def turn (x : Row) : Row :=
  ⟨x.b, x.c, x.d, x.a⟩

end Row

/-- Eight words: a chaining value, or a digest. -/
structure Chain where
  low : Row
  high : Row
  deriving DecidableEq

/-- The sixteen words of a block. -/
structure Block where
  r0 : Row
  r1 : Row
  r2 : Row
  r3 : Row
  deriving DecidableEq

def initialChain : Chain where
  low := ⟨0x6A09E667, 0xBB67AE85, 0x3C6EF372, 0xA54FF53A⟩
  high := ⟨0x510E527F, 0x9B05688C, 0x1F83D9AB, 0x5BE0CD19⟩

/-- The order in which the next round takes the words of a block. -/
def Block.permute (m : Block) : Block where
  r0 := ⟨m.r0.c, m.r1.c, m.r0.d, m.r2.c⟩
  r1 := ⟨m.r1.d, m.r0.a, m.r1.a, m.r3.b⟩
  r2 := ⟨m.r0.b, m.r2.d, m.r3.a, m.r1.b⟩
  r3 := ⟨m.r2.b, m.r3.c, m.r3.d, m.r2.a⟩

/-- Mixes the columns of a state with two rows of message words. -/
def mixColumns (s : Block) (x y : Row) : Block :=
  let r0 := (s.r0.add s.r1).add x
  let r3 := s.r3.xorTurned 16 r0
  let r2 := s.r2.add r3
  let r1 := s.r1.xorTurned 12 r2
  let r0 := (r0.add r1).add y
  let r3 := r3.xorTurned 8 r0
  let r2 := r2.add r3
  let r1 := r1.xorTurned 7 r2
  ⟨r0, r1, r2, r3⟩

/-- Turns the rows so that the diagonals become columns. -/
def Block.skew (s : Block) : Block :=
  ⟨s.r0, s.r1.turn, s.r2.turn.turn, s.r3.turn.turn.turn⟩

/-- Turns the rows back. -/
def Block.unskew (s : Block) : Block :=
  ⟨s.r0, s.r1.turn.turn.turn, s.r2.turn.turn, s.r3.turn⟩

/-- One round. -/
def round (s m : Block) : Block :=
  let s := mixColumns s ⟨m.r0.a, m.r0.c, m.r1.a, m.r1.c⟩ ⟨m.r0.b, m.r0.d, m.r1.b, m.r1.d⟩
  let s := mixColumns s.skew ⟨m.r2.a, m.r2.c, m.r3.a, m.r3.c⟩ ⟨m.r2.b, m.r2.d, m.r3.b, m.r3.d⟩
  s.unskew

/-- Several rounds, the block permuted between each two. -/
def rounds : Nat → (state message : Block) → Block
  | 0, s, _ => s
  | n + 1, s, m => rounds n (round s m) m.permute

/-- What is compressed besides the block: a counter, the length of the block and flags. -/
structure Frame where
  counter : UInt64
  length : UInt32
  flags : UInt32

/-- The next chaining value: seven rounds on the chaining value, half of the initial one and
the frame, folded to eight words. -/
def compress (chain : Chain) (message : Block) (f : Frame) : Chain :=
  let frame : Row := ⟨f.counter.toUInt32, (f.counter >>> 32).toUInt32, f.length, f.flags⟩
  let s := rounds 7 ⟨chain.low, chain.high, initialChain.low, frame⟩ message
  ⟨s.r0.xor s.r2, s.r1.xor s.r3⟩

end LiveDocument.Digest
