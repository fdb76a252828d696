/-!
# UTF-8

The bytes of a text and the shape of the forms that make them up: a form of more than one byte
begins with a byte that tells its length, and trailing bytes follow.
-/

namespace LiveDocument.Text

/-- The number of bytes in the UTF-8 form of a text. -/
def byteLength (cs : List Char) : Nat :=
  cs.foldr (fun c n => c.utf8Size + n) 0

def bytes (cs : List Char) : List UInt8 :=
  cs.flatMap String.utf8EncodeChar

/-- The length of the form that a byte begins; a trailing byte begins none. -/
def sequenceLength? (b : UInt8) : Option Nat :=
  if b < 0x80 then some 1
  else if 0xC0 ≤ b && b < 0xE0 then some 2
  else if 0xE0 ≤ b && b < 0xF0 then some 3
  else if 0xF0 ≤ b && b < 0xF8 then some 4
  else none

/-- The bytes that follow the first in a form. -/
def isTrailing (b : UInt8) : Bool :=
  0x80 ≤ b && b < 0xC0

/-- The bytes are the UTF-8 form of a text. -/
def isText (bs : List UInt8) : Bool :=
  (String.fromUTF8? bs.toByteArray).isSome

theorem byteLength_cons (c : Char) (cs : List Char) :
    byteLength (c :: cs) = c.utf8Size + byteLength cs :=
  rfl

theorem byteLength_append (cs ds : List Char) :
    byteLength (cs ++ ds) = byteLength cs + byteLength ds := by
  induction cs with
  | nil => exact (Nat.zero_add _).symm
  | cons c cs ih => rw [List.cons_append, byteLength_cons, byteLength_cons, ih, Nat.add_assoc]

end LiveDocument.Text
