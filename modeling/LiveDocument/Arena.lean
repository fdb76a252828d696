import LiveDocument.Address.Segment
import LiveDocument.Value.Basic

/-!
# The arena of issued handles

Every issued handle has a slot, which it shares with no other handle that is valid. A ticket
names the slot, the generation that the slot had when the handle was issued, and a serial
number that no other issue ever gets. Retiring a slot raises its generation, so the tickets of
its former tenants are dead for ever, and frees it for another handle.

A tenant that was issued for the cache is also found by its key, but only while somebody holds
its handle: the arena records the serial numbers that are held. Slots whose tenants nobody
holds are swept once the number of slots reaches a threshold.
-/

namespace LiveDocument

/-- What a handle keeps to find its slot again. -/
structure Ticket where
  serial : Nat
  slot : Nat
  generation : Nat
  deriving DecidableEq

/-- What is known of the handle that occupies a slot: its path, the kind of value it was issued
for, its key if it was issued for the cache, and its ticket. -/
structure Tenant (κ : Type) where
  path : Path
  kind : Kind
  key : Option κ
  ticket : Ticket
  deriving DecidableEq

/-- A slot counts how often it has been retired. -/
structure Slot (κ : Type) where
  generation : Nat
  tenant : Option (Tenant κ)
  deriving DecidableEq

/-- The slots, the free ones among them with the next to be used first, the slot of each cached
key, the number of slots at which the next sweep is due, how many tickets have been issued, and
the serial numbers of the handles that somebody holds. -/
structure Arena (κ : Type) where
  slots : List (Slot κ)
  free : List Nat
  index : List (κ × Nat)
  sweepAt : Nat
  issued : Nat
  held : List Nat
  deriving DecidableEq

namespace Arena

variable {κ : Type} [DecidableEq κ]

/-- The number of slots at which the first sweep is due. -/
def firstSweep : Nat :=
  64

def empty : Arena κ :=
  ⟨[], [], [], firstSweep, 0, []⟩

/-- Somebody holds the handle with this serial number. -/
def isHeld (a : Arena κ) (serial : Nat) : Bool :=
  a.held.contains serial

/-- The slot that is found by a key. -/
def slotOf? (a : Arena κ) (key : κ) : Option Nat :=
  (a.index.find? fun entry => decide (entry.1 = key)).map Prod.snd

/-- The occupant of a slot. -/
def tenant? (a : Arena κ) (slot : Nat) : Option (Tenant κ) :=
  (a.slots[slot]?).bind Slot.tenant

/-- The cached tenant with this key, if it is valid and held. -/
def lookup? (a : Arena κ) (key : κ) : Option (Tenant κ) :=
  (a.slotOf? key).bind fun slot =>
    (a.slots[slot]?).bind fun s =>
      s.tenant.bind fun t =>
        if a.isHeld t.ticket.serial && t.ticket.generation == s.generation then some t else none

/-- The ticket's handle is the occupant of its slot. -/
def isLive (a : Arena κ) (t : Ticket) : Bool :=
  match a.slots[t.slot]? with
  | some s => s.tenant.isSome && s.generation == t.generation
  | none => false

/-- The index without a key's entry. -/
def forget (index : List (κ × Nat)) (key : κ) : List (κ × Nat) :=
  index.filter fun entry => !decide (entry.1 = key)

/-- Ends the validity of a slot's tenant and frees the slot. The tenant's key is forgotten
unless another slot has it by now. -/
def retire (a : Arena κ) (slot : Nat) : Arena κ :=
  match a.slots[slot]? with
  | some ⟨generation, some t⟩ =>
    { a with
      slots := a.slots.set slot ⟨generation + 1, none⟩
      free := slot :: a.free
      index :=
        match t.key with
        | some key => if a.slotOf? key = some slot then forget a.index key else a.index
        | none => a.index }
  | _ => a

/-- Ends the validity of a ticket's handle, and tells whether it was valid. -/
def retireTicket (a : Arena κ) (t : Ticket) : Bool × Arena κ :=
  if a.isLive t then (true, a.retire t.slot) else (false, a)

/-- The occupied slots whose tenants satisfy a condition, in order. -/
def slotsWhere (a : Arena κ) (p : Tenant κ → Bool) : List Nat :=
  (List.range a.slots.length).filter fun slot =>
    match a.tenant? slot with
    | some t => p t
    | none => false

/-- Ends the validity of all tenants that satisfy a condition. -/
def retireWhere (a : Arena κ) (p : Tenant κ → Bool) : Arena κ :=
  (a.slotsWhere p).foldl retire a

/-- The number of cached keys whose handle somebody holds. -/
def cachedCount (a : Arena κ) : Nat :=
  a.index.countP fun entry =>
    match a.tenant? entry.2 with
    | some t => a.isHeld t.ticket.serial
    | none => false

/-- Frees the slots whose tenants nobody holds. -/
def sweep (a : Arena κ) : Arena κ :=
  a.retireWhere fun t => !a.isHeld t.ticket.serial

/-- Adds a slot that was never used. -/
def grow (a : Arena κ) : Nat × Arena κ :=
  (a.slots.length, { a with slots := a.slots ++ [⟨0, none⟩] })

/-- Takes a slot for a new handle: a free one, else one freed by a sweep that is due, else a
new one. -/
def allocate (a : Arena κ) : Nat × Arena κ :=
  match a.free with
  | slot :: free => (slot, { a with free := free })
  | [] =>
    if a.sweepAt ≤ a.slots.length then
      let swept := a.sweep
      let due := { swept with sweepAt := max (swept.slots.length * 2) firstSweep }
      match due.free with
      | slot :: free => (slot, { due with free := free })
      | [] => due.grow
    else a.grow

/-- Issues a handle, which its receiver holds. With `cache`, it becomes the one that is found
by the key. -/
def issue (a : Arena κ) (path : Path) (kind : Kind) (key : κ) (cache : Bool) :
    Ticket × Arena κ :=
  let (slot, b) := a.allocate
  let generation := ((b.slots[slot]?).map Slot.generation).getD 0
  let ticket : Ticket := ⟨b.issued, slot, generation⟩
  let tenant : Tenant κ := ⟨path, kind, if cache then some key else none, ticket⟩
  (ticket,
    { b with
      slots := b.slots.set slot ⟨generation, some tenant⟩
      index := if cache then (key, slot) :: forget b.index key else b.index
      issued := b.issued + 1
      held := b.issued :: b.held })

/-- Lets go of all handles but those that satisfy a condition. -/
def keep (a : Arena κ) (p : Nat → Bool) : Arena κ :=
  { a with held := a.held.filter p }

end Arena

end LiveDocument
