import LiveDocument.Arena

/-!
# A store without slots

What an arena is for, said without slots. Every issue makes a handle with a number of its own; a
handle is valid until it is retired; a key leads to the handle that was last cached under it, until
that handle is retired, and only while somebody holds it. Nothing is swept and nothing is used
again.

The same operations can be carried out on a ledger and on an arena. In both a handle is named by
the number of its issue, and of both the same is seen: what an operation answers, as far as it is
about handles that are held, and which of the held handles are valid after it.

* `Ledger`: the store without slots. `Issuance`: an arena together with all its tickets.
* `Ledger.trace`, `Issuance.trace`: what is seen of operations one after the other.
-/

namespace LiveDocument

/-- A valid handle: its number, and what it was issued for. -/
structure Record where
  number : Nat
  path : Path
  kind : Kind
  deriving DecidableEq

/-- How many handles have been issued, which of them are valid, the number that each cached key
leads to, and the numbers of the handles that somebody holds. -/
structure Ledger (κ : Type) where
  issued : Nat
  valid : List Record
  index : List (κ × Nat)
  held : List Nat

/-- What is done to a store of handles. -/
inductive Operation (κ : Type) where
  | issue (path : Path) (kind : Kind) (key : κ) (cache : Bool)
  | lookup (key : κ)
  | isLive (number : Nat)
  | retire (number : Nat)
  | retireWhere (stale : Path → Kind → Bool)
  | cachedCount
  | drop (number : Nat)

/-- What an operation answers. Nothing is seen of a handle that nobody holds. -/
inductive Observation where
  | nothing
  | issued (number : Nat)
  | found (number : Option Nat)
  | flag (b : Bool)
  | count (n : Nat)
  deriving DecidableEq

namespace Ledger

variable {κ : Type}

def empty : Ledger κ :=
  ⟨0, [], [], []⟩

/-- Somebody holds the handle with this number. -/
def isHeld (l : Ledger κ) (number : Nat) : Bool :=
  l.held.contains number

/-- The handle with this number has been issued and not been retired. -/
def isLive (l : Ledger κ) (number : Nat) : Bool :=
  l.valid.any fun r => r.number == number

/-- Retires all handles but those that satisfy a condition. No key leads to a retired one. -/
def retain (l : Ledger κ) (p : Record → Bool) : Ledger κ :=
  let kept := l.valid.filter p
  { l with
    valid := kept
    index := l.index.filter fun entry => kept.any fun r => r.number == entry.2 }

def cachedCount (l : Ledger κ) : Nat :=
  l.index.countP fun entry => l.isHeld entry.2

/-- Lets go of a handle. -/
def drop (l : Ledger κ) (number : Nat) : Ledger κ :=
  { l with held := l.held.filter (· != number) }

section

variable [DecidableEq κ]

/-- The held handle that was last cached under a key. -/
def lookup? (l : Ledger κ) (key : κ) : Option Nat :=
  ((l.index.find? fun entry => decide (entry.1 = key)).map Prod.snd).filter l.isHeld

/-- Issues a handle, which its receiver holds. With `cache`, the key leads to it from now on. -/
def issue (l : Ledger κ) (path : Path) (kind : Kind) (key : κ) (cache : Bool) : Ledger κ where
  issued := l.issued + 1
  valid := ⟨l.issued, path, kind⟩ :: l.valid
  index :=
    if cache then (key, l.issued) :: l.index.filter fun entry => !decide (entry.1 = key)
    else l.index
  held := l.issued :: l.held

def perform (l : Ledger κ) : Operation κ → Observation × Ledger κ
  | .issue path kind key cache => (.issued l.issued, l.issue path kind key cache)
  | .lookup key => (.found (l.lookup? key), l)
  | .isLive number => (if l.isHeld number then .flag (l.isLive number) else .nothing, l)
  | .retire number =>
    (if l.isHeld number then .flag (l.isLive number) else .nothing,
      l.retain fun r => r.number != number)
  | .retireWhere stale => (.nothing, l.retain fun r => !stale r.path r.kind)
  | .cachedCount => (.count l.cachedCount, l)
  | .drop number => (.nothing, l.drop number)

end

/-- Which of the held handles are valid. -/
def sight (l : Ledger κ) : List (Nat × Bool) :=
  l.held.map fun number => (number, l.isLive number)

variable [DecidableEq κ]

def after (l : Ledger κ) : List (Operation κ) → Ledger κ
  | [] => l
  | op :: rest => (l.perform op).2.after rest

/-- What is seen of operations one after the other. -/
def trace (l : Ledger κ) : List (Operation κ) → List (Observation × List (Nat × Bool))
  | [] => []
  | op :: rest => ((l.perform op).1, (l.perform op).2.sight) :: (l.perform op).2.trace rest

end Ledger

/-- An arena and the tickets that it has issued, in their order. -/
structure Issuance (κ : Type) where
  arena : Arena κ
  tickets : List Ticket

namespace Issuance

variable {κ : Type} [DecidableEq κ]

def empty : Issuance κ :=
  ⟨Arena.empty, []⟩

/-- The ticket of the handle with this number is that of its slot's occupant. -/
def isLive (s : Issuance κ) (number : Nat) : Bool :=
  match s.tickets[number]? with
  | some t => s.arena.isLive t
  | none => false

def perform (s : Issuance κ) : Operation κ → Observation × Issuance κ
  | .issue path kind key cache =>
    let (ticket, arena) := s.arena.issue path kind key cache
    (.issued ticket.serial, ⟨arena, s.tickets ++ [ticket]⟩)
  | .lookup key => (.found ((s.arena.lookup? key).map fun t => t.ticket.serial), s)
  | .isLive number => (if s.arena.isHeld number then .flag (s.isLive number) else .nothing, s)
  | .retire number =>
    match s.tickets[number]? with
    | some t =>
      let (ended, arena) := s.arena.retireTicket t
      (if s.arena.isHeld number then .flag ended else .nothing, { s with arena := arena })
    | none => (.nothing, s)
  | .retireWhere stale =>
    (.nothing, { s with arena := s.arena.retireWhere fun t => stale t.path t.kind })
  | .cachedCount => (.count s.arena.cachedCount, s)
  | .drop number => (.nothing, { s with arena := s.arena.keep (· != number) })

/-- Which of the held handles are valid. -/
def sight (s : Issuance κ) : List (Nat × Bool) :=
  s.arena.held.map fun number => (number, s.isLive number)

def after (s : Issuance κ) : List (Operation κ) → Issuance κ
  | [] => s
  | op :: rest => (s.perform op).2.after rest

/-- What is seen of operations one after the other. -/
def trace (s : Issuance κ) : List (Operation κ) → List (Observation × List (Nat × Bool))
  | [] => []
  | op :: rest => ((s.perform op).1, (s.perform op).2.sight) :: (s.perform op).2.trace rest

end Issuance

end LiveDocument
