import LiveDocument.Value.Basic

/-!
# Equality of values

Two values are the same when they are built alike: mappings with their entries in the same
order, floats with the same sign.

* `alike_iff`: the check decides equality.
-/

namespace LiveDocument.Value

mutual

/-- Decides whether two values are the same. -/
def alike : Value → Value → Bool
  | .null, .null => true
  | .boolean a, .boolean b => a == b
  | .integer a, .integer b => decide (a = b)
  | .float a, .float b => decide (a = b)
  | .string a, .string b => a == b
  | .sequence a, .sequence b => alikeItems a b
  | .mapping a, .mapping b => alikeEntries a b
  | _, _ => false

/-- Decides whether two lists of values are the same. -/
def alikeItems : List Value → List Value → Bool
  | [], [] => true
  | a :: as, b :: bs => alike a b && alikeItems as bs
  | _, _ => false

/-- Decides whether two lists of entries are the same. -/
def alikeEntries : List (String × Value) → List (String × Value) → Bool
  | [], [] => true
  | (j, a) :: as, (k, b) :: bs => j == k && (alike a b && alikeEntries as bs)
  | _, _ => false

end

mutual

theorem alike_iff : (a b : Value) → (alike a b = true ↔ a = b)
  | .null, b => by cases b <;> simp [alike]
  | .boolean _, b => by cases b <;> simp [alike]
  | .integer _, b => by cases b <;> simp [alike]
  | .float _, b => by cases b <;> simp [alike]
  | .string _, b => by cases b <;> simp [alike]
  | .sequence as, b => by
    cases b with
    | sequence bs => simp [alike, alikeItems_iff as bs]
    | _ => simp [alike]
  | .mapping as, b => by
    cases b with
    | mapping bs => simp [alike, alikeEntries_iff as bs]
    | _ => simp [alike]

theorem alikeItems_iff : (as bs : List Value) → (alikeItems as bs = true ↔ as = bs)
  | [], bs => by cases bs <;> simp [alikeItems]
  | a :: as, bs => by
    cases bs with
    | nil => simp [alikeItems]
    | cons b bs => simp [alikeItems, alike_iff a b, alikeItems_iff as bs]

theorem alikeEntries_iff :
    (as bs : List (String × Value)) → (alikeEntries as bs = true ↔ as = bs)
  | [], bs => by cases bs <;> simp [alikeEntries]
  | (j, a) :: as, bs => by
    cases bs with
    | nil => simp [alikeEntries]
    | cons e bs =>
      obtain ⟨k, b⟩ := e
      simp [alikeEntries, alike_iff a b, alikeEntries_iff as bs, and_assoc]

end

instance : DecidableEq Value := fun a b => decidable_of_iff _ (alike_iff a b)

end LiveDocument.Value
