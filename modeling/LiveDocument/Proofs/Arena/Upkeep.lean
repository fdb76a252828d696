import LiveDocument.Proofs.Arena.Issue
import LiveDocument.Proofs.Arena.Ledger

/-!
# The upkeep of an arena

Slots, free list, index and tickets tell of the same handles in four ways, and every operation has
to keep them in step: the entry of a key can be overtaken by that of a newer tenant, and a sweep
retires many slots while one is being taken. Here this is settled for an arena together with all the
tickets that it has issued, whatever is done to it from the beginning.

* `Arena.allocate_eq`: a slot is taken after the sweep that is due.
* `Arena.turns`: how many handles have had a slot. Only issuing raises it.
* `Issuance.Kept`: the arena is sound, and its tickets are known and counted by the turns.
  `Kept.perform`, `Kept.after`: every operation keeps this.
* `Issuance.performWithin?`: an operation with every position checked that it looks at.
  `Kept.performWithin?_eq`: no check fails.
* `Issuance.InStep`: slots, free list, index and tickets agree. `in_step_after`: they always do.
-/

namespace LiveDocument

variable {κ : Type}

/-- How many handles have had the slot: as many as have been retired from it, and its tenant. -/
def Slot.turns (s : Slot κ) : Nat :=
  s.generation + if s.tenant.isSome then 1 else 0

namespace Arena

/-- The key that is recorded for a slot. -/
def keyAt? (a : Arena κ) (i : Nat) : Option κ :=
  (a.tenant? i).bind Tenant.key

/-- The serial number of the handle in a slot, if somebody holds it. -/
def holderAt? (a : Arena κ) (i : Nat) : Option Nat :=
  ((a.tenant? i).map fun t => t.ticket.serial).filter a.isHeld

/-- How many handles have had a slot. -/
def turns (a : Arena κ) (i : Nat) : Nat :=
  (a.slots[i]?).elim 0 Slot.turns

section

variable [DecidableEq κ]

/-! ## Taking a slot in two steps -/

/-- A slot is wanted, none is free, and there are as many as are allowed before the next sweep. -/
def SweepDue (a : Arena κ) : Prop :=
  a.free = [] ∧ a.sweepAt ≤ a.slots.length

omit [DecidableEq κ] in
instance (a : Arena κ) : Decidable a.SweepDue :=
  inferInstanceAs (Decidable (_ ∧ _))

/-- The arena after the sweep, if one is due. -/
def ready (a : Arena κ) : Arena κ :=
  if a.SweepDue then { a.sweep with sweepAt := max (a.sweep.slots.length * 2) firstSweep } else a

omit [DecidableEq κ] in
/-- Takes a free slot, else a new one. -/
def take (a : Arena κ) : Nat × Arena κ :=
  match a.free with
  | slot :: free => (slot, { a with free := free })
  | [] => a.grow

theorem allocate_eq (a : Arena κ) : a.allocate = a.ready.take := by
  unfold allocate ready
  split
  · rename_i slot free hfree
    have hnot : ¬ a.SweepDue := by
      rintro ⟨hnil, -⟩
      rw [hnil] at hfree
      cases hfree
    rw [if_neg hnot, take, hfree]
  · rename_i hfree
    by_cases hdue : a.sweepAt ≤ a.slots.length
    · rw [if_pos hdue, if_pos ⟨hfree, hdue⟩]
      rfl
    · rw [if_neg hdue, if_neg fun h => hdue h.2, take, hfree]

/-! ## Turns -/

theorem turns_retire (a : Arena κ) (slot i : Nat) : (a.retire slot).turns i = a.turns i := by
  cases h : a.tenant? slot with
  | none => rw [retire_of_vacant h]
  | some t =>
    obtain ⟨g, hs⟩ := exists_slot_of_tenant? h
    unfold turns
    rw [slots_retire hs]
    by_cases hi : i = slot
    · rw [if_pos hi, hi, hs]
      rfl
    · rw [if_neg hi]

theorem turns_retireWhere (a : Arena κ) (p : Tenant κ → Bool) (i : Nat) :
    (a.retireWhere p).turns i = a.turns i :=
  retireWhere_induction (motive := fun b => b.turns i = a.turns i) p rfl fun {b} slot hb =>
    (turns_retire b slot i).trans hb

omit [DecidableEq κ] in
theorem turns_take (a : Arena κ) (i : Nat) : a.take.2.turns i = a.turns i := by
  unfold take
  split
  · rfl
  · unfold turns grow
    dsimp only
    rcases Nat.lt_trichotomy i a.slots.length with hlt | rfl | hgt
    · rw [List.getElem?_append_left hlt]
    · rw [List.getElem?_concat_length, List.getElem?_eq_none (Nat.le_refl _)]
      rfl
    · rw [List.getElem?_eq_none (by simp; omega), List.getElem?_eq_none (Nat.le_of_lt hgt)]

theorem turns_allocate (a : Arena κ) (i : Nat) : a.allocate.2.turns i = a.turns i := by
  rw [allocate_eq, turns_take]
  unfold ready
  split
  · exact turns_retireWhere a _ i
  · rfl

/-- A new handle has a turn in its slot. -/
theorem turns_issue {a : Arena κ} (hA : a.Sound) (path : Path) (kind : Kind) (key : κ)
    (cache : Bool) (i : Nat) : (a.issue path kind key cache).2.turns i =
      a.turns i + if a.allocate.1 = i then 1 else 0 := by
  rw [← turns_allocate a i]
  unfold turns
  rw [slots_issue path kind key cache hA]
  by_cases hi : i = a.allocate.1
  · subst hi
    obtain ⟨htaken, -⟩ := allocate_spec hA
    obtain ⟨s, hs⟩ : ∃ s, a.allocate.2.slots[a.allocate.1]? = some s :=
      ⟨_, List.getElem?_eq_getElem htaken.slot_lt⟩
    have hvacant : s.tenant = none := by
      have h := htaken.vacant
      rwa [tenant?, hs, Option.bind_some] at h
    have hgeneration : a.nextTicket.generation = s.generation := by
      rw [nextTicket, hs]
      rfl
    rw [if_pos rfl, if_pos rfl, hs, hgeneration]
    simp [Slot.turns, hvacant]
  · rw [if_neg hi, if_neg fun h => hi h.symm, Nat.add_zero]

/-! ## Checked operations -/

omit [DecidableEq κ] in
theorem lt_of_mem_slotsWhere {a : Arena κ} {p : Tenant κ → Bool} {i : Nat}
    (h : i ∈ a.slotsWhere p) : i < a.slots.length := by
  obtain ⟨t, ht, -⟩ := mem_slotsWhere.mp h
  exact lt_of_tenant? ht

/-- The cached tenant with a key; no answer if the key's entry leads beyond the slots. -/
def lookupWithin? (a : Arena κ) (key : κ) : Option (Option (Tenant κ)) :=
  match a.slotOf? key with
  | none => some none
  | some slot => (a.slots[slot]?).map fun s =>
    s.tenant.filter fun t => a.isHeld t.ticket.serial && t.ticket.generation == s.generation

/-- The number of cached keys whose handle is held; no answer if an entry leads beyond the slots. -/
def cachedCountWithin? (a : Arena κ) : Option Nat :=
  if ∀ entry ∈ a.index, entry.2 < a.slots.length then some a.cachedCount else none

/-- Retires a slot, if there is one. -/
def retireWithin? (a : Arena κ) (slot : Nat) : Option (Arena κ) :=
  if slot < a.slots.length then some (a.retire slot) else none

/-- Retires slots one after the other, as long as they exist. -/
def retireAllWithin? (a : Arena κ) (slots : List Nat) : Option (Arena κ) :=
  slots.foldlM retireWithin? a

def retireTicketWithin? (a : Arena κ) (t : Ticket) : Option (Bool × Arena κ) :=
  if a.isLive t then (a.retireWithin? t.slot).map fun b => (true, b) else some (false, a)

def readyWithin? (a : Arena κ) : Option (Arena κ) :=
  if a.SweepDue then
    (a.retireAllWithin? (a.slotsWhere fun t => !a.isHeld t.ticket.serial)).map fun swept =>
      { swept with sweepAt := max (swept.slots.length * 2) firstSweep }
  else some a

/-- Issues a handle, if the slot that is taken for it exists. -/
def issueWithin? (a : Arena κ) (path : Path) (kind : Kind) (key : κ) (cache : Bool) :
    Option (Ticket × Arena κ) :=
  (a.readyWithin?.map take).bind fun (slot, b) => (b.slots[slot]?).map fun s =>
    let ticket : Ticket := ⟨b.issued, slot, s.generation⟩
    let tenant : Tenant κ := ⟨path, kind, if cache then some key else none, ticket⟩
    (ticket,
      { b with
        slots := b.slots.set slot ⟨s.generation, some tenant⟩
        index := if cache then (key, slot) :: forget b.index key else b.index
        issued := b.issued + 1
        held := b.issued :: b.held })

theorem lookupWithin?_eq {a : Arena κ} (hA : a.Tenancy) (key : κ) :
    a.lookupWithin? key = some (a.lookup? key) := by
  unfold lookupWithin? lookup?
  cases hslot : a.slotOf? key with
  | none => rfl
  | some slot =>
    obtain ⟨t, ht, -⟩ := hA.index_sound ((slotOf?_eq_some hA).mp hslot)
    obtain ⟨g, hs⟩ := exists_slot_of_tenant? ht
    dsimp only
    rw [Option.bind_some, hs, Option.map_some, Option.bind_some, Option.bind_some,
      Option.filter_some]

omit [DecidableEq κ] in
theorem cachedCountWithin?_eq {a : Arena κ} (hA : a.Tenancy) :
    a.cachedCountWithin? = some a.cachedCount := by
  refine if_pos fun entry hentry => ?_
  obtain ⟨t, ht, -⟩ := hA.index_sound hentry
  exact lt_of_tenant? ht

theorem retireAllWithin?_eq {a : Arena κ} {slots : List Nat} (h : ∀ i ∈ slots, i < a.slots.length) :
    a.retireAllWithin? slots = some (slots.foldl retire a) := by
  unfold retireAllWithin?
  induction slots generalizing a with
  | nil => rfl
  | cons slot rest ih =>
    have hfirst : a.retireWithin? slot = some (a.retire slot) := if_pos (h slot List.mem_cons_self)
    rw [List.foldlM_cons, hfirst, List.foldl_cons]
    refine ih fun i hi => ?_
    rw [length_slots_retire]
    exact h i (List.mem_cons_of_mem _ hi)

theorem retireTicketWithin?_eq {a : Arena κ} (t : Ticket) :
    a.retireTicketWithin? t = some (a.retireTicket t) := by
  unfold retireTicketWithin? retireTicket
  split
  · rename_i hlive
    -- A ticket is live only if its slot exists.
    have hlt : t.slot < a.slots.length := by
      unfold isLive at hlive
      split at hlive
      · rename_i s hs
        exact (List.getElem?_eq_some_iff.mp hs).1
      · cases hlive
    rw [retireWithin?, if_pos hlt, Option.map_some]
  · rfl

theorem readyWithin?_eq (a : Arena κ) : a.readyWithin? = some a.ready := by
  unfold readyWithin? ready
  split
  · rw [retireAllWithin?_eq fun i hi => lt_of_mem_slotsWhere hi, Option.map_some]
    rfl
  · rfl

theorem issueWithin?_eq {a : Arena κ} (hA : a.Sound) (path : Path) (kind : Kind) (key : κ)
    (cache : Bool) :
    a.issueWithin? path kind key cache = some (a.issue path kind key cache) := by
  have hlt := (allocate_spec hA).1.slot_lt
  unfold issueWithin? issue
  rw [readyWithin?_eq, Option.map_some, ← allocate_eq, Option.bind_some]
  dsimp only
  rw [List.getElem?_eq_getElem hlt, Option.map_some, Option.map_some, Option.getD_some]

end

end Arena

namespace Issuance

open Arena

/-! ## What every operation keeps -/

/-- The arena is sound, all tickets are known to it, and its tenants have some of them; and every
slot has had as many handles as there are tickets for it. -/
structure Kept (s : Issuance κ) : Prop where
  sound : s.arena.Sound
  known : ∀ {t : Ticket}, t ∈ s.tickets → s.arena.Knows t
  housed : ∀ {t : Tenant κ}, s.arena.Houses t → t.ticket ∈ s.tickets
  turns : ∀ i, s.arena.turns i = s.tickets.countP fun t => decide (t.slot = i)

theorem kept_empty : Kept (empty : Issuance κ) where
  sound := sound_empty
  known := fun h => by cases h
  housed := fun ⟨i, h⟩ => by simp [empty, Arena.empty, tenant?] at h
  turns := fun _ => rfl

namespace Kept

variable {s : Issuance κ}

/-- An arena that comes after and has no new tenants and no new turns. -/
theorem of_leads (h : s.Kept) {b : Arena κ} (hb : b.Sound) (hleads : s.arena.Leads b)
    (hhouses : ∀ {t : Tenant κ}, b.Houses t → s.arena.Houses t)
    (hturns : ∀ i, b.turns i = s.arena.turns i) : Kept { s with arena := b } where
  sound := hb
  known := fun ht => (h.known ht).of_leads hleads
  housed := fun ht => h.housed (hhouses ht)
  turns := fun i => (hturns i).trans (h.turns i)

theorem drop (h : s.Kept) (p : Nat → Bool) : Kept { s with arena := s.arena.keep p } :=
  h.of_leads (h.sound.hold List.filter_sublist.subset) (Leads.of_slots_eq rfl rfl)
    (fun ht => ht) fun _ => rfl

variable [DecidableEq κ]

theorem retireWhere (h : s.Kept) (p : Tenant κ → Bool) :
    Kept { s with arena := s.arena.retireWhere p } :=
  h.of_leads (h.sound.retireWhere p) (leads_retireWhere s.arena p)
    (fun ht => (houses_retireWhere.mp ht).1) (turns_retireWhere s.arena p)

theorem retireTicket (h : s.Kept) (t : Ticket) :
    Kept { s with arena := (s.arena.retireTicket t).2 } := by
  unfold Arena.retireTicket
  split
  · exact h.of_leads (h.sound.retire _) (leads_retire s.arena _) houses_of_retire
      (turns_retire s.arena _)
  · exact h

theorem issue (h : s.Kept) (path : Path) (kind : Kind) (key : κ) (cache : Bool) :
    Kept ⟨(s.arena.issue path kind key cache).2, s.tickets ++ [s.arena.nextTicket]⟩ := by
  have hsound := h.sound.issue path kind key cache
  constructor
  case sound => exact hsound
  case known =>
    intro t ht
    rcases List.mem_append.mp ht with hold | hnew
    · exact (h.known hold).of_leads (leads_issue path kind key cache h.sound)
    · rw [List.mem_singleton.mp hnew]
      exact Knows.of_houses hsound.toTenancy (houses_issue_self path kind key cache h.sound)
  case housed =>
    intro t ht
    rcases houses_of_issue path kind key cache h.sound ht with rfl | htaken
    · exact List.mem_append_right _ List.mem_cons_self
    · exact List.mem_append_left _ (h.housed ((allocate_spec h.sound).2.houses htaken))
  case turns =>
    intro i
    rw [turns_issue h.sound, h.turns, List.countP_append, List.countP_singleton]
    simp only [decide_eq_true_eq]
    rfl

theorem perform (h : s.Kept) (op : Operation κ) : Kept (s.perform op).2 := by
  cases op with
  | issue path kind key cache => exact h.issue path kind key cache
  | lookup key => exact h
  | isLive n => exact h
  | retire n =>
    unfold Issuance.perform
    dsimp only
    split
    · exact h.retireTicket _
    · exact h
  | retireWhere stale => exact h.retireWhere _
  | cachedCount => exact h
  | drop n => exact h.drop _

theorem after (h : s.Kept) (ops : List (Operation κ)) : Kept (s.after ops) := by
  induction ops generalizing s with
  | nil => exact h
  | cons op rest ih => exact ih (h.perform op)

end Kept

/-! ## Checked operations -/

section

variable [DecidableEq κ]

/-- Carries out an operation with every position checked that it looks at; there is no outcome if
one lies beyond the slots. -/
def performWithin? (s : Issuance κ) : Operation κ → Option (Observation × Issuance κ)
  | .issue path kind key cache =>
    (s.arena.issueWithin? path kind key cache).map fun (ticket, arena) =>
      (.issued ticket.serial, ⟨arena, s.tickets ++ [ticket]⟩)
  | .lookup key =>
    (s.arena.lookupWithin? key).map fun found => (.found (found.map fun t => t.ticket.serial), s)
  | .isLive number => some (s.perform (.isLive number))
  | .retire number =>
    match s.tickets[number]? with
    | some t =>
      (s.arena.retireTicketWithin? t).map fun (ended, arena) =>
        (if s.arena.isHeld number then .flag ended else .nothing, { s with arena := arena })
    | none => some (.nothing, s)
  | .retireWhere stale =>
    (s.arena.retireAllWithin? (s.arena.slotsWhere fun t => stale t.path t.kind)).map fun arena =>
      (.nothing, { s with arena := arena })
  | .cachedCount => s.arena.cachedCountWithin?.map fun n => (.count n, s)
  | .drop number => some (s.perform (.drop number))

/-- No operation looks beyond the slots. -/
theorem Kept.performWithin?_eq {s : Issuance κ} (h : s.Kept) (op : Operation κ) :
    s.performWithin? op = some (s.perform op) := by
  cases op with
  | issue path kind key cache =>
    rw [performWithin?, issueWithin?_eq h.sound]
    rfl
  | lookup key =>
    rw [performWithin?, lookupWithin?_eq h.sound.toTenancy]
    rfl
  | isLive n => rfl
  | retire n =>
    unfold performWithin? Issuance.perform
    dsimp only
    cases s.tickets[n]? with
    | none => rfl
    | some t =>
      dsimp only
      rw [retireTicketWithin?_eq, Option.map_some]
  | retireWhere stale =>
    rw [performWithin?, retireAllWithin?_eq fun i hi => lt_of_mem_slotsWhere hi]
    rfl
  | cachedCount =>
    rw [performWithin?, cachedCountWithin?_eq h.sound.toTenancy]
    rfl
  | drop n => rfl

end

/-! ## Agreement -/

/-- Slots, free list, index and tickets agree. The free list has every vacant slot once. An entry of
the index leads to a slot with its key, and no two entries have the same key or slot. A vacant slot
has no key and no holder; this holds of every arena and needs no upkeep, because the type of slots
carries it: key and holder are those of the tenant, and a vacant slot has none. A tenant has been
issued a ticket for its slot. The ticket of a slot is of its present generation if it is the
tenant's, and of an earlier one if not; and there are as many tickets of a slot as it has had
turns. -/
structure InStep (s : Issuance κ) : Prop where
  free_nodup : s.arena.free.Nodup
  mem_free : ∀ {i : Nat}, i ∈ s.arena.free ↔ i < s.arena.slots.length ∧ s.arena.tenant? i = none
  entry : ∀ {key : κ} {i : Nat}, (key, i) ∈ s.arena.index →
    (s.arena.tenant? i).isSome = true ∧ s.arena.keyAt? i = some key
  keys_apart : (s.arena.index.map Prod.fst).Nodup
  slots_apart : (s.arena.index.map Prod.snd).Nodup
  vacant : ∀ {i : Nat}, s.arena.tenant? i = none →
    s.arena.keyAt? i = none ∧ s.arena.holderAt? i = none
  tenant : ∀ {i : Nat} {t : Tenant κ}, s.arena.tenant? i = some t →
    t.ticket ∈ s.tickets ∧ t.ticket.slot = i
  ticket : ∀ {t : Ticket}, t ∈ s.tickets → ∃ x, s.arena.slots[t.slot]? = some x ∧
    t.generation ≤ x.generation ∧
      (t.generation = x.generation ↔ ∃ u, x.tenant = some u ∧ u.ticket = t)
  turns : ∀ {i : Nat} {x : Slot κ}, s.arena.slots[i]? = some x →
    x.turns = s.tickets.countP fun t => decide (t.slot = i)

/-- No two entries lead to one slot, because it has one key. -/
theorem nodup_index_slots {a : Arena κ} (hA : a.Tenancy) : (a.index.map Prod.snd).Nodup := by
  have hkeys : a.index.Pairwise fun e f => e.1 ≠ f.1 := List.pairwise_map.mp hA.index_nodup
  refine List.pairwise_map.mpr (hkeys.imp_of_mem fun {e f} he hf hne hslot => hne ?_)
  obtain ⟨t, ht, hk⟩ := hA.index_sound he
  obtain ⟨u, hu, hl⟩ := hA.index_sound hf
  rw [hslot, hu] at ht
  obtain rfl := Option.some.inj ht
  exact Option.some.inj (hk.symm.trans hl)

theorem Kept.inStep {s : Issuance κ} (h : s.Kept) : s.InStep where
  free_nodup := h.sound.free_nodup
  mem_free := h.sound.mem_free
  entry := by
    intro key i hentry
    obtain ⟨t, ht, hk⟩ := h.sound.index_sound hentry
    exact ⟨by rw [ht]; rfl, by rw [keyAt?, ht, Option.bind_some, hk]⟩
  keys_apart := h.sound.index_nodup
  slots_apart := nodup_index_slots h.sound.toTenancy
  vacant := by
    intro i hi
    exact ⟨by rw [keyAt?, hi]; rfl, by rw [holderAt?, hi]; rfl⟩
  tenant := fun ht => ⟨h.housed ⟨_, ht⟩, h.sound.toTenancy.slot_eq ht⟩
  ticket := by
    intro t ht
    obtain ⟨x, hx, hle, hsame⟩ := (h.known ht).slot
    refine ⟨x, hx, hle, hsame, ?_⟩
    rintro ⟨u, hu, rfl⟩
    exact (h.sound.ticket hx hu).2.1
  turns := by
    intro i x hx
    rw [← h.turns i, Arena.turns, hx]
    rfl

/-- After any operations slots, free list, index and tickets agree, and the next operation, whatever
it is, looks at no position beyond the slots. -/
theorem in_step_after [DecidableEq κ] (ops : List (Operation κ)) :
    ((empty : Issuance κ).after ops).InStep ∧
      ∀ op, ((empty : Issuance κ).after ops).performWithin? op =
        some (((empty : Issuance κ).after ops).perform op) := by
  have h : Kept ((empty : Issuance κ).after ops) := kept_empty.after ops
  exact ⟨h.inStep, h.performWithin?_eq⟩

end Issuance

end LiveDocument
