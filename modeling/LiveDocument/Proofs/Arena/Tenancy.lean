import LiveDocument.Arena

/-!
# Tenants of an arena

What holds of the slots, the free list and the index of an arena whatever has been done to it, and
what ending the validity of tenants does. An operation is described by the tenants that it leaves:
everything else that can be observed of an arena follows from those.

* `Sound`: the invariant of an arena. `Indexed`: what lookups that never hide a held handle add.
* `tenant?_retireWhere`: retiring by a condition keeps exactly the tenants that do not satisfy it.
* `Sound.retireWhere`, `Indexed.retireWhere`: it keeps the invariants.
-/

namespace LiveDocument.Arena

variable {κ : Type}

/-- Some slot is occupied by this tenant. -/
def Houses (a : Arena κ) (t : Tenant κ) : Prop :=
  ∃ slot, a.tenant? slot = some t

/-- What holds of slots and index even while a slot is being taken. A tenant's ticket names its
slot and the generation there; no two tenants share a serial number; an indexed key leads to the
tenant that has it. -/
structure Tenancy (a : Arena κ) : Prop where
  ticket : ∀ {slot : Nat} {s : Slot κ} {t : Tenant κ}, a.slots[slot]? = some s → s.tenant = some t →
    t.ticket.slot = slot ∧ t.ticket.generation = s.generation ∧ t.ticket.serial < a.issued
  serial_inj : ∀ {t u : Tenant κ}, a.Houses t → a.Houses u →
    t.ticket.serial = u.ticket.serial → t = u
  index_nodup : (a.index.map Prod.fst).Nodup
  index_sound : ∀ {key : κ} {slot : Nat}, (key, slot) ∈ a.index →
    ∃ t, a.tenant? slot = some t ∧ t.key = some key
  held_lt : ∀ {n : Nat}, n ∈ a.held → n < a.issued

/-- The invariant of an arena: the free list holds exactly the vacant slots, each once. -/
structure Sound (a : Arena κ) : Prop extends Tenancy a where
  free_nodup : a.free.Nodup
  mem_free : ∀ {slot : Nat}, slot ∈ a.free ↔ slot < a.slots.length ∧ a.tenant? slot = none

/-! ## Reading slots -/

theorem tenant?_eq_some {a : Arena κ} {slot : Nat} {t : Tenant κ} :
    a.tenant? slot = some t ↔ ∃ s, a.slots[slot]? = some s ∧ s.tenant = some t := by
  unfold tenant?
  exact Option.bind_eq_some_iff

theorem exists_slot_of_tenant? {a : Arena κ} {slot : Nat} {t : Tenant κ}
    (h : a.tenant? slot = some t) : ∃ g, a.slots[slot]? = some ⟨g, some t⟩ := by
  obtain ⟨⟨g, o⟩, hs, rfl⟩ := tenant?_eq_some.mp h
  exact ⟨g, hs⟩

theorem lt_of_tenant? {a : Arena κ} {slot : Nat} {t : Tenant κ} (h : a.tenant? slot = some t) :
    slot < a.slots.length := by
  obtain ⟨s, hs, -⟩ := tenant?_eq_some.mp h
  exact (List.getElem?_eq_some_iff.mp hs).1

namespace Tenancy

variable {a : Arena κ}

theorem slot_eq (hA : a.Tenancy) {slot : Nat} {t : Tenant κ} (h : a.tenant? slot = some t) :
    t.ticket.slot = slot := by
  obtain ⟨s, hs, ht⟩ := tenant?_eq_some.mp h
  exact (hA.ticket hs ht).1

theorem tenant?_of_houses (hA : a.Tenancy) {t : Tenant κ} (h : a.Houses t) :
    a.tenant? t.ticket.slot = some t := by
  obtain ⟨slot, hs⟩ := h
  rw [hA.slot_eq hs]
  exact hs

theorem serial_lt (hA : a.Tenancy) {t : Tenant κ} (h : a.Houses t) :
    t.ticket.serial < a.issued := by
  obtain ⟨slot, hslot⟩ := h
  obtain ⟨s, hs, ht⟩ := tenant?_eq_some.mp hslot
  exact (hA.ticket hs ht).2.2

end Tenancy

theorem sound_empty : Sound (empty : Arena κ) where
  ticket := fun h _ => by simp [empty] at h
  serial_inj := fun ⟨slot, h⟩ _ _ => by simp [empty, tenant?] at h
  index_nodup := List.nodup_nil
  index_sound := fun h => by cases h
  held_lt := fun h => by cases h
  free_nodup := List.nodup_nil
  mem_free := fun {slot} => by simp [empty]

/-! ## The index -/

section Index

variable [DecidableEq κ] {a : Arena κ}

/-- If no key occurs twice, a search by key gives the entry with the key. -/
theorem find?_key_eq_some {index : List (κ × Nat)} (hnodup : (index.map Prod.fst).Nodup) {key : κ}
    {n : Nat} : (index.find? fun entry => decide (entry.1 = key)).map Prod.snd = some n ↔
      (key, n) ∈ index := by
  induction index with
  | nil => simp
  | cons e rest ih =>
    obtain ⟨k, i⟩ := e
    rw [List.map_cons, List.nodup_cons] at hnodup
    by_cases hk : k = key
    · subst hk
      have hrest : (k, n) ∉ rest := fun hm => hnodup.1 (List.mem_map.mpr ⟨_, hm, rfl⟩)
      simp [hrest, eq_comm]
    · have hne : ¬ (key = k ∧ n = i) := fun hc => hk hc.1.symm
      simp [hk, hne, ih hnodup.2]

theorem slotOf?_eq_some (hA : a.Tenancy) {key : κ} {slot : Nat} :
    a.slotOf? key = some slot ↔ (key, slot) ∈ a.index :=
  find?_key_eq_some hA.index_nodup

theorem mem_forget {index : List (κ × Nat)} {key : κ} {e : κ × Nat} :
    e ∈ forget index key ↔ e ∈ index ∧ e.1 ≠ key := by
  simp [forget]

theorem nodup_forget {index : List (κ × Nat)} (key : κ) (h : (index.map Prod.fst).Nodup) :
    ((forget index key).map Prod.fst).Nodup :=
  h.sublist (List.filter_sublist.map Prod.fst)

end Index

/-- Every held tenant with a key is the one that its key leads to. -/
def Indexed (a : Arena κ) : Prop :=
  ∀ {t : Tenant κ} {key : κ}, a.Houses t → t.key = some key → a.isHeld t.ticket.serial = true →
    (key, t.ticket.slot) ∈ a.index

theorem indexed_empty : Indexed (empty : Arena κ) := by
  rintro t key ⟨slot, h⟩
  simp [empty, tenant?] at h

/-! ## Retiring a slot -/

section Retire

variable [DecidableEq κ]

theorem retire_of_vacant {a : Arena κ} {slot : Nat} (h : a.tenant? slot = none) :
    a.retire slot = a := by
  unfold retire
  split
  · rename_i g t hs
    rw [tenant?, hs] at h
    cases h
  · rfl

theorem retire_of_tenant {a : Arena κ} {slot generation : Nat} {t : Tenant κ}
    (h : a.slots[slot]? = some ⟨generation, some t⟩) :
    a.retire slot =
      { a with
        slots := a.slots.set slot ⟨generation + 1, none⟩
        free := slot :: a.free
        index :=
          match t.key with
          | some key => if a.slotOf? key = some slot then forget a.index key else a.index
          | none => a.index } := by
  unfold retire
  split
  · rename_i g u hs
    cases h.symm.trans hs
    rfl
  · rename_i hnone
    exact absurd h (hnone generation t)

@[simp] theorem held_retire (a : Arena κ) (slot : Nat) : (a.retire slot).held = a.held := by
  unfold retire
  split <;> rfl

@[simp] theorem issued_retire (a : Arena κ) (slot : Nat) : (a.retire slot).issued = a.issued := by
  unfold retire
  split <;> rfl

@[simp] theorem length_slots_retire (a : Arena κ) (slot : Nat) :
    (a.retire slot).slots.length = a.slots.length := by
  unfold retire
  split
  · simp
  · rfl

theorem slots_retire {a : Arena κ} {slot g : Nat} {t : Tenant κ}
    (h : a.slots[slot]? = some ⟨g, some t⟩) (i : Nat) :
    (a.retire slot).slots[i]? = if i = slot then some ⟨g + 1, none⟩ else a.slots[i]? := by
  have hlt := (List.getElem?_eq_some_iff.mp h).1
  rw [retire_of_tenant h]
  by_cases hi : i = slot
  · subst hi
    simp [hlt]
  · simp [hi, List.getElem?_set_ne (Ne.symm hi)]

theorem tenant?_retire (a : Arena κ) (slot i : Nat) :
    (a.retire slot).tenant? i = if i = slot then none else a.tenant? i := by
  cases h : a.tenant? slot with
  | none =>
    rw [retire_of_vacant h]
    by_cases hi : i = slot
    · rw [if_pos hi, hi, h]
    · rw [if_neg hi]
  | some t =>
    obtain ⟨g, hs⟩ := exists_slot_of_tenant? h
    rw [tenant?, slots_retire hs]
    by_cases hi : i = slot
    · rw [if_pos hi, if_pos hi]
      rfl
    · rw [if_neg hi, if_neg hi]
      rfl

theorem houses_of_retire {a : Arena κ} {slot : Nat} {t : Tenant κ}
    (h : (a.retire slot).Houses t) : a.Houses t := by
  obtain ⟨i, hi⟩ := h
  rw [tenant?_retire] at hi
  split at hi
  · cases hi
  · exact ⟨i, hi⟩

theorem mem_index_retire {a : Arena κ} {slot i : Nat} {key : κ} (hA : a.Tenancy) (hi : i ≠ slot) :
    (key, i) ∈ (a.retire slot).index ↔ (key, i) ∈ a.index := by
  cases h : a.tenant? slot with
  | none => rw [retire_of_vacant h]
  | some t =>
    obtain ⟨g, hs⟩ := exists_slot_of_tenant? h
    rw [retire_of_tenant hs]
    cases ht : t.key with
    | none => exact Iff.rfl
    | some k =>
      dsimp only
      split
      · rename_i hk
        rw [mem_forget]
        refine ⟨fun hm => hm.1, fun hm => ⟨hm, fun he => ?_⟩⟩
        -- The key leads to one slot only, and that is the retired one.
        have hslot := (slotOf?_eq_some hA).mpr hm
        rw [show key = k from he, hk] at hslot
        exact hi (Option.some.inj hslot).symm
      · exact Iff.rfl

theorem index_retire_subset {a : Arena κ} {slot : Nat} {e : κ × Nat}
    (h : e ∈ (a.retire slot).index) : e ∈ a.index := by
  unfold retire at h
  split at h
  · dsimp only at h
    split at h
    · split at h
      · exact (mem_forget.mp h).1
      · exact h
    · exact h
  · exact h

theorem slot_notMem_index_retire {a : Arena κ} {slot : Nat} {key : κ} (hA : a.Tenancy) :
    (key, slot) ∉ (a.retire slot).index := by
  intro hm
  obtain ⟨t, ht, hk⟩ := hA.index_sound (index_retire_subset hm)
  obtain ⟨g, hs⟩ := exists_slot_of_tenant? ht
  have hslot := (slotOf?_eq_some hA).mpr (index_retire_subset hm)
  rw [retire_of_tenant hs, hk] at hm
  dsimp only at hm
  rw [if_pos hslot, mem_forget] at hm
  exact hm.2 rfl

theorem nodup_index_retire {a : Arena κ} (slot : Nat) (h : (a.index.map Prod.fst).Nodup) :
    ((a.retire slot).index.map Prod.fst).Nodup := by
  unfold retire
  split
  · dsimp only
    split
    · split
      · exact nodup_forget _ h
      · exact h
    · exact h
  · exact h

theorem Tenancy.retire {a : Arena κ} (hA : a.Tenancy) (slot : Nat) : (a.retire slot).Tenancy where
  ticket := by
    intro i s t hs ht
    have hten : (a.retire slot).tenant? i = some t := tenant?_eq_some.mpr ⟨s, hs, ht⟩
    rw [tenant?_retire] at hten
    split at hten
    · cases hten
    · rename_i hi
      have hold : a.slots[i]? = some s := by
        cases hv : a.tenant? slot with
        | none => rwa [retire_of_vacant hv] at hs
        | some u =>
          obtain ⟨g, hu⟩ := exists_slot_of_tenant? hv
          rwa [slots_retire hu, if_neg hi] at hs
      rw [issued_retire]
      exact hA.ticket hold ht
  serial_inj := fun ht hu => hA.serial_inj (houses_of_retire ht) (houses_of_retire hu)
  index_nodup := nodup_index_retire slot hA.index_nodup
  index_sound := by
    intro key i hm
    have hne : i ≠ slot := by
      rintro rfl
      exact slot_notMem_index_retire hA hm
    rw [tenant?_retire, if_neg hne]
    exact hA.index_sound (index_retire_subset hm)
  held_lt := by
    intro n hn
    rw [held_retire] at hn
    rw [issued_retire]
    exact hA.held_lt hn

theorem Sound.retire {a : Arena κ} (hA : a.Sound) (slot : Nat) : (a.retire slot).Sound := by
  cases h : a.tenant? slot with
  | none =>
    rw [retire_of_vacant h]
    exact hA
  | some t =>
    obtain ⟨g, hs⟩ := exists_slot_of_tenant? h
    have hfree : (a.retire slot).free = slot :: a.free := by rw [retire_of_tenant hs]
    refine ⟨hA.toTenancy.retire slot, ?_, ?_⟩
    · rw [hfree, List.nodup_cons]
      refine ⟨fun hm => ?_, hA.free_nodup⟩
      rw [hA.mem_free, h] at hm
      cases hm.2
    · intro i
      rw [hfree, List.mem_cons, hA.mem_free, length_slots_retire, tenant?_retire]
      by_cases hi : i = slot
      · subst hi
        simp [lt_of_tenant? h]
      · simp [hi]

theorem Indexed.retire {a : Arena κ} (hA : a.Tenancy) (hI : a.Indexed) (slot : Nat) :
    (a.retire slot).Indexed := by
  intro t key ht hk hheld
  have hne : t.ticket.slot ≠ slot := by
    rintro rfl
    have := (hA.retire t.ticket.slot).tenant?_of_houses ht
    rw [tenant?_retire, if_pos rfl] at this
    cases this
  rw [isHeld, held_retire] at hheld
  exact (mem_index_retire hA hne).mpr (hI (houses_of_retire ht) hk hheld)

end Retire

/-! ## Retiring by a condition -/

section RetireWhere

variable [DecidableEq κ]

theorem tenant?_foldl_retire (slots : List Nat) (a : Arena κ) (i : Nat) :
    (slots.foldl Arena.retire a).tenant? i = if i ∈ slots then none else a.tenant? i := by
  induction slots generalizing a with
  | nil => simp
  | cons slot rest ih =>
    rw [List.foldl_cons, ih, tenant?_retire]
    by_cases hr : i ∈ rest
    · simp [hr]
    · by_cases hi : i = slot <;> simp [hr, hi]

omit [DecidableEq κ] in
theorem mem_slotsWhere {a : Arena κ} {p : Tenant κ → Bool} {i : Nat} :
    i ∈ a.slotsWhere p ↔ ∃ t, a.tenant? i = some t ∧ p t = true := by
  unfold slotsWhere
  rw [List.mem_filter, List.mem_range]
  cases h : a.tenant? i with
  | none => simp
  | some t => simp [lt_of_tenant? h]

/-- Retiring by a condition keeps exactly the tenants that do not satisfy it. -/
theorem tenant?_retireWhere (a : Arena κ) (p : Tenant κ → Bool) (i : Nat) :
    (a.retireWhere p).tenant? i = (a.tenant? i).filter fun t => !p t := by
  unfold retireWhere
  rw [tenant?_foldl_retire]
  cases h : a.tenant? i with
  | none => simp
  | some t =>
    cases hp : p t with
    | true =>
      rw [if_pos (mem_slotsWhere.mpr ⟨t, h, hp⟩), Option.filter_some, hp]
      rfl
    | false =>
      have hnot : i ∉ a.slotsWhere p := by
        rw [mem_slotsWhere]
        rintro ⟨u, hu, hpu⟩
        rw [h] at hu
        cases hu
        rw [hp] at hpu
        cases hpu
      rw [if_neg hnot, Option.filter_some, hp]
      rfl

theorem houses_retireWhere {a : Arena κ} {p : Tenant κ → Bool} {t : Tenant κ} :
    (a.retireWhere p).Houses t ↔ a.Houses t ∧ p t = false := by
  unfold Houses
  simp only [tenant?_retireWhere, Option.filter_eq_some_iff, Bool.not_eq_true',
    exists_and_right]

/-- What retiring a slot keeps, retiring by a condition keeps. -/
theorem retireWhere_induction {motive : Arena κ → Prop} {a : Arena κ} (p : Tenant κ → Bool)
    (start : motive a) (step : ∀ {b : Arena κ} (slot : Nat), motive b → motive (b.retire slot)) :
    motive (a.retireWhere p) := by
  unfold retireWhere
  generalize a.slotsWhere p = slots
  induction slots generalizing a with
  | nil => exact start
  | cons slot rest ih => exact ih (step slot start)

@[simp] theorem held_retireWhere (a : Arena κ) (p : Tenant κ → Bool) :
    (a.retireWhere p).held = a.held :=
  retireWhere_induction (motive := fun b => b.held = a.held) p rfl fun {b} slot hb =>
    (held_retire b slot).trans hb

@[simp] theorem issued_retireWhere (a : Arena κ) (p : Tenant κ → Bool) :
    (a.retireWhere p).issued = a.issued :=
  retireWhere_induction (motive := fun b => b.issued = a.issued) p rfl fun {b} slot hb =>
    (issued_retire b slot).trans hb

theorem Sound.retireWhere {a : Arena κ} (hA : a.Sound) (p : Tenant κ → Bool) :
    (a.retireWhere p).Sound :=
  retireWhere_induction p hA fun slot hb => hb.retire slot

theorem Indexed.retireWhere {a : Arena κ} (hA : a.Sound) (hI : a.Indexed) (p : Tenant κ → Bool) :
    (a.retireWhere p).Indexed :=
  (retireWhere_induction (motive := fun b => b.Sound ∧ b.Indexed) p ⟨hA, hI⟩ fun slot hb =>
    ⟨hb.1.retire slot, Indexed.retire hb.1.toTenancy hb.2 slot⟩).2

end RetireWhere

end LiveDocument.Arena
