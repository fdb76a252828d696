import LiveDocument.Proofs.Arena.Tenancy

/-!
# Issuing handles

A new handle takes a vacant slot, so it never displaces a tenant; a sweep on the way only removes
tenants that nobody holds. One arena leads to another if it can have become the other by issuing,
retiring and letting go: a ticket is then known for ever, and a known ticket's handle is valid
exactly as long as its tenant is housed.

* `allocate_spec`: the slot for a new handle is vacant and no longer free.
* `Sound.issue`, `Indexed.issue`: issuing keeps the invariants.
* `Leads`, `Knows.of_leads`: what is known of a ticket stays known.
* `isLive_iff`: a known ticket is live if and only if its tenant is housed.
-/

namespace LiveDocument.Arena

variable {κ : Type}

/-! ## The course of an arena -/

/-- The second arena comes after the first: serial numbers grow, every later tenant is an earlier
one or a new one, and no slot goes back to an earlier generation or swaps its tenant within one. -/
structure Leads (a b : Arena κ) : Prop where
  issued_le : a.issued ≤ b.issued
  houses : ∀ {t : Tenant κ}, b.Houses t → a.Houses t ∨ a.issued ≤ t.ticket.serial
  slot : ∀ {i : Nat} {s : Slot κ}, a.slots[i]? = some s → ∃ s', b.slots[i]? = some s' ∧
    s.generation ≤ s'.generation ∧
      (s'.generation = s.generation → s.tenant.isSome = true → s'.tenant = s.tenant)

namespace Leads

theorem refl (a : Arena κ) : Leads a a :=
  ⟨Nat.le_refl _, Or.inl, fun {_ s} h => ⟨s, h, Nat.le_refl _, fun _ _ => rfl⟩⟩

theorem trans {a b c : Arena κ} (h : Leads a b) (k : Leads b c) : Leads a c where
  issued_le := Nat.le_trans h.issued_le k.issued_le
  houses := by
    intro t ht
    rcases k.houses ht with hb | hb
    · exact h.houses hb
    · exact Or.inr (Nat.le_trans h.issued_le hb)
  slot := by
    intro i s hs
    obtain ⟨s', hs', hle, hsame⟩ := h.slot hs
    obtain ⟨s'', hs'', hle', hsame'⟩ := k.slot hs'
    refine ⟨s'', hs'', Nat.le_trans hle hle', fun hg hsome => ?_⟩
    have hmid : s'.generation = s.generation := by omega
    have hten := hsame hmid hsome
    rw [← hten]
    exact hsame' (by omega) (by rw [hten]; exact hsome)

/-- The held handles do not matter. -/
theorem of_slots_eq {a b : Arena κ} (hslots : b.slots = a.slots) (hissued : b.issued = a.issued) :
    Leads a b where
  issued_le := Nat.le_of_eq hissued.symm
  houses := by
    rintro t ⟨i, hi⟩
    exact Or.inl ⟨i, by rwa [tenant?, ← hslots]⟩
  slot := by
    intro i s hs
    exact ⟨s, by rwa [hslots], Nat.le_refl _, fun _ _ => rfl⟩

end Leads

section

variable [DecidableEq κ]

theorem leads_retire (a : Arena κ) (slot : Nat) : Leads a (a.retire slot) where
  issued_le := Nat.le_of_eq (issued_retire a slot).symm
  houses := fun h => Or.inl (houses_of_retire h)
  slot := by
    intro i s hs
    cases hv : a.tenant? slot with
    | none =>
      rw [retire_of_vacant hv]
      exact ⟨s, hs, Nat.le_refl _, fun _ _ => rfl⟩
    | some t =>
      obtain ⟨g, hg⟩ := exists_slot_of_tenant? hv
      rw [slots_retire hg]
      by_cases hi : i = slot
      · subst hi
        rw [hg] at hs
        cases hs
        exact ⟨_, if_pos rfl, Nat.le_succ _, fun h => absurd h (Nat.succ_ne_self _)⟩
      · exact ⟨s, by rw [if_neg hi]; exact hs, Nat.le_refl _, fun _ _ => rfl⟩

theorem leads_retireWhere (a : Arena κ) (p : Tenant κ → Bool) : Leads a (a.retireWhere p) :=
  retireWhere_induction p (Leads.refl a) fun {b} slot hb => hb.trans (leads_retire b slot)

/-! ## Lookups -/

/-- A key finds the tenant that its entry leads to, if somebody holds it. -/
theorem lookup?_eq_some_iff {a : Arena κ} (hA : a.Tenancy) {key : κ} {t : Tenant κ} :
    a.lookup? key = some t ↔ a.Houses t ∧ (key, t.ticket.slot) ∈ a.index ∧
      a.isHeld t.ticket.serial = true := by
  constructor
  · intro h
    unfold lookup? at h
    obtain ⟨slot, hslot, h⟩ := Option.bind_eq_some_iff.mp h
    obtain ⟨s, hs, h⟩ := Option.bind_eq_some_iff.mp h
    obtain ⟨u, hu, h⟩ := Option.bind_eq_some_iff.mp h
    split at h
    · rename_i hheld
      cases h
      have ht : a.tenant? slot = some t := tenant?_eq_some.mpr ⟨s, hs, hu⟩
      refine ⟨⟨slot, ht⟩, ?_, (Bool.and_eq_true_iff.mp hheld).1⟩
      rw [hA.slot_eq ht]
      exact (slotOf?_eq_some hA).mp hslot
    · cases h
  · rintro ⟨ht, hindex, hheld⟩
    obtain ⟨s, hs, hten⟩ := tenant?_eq_some.mp (hA.tenant?_of_houses ht)
    have hgen := (hA.ticket hs hten).2.1
    unfold lookup?
    rw [(slotOf?_eq_some hA).mpr hindex, Option.bind_some, hs, Option.bind_some, hten,
      Option.bind_some, hheld, hgen]
    simp

theorem lookup?_eq_some {a : Arena κ} (hA : a.Tenancy) {key : κ} {t : Tenant κ}
    (h : a.lookup? key = some t) :
    a.Houses t ∧ t.key = some key ∧ a.isHeld t.ticket.serial = true := by
  obtain ⟨ht, hindex, hheld⟩ := (lookup?_eq_some_iff hA).mp h
  obtain ⟨u, hu, hk⟩ := hA.index_sound hindex
  rw [hA.tenant?_of_houses ht] at hu
  cases hu
  exact ⟨ht, hk, hheld⟩

/-- A held tenant with a key is what its key finds. -/
theorem lookup?_of_held {a : Arena κ} (hA : a.Tenancy) (hI : a.Indexed) {key : κ} {t : Tenant κ}
    (h : a.Houses t) (hk : t.key = some key) (hheld : a.isHeld t.ticket.serial = true) :
    a.lookup? key = some t :=
  (lookup?_eq_some_iff hA).mpr ⟨h, hI h hk hheld, hheld⟩

end

/-! ## Taking a slot -/

/-- The slot has been taken for a new handle: it is vacant, and not free any more. -/
structure Taken (a : Arena κ) (slot : Nat) : Prop extends Tenancy a where
  slot_lt : slot < a.slots.length
  vacant : a.tenant? slot = none
  free_nodup : a.free.Nodup
  mem_free : ∀ {i : Nat}, i ∈ a.free ↔ i < a.slots.length ∧ a.tenant? i = none ∧ i ≠ slot

theorem tenant?_grow (a : Arena κ) (i : Nat) : a.grow.2.tenant? i = a.tenant? i := by
  unfold grow tenant?
  dsimp only
  by_cases hi : i < a.slots.length
  · rw [List.getElem?_append_left hi]
  · rw [List.getElem?_append_right (Nat.le_of_not_lt hi),
      List.getElem?_eq_none (Nat.le_of_not_lt hi)]
    cases h : i - a.slots.length with
    | zero => rfl
    | succ k => simp

theorem houses_grow {a : Arena κ} {t : Tenant κ} : a.grow.2.Houses t ↔ a.Houses t := by
  unfold Houses
  simp only [tenant?_grow]

theorem leads_grow (a : Arena κ) : Leads a a.grow.2 where
  issued_le := Nat.le_refl _
  houses := fun h => Or.inl (houses_grow.mp h)
  slot := by
    intro i s hs
    have hlt := (List.getElem?_eq_some_iff.mp hs).1
    exact ⟨s, by rw [grow, List.getElem?_append_left hlt, hs], Nat.le_refl _, fun _ _ => rfl⟩

theorem Sound.taken_grow {a : Arena κ} (hA : a.Sound) : Taken a.grow.2 a.grow.1 where
  ticket := by
    intro i s t hs ht
    have hold : a.tenant? i = some t := by
      rw [← tenant?_grow]
      exact tenant?_eq_some.mpr ⟨s, hs, ht⟩
    obtain ⟨s', hs', ht'⟩ := tenant?_eq_some.mp hold
    have hlt := (List.getElem?_eq_some_iff.mp hs').1
    rw [grow, List.getElem?_append_left hlt, hs'] at hs
    cases hs
    exact hA.ticket hs' ht'
  serial_inj := fun ht hu => hA.serial_inj (houses_grow.mp ht) (houses_grow.mp hu)
  index_nodup := hA.index_nodup
  index_sound := by
    intro key slot hm
    rw [tenant?_grow]
    exact hA.index_sound hm
  held_lt := hA.held_lt
  slot_lt := by simp [grow]
  vacant := by
    rw [tenant?_grow]
    simp [grow, tenant?]
  free_nodup := hA.free_nodup
  mem_free := by
    intro i
    rw [tenant?_grow]
    have hfree : i ∈ a.free ↔ i < a.slots.length ∧ a.tenant? i = none := hA.mem_free
    have hlen : a.grow.2.slots.length = a.slots.length + 1 := by simp [grow]
    have hslot : a.grow.1 = a.slots.length := rfl
    show i ∈ a.free ↔ _
    rw [hfree, hlen, hslot]
    constructor
    · rintro ⟨hlt, hv⟩
      exact ⟨by omega, hv, by omega⟩
    · rintro ⟨hlt, hv, hne⟩
      exact ⟨by omega, hv⟩

theorem Sound.taken_pop {a : Arena κ} (hA : a.Sound) {slot : Nat} {free : List Nat}
    (h : a.free = slot :: free) : Taken { a with free := free } slot where
  ticket := hA.ticket
  serial_inj := hA.serial_inj
  index_nodup := hA.index_nodup
  index_sound := hA.index_sound
  held_lt := hA.held_lt
  slot_lt := (hA.mem_free.mp (by rw [h]; exact List.mem_cons_self)).1
  vacant := (hA.mem_free.mp (by rw [h]; exact List.mem_cons_self)).2
  free_nodup := by
    have hn := hA.free_nodup
    rw [h] at hn
    exact (List.nodup_cons.mp hn).2
  mem_free := by
    intro i
    have hn := hA.free_nodup
    have hm : i ∈ a.free ↔ _ := hA.mem_free
    rw [h] at hn hm
    have hnot := (List.nodup_cons.mp hn).1
    constructor
    · intro hi
      obtain ⟨hlt, hv⟩ := hm.mp (List.mem_cons_of_mem _ hi)
      exact ⟨hlt, hv, fun he => hnot (he ▸ hi)⟩
    · rintro ⟨hlt, hv, hne⟩
      exact (List.mem_cons.mp (hm.mpr ⟨hlt, hv⟩)).resolve_left hne

/-- What taking a slot leaves as it was. -/
structure Keeps (a b : Arena κ) : Prop where
  leads : Leads a b
  houses : ∀ {t : Tenant κ}, b.Houses t → a.Houses t
  spared : ∀ {t : Tenant κ}, a.Houses t → a.isHeld t.ticket.serial = true → b.Houses t
  held : b.held = a.held
  issued : b.issued = a.issued
  indexed : a.Indexed → b.Indexed

theorem keeps_grow (a : Arena κ) : Keeps a a.grow.2 :=
  ⟨leads_grow a, houses_grow.mp, fun h _ => houses_grow.mpr h, rfl, rfl,
    fun hI => fun h hk hheld => hI (houses_grow.mp h) hk hheld⟩

theorem keeps_pop (a : Arena κ) (free : List Nat) : Keeps a { a with free := free } :=
  ⟨Leads.of_slots_eq rfl rfl, fun h => h, fun h _ => h, rfl, rfl,
    fun hI => fun h hk hheld => hI h hk hheld⟩

theorem Keeps.trans {a b c : Arena κ} (h : Keeps a b) (k : Keeps b c) : Keeps a c where
  leads := h.leads.trans k.leads
  houses := fun ht => h.houses (k.houses ht)
  spared := fun ht hheld => k.spared (h.spared ht hheld) (by rw [isHeld, h.held]; exact hheld)
  held := k.held.trans h.held
  issued := k.issued.trans h.issued
  indexed := fun hI => k.indexed (h.indexed hI)

section

variable [DecidableEq κ]

theorem keeps_sweep {a : Arena κ} (hA : a.Sound) (due : Nat) :
    Keeps a { a.sweep with sweepAt := due } where
  leads := (leads_retireWhere a _).trans (Leads.of_slots_eq rfl rfl)
  houses := fun h => (houses_retireWhere.mp (show a.sweep.Houses _ from h)).1
  spared := fun h hheld => houses_retireWhere.mpr ⟨h, by rw [hheld]; rfl⟩
  held := held_retireWhere a _
  issued := issued_retireWhere a _
  indexed := fun hI => Indexed.retireWhere hA hI _

theorem Sound.sweep {a : Arena κ} (hA : a.Sound) (due : Nat) :
    Sound { a.sweep with sweepAt := due } :=
  have h : a.sweep.Sound := hA.retireWhere _
  { ticket := h.ticket
    serial_inj := h.serial_inj
    index_nodup := h.index_nodup
    index_sound := h.index_sound
    held_lt := h.held_lt
    free_nodup := h.free_nodup
    mem_free := h.mem_free }

/-- The slot for a new handle is vacant and no longer free, and no held tenant had to go. -/
theorem allocate_spec {a : Arena κ} (hA : a.Sound) :
    Taken a.allocate.2 a.allocate.1 ∧ Keeps a a.allocate.2 := by
  unfold allocate
  split
  · rename_i slot free hfree
    exact ⟨hA.taken_pop hfree, keeps_pop a free⟩
  · split
    · dsimp only
      have hdue := hA.sweep (max (a.sweep.slots.length * 2) firstSweep)
      have hkeep := keeps_sweep hA (max (a.sweep.slots.length * 2) firstSweep)
      split
      · rename_i slot free hfree
        exact ⟨hdue.taken_pop hfree, hkeep.trans (keeps_pop _ free)⟩
      · exact ⟨hdue.taken_grow, hkeep.trans (keeps_grow _)⟩
    · exact ⟨hA.taken_grow, keeps_grow a⟩

/-! ## Issuing -/

/-- The ticket of the next handle. -/
def nextTicket (a : Arena κ) : Ticket :=
  ⟨a.allocate.2.issued, a.allocate.1,
    ((a.allocate.2.slots[a.allocate.1]?).map Slot.generation).getD 0⟩

/-- The tenant of the next handle. -/
def nextTenant (a : Arena κ) (path : Path) (kind : Kind) (key : κ) (cache : Bool) : Tenant κ :=
  ⟨path, kind, if cache then some key else none, a.nextTicket⟩

variable {a : Arena κ} (path : Path) (kind : Kind) (key : κ) (cache : Bool)

theorem issued_issue (hA : a.Sound) : (a.issue path kind key cache).2.issued = a.issued + 1 :=
  congrArg (· + 1) (allocate_spec hA).2.issued

theorem held_issue (hA : a.Sound) : (a.issue path kind key cache).2.held = a.issued :: a.held := by
  obtain ⟨-, hkeeps⟩ := allocate_spec hA
  show a.allocate.2.issued :: a.allocate.2.held = _
  rw [hkeeps.issued, hkeeps.held]

theorem slots_issue (hA : a.Sound) (i : Nat) :
    (a.issue path kind key cache).2.slots[i]? =
      if i = a.allocate.1 then
        some ⟨a.nextTicket.generation, some (a.nextTenant path kind key cache)⟩
      else a.allocate.2.slots[i]? := by
  have hlt := (allocate_spec hA).1.slot_lt
  show (a.allocate.2.slots.set a.allocate.1 _)[i]? = _
  by_cases hi : i = a.allocate.1
  · subst hi
    rw [if_pos rfl, List.getElem?_set_self hlt]
    rfl
  · rw [if_neg hi, List.getElem?_set_ne (Ne.symm hi)]

theorem tenant?_issue (hA : a.Sound) (i : Nat) :
    (a.issue path kind key cache).2.tenant? i =
      if i = a.allocate.1 then some (a.nextTenant path kind key cache)
      else a.allocate.2.tenant? i := by
  rw [tenant?, slots_issue path kind key cache hA]
  by_cases hi : i = a.allocate.1
  · rw [if_pos hi, if_pos hi]
    rfl
  · rw [if_neg hi, if_neg hi]
    rfl

theorem houses_issue_self (hA : a.Sound) :
    (a.issue path kind key cache).2.Houses (a.nextTenant path kind key cache) :=
  ⟨a.allocate.1, by rw [tenant?_issue path kind key cache hA, if_pos rfl]⟩

theorem houses_of_issue (hA : a.Sound) {t : Tenant κ}
    (h : (a.issue path kind key cache).2.Houses t) :
    t = a.nextTenant path kind key cache ∨ a.allocate.2.Houses t := by
  obtain ⟨i, hi⟩ := h
  rw [tenant?_issue path kind key cache hA] at hi
  split at hi
  · exact Or.inl (Option.some.inj hi).symm
  · exact Or.inr ⟨i, hi⟩

theorem houses_issue_of_taken (hA : a.Sound) {t : Tenant κ} (h : a.allocate.2.Houses t) :
    (a.issue path kind key cache).2.Houses t := by
  obtain ⟨i, hi⟩ := h
  have hne : i ≠ a.allocate.1 := by
    rintro rfl
    rw [(allocate_spec hA).1.vacant] at hi
    cases hi
  exact ⟨i, by rw [tenant?_issue path kind key cache hA, if_neg hne, hi]⟩

theorem leads_issue (hA : a.Sound) : Leads a (a.issue path kind key cache).2 := by
  obtain ⟨htaken, hkeep⟩ := allocate_spec hA
  refine hkeep.leads.trans ⟨Nat.le_succ _, ?_, ?_⟩
  · intro t ht
    rcases houses_of_issue path kind key cache hA ht with rfl | hold
    · exact Or.inr (Nat.le_refl _)
    · exact Or.inl hold
  · intro i s hs
    rw [slots_issue path kind key cache hA]
    by_cases hi : i = a.allocate.1
    · have hvacant : s.tenant = none := by
        have hv := htaken.vacant
        rwa [← hi, tenant?, hs, Option.bind_some] at hv
      have hgen : a.nextTicket.generation = s.generation := by
        simp only [nextTicket, ← hi, hs, Option.map_some, Option.getD_some]
      refine ⟨_, if_pos hi, Nat.le_of_eq hgen.symm, fun _ hsome => ?_⟩
      rw [hvacant] at hsome
      cases hsome
    · exact ⟨s, by rw [if_neg hi, hs], Nat.le_refl _, fun _ _ => rfl⟩

theorem mem_index_issue {e : κ × Nat} :
    e ∈ (a.issue path kind key cache).2.index ↔
      (cache = true ∧ e = (key, a.allocate.1)) ∨
        (e ∈ a.allocate.2.index ∧ (cache = true → e.1 ≠ key)) := by
  show e ∈ (if cache then (key, a.allocate.1) :: forget a.allocate.2.index key
    else a.allocate.2.index) ↔ _
  cases cache with
  | false => simp
  | true => simp [mem_forget]

theorem Sound.issue (hA : a.Sound) : (a.issue path kind key cache).2.Sound := by
  obtain ⟨htaken, hkeep⟩ := allocate_spec hA
  have hserial : ∀ {t : Tenant κ}, a.allocate.2.Houses t →
      t.ticket.serial < a.allocate.2.issued := htaken.toTenancy.serial_lt
  constructor
  · constructor
    · intro i s t hs ht
      rw [slots_issue path kind key cache hA] at hs
      split at hs
      · rename_i hi
        cases hs
        cases ht
        exact ⟨hi.symm, rfl, Nat.lt_succ_self _⟩
      · obtain ⟨h1, h2, h3⟩ := htaken.ticket hs ht
        exact ⟨h1, h2, Nat.lt_succ_of_lt h3⟩
    · intro t u ht hu he
      rcases houses_of_issue path kind key cache hA ht with rfl | ht
      · rcases houses_of_issue path kind key cache hA hu with rfl | hu
        · rfl
        · exact absurd he (Nat.ne_of_gt (hserial hu))
      · rcases houses_of_issue path kind key cache hA hu with rfl | hu
        · exact absurd he (Nat.ne_of_lt (hserial ht))
        · exact htaken.serial_inj ht hu he
    · show ((if cache then (key, a.allocate.1) :: forget a.allocate.2.index key
        else a.allocate.2.index).map Prod.fst).Nodup
      cases cache with
      | false => exact htaken.index_nodup
      | true =>
        rw [if_pos rfl, List.map_cons, List.nodup_cons]
        refine ⟨fun hm => ?_, nodup_forget key htaken.index_nodup⟩
        obtain ⟨e, he, hk⟩ := List.mem_map.mp hm
        exact (mem_forget.mp he).2 hk
    · intro k i hm
      rw [tenant?_issue path kind key cache hA]
      rcases (mem_index_issue path kind key cache).mp hm with ⟨hc, he⟩ | ⟨hold, -⟩
      · cases he
        exact ⟨_, if_pos rfl, by rw [nextTenant, hc]; rfl⟩
      · obtain ⟨t, ht, hk⟩ := htaken.index_sound hold
        have hne : i ≠ a.allocate.1 := by
          rintro rfl
          rw [htaken.vacant] at ht
          cases ht
        exact ⟨t, by rw [if_neg hne, ht], hk⟩
    · intro n hn
      rcases List.mem_cons.mp hn with rfl | hn
      · exact Nat.lt_succ_self _
      · exact Nat.lt_succ_of_lt (htaken.held_lt hn)
  · exact htaken.free_nodup
  · intro i
    have hlen : (a.issue path kind key cache).2.slots.length = a.allocate.2.slots.length :=
      List.length_set
    rw [tenant?_issue path kind key cache hA, hlen]
    show i ∈ a.allocate.2.free ↔ _
    rw [htaken.mem_free]
    by_cases hi : i = a.allocate.1
    · simp [hi]
    · simp [hi]

/-- Issuing keeps held tenants findable, because a handle is issued for the cache only if its key
finds none. -/
theorem Indexed.issue (hA : a.Sound) (hI : a.Indexed)
    (hkey : cache = true → a.lookup? key = none) : (a.issue path kind key cache).2.Indexed := by
  obtain ⟨-, hkeep⟩ := allocate_spec hA
  intro t k ht hk hheld
  rw [mem_index_issue]
  rcases houses_of_issue path kind key cache hA ht with rfl | hold
  · cases cache with
    | false => cases hk
    | true =>
      cases hk
      exact Or.inl ⟨rfl, rfl⟩
  · have hheldOld : a.isHeld t.ticket.serial = true := by
      rw [isHeld, held_issue path kind key cache hA, List.contains_iff_mem] at hheld
      rcases List.mem_cons.mp hheld with he | hm
      · exact absurd he (Nat.ne_of_lt (hA.toTenancy.serial_lt (hkeep.houses hold)))
      · exact List.contains_iff_mem.mpr hm
    refine Or.inr ⟨hkeep.indexed hI hold hk (by rw [isHeld, hkeep.held]; exact hheldOld), ?_⟩
    rintro hc rfl
    have hfound := lookup?_of_held hA.toTenancy hI (hkeep.houses hold) hk hheldOld
    rw [hkey hc] at hfound
    cases hfound

end

/-! ## Letting go -/

section Hold

variable {a : Arena κ} {held : List Nat}

theorem Sound.hold (hA : a.Sound) (h : held ⊆ a.held) : Sound { a with held := held } where
  ticket := hA.ticket
  serial_inj := hA.serial_inj
  index_nodup := hA.index_nodup
  index_sound := hA.index_sound
  held_lt := fun hn => hA.held_lt (h hn)
  free_nodup := hA.free_nodup
  mem_free := hA.mem_free

theorem Indexed.hold (hI : a.Indexed) (h : held ⊆ a.held) : Indexed { a with held := held } := by
  intro t key ht hk hheld
  refine hI ht hk ?_
  exact List.contains_iff_mem.mpr (h (List.contains_iff_mem.mp hheld))

end Hold

/-! ## Known tickets -/

/-- The ticket has been issued: its slot has reached its generation, in which nobody else is the
tenant, and no other tenant has its serial number. -/
structure Knows (a : Arena κ) (t : Ticket) : Prop where
  serial_lt : t.serial < a.issued
  slot : ∃ s, a.slots[t.slot]? = some s ∧ t.generation ≤ s.generation ∧
    (t.generation = s.generation → ∃ u, s.tenant = some u ∧ u.ticket = t)
  serial : ∀ {u : Tenant κ}, a.Houses u → u.ticket.serial = t.serial → u.ticket = t

theorem Knows.of_houses {a : Arena κ} (hA : a.Tenancy) {t : Tenant κ} (h : a.Houses t) :
    a.Knows t.ticket := by
  obtain ⟨s, hs, ht⟩ := tenant?_eq_some.mp (hA.tenant?_of_houses h)
  obtain ⟨-, hgen, hlt⟩ := hA.ticket hs ht
  refine ⟨hlt, ⟨s, hs, by omega, fun _ => ⟨t, ht, rfl⟩⟩, fun hu he => ?_⟩
  rw [hA.serial_inj hu h he]

/-- What is known of a ticket stays known. -/
theorem Knows.of_leads {a b : Arena κ} {t : Ticket} (h : a.Knows t) (hab : Leads a b) :
    b.Knows t := by
  have hlt := h.serial_lt
  refine ⟨Nat.lt_of_lt_of_le hlt hab.issued_le, ?_, fun hu he => ?_⟩
  · obtain ⟨s, hs, hle, hsame⟩ := h.slot
    obtain ⟨s', hs', hle', hsame'⟩ := hab.slot hs
    refine ⟨s', hs', Nat.le_trans hle hle', fun hg => ?_⟩
    obtain ⟨u, hu, hut⟩ := hsame (by omega)
    exact ⟨u, by rw [hsame' (by omega) (by rw [hu]; rfl), hu], hut⟩
  · rcases hab.houses hu with hold | hnew
    · exact h.serial hold he
    · omega

/-- A known ticket is live if and only if its tenant is housed. -/
theorem Knows.isLive_iff {a : Arena κ} (hA : a.Tenancy) {t : Ticket} (h : a.Knows t) :
    a.isLive t = true ↔ ∃ u, a.Houses u ∧ u.ticket = t := by
  unfold isLive
  constructor
  · intro hl
    obtain ⟨s, hs, -, hsame⟩ := h.slot
    rw [hs] at hl
    obtain ⟨-, hg⟩ := Bool.and_eq_true_iff.mp hl
    obtain ⟨u, hu, hut⟩ := hsame (eq_of_beq hg).symm
    exact ⟨u, ⟨t.slot, tenant?_eq_some.mpr ⟨s, hs, hu⟩⟩, hut⟩
  · rintro ⟨u, hu, rfl⟩
    obtain ⟨s, hs, ht⟩ := tenant?_eq_some.mp (hA.tenant?_of_houses hu)
    rw [hs]
    simp [ht, (hA.ticket hs ht).2.1]

/-- Ending a known ticket's handle ends that of no other. -/
theorem houses_retireTicket [DecidableEq κ] {a : Arena κ} (hA : a.Tenancy) {t : Ticket}
    (h : a.Knows t) {u : Tenant κ} :
    (a.retireTicket t).2.Houses u ↔ a.Houses u ∧ u.ticket ≠ t := by
  unfold retireTicket
  split
  · rename_i hl
    obtain ⟨v, hv, rfl⟩ := (h.isLive_iff hA).mp hl
    constructor
    · intro hu
      refine ⟨houses_of_retire hu, fun he => ?_⟩
      have hslot := (hA.retire v.ticket.slot).tenant?_of_houses hu
      rw [he, tenant?_retire, if_pos rfl] at hslot
      cases hslot
    · rintro ⟨hu, hne⟩
      refine ⟨u.ticket.slot, ?_⟩
      have hslot : u.ticket.slot ≠ v.ticket.slot := by
        intro he
        have htu := hA.tenant?_of_houses hu
        rw [he, hA.tenant?_of_houses hv] at htu
        exact hne (by rw [Option.some.inj htu])
      rw [tenant?_retire, if_neg hslot, hA.tenant?_of_houses hu]
  · rename_i hl
    refine ⟨fun hu => ⟨hu, fun he => hl ((h.isLive_iff hA).mpr ⟨u, hu, he⟩)⟩, fun hu => hu.1⟩

end LiveDocument.Arena
