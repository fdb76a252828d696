import LiveDocument.Proofs.Arena.Issue
import LiveDocument.Proofs.Arena.Ledger

/-!
# Arenas show what ledgers show

An arena sweeps its slots and uses them again; a ledger does neither. Nobody can tell the two
apart by operations on handles: a sweep takes only what nobody holds, and a slot that is used again
has another generation.

* `Spares`: what retiring leaves of an arena. `spares_retireWhere`, `spares_retireTicket`.
* `Simulates`: an arena stands for a ledger. Every valid handle that is held has a tenant, and every
  tenant is a valid handle; held handles are indexed by the same keys.
* `Simulates.perform`: an operation on both answers the same and keeps this.
* `trace_eq_ledger`: the same is seen of all operations, no two tickets name one slot and
  generation, and no retired handle is valid again.
-/

namespace LiveDocument

variable {κ : Type}

/-- What a tenant is without its slot. -/
def Tenant.record (t : Tenant κ) : Record :=
  ⟨t.ticket.serial, t.path, t.kind⟩

namespace Arena

/-! ## The index while slots are taken and retired -/

section Index

variable [DecidableEq κ]

theorem mem_index_foldl_retire {a : Arena κ} (hA : a.Tenancy) (slots : List Nat) {key : κ}
    {i : Nat} :
    (key, i) ∈ (slots.foldl Arena.retire a).index ↔ (key, i) ∈ a.index ∧ i ∉ slots := by
  induction slots generalizing a with
  | nil => simp
  | cons slot rest ih =>
    rw [List.foldl_cons, ih (hA.retire slot), List.mem_cons, not_or]
    by_cases hi : i = slot
    · subst hi
      constructor
      · intro h
        exact absurd h.1 (slot_notMem_index_retire hA)
      · intro h
        exact absurd rfl h.2.1
    · rw [mem_index_retire hA hi]
      simp [hi]

/-- Retiring by a condition keeps the entries of the tenants that do not satisfy it. -/
theorem mem_index_retireWhere {a : Arena κ} (hA : a.Tenancy) (p : Tenant κ → Bool)
    {t : Tenant κ} (ht : a.Houses t) (hp : p t = false) {key : κ} :
    (key, t.ticket.slot) ∈ (a.retireWhere p).index ↔ (key, t.ticket.slot) ∈ a.index := by
  have hnot : t.ticket.slot ∉ a.slotsWhere p := by
    rw [mem_slotsWhere]
    rintro ⟨u, hu, hpu⟩
    rw [hA.tenant?_of_houses ht] at hu
    cases hu
    rw [hp] at hpu
    cases hpu
  unfold retireWhere
  rw [mem_index_foldl_retire hA, and_iff_left hnot]

/-- Taking a slot changes the index only by a sweep. -/
theorem index_allocate (a : Arena κ) :
    a.allocate.2.index = a.index ∨ a.allocate.2.index = a.sweep.index := by
  unfold allocate
  split
  · exact Or.inl rfl
  · split
    · dsimp only
      split
      · exact Or.inr rfl
      · exact Or.inr rfl
    · exact Or.inl rfl

theorem index_allocate_subset {a : Arena κ} (hA : a.Tenancy) {e : κ × Nat}
    (h : e ∈ a.allocate.2.index) : e ∈ a.index := by
  rcases index_allocate a with he | he
  · rwa [he] at h
  · rw [he] at h
    exact ((mem_index_foldl_retire hA _).mp h).1

/-- The entry of a held tenant stays when a slot is taken. -/
theorem mem_index_allocate {a : Arena κ} (hA : a.Tenancy) {t : Tenant κ} (ht : a.Houses t)
    (hheld : a.isHeld t.ticket.serial = true) {key : κ} (h : (key, t.ticket.slot) ∈ a.index) :
    (key, t.ticket.slot) ∈ a.allocate.2.index := by
  rcases index_allocate a with he | he
  · rwa [he]
  · rw [he]
    exact (mem_index_retireWhere hA _ ht (by rw [hheld]; rfl)).mpr h

end Index

/-! ## What retiring leaves -/

/-- The second arena is the first without the tenants that do not satisfy a condition. -/
structure Spares (p : Tenant κ → Prop) (a b : Arena κ) : Prop where
  sound : b.Sound
  leads : a.Leads b
  held : b.held = a.held
  issued : b.issued = a.issued
  houses : ∀ {t : Tenant κ}, b.Houses t ↔ a.Houses t ∧ p t
  index : ∀ {t : Tenant κ} {key : κ}, b.Houses t →
    ((key, t.ticket.slot) ∈ b.index ↔ (key, t.ticket.slot) ∈ a.index)

theorem Spares.congr {p q : Tenant κ → Prop} {a b : Arena κ} (h : Spares p a b)
    (hpq : ∀ {t : Tenant κ}, a.Houses t → (p t ↔ q t)) : Spares q a b where
  sound := h.sound
  leads := h.leads
  held := h.held
  issued := h.issued
  houses := h.houses.trans (and_congr_right hpq)
  index := h.index

section Retire

variable [DecidableEq κ]

theorem spares_retireWhere {a : Arena κ} (hA : a.Sound) (p : Tenant κ → Bool) :
    Spares (fun t => p t = false) a (a.retireWhere p) where
  sound := hA.retireWhere p
  leads := leads_retireWhere a p
  held := held_retireWhere a p
  issued := issued_retireWhere a p
  houses := houses_retireWhere
  index := by
    intro t key ht
    obtain ⟨hold, hp⟩ := houses_retireWhere.mp ht
    exact mem_index_retireWhere hA.toTenancy p hold hp

theorem spares_retireTicket {a : Arena κ} (hA : a.Sound) {ticket : Ticket} (h : a.Knows ticket) :
    Spares (fun t => t.ticket ≠ ticket) a (a.retireTicket ticket).2 := by
  have hhouses : ∀ {t : Tenant κ}, (a.retireTicket ticket).2.Houses t ↔
      a.Houses t ∧ t.ticket ≠ ticket := houses_retireTicket hA.toTenancy h
  unfold retireTicket at hhouses ⊢
  split at hhouses
  · rename_i hl
    rw [if_pos hl]
    refine ⟨hA.retire _, leads_retire a _, held_retire a _, issued_retire a _, hhouses, ?_⟩
    intro t key ht
    apply mem_index_retire hA.toTenancy
    intro hslot
    have hvacant := (hA.retire ticket.slot).tenant?_of_houses ht
    rw [hslot, tenant?_retire, if_pos rfl] at hvacant
    cases hvacant
  · rename_i hl
    rw [if_neg hl]
    exact ⟨hA, Leads.refl a, rfl, rfl, hhouses, fun _ => Iff.rfl⟩

/-- The next ticket names a slot and a generation that no known ticket names. -/
theorem nextTicket_apart {a : Arena κ} (hA : a.Sound) {ticket : Ticket} (h : a.Knows ticket) :
    (ticket.slot, ticket.generation) ≠ (a.nextTicket.slot, a.nextTicket.generation) := by
  obtain ⟨htaken, hkeep⟩ := allocate_spec hA
  obtain ⟨s, hs, -, hsame⟩ := (h.of_leads hkeep.leads).slot
  intro he
  obtain ⟨hslot, hgen⟩ := Prod.mk.inj he
  have hnext : a.nextTicket.generation = s.generation := by
    show ((a.allocate.2.slots[a.allocate.1]?).map Slot.generation).getD 0 = s.generation
    rw [show a.allocate.1 = ticket.slot from hslot.symm, hs]
    rfl
  obtain ⟨u, hu, -⟩ := hsame (hgen.trans hnext)
  have hvacant := htaken.vacant
  rw [tenant?, show a.allocate.1 = ticket.slot from hslot.symm, hs, Option.bind_some, hu] at hvacant
  cases hvacant

end Retire

end Arena

namespace Ledger

variable {l : Ledger κ}

theorem isLive_iff {n : Nat} : l.isLive n = true ↔ ∃ r ∈ l.valid, r.number = n := by
  simp [isLive]

theorem mem_index_retain {p : Record → Bool} {key : κ} {n : Nat} :
    (key, n) ∈ (l.retain p).index ↔ (key, n) ∈ l.index ∧ (l.retain p).isLive n = true :=
  List.mem_filter

theorem mem_valid_retain {p : Record → Bool} {r : Record} :
    r ∈ (l.retain p).valid ↔ r ∈ l.valid ∧ p r = true :=
  List.mem_filter

theorem mem_index_issue [DecidableEq κ] {path : Path} {kind : Kind} {key k : κ} {cache : Bool}
    {n : Nat} : (k, n) ∈ (l.issue path kind key cache).index ↔
      (cache = true ∧ k = key ∧ n = l.issued) ∨
        ((k, n) ∈ l.index ∧ (cache = true → k ≠ key)) := by
  cases cache with
  | false => simp [issue]
  | true => simp [issue]

end Ledger

namespace Issuance

open Arena

/-- The arena stands for the ledger: its tickets are known and name different slots or
generations; its tenants are valid handles, among them all that are held; and its index has the
ledger's entries, among them all of the held handles. -/
structure Simulates (s : Issuance κ) (l : Ledger κ) : Prop where
  sound : s.arena.Sound
  issued : s.arena.issued = l.issued
  held : s.arena.held = l.held
  length : s.tickets.length = l.issued
  known : ∀ {n : Nat} {t : Ticket}, s.tickets[n]? = some t → t.serial = n ∧ s.arena.Knows t
  apart : (s.tickets.map fun t => (t.slot, t.generation)).Nodup
  ticket : ∀ {t : Tenant κ}, s.arena.Houses t → s.tickets[t.ticket.serial]? = some t.ticket
  valid : ∀ {t : Tenant κ}, s.arena.Houses t → t.record ∈ l.valid
  housed : ∀ {r : Record}, r ∈ l.valid → s.arena.isHeld r.number = true →
    ∃ t, s.arena.Houses t ∧ t.record = r
  number_lt : ∀ {r : Record}, r ∈ l.valid → r.number < l.issued
  keys : (l.index.map Prod.fst).Nodup
  entry : ∀ {key : κ} {n : Nat}, (key, n) ∈ l.index → l.isLive n = true
  indexed : ∀ {t : Tenant κ} {key : κ}, s.arena.Houses t →
    (key, t.ticket.slot) ∈ s.arena.index → (key, t.ticket.serial) ∈ l.index
  found : ∀ {t : Tenant κ} {key : κ}, s.arena.Houses t → s.arena.isHeld t.ticket.serial = true →
    (key, t.ticket.serial) ∈ l.index → (key, t.ticket.slot) ∈ s.arena.index

theorem simulates_empty : Simulates (empty : Issuance κ) Ledger.empty where
  sound := sound_empty
  issued := rfl
  held := rfl
  length := rfl
  known := fun h => by cases h
  apart := List.nodup_nil
  ticket := fun ⟨slot, h⟩ => by simp [empty, Arena.empty, tenant?] at h
  valid := fun ⟨slot, h⟩ => by simp [empty, Arena.empty, tenant?] at h
  housed := fun h => by cases h
  number_lt := fun h => by cases h
  keys := List.nodup_nil
  entry := fun h => by cases h
  indexed := fun _ h => by cases h
  found := fun _ _ h => by cases h

namespace Simulates

variable {s : Issuance κ} {l : Ledger κ}

/-! ## Observations -/

theorem isHeld_eq (h : Simulates s l) (n : Nat) : s.arena.isHeld n = l.isHeld n := by
  rw [isHeld, h.held, Ledger.isHeld]

/-- A number's handle is live if and only if some tenant has the number. -/
theorem isLive_iff (h : Simulates s l) {n : Nat} :
    s.isLive n = true ↔ ∃ t, s.arena.Houses t ∧ t.ticket.serial = n := by
  unfold Issuance.isLive
  constructor
  · intro hl
    split at hl
    · rename_i ticket hticket
      obtain ⟨hserial, hknows⟩ := h.known hticket
      obtain ⟨t, ht, rfl⟩ := (hknows.isLive_iff h.sound.toTenancy).mp hl
      exact ⟨t, ht, hserial⟩
    · cases hl
  · rintro ⟨t, ht, rfl⟩
    rw [h.ticket ht]
    exact ((h.known (h.ticket ht)).2.isLive_iff h.sound.toTenancy).mpr ⟨t, ht, rfl⟩

theorem isLive_of_isLive (h : Simulates s l) {n : Nat} (hl : s.isLive n = true) :
    l.isLive n = true := by
  obtain ⟨t, ht, rfl⟩ := h.isLive_iff.mp hl
  exact Ledger.isLive_iff.mpr ⟨t.record, h.valid ht, rfl⟩

/-- A handle that somebody holds is valid in both or in neither. -/
theorem isLive_eq (h : Simulates s l) {n : Nat} (hheld : s.arena.isHeld n = true) :
    s.isLive n = l.isLive n := by
  rw [Bool.eq_iff_iff]
  constructor
  · exact h.isLive_of_isLive
  · intro hl
    obtain ⟨r, hr, rfl⟩ := Ledger.isLive_iff.mp hl
    obtain ⟨t, ht, rfl⟩ := h.housed hr hheld
    exact h.isLive_iff.mpr ⟨t, ht, rfl⟩

theorem sight_eq (h : Simulates s l) : s.sight = l.sight := by
  unfold Issuance.sight Ledger.sight
  rw [← h.held]
  refine List.map_congr_left fun n hn => ?_
  rw [h.isLive_eq (List.contains_iff_mem.mpr hn)]

/-- The entries of held handles are the same in both. -/
theorem mem_index_iff (h : Simulates s l) {key : κ} {n : Nat} :
    (key, n) ∈ l.index ∧ l.isHeld n = true ↔ ∃ t, s.arena.Houses t ∧
      (key, t.ticket.slot) ∈ s.arena.index ∧ s.arena.isHeld t.ticket.serial = true ∧
        t.ticket.serial = n := by
  constructor
  · rintro ⟨hindex, hheld⟩
    rw [← h.isHeld_eq] at hheld
    obtain ⟨r, hr, rfl⟩ := Ledger.isLive_iff.mp (h.entry hindex)
    obtain ⟨t, ht, rfl⟩ := h.housed hr hheld
    exact ⟨t, ht, h.found ht hheld hindex, hheld, rfl⟩
  · rintro ⟨t, ht, hindex, hheld, rfl⟩
    rw [h.isHeld_eq] at hheld
    exact ⟨h.indexed ht hindex, hheld⟩

theorem lookup?_eq [DecidableEq κ] (h : Simulates s l) (key : κ) :
    (s.arena.lookup? key).map (fun t => t.ticket.serial) = l.lookup? key := by
  refine Option.ext fun n => ?_
  unfold Ledger.lookup?
  rw [Option.map_eq_some_iff, Option.filter_eq_some_iff, find?_key_eq_some h.keys, h.mem_index_iff]
  constructor
  · rintro ⟨t, ht, rfl⟩
    obtain ⟨hhouse, hindex, hheld⟩ := (lookup?_eq_some_iff h.sound.toTenancy).mp ht
    exact ⟨t, hhouse, hindex, hheld, rfl⟩
  · rintro ⟨t, hhouse, hindex, hheld, rfl⟩
    exact ⟨t, (lookup?_eq_some_iff h.sound.toTenancy).mpr ⟨hhouse, hindex, hheld⟩, rfl⟩

/-- The key of an entry and the number of the tenant that it leads to, if it is held. -/
def numbered? (a : Arena κ) (entry : κ × Nat) : Option (κ × Nat) :=
  ((a.tenant? entry.2).filter fun t => a.isHeld t.ticket.serial).map
    fun t => (entry.1, t.ticket.serial)

theorem numbered?_eq_some {a : Arena κ} {entry : κ × Nat} {key : κ} {n : Nat} :
    numbered? a entry = some (key, n) ↔ ∃ t, a.tenant? entry.2 = some t ∧
      a.isHeld t.ticket.serial = true ∧ entry.1 = key ∧ t.ticket.serial = n := by
  unfold numbered?
  rw [Option.map_eq_some_iff]
  constructor
  · rintro ⟨t, ht, he⟩
    obtain ⟨ht, hheld⟩ := Option.filter_eq_some_iff.mp ht
    obtain ⟨hkey, hn⟩ := Prod.mk.inj he
    exact ⟨t, ht, hheld, hkey, hn⟩
  · rintro ⟨t, ht, hheld, rfl, rfl⟩
    exact ⟨t, Option.filter_eq_some_iff.mpr ⟨ht, hheld⟩, rfl⟩

theorem cachedCount_eq (h : Simulates s l) : s.arena.cachedCount = l.cachedCount := by
  have hA := h.sound.toTenancy
  have hcount : s.arena.cachedCount = (s.arena.index.filterMap (numbered? s.arena)).length := by
    rw [List.length_filterMap_eq_countP]
    refine List.countP_congr fun e _ => ?_
    unfold numbered?
    cases s.arena.tenant? e.2 with
    | none => exact Iff.rfl
    | some t => cases hheld : s.arena.isHeld t.ticket.serial <;> simp [hheld]
  have hcount' : l.cachedCount = (l.index.filter fun entry => l.isHeld entry.2).length :=
    List.countP_eq_length_filter
  rw [hcount, hcount']
  -- Both lists have the same entries, and none of them twice.
  refine List.Perm.length_eq ((List.perm_ext_iff_of_nodup ?_ ?_).mpr ?_)
  · have hkeys : s.arena.index.Pairwise fun e f => e.1 ≠ f.1 :=
      List.pairwise_map.mp h.sound.index_nodup
    refine List.Pairwise.filterMap (numbered? s.arena) ?_ hkeys
    rintro e f hne ⟨k, n⟩ hk ⟨k', n'⟩ hk' he
    obtain ⟨-, -, -, rfl, -⟩ := numbered?_eq_some.mp hk
    obtain ⟨-, -, -, rfl, -⟩ := numbered?_eq_some.mp hk'
    exact hne (Prod.mk.inj he).1
  · refine List.Pairwise.filter _ ((List.pairwise_map.mp h.keys).imp ?_)
    intro e f hne he
    exact hne (by rw [he])
  · rintro ⟨key, n⟩
    rw [List.mem_filter, h.mem_index_iff, List.mem_filterMap]
    constructor
    · rintro ⟨⟨k, slot⟩, hindex, hsome⟩
      obtain ⟨t, ht, hheld, rfl, rfl⟩ := numbered?_eq_some.mp hsome
      have hslot : t.ticket.slot = slot := hA.slot_eq ht
      exact ⟨t, ⟨slot, ht⟩, by rw [hslot]; exact hindex, hheld, rfl⟩
    · rintro ⟨t, ht, hindex, hheld, rfl⟩
      refine ⟨(key, t.ticket.slot), hindex, ?_⟩
      exact numbered?_eq_some.mpr ⟨t, hA.tenant?_of_houses ht, hheld, rfl, rfl⟩

/-! ## Steps -/

/-- Retiring the same handles in both. -/
theorem retain (h : Simulates s l) {b : Arena κ} {p : Record → Bool}
    (hb : Spares (fun t => p t.record = true) s.arena b) :
    Simulates { s with arena := b } (l.retain p) where
  sound := hb.sound
  issued := hb.issued.trans h.issued
  held := hb.held.trans h.held
  length := h.length
  known := by
    intro n t ht
    obtain ⟨hserial, hknows⟩ := h.known ht
    exact ⟨hserial, hknows.of_leads hb.leads⟩
  apart := h.apart
  ticket := fun ht => h.ticket (hb.houses.mp ht).1
  valid := by
    intro t ht
    obtain ⟨hold, hp⟩ := hb.houses.mp ht
    exact Ledger.mem_valid_retain.mpr ⟨h.valid hold, hp⟩
  housed := by
    intro r hr hheld
    obtain ⟨hold, hp⟩ := Ledger.mem_valid_retain.mp hr
    rw [isHeld, hb.held] at hheld
    obtain ⟨t, ht, rfl⟩ := h.housed hold hheld
    exact ⟨t, hb.houses.mpr ⟨ht, hp⟩, rfl⟩
  number_lt := fun hr => h.number_lt (Ledger.mem_valid_retain.mp hr).1
  keys := h.keys.sublist (List.filter_sublist.map Prod.fst)
  entry := fun he => (Ledger.mem_index_retain.mp he).2
  indexed := by
    intro t key ht hindex
    obtain ⟨hold, hp⟩ := hb.houses.mp ht
    refine Ledger.mem_index_retain.mpr ⟨h.indexed hold ((hb.index ht).mp hindex), ?_⟩
    exact Ledger.isLive_iff.mpr
      ⟨t.record, Ledger.mem_valid_retain.mpr ⟨h.valid hold, hp⟩, rfl⟩
  found := by
    intro t key ht hheld hindex
    rw [isHeld, hb.held] at hheld
    exact (hb.index ht).mpr
      (h.found (hb.houses.mp ht).1 hheld (Ledger.mem_index_retain.mp hindex).1)

/-- Letting go of the same handle in both. -/
theorem drop (h : Simulates s l) (n : Nat) :
    Simulates { s with arena := s.arena.keep (· != n) } (l.drop n) := by
  have hheld : ∀ {m : Nat}, (s.arena.keep (· != n)).isHeld m = true → s.arena.isHeld m = true := by
    intro m hm
    exact List.contains_iff_mem.mpr (List.mem_filter.mp (List.contains_iff_mem.mp hm)).1
  exact
    { sound := h.sound.hold List.filter_sublist.subset
      issued := h.issued
      held := by
        show s.arena.held.filter _ = l.held.filter _
        rw [h.held]
      length := h.length
      known := by
        intro m t ht
        obtain ⟨hserial, hknows⟩ := h.known ht
        exact ⟨hserial, hknows.of_leads (Leads.of_slots_eq rfl rfl)⟩
      apart := h.apart
      ticket := h.ticket
      valid := h.valid
      housed := fun hr hm => h.housed hr (hheld hm)
      number_lt := h.number_lt
      keys := h.keys
      entry := h.entry
      indexed := h.indexed
      found := fun ht hm hindex => h.found ht (hheld hm) hindex }

/-- Retiring a handle by its number in both. -/
theorem perform_retire [DecidableEq κ] (h : Simulates s l) (n : Nat) :
    (s.perform (.retire n)).1 = (l.perform (.retire n)).1 ∧
      Simulates (s.perform (.retire n)).2 (l.perform (.retire n)).2 := by
  unfold Issuance.perform Ledger.perform
  dsimp only
  cases ht : s.tickets[n]? with
  | none =>
    -- The number has not been handed out, so the ledger has no handle with it either.
    have hlt : l.issued ≤ n := by
      rw [← h.length]
      exact List.getElem?_eq_none_iff.mp ht
    have hall : ∀ r ∈ l.valid, (r.number != n) = true := by
      intro r hr
      have := h.number_lt hr
      exact bne_iff_ne.mpr (by omega)
    have hheld : l.isHeld n = false := by
      rw [← h.isHeld_eq, Bool.eq_false_iff]
      intro hn
      have := h.sound.held_lt (List.contains_iff_mem.mp hn)
      have := h.issued
      omega
    rw [hheld]
    refine ⟨rfl, h.retain ⟨h.sound, Leads.refl _, rfl, rfl, ?_, fun _ => Iff.rfl⟩⟩
    exact fun {t} => ⟨fun hu => ⟨hu, hall t.record (h.valid hu)⟩, And.left⟩
  | some t =>
    obtain ⟨hserial, hknows⟩ := h.known ht
    refine ⟨?_, h.retain ((spares_retireTicket h.sound hknows).congr fun {u} hu => ?_)⟩
    · have hflag : (s.arena.retireTicket t).1 = s.isLive n := by
        unfold Issuance.isLive retireTicket
        rw [ht]
        cases hl : s.arena.isLive t <;> simp [hl]
      dsimp only
      rw [hflag, ← h.isHeld_eq]
      split
      · rename_i hheld
        rw [h.isLive_eq hheld]
      · rfl
    · have hticket := h.ticket hu
      rw [bne_iff_ne]
      refine not_congr ⟨?_, ?_⟩
      · rintro rfl
        exact hserial
      · intro he
        rw [show u.ticket.serial = n from he, ht] at hticket
        exact (Option.some.inj hticket).symm

theorem getElem?_tickets_append (h : Simulates s l) {n : Nat} {t : Ticket} (u : Ticket) :
    (s.tickets ++ [u])[n]? = some t ↔ s.tickets[n]? = some t ∨ n = l.issued ∧ u = t := by
  rw [← h.length]
  rcases Nat.lt_trichotomy n s.tickets.length with hlt | rfl | hgt
  · rw [List.getElem?_append_left hlt]
    have hne : n ≠ s.tickets.length := by omega
    simp [hne]
  · simp
  · rw [List.getElem?_eq_none (by simp; omega), List.getElem?_eq_none (by omega)]
    have hne : n ≠ s.tickets.length := by omega
    simp [hne]

section Issue

variable [DecidableEq κ] (path : Path) (kind : Kind) (key : κ) (cache : Bool)

/-- The tenants of an arena that has issued a handle are the new one and old ones, among them all
that are held. -/
theorem houses_issue_cases (h : Simulates s l) {t : Tenant κ}
    (ht : (s.arena.issue path kind key cache).2.Houses t) :
    t = s.arena.nextTenant path kind key cache ∨
      (s.arena.allocate.2.Houses t ∧ s.arena.Houses t) := by
  rcases houses_of_issue path kind key cache h.sound ht with rfl | hold
  · exact Or.inl rfl
  · exact Or.inr ⟨hold, (allocate_spec h.sound).2.houses hold⟩

theorem serial_nextTicket (h : Simulates s l) : s.arena.nextTicket.serial = l.issued :=
  (allocate_spec h.sound).2.issued.trans h.issued

/-- A handle that is held after the next issue and has an earlier number was held before. -/
theorem isHeld_of_issue (h : Simulates s l) {n : Nat} (hn : n < l.issued)
    (hheld : (s.arena.issue path kind key cache).2.isHeld n = true) :
    s.arena.isHeld n = true := by
  rw [isHeld, held_issue path kind key cache h.sound, h.issued, List.contains_iff_mem] at hheld
  rcases List.mem_cons.mp hheld with rfl | hold
  · exact absurd hn (Nat.lt_irrefl _)
  · exact List.contains_iff_mem.mpr hold

/-- No issued ticket is the next one in its slot. -/
theorem apart_issue (h : Simulates s l) :
    ((s.tickets ++ [s.arena.nextTicket]).map fun t => (t.slot, t.generation)).Nodup := by
  rw [List.map_append, List.nodup_append]
  refine ⟨h.apart, by simp, fun x hx y hy => ?_⟩
  obtain ⟨t, ht, rfl⟩ := List.mem_map.mp hx
  obtain ⟨n, hn⟩ := List.mem_iff_getElem?.mp ht
  rw [List.mem_singleton.mp hy]
  exact nextTicket_apart h.sound (h.known hn).2

theorem record_nextTenant (h : Simulates s l) :
    (s.arena.nextTenant path kind key cache).record = ⟨l.issued, path, kind⟩ := by
  show (⟨s.arena.nextTicket.serial, path, kind⟩ : Record) = _
  rw [h.serial_nextTicket]

theorem housed_issue (h : Simulates s l) {r : Record} (hr : r ∈ (l.issue path kind key cache).valid)
    (hheld : (s.arena.issue path kind key cache).2.isHeld r.number = true) :
    ∃ t, (s.arena.issue path kind key cache).2.Houses t ∧ t.record = r := by
  rcases List.mem_cons.mp hr with rfl | hold
  · exact ⟨_, houses_issue_self path kind key cache h.sound,
      h.record_nextTenant path kind key cache⟩
  · have hbefore := h.isHeld_of_issue path kind key cache (h.number_lt hold) hheld
    obtain ⟨t, ht, rfl⟩ := h.housed hold hbefore
    have hspared := (allocate_spec h.sound).2.spared ht hbefore
    exact ⟨t, houses_issue_of_taken path kind key cache h.sound hspared, rfl⟩

theorem keys_issue (h : Simulates s l) :
    ((l.issue path kind key cache).index.map Prod.fst).Nodup := by
  cases cache with
  | false => exact h.keys
  | true =>
    show (((key, l.issued) :: l.index.filter fun entry => !decide (entry.1 = key)).map
      Prod.fst).Nodup
    rw [List.map_cons, List.nodup_cons]
    refine ⟨fun hm => ?_, nodup_forget key h.keys⟩
    obtain ⟨e, he, hk⟩ := List.mem_map.mp hm
    exact (mem_forget.mp he).2 hk

/-- The key of a tenant after the next issue is that of its number in the ledger. -/
theorem indexed_issue (h : Simulates s l) {t : Tenant κ} {k : κ}
    (ht : (s.arena.issue path kind key cache).2.Houses t)
    (hindex : (k, t.ticket.slot) ∈ (s.arena.issue path kind key cache).2.index) :
    (k, t.ticket.serial) ∈ (l.issue path kind key cache).index := by
  obtain ⟨htaken, -⟩ := allocate_spec h.sound
  rw [Ledger.mem_index_issue]
  rcases h.houses_issue_cases path kind key cache ht with rfl | ⟨htenant, hold⟩
  · rcases (mem_index_issue path kind key cache).mp hindex with ⟨hc, he⟩ | ⟨he, -⟩
    · exact Or.inl ⟨hc, (Prod.mk.inj he).1, h.serial_nextTicket⟩
    · -- No entry leads to the slot that was vacant.
      obtain ⟨u, hu, -⟩ := htaken.index_sound he
      rw [show (s.arena.nextTenant path kind key cache).ticket.slot = s.arena.allocate.1 from rfl,
        htaken.vacant] at hu
      cases hu
  · rcases (mem_index_issue path kind key cache).mp hindex with ⟨-, he⟩ | ⟨he, hne⟩
    · have hslot := htaken.tenant?_of_houses htenant
      rw [(Prod.mk.inj he).2, htaken.vacant] at hslot
      cases hslot
    · exact Or.inr ⟨h.indexed hold (index_allocate_subset h.sound.toTenancy he), hne⟩

/-- The number of a held tenant after the next issue has the key of its slot in the arena. -/
theorem found_issue (h : Simulates s l) {t : Tenant κ} {k : κ}
    (ht : (s.arena.issue path kind key cache).2.Houses t)
    (hheld : (s.arena.issue path kind key cache).2.isHeld t.ticket.serial = true)
    (hindex : (k, t.ticket.serial) ∈ (l.issue path kind key cache).index) :
    (k, t.ticket.slot) ∈ (s.arena.issue path kind key cache).2.index := by
  rw [mem_index_issue]
  rcases h.houses_issue_cases path kind key cache ht with rfl | ⟨-, hold⟩
  · rcases Ledger.mem_index_issue.mp hindex with ⟨hc, rfl, -⟩ | ⟨he, -⟩
    · exact Or.inl ⟨hc, rfl⟩
    · obtain ⟨r, hr, hn⟩ := Ledger.isLive_iff.mp (h.entry he)
      have hlt := h.number_lt hr
      rw [hn, show (s.arena.nextTenant path kind key cache).ticket.serial = l.issued from
        h.serial_nextTicket] at hlt
      exact absurd hlt (Nat.lt_irrefl _)
  · have hlt : t.ticket.serial < l.issued := h.number_lt (h.valid hold)
    rcases Ledger.mem_index_issue.mp hindex with ⟨-, -, hn⟩ | ⟨he, hne⟩
    · omega
    · have hbefore := h.isHeld_of_issue path kind key cache hlt hheld
      have hentry := mem_index_allocate h.sound.toTenancy hold hbefore (h.found hold hbefore he)
      exact Or.inr ⟨hentry, hne⟩

/-- Issuing the same handle in both. -/
theorem issue (h : Simulates s l) :
    Simulates ⟨(s.arena.issue path kind key cache).2, s.tickets ++ [s.arena.nextTicket]⟩
      (l.issue path kind key cache) := by
  have hsound := h.sound.issue path kind key cache
  constructor
  case sound => exact hsound
  case issued =>
    rw [issued_issue path kind key cache h.sound, h.issued]
    rfl
  case held =>
    rw [held_issue path kind key cache h.sound, h.issued, h.held]
    rfl
  case length =>
    show (s.tickets ++ [s.arena.nextTicket]).length = l.issued + 1
    rw [List.length_append, h.length]
    rfl
  case known =>
    intro n t ht
    rcases (h.getElem?_tickets_append _).mp ht with hold | ⟨rfl, rfl⟩
    · obtain ⟨hn, hknows⟩ := h.known hold
      exact ⟨hn, hknows.of_leads (leads_issue path kind key cache h.sound)⟩
    · exact ⟨h.serial_nextTicket,
        Knows.of_houses hsound.toTenancy (houses_issue_self path kind key cache h.sound)⟩
  case apart => exact h.apart_issue
  case ticket =>
    intro t ht
    rw [h.getElem?_tickets_append]
    rcases h.houses_issue_cases path kind key cache ht with rfl | ⟨-, hold⟩
    · exact Or.inr ⟨h.serial_nextTicket, rfl⟩
    · exact Or.inl (h.ticket hold)
  case valid =>
    intro t ht
    rcases h.houses_issue_cases path kind key cache ht with rfl | ⟨-, hold⟩
    · rw [h.record_nextTenant path kind key cache]
      exact List.mem_cons_self
    · exact List.mem_cons_of_mem _ (h.valid hold)
  case housed => exact h.housed_issue path kind key cache
  case number_lt =>
    intro r hr
    rcases List.mem_cons.mp hr with rfl | hold
    · exact Nat.lt_succ_self _
    · exact Nat.lt_succ_of_lt (h.number_lt hold)
  case keys => exact h.keys_issue path kind key cache
  case entry =>
    intro k n he
    rcases Ledger.mem_index_issue.mp he with ⟨-, -, rfl⟩ | ⟨hold, -⟩
    · exact Ledger.isLive_iff.mpr ⟨_, List.mem_cons_self, rfl⟩
    · obtain ⟨r, hr, hn⟩ := Ledger.isLive_iff.mp (h.entry hold)
      exact Ledger.isLive_iff.mpr ⟨r, List.mem_cons_of_mem _ hr, hn⟩
  case indexed => exact h.indexed_issue path kind key cache
  case found => exact h.found_issue path kind key cache

end Issue

/-! ## Runs -/

section

variable [DecidableEq κ]

/-- An operation on both answers the same, and the arena goes on to stand for the ledger. -/
theorem perform (h : Simulates s l) (op : Operation κ) :
    (s.perform op).1 = (l.perform op).1 ∧ Simulates (s.perform op).2 (l.perform op).2 := by
  cases op with
  | issue path kind key cache =>
    refine ⟨?_, h.issue path kind key cache⟩
    show Observation.issued s.arena.nextTicket.serial = .issued l.issued
    rw [h.serial_nextTicket]
  | lookup key =>
    refine ⟨?_, h⟩
    show Observation.found ((s.arena.lookup? key).map _) = .found (l.lookup? key)
    rw [h.lookup?_eq]
  | isLive n =>
    refine ⟨?_, h⟩
    show (if s.arena.isHeld n then Observation.flag (s.isLive n) else .nothing) =
      if l.isHeld n then .flag (l.isLive n) else .nothing
    rw [← h.isHeld_eq]
    split
    · rename_i hheld
      rw [h.isLive_eq hheld]
    · rfl
  | retire n => exact h.perform_retire n
  | retireWhere stale =>
    refine ⟨rfl, h.retain ((spares_retireWhere h.sound _).congr fun _ => ?_)⟩
    exact (Bool.not_eq_true' _).symm.to_iff
  | cachedCount =>
    refine ⟨?_, h⟩
    show Observation.count s.arena.cachedCount = .count l.cachedCount
    rw [h.cachedCount_eq]
  | drop n => exact ⟨rfl, h.drop n⟩

theorem after (h : Simulates s l) (ops : List (Operation κ)) :
    Simulates (s.after ops) (l.after ops) := by
  induction ops generalizing s l with
  | nil => exact h
  | cons op rest ih => exact ih (h.perform op).2

theorem trace_eq (h : Simulates s l) (ops : List (Operation κ)) : s.trace ops = l.trace ops := by
  induction ops generalizing s l with
  | nil => rfl
  | cons op rest ih =>
    obtain ⟨hanswer, hnext⟩ := h.perform op
    unfold Issuance.trace Ledger.trace
    rw [hanswer, hnext.sight_eq, ih hnext]

end

end Simulates

/-- Whatever operations are carried out, the same is seen of an arena as of a ledger: what each
operation answers, and which of the held handles are valid after it. No two of the issued tickets
name the same slot and generation, and a handle is valid in the arena, held or not, only while it
is in the ledger. -/
theorem trace_eq_ledger [DecidableEq κ] (ops : List (Operation κ)) :
    (empty : Issuance κ).trace ops = (Ledger.empty : Ledger κ).trace ops ∧
    (((empty : Issuance κ).after ops).tickets.map fun t => (t.slot, t.generation)).Nodup ∧
    ∀ number, ((empty : Issuance κ).after ops).isLive number = true →
      ((Ledger.empty : Ledger κ).after ops).isLive number = true := by
  have hafter : Simulates ((empty : Issuance κ).after ops) ((Ledger.empty : Ledger κ).after ops) :=
    simulates_empty.after ops
  exact ⟨simulates_empty.trace_eq ops, hafter.apart, fun _ hl => hafter.isLive_of_isLive hl⟩

end Issuance

end LiveDocument
