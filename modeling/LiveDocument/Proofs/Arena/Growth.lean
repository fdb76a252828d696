import LiveDocument.Proofs.Arena.Upkeep
import Mathlib.Algebra.Group.Nat.Defs
import Mathlib.Data.List.Nodup
import Mathlib.Data.List.Perm.Subperm
import Mathlib.Data.Nat.Size
import Mathlib.Order.Nat

/-!
# The growth of an arena

A sweep frees the slots whose handles nobody holds, and it is due when a slot is wanted, none is
free and the slots have become twice as many as at the sweep before. What is doubled is the number
of all slots, and not of those that are still occupied after the sweep. So each sweep waits until
the slots that it has freed are used up and as many more have been added, and the slots double from
sweep to sweep for ever, even if no more than one handle is held at any moment.

How many slots there can be is settled exactly, by an account of the handles that have been issued:
each of them has a slot, or its slot was freed.

* `Arena.threshold`: when each sweep is due. `reclaimed`: how many slots the first sweeps free at
  least. `sweepsWithin`: how many sweeps there have been before the slots exceed a limit.
* `Arena.Paced`: the account of an arena. `Paced.ready`, `Paced.issue`, `Paced.of_thins`: every
  step keeps it. `Issuance.HoldsAtMost.paced`: so does every run.
* `Arena.Balanced`: the account is exact. `Issuance.churn`: the run that keeps it so, because it
  drops each handle at once, but the first few. `Issuance.churn_exceeds`: it gets beyond any limit.
* `Issuance.slots_le_iff`: how many handles can be issued until the slots exceed a limit.
-/

namespace LiveDocument

variable {κ : Type}

namespace Arena

/-! ## Counting tenants -/

/-- The number of occupied slots. -/
def population (a : Arena κ) : Nat :=
  a.slots.countP fun s => s.tenant.isSome

/-- The tenants, in the order of their slots. -/
def tenants (a : Arena κ) : List (Tenant κ) :=
  a.slots.filterMap Slot.tenant

theorem population_le (a : Arena κ) : a.population ≤ a.slots.length :=
  List.countP_le_length

theorem length_tenants (a : Arena κ) : a.tenants.length = a.population :=
  List.length_filterMap_eq_countP

theorem mem_tenants {a : Arena κ} {t : Tenant κ} : t ∈ a.tenants ↔ a.Houses t := by
  constructor
  · intro h
    obtain ⟨s, hs, ht⟩ := List.mem_filterMap.mp h
    obtain ⟨i, hi⟩ := List.mem_iff_getElem?.mp hs
    exact ⟨i, tenant?_eq_some.mpr ⟨s, hi, ht⟩⟩
  · rintro ⟨i, hi⟩
    obtain ⟨s, hs, ht⟩ := tenant?_eq_some.mp hi
    exact List.mem_filterMap.mpr ⟨s, List.mem_of_getElem? hs, ht⟩

/-- If no slot is free, all are occupied. -/
theorem Sound.population_eq {a : Arena κ} (hA : a.Sound) (hfree : a.free = []) :
    a.population = a.slots.length := by
  refine List.countP_eq_length.mpr fun s hs => ?_
  obtain ⟨i, hi⟩ := List.mem_iff_getElem?.mp hs
  cases ht : s.tenant with
  | some t => rfl
  | none =>
    have hmem : i ∈ a.free := by
      refine hA.mem_free.mpr ⟨(List.getElem?_eq_some_iff.mp hi).1, ?_⟩
      rw [tenant?, hi, Option.bind_some, ht]
    rw [hfree] at hmem
    cases hmem

theorem Tenancy.nodup_serials {a : Arena κ} (hA : a.Tenancy) :
    (a.tenants.map fun t => t.ticket.serial).Nodup := by
  refine List.Nodup.map_on ?_ ?_
  · intro t ht u hu
    exact hA.serial_inj (mem_tenants.mp ht) (mem_tenants.mp hu)
  · refine List.pairwise_filterMap.mpr (List.pairwise_iff_getElem.mpr ?_)
    intro i j hi hj hlt t ht u hu
    -- The tickets of two slots name different slots.
    have hti := (hA.ticket (List.getElem?_eq_getElem hi) ht).1
    have huj := (hA.ticket (List.getElem?_eq_getElem hj) hu).1
    rintro rfl
    omega

/-- There are no more tenants than serial numbers that they can have. -/
theorem Tenancy.population_le_length {a : Arena κ} (hA : a.Tenancy) {numbers : List Nat}
    (h : ∀ {t : Tenant κ}, a.Houses t → t.ticket.serial ∈ numbers) :
    a.population ≤ numbers.length := by
  have hsub : (a.tenants.map fun t => t.ticket.serial) ⊆ numbers := by
    intro n hn
    obtain ⟨t, ht, rfl⟩ := List.mem_map.mp hn
    exact h (mem_tenants.mp ht)
  have hle := (List.subperm_of_subset hA.nodup_serials hsub).length_le
  rwa [List.length_map, length_tenants] at hle

/-- There are as many tenants as serial numbers that some tenant has. -/
theorem length_le_population {a : Arena κ} {numbers : List Nat} (hnodup : numbers.Nodup)
    (h : ∀ n ∈ numbers, ∃ t, a.Houses t ∧ t.ticket.serial = n) :
    numbers.length ≤ a.population := by
  have hsub : numbers ⊆ a.tenants.map fun t => t.ticket.serial := by
    intro n hn
    obtain ⟨t, ht, rfl⟩ := h n hn
    exact List.mem_map.mpr ⟨t, mem_tenants.mpr ht, rfl⟩
  have hle := (List.subperm_of_subset hnodup hsub).length_le
  rwa [List.length_map, length_tenants] at hle

/-! ## What the steps do to the count -/

/-- The slots and the threshold stay as they are, and nobody moves in. -/
structure Thins (a b : Arena κ) : Prop where
  length : b.slots.length = a.slots.length
  sweepAt : b.sweepAt = a.sweepAt
  issued : b.issued = a.issued
  population : b.population ≤ a.population

theorem Thins.refl (a : Arena κ) : Thins a a :=
  ⟨rfl, rfl, rfl, Nat.le_refl _⟩

theorem Thins.trans {a b c : Arena κ} (h : Thins a b) (k : Thins b c) : Thins a c where
  length := k.length.trans h.length
  sweepAt := k.sweepAt.trans h.sweepAt
  issued := k.issued.trans h.issued
  population := k.population.trans h.population

theorem thins_keep (a : Arena κ) (p : Nat → Bool) : Thins a (a.keep p) :=
  ⟨rfl, rfl, rfl, Nat.le_refl _⟩

theorem population_take (a : Arena κ) : a.take.2.population = a.population := by
  unfold take
  split
  · rfl
  · rw [population, grow, List.countP_append]
    rfl

section

variable [DecidableEq κ]

theorem thins_retire (a : Arena κ) (slot : Nat) : Thins a (a.retire slot) := by
  cases h : a.tenant? slot with
  | none =>
    rw [retire_of_vacant h]
    exact Thins.refl a
  | some t =>
    obtain ⟨g, hs⟩ := exists_slot_of_tenant? h
    refine ⟨length_slots_retire a slot, ?_, issued_retire a slot, ?_⟩
    · rw [retire_of_tenant hs]
    · rw [population, retire_of_tenant hs, List.countP_set (lt_of_tenant? h)]
      exact Nat.sub_le _ _

theorem thins_retireWhere (a : Arena κ) (p : Tenant κ → Bool) : Thins a (a.retireWhere p) :=
  retireWhere_induction p (Thins.refl a) fun {b} slot hb => hb.trans (thins_retire b slot)

/-- After a sweep no other is due. -/
theorem not_sweepDue_ready (a : Arena κ) : ¬ a.ready.SweepDue := by
  unfold ready
  split
  · rintro ⟨-, hle⟩
    have hfirst : 0 < firstSweep := by decide
    dsimp only at hle
    omega
  · assumption

variable {a : Arena κ} (path : Path) (kind : Kind) (key : κ) (cache : Bool)

theorem length_slots_issue : (a.issue path kind key cache).2.slots.length =
    a.ready.slots.length + if a.ready.free = [] then 1 else 0 := by
  show (a.allocate.2.slots.set a.allocate.1 _).length = _
  rw [List.length_set, allocate_eq, take]
  split
  · rename_i slot free hfree
    rw [hfree]
    rfl
  · rename_i hfree
    rw [hfree, if_pos rfl]
    exact List.length_append

theorem sweepAt_issue : (a.issue path kind key cache).2.sweepAt = a.ready.sweepAt := by
  show a.allocate.2.sweepAt = _
  rw [allocate_eq, take]
  split <;> rfl

theorem population_issue (hA : a.Sound) :
    (a.issue path kind key cache).2.population = a.ready.population + 1 := by
  obtain ⟨htaken, -⟩ := allocate_spec hA
  have hlt := htaken.slot_lt
  have hvacant : a.allocate.2.slots[a.allocate.1].tenant = none := by
    have h := htaken.vacant
    rwa [tenant?, List.getElem?_eq_getElem hlt, Option.bind_some] at h
  show (a.allocate.2.slots.set a.allocate.1 _).countP _ = _
  rw [List.countP_set hlt, hvacant, ← population_take a.ready, ← allocate_eq]
  rfl

end

/-! ## The account -/

/-- The number of slots at which a sweep is due, if there have been `k` before. -/
def threshold (k : Nat) : Nat :=
  firstSweep * 2 ^ k

theorem threshold_succ (k : Nat) : threshold (k + 1) = threshold k * 2 := by
  rw [threshold, Nat.pow_succ, ← Nat.mul_assoc, threshold]

theorem firstSweep_le_threshold (k : Nat) : firstSweep ≤ threshold k :=
  Nat.le_mul_of_pos_right _ (Nat.two_pow_pos k)

/-- How many slots are freed by the first `k` sweeps at least, if no more than `kept` handles are
held at each. -/
def reclaimed (kept : Nat) : Nat → Nat
  | 0 => 0
  | k + 1 => reclaimed kept k + (threshold k - kept)

theorem reclaimed_mono (kept : Nat) {k l : Nat} (hle : k ≤ l) :
    reclaimed kept k ≤ reclaimed kept l := by
  induction hle with
  | refl => exact Nat.le_refl _
  | step _ ih => exact ih.trans (Nat.le_add_right _ _)

/-- How many of the thresholds of sweeps are within a limit. -/
def sweepsWithin (limit : Nat) : Nat :=
  Nat.size (limit / firstSweep)

theorem lt_sweepsWithin_iff {k limit : Nat} :
    k < sweepsWithin limit ↔ threshold k ≤ limit := by
  rw [sweepsWithin, Nat.lt_size, Nat.le_div_iff_mul_le (by decide), Nat.mul_comm, threshold]

/-- What holds of an arena after `k` sweeps, each with no more than `kept` handles held. There are
no more slots than at the next sweep, and no fewer than at those before. The tenants and the slots
that have been reclaimed each stand for a handle that has been issued; and so it was when the slots
came to exceed any limit. -/
structure Paced (kept k : Nat) (a : Arena κ) : Prop where
  sound : a.Sound
  sweepAt : a.sweepAt = threshold k
  length_le : a.slots.length ≤ threshold k
  swept : ∀ {j : Nat}, j < k → threshold j ≤ a.slots.length
  account : a.population + reclaimed kept k ≤ a.issued
  exceeded : ∀ {limit : Nat}, limit < a.slots.length →
    limit + 1 + reclaimed kept (sweepsWithin limit) ≤ a.issued

theorem paced_empty (kept : Nat) : Paced kept 0 (empty : Arena κ) where
  sound := sound_empty
  sweepAt := rfl
  length_le := Nat.zero_le _
  swept := fun hj => absurd hj (Nat.not_lt_zero _)
  account := Nat.le_refl _
  exceeded := fun hlt => absurd hlt (Nat.not_lt_zero _)

namespace Paced

variable {kept k : Nat} {a : Arena κ}

theorem of_thins (hp : Paced kept k a) {b : Arena κ} (hb : b.Sound) (hthins : Thins a b) :
    Paced kept k b where
  sound := hb
  sweepAt := hthins.sweepAt.trans hp.sweepAt
  length_le := hthins.length.trans_le hp.length_le
  swept := fun hj => (hp.swept hj).trans_eq hthins.length.symm
  account := by
    rw [hthins.issued]
    exact (Nat.add_le_add_right hthins.population _).trans hp.account
  exceeded := by
    intro limit hlt
    rw [hthins.length] at hlt
    rw [hthins.issued]
    exact hp.exceeded hlt

theorem le_sweepsWithin (hp : Paced kept k a) {limit : Nat} (hle : a.slots.length ≤ limit) :
    k ≤ sweepsWithin limit := by
  refine Nat.le_of_not_lt fun hless => ?_
  exact Nat.lt_irrefl _ (lt_sweepsWithin_iff.mpr ((hp.swept hless).trans hle))

/-- Up to the next sweep, the number of slots tells how many sweeps there have been. -/
theorem sweepsWithin_length (hp : Paced kept k a) (hlt : a.slots.length < threshold k) :
    sweepsWithin a.slots.length = k := by
  refine Nat.le_antisymm (Nat.le_of_not_lt fun hmore => ?_) (hp.le_sweepsWithin (Nat.le_refl _))
  exact Nat.not_le_of_lt hlt (lt_sweepsWithin_iff.mp hmore)

/-- A sweep is due when the slots have reached the threshold, and all are occupied. -/
theorem of_sweepDue (hp : Paced kept k a) (hdue : a.SweepDue) :
    a.slots.length = threshold k ∧ a.population = threshold k := by
  have hle := hdue.2
  rw [hp.sweepAt] at hle
  have hlength := Nat.le_antisymm hp.length_le hle
  exact ⟨hlength, (hp.sound.population_eq hdue.1).trans hlength⟩

variable [DecidableEq κ]

theorem retireTicket (hp : Paced kept k a) (t : Ticket) : Paced kept k (a.retireTicket t).2 := by
  unfold Arena.retireTicket
  split
  · exact hp.of_thins (hp.sound.retire t.slot) (thins_retire a t.slot)
  · exact hp

theorem ready (hp : Paced kept k a) (hheld : a.held.length ≤ kept) :
    Paced kept (if a.SweepDue then k + 1 else k) a.ready := by
  by_cases hdue : a.SweepDue
  case neg =>
    rw [if_neg hdue, Arena.ready, if_neg hdue]
    exact hp
  case pos =>
    obtain ⟨hlength, hpopulation⟩ := hp.of_sweepDue hdue
    have hthins : Thins a a.sweep := thins_retireWhere a _
    have hsurvivors : a.sweep.population ≤ a.held.length := by
      refine (hp.sound.retireWhere _).toTenancy.population_le_length fun ht => ?_
      have hnot := (houses_retireWhere.mp ht).2
      rw [Bool.not_eq_false'] at hnot
      exact List.contains_iff_mem.mp hnot
    have hmax : max (a.sweep.slots.length * 2) firstSweep = threshold (k + 1) := by
      rw [hthins.length, hlength, ← threshold_succ]
      exact Nat.max_eq_left (firstSweep_le_threshold (k + 1))
    have hdouble : threshold k ≤ threshold (k + 1) := by
      rw [threshold_succ]
      exact Nat.le_mul_of_pos_right _ (by decide)
    rw [if_pos hdue, Arena.ready, if_pos hdue, hmax]
    constructor
    case sound => exact hp.sound.sweep _
    case sweepAt => rfl
    case length_le => exact hthins.length.trans_le (hlength.trans_le hdouble)
    case swept =>
      intro j hj
      show _ ≤ a.sweep.slots.length
      rw [hthins.length]
      rcases Nat.lt_succ_iff_lt_or_eq.mp hj with hlt | rfl
      · exact hp.swept hlt
      · exact hlength.ge
    case account =>
      -- The sweep leaves a tenant for each held handle at most, and all slots had tenants before.
      have haccount := hp.account
      have hpop := hthins.population
      show a.sweep.population + (reclaimed kept k + (threshold k - kept)) ≤ a.sweep.issued
      rw [hthins.issued]
      omega
    case exceeded =>
      intro limit hlt
      show _ ≤ a.sweep.issued
      rw [hthins.issued]
      exact hp.exceeded (hthins.length ▸ hlt)

theorem issue (hp : Paced kept k a) (hheld : a.held.length ≤ kept) (path : Path) (kind : Kind)
    (key : κ) (cache : Bool) :
    Paced kept (if a.SweepDue then k + 1 else k) (a.issue path kind key cache).2 := by
  have hready := hp.ready hheld
  generalize (if a.SweepDue then k + 1 else k) = k at hready
  have hissued : a.ready.issued = a.issued := by
    unfold Arena.ready
    split
    · exact issued_retireWhere a _
    · rfl
  have hlength := length_slots_issue (a := a) path kind key cache
  have hpopulation := population_issue path kind key cache hp.sound
  have hnext := issued_issue path kind key cache hp.sound
  have haccount := hready.account
  -- A new slot is added only if all are occupied and no sweep is due.
  have hgrown : a.ready.free = [] → a.ready.slots.length < threshold k ∧
      a.ready.population = a.ready.slots.length := by
    intro hfree
    refine ⟨Nat.lt_of_not_le fun hle => ?_, hready.sound.population_eq hfree⟩
    exact not_sweepDue_ready a ⟨hfree, hready.sweepAt.trans_le hle⟩
  constructor
  case sound => exact hp.sound.issue path kind key cache
  case sweepAt => exact (sweepAt_issue path kind key cache).trans hready.sweepAt
  case length_le =>
    rw [hlength]
    split
    · rename_i hfree
      exact (hgrown hfree).1
    · exact hready.length_le
  case swept =>
    intro j hj
    rw [hlength]
    exact (hready.swept hj).trans (Nat.le_add_right _ _)
  case account => omega
  case exceeded =>
    intro limit hlt
    rw [hnext, ← hissued]
    rw [hlength] at hlt
    rcases Nat.lt_or_ge limit a.ready.slots.length with hold | hnew
    · exact (hready.exceeded hold).trans (Nat.le_succ _)
    · split at hlt
      · rename_i hfree
        obtain ⟨hbelow, hfull⟩ := hgrown hfree
        obtain rfl : limit = a.ready.slots.length := by omega
        rw [hready.sweepsWithin_length hbelow]
        omega
      · omega

end Paced

/-- An arena for which the account is exact: each sweep has left `kept` tenants, if there were as
many. The handles that are held are valid, and the first `kept` are held. -/
structure Balanced (kept k : Nat) (a : Arena κ) : Prop extends Paced kept k a where
  kept_held : ∀ {i : Nat}, i < kept → i < a.issued → i ∈ a.held
  housed : ∀ {i : Nat}, i ∈ a.held → ∃ t, a.Houses t ∧ t.ticket.serial = i
  spent : a.issued ≤ a.population + reclaimed kept k

theorem balanced_empty (kept : Nat) : Balanced kept 0 (empty : Arena κ) where
  toPaced := paced_empty kept
  kept_held := fun _ hi => absurd hi (Nat.not_lt_zero _)
  housed := fun hi => by cases hi
  spent := Nat.le_refl _

namespace Balanced

variable {kept k : Nat} {a : Arena κ}

theorem keep (hb : Balanced kept k a) {p : Nat → Bool} (hp : ∀ i < kept, p i = true) :
    Balanced kept k (a.keep p) where
  toPaced := hb.of_thins (hb.sound.hold List.filter_sublist.subset) (thins_keep a p)
  kept_held := fun hi hlt => List.mem_filter.mpr ⟨hb.kept_held hi hlt, hp _ hi⟩
  housed := fun hi => hb.housed (List.mem_filter.mp hi).1
  spent := hb.spent

/-- Once more handles are issued than the account allows up to a limit, the slots exceed it. -/
theorem exceeds (hb : Balanced kept k a) {limit : Nat}
    (hmany : limit + reclaimed kept (sweepsWithin limit) < a.issued) : limit < a.slots.length := by
  refine Nat.lt_of_not_le fun hle => ?_
  have hreclaimed := reclaimed_mono kept (hb.le_sweepsWithin hle)
  have hspent := hb.spent
  have hpopulation := a.population_le
  omega

variable [DecidableEq κ]

/-- A sweep frees no more slots than the account says, because the kept handles stay. -/
theorem spent_ready (hb : Balanced kept k a) :
    a.issued ≤ a.ready.population + reclaimed kept (if a.SweepDue then k + 1 else k) := by
  by_cases hdue : a.SweepDue
  case neg =>
    rw [if_neg hdue, Arena.ready, if_neg hdue]
    exact hb.spent
  case pos =>
    have hpopulation := (hb.of_sweepDue hdue).2
    have hissued := (Nat.le_add_right _ _).trans hb.account
    have hsurvivors : (List.range (min kept a.issued)).length ≤ a.sweep.population := by
      refine length_le_population List.nodup_range fun i hi => ?_
      have hlt := List.mem_range.mp hi
      have hheld := hb.kept_held (hlt.trans_le (Nat.min_le_left _ _))
        (hlt.trans_le (Nat.min_le_right _ _))
      obtain ⟨t, ht, rfl⟩ := hb.housed hheld
      refine ⟨t, houses_retireWhere.mpr ⟨ht, ?_⟩, rfl⟩
      rw [Bool.not_eq_false', isHeld]
      exact List.contains_iff_mem.mpr hheld
    have hspent := hb.spent
    rw [List.length_range] at hsurvivors
    rw [if_pos hdue, Arena.ready, if_pos hdue]
    show _ ≤ a.sweep.population + (reclaimed kept k + (threshold k - kept))
    omega

theorem issue (hb : Balanced kept k a) (hheld : a.held.length ≤ kept) (path : Path) (kind : Kind)
    (key : κ) (cache : Bool) :
    Balanced kept (if a.SweepDue then k + 1 else k) (a.issue path kind key cache).2 where
  toPaced := hb.toPaced.issue hheld path kind key cache
  kept_held := by
    intro i hi hlt
    rw [issued_issue path kind key cache hb.sound] at hlt
    rw [held_issue path kind key cache hb.sound]
    rcases Nat.lt_succ_iff_lt_or_eq.mp hlt with hold | rfl
    · exact List.mem_cons_of_mem _ (hb.kept_held hi hold)
    · exact List.mem_cons_self
  housed := by
    intro i hi
    obtain ⟨-, hkeeps⟩ := allocate_spec hb.sound
    rw [held_issue path kind key cache hb.sound] at hi
    rcases List.mem_cons.mp hi with rfl | hold
    · exact ⟨_, houses_issue_self path kind key cache hb.sound, hkeeps.issued⟩
    · obtain ⟨t, ht, rfl⟩ := hb.housed hold
      have htaken := hkeeps.spared ht (List.contains_iff_mem.mpr hold)
      exact ⟨t, houses_issue_of_taken path kind key cache hb.sound htaken, rfl⟩
  spent := by
    have hspent := hb.spent_ready
    rw [issued_issue path kind key cache hb.sound, population_issue path kind key cache hb.sound]
    omega

end Balanced

end Arena

namespace Issuance

open Arena

variable [DecidableEq κ]

/-- No more than `m` handles are held at any moment of a run. -/
def HoldsAtMost (m : Nat) (s : Issuance κ) : List (Operation κ) → Prop
  | [] => s.arena.held.length ≤ m
  | op :: rest => s.arena.held.length ≤ m ∧ HoldsAtMost m (s.perform op).2 rest

theorem HoldsAtMost.length_held_le {m : Nat} {s : Issuance κ} {ops : List (Operation κ)}
    (h : s.HoldsAtMost m ops) : s.arena.held.length ≤ m := by
  cases ops with
  | nil => exact h
  | cons op rest => exact h.1

theorem after_append (s : Issuance κ) (ops more : List (Operation κ)) :
    s.after (ops ++ more) = (s.after ops).after more := by
  induction ops generalizing s with
  | nil => rfl
  | cons op rest ih => exact ih (s.perform op).2

theorem HoldsAtMost.append {m : Nat} {s : Issuance κ} {ops more : List (Operation κ)}
    (h : s.HoldsAtMost m ops) (hmore : (s.after ops).HoldsAtMost m more) :
    s.HoldsAtMost m (ops ++ more) := by
  induction ops generalizing s with
  | nil => exact hmore
  | cons op rest ih => exact ⟨h.1, ih h.2 hmore⟩

/-! ## All runs -/

theorem paced_perform {kept k : Nat} {s : Issuance κ} (hp : Paced kept k s.arena)
    (op : Operation κ) (hheld : (s.perform op).2.arena.held.length ≤ kept + 1) :
    ∃ l, Paced kept l (s.perform op).2.arena := by
  cases op with
  | issue path kind key cache =>
    -- The new handle is held as well, so there was room for it when the sweep was made.
    have hnew : (s.perform (.issue path kind key cache)).2.arena.held =
        s.arena.issued :: s.arena.held := held_issue path kind key cache hp.sound
    rw [hnew] at hheld
    exact ⟨_, hp.issue (Nat.le_of_succ_le_succ hheld) path kind key cache⟩
  | lookup key => exact ⟨k, hp⟩
  | isLive n => exact ⟨k, hp⟩
  | retire n =>
    unfold Issuance.perform
    dsimp only
    split
    · exact ⟨k, hp.retireTicket _⟩
    · exact ⟨k, hp⟩
  | retireWhere stale =>
    exact ⟨k, hp.of_thins (hp.sound.retireWhere _) (thins_retireWhere s.arena _)⟩
  | cachedCount => exact ⟨k, hp⟩
  | drop n =>
    exact ⟨k, hp.of_thins (hp.sound.hold List.filter_sublist.subset) (thins_keep s.arena _)⟩

theorem HoldsAtMost.paced {kept k : Nat} {s : Issuance κ} {ops : List (Operation κ)}
    (hops : s.HoldsAtMost (kept + 1) ops) (hp : Paced kept k s.arena) :
    ∃ l, Paced kept l (s.after ops).arena := by
  induction ops generalizing s k with
  | nil => exact ⟨k, hp⟩
  | cons op rest ih =>
    obtain ⟨l, hl⟩ := paced_perform hp op hops.2.length_held_le
    exact ih hops.2 hl

/-! ## The run that wastes most -/

/-- Issues a handle and drops it at once, unless it is one of the first `kept`. -/
def churnRound (key : κ) (kept n : Nat) : List (Operation κ) :=
  .issue [] .null key false :: if n < kept then [] else [.drop n]

def churn (key : κ) (kept : Nat) : Nat → List (Operation κ)
  | 0 => []
  | n + 1 => churn key kept n ++ churnRound key kept n

/-- After `n` rounds the kept handles are all that are held, and the account is exact. -/
structure Churned (kept n : Nat) (a : Arena κ) : Prop where
  issued : a.issued = n
  held : a.held = (List.range (min kept n)).reverse
  balanced : ∃ k, Balanced kept k a

omit [DecidableEq κ] in
theorem Churned.length_held {kept n : Nat} {a : Arena κ} (hc : Churned kept n a) :
    a.held.length = min kept n := by
  rw [hc.held, List.length_reverse, List.length_range]

/-- A round has one handle more for a moment. -/
theorem Churned.round {kept n : Nat} {s : Issuance κ} (hc : Churned kept n s.arena) (key : κ) :
    s.HoldsAtMost (kept + 1) (churnRound key kept n) ∧
      Churned kept (n + 1) (s.after (churnRound key kept n)).arena := by
  obtain ⟨k, hb⟩ := hc.balanced
  have hlength := hc.length_held
  have hmin := Nat.min_le_left kept n
  have hissue := hb.issue (by omega) [] .null key false
  have hissued := issued_issue [] .null key false hb.sound
  have hheld := held_issue [] .null key false hb.sound
  rw [hc.issued] at hissued hheld
  have hpeak : (s.arena.issue [] .null key false).2.held.length ≤ kept + 1 := by
    rw [hheld, List.length_cons]
    omega
  by_cases hn : n < kept
  case pos =>
    rw [churnRound, if_pos hn]
    refine ⟨⟨by omega, hpeak⟩, hissued, ?_, _, hissue⟩
    show (s.arena.issue [] .null key false).2.held = _
    rw [hheld, hc.held, Nat.min_eq_right (Nat.le_of_lt hn), Nat.min_eq_right hn, List.range_succ,
      List.reverse_append]
    rfl
  case neg =>
    have hkept : kept ≤ n := Nat.le_of_not_lt hn
    rw [churnRound, if_neg hn]
    have hothers : ∀ i < kept, (i != n) = true := fun i hi =>
      bne_iff_ne.mpr (hi.trans_le hkept).ne
    have hdropped : ((s.arena.issue [] .null key false).2.keep (· != n)).held =
        (List.range (min kept (n + 1))).reverse := by
      rw [keep, hheld, hc.held, Nat.min_eq_left hkept,
        Nat.min_eq_left (hkept.trans (Nat.le_succ n)), List.filter_cons_of_neg (by simp)]
      refine List.filter_eq_self.mpr fun i hi => hothers i ?_
      rwa [List.mem_reverse, List.mem_range] at hi
    have hafter : Churned kept (n + 1)
        ((s.arena.issue [] .null key false).2.keep (· != n)) :=
      ⟨hissued, hdropped, _, hissue.keep hothers⟩
    refine ⟨⟨by omega, hpeak, ?_⟩, hafter⟩
    exact hafter.length_held.trans_le ((Nat.min_le_left _ _).trans (Nat.le_succ _))

theorem churned_churn (key : κ) (kept n : Nat) :
    HoldsAtMost (kept + 1) empty (churn key kept n) ∧
      Churned kept n ((empty : Issuance κ).after (churn key kept n)).arena := by
  induction n with
  | zero => exact ⟨Nat.zero_le _, rfl, by rw [Nat.min_zero]; rfl, 0, balanced_empty kept⟩
  | succ n ih =>
    obtain ⟨hholds, hround⟩ := ih.2.round key
    rw [churn, after_append]
    exact ⟨ih.1.append hholds, hround⟩

/-- The slots exceed a limit as soon as more handles have been issued than can have had their slots
within it. -/
theorem churn_exceeds (key : κ) (kept limit : Nat) :
    limit < ((empty : Issuance κ).after
      (churn key kept (limit + reclaimed kept (sweepsWithin limit) + 1))).arena.slots.length := by
  have hchurned := (churned_churn key kept (limit + reclaimed kept (sweepsWithin limit) + 1)).2
  obtain ⟨k, hk⟩ := hchurned.balanced
  exact hk.exceeds ((Nat.lt_succ_self _).trans_eq hchurned.issued.symm)

example : ((empty : Issuance String).after (churn "a" 0 133)).arena.slots.length = 69 := by
  decide +kernel

/-! ## The law of growth -/

/-- With at most `m` handles held at any moment, the slots stay within a limit if and only if no
more handles are issued than there are slots within the limit and slots that the sweeps within it
reclaim, where `m - 1` handles are held at each sweep. So there is no limit that they never
exceed. -/
theorem slots_le_iff [Inhabited κ] {m : Nat} (hm : 1 ≤ m) (limit n : Nat) :
    ((∀ ops : List (Operation κ), HoldsAtMost m empty ops →
        ((empty : Issuance κ).after ops).arena.issued ≤ n →
          ((empty : Issuance κ).after ops).arena.slots.length ≤ limit) ↔
      n ≤ limit + reclaimed (m - 1) (sweepsWithin limit)) ∧
    ∃ ops : List (Operation κ), HoldsAtMost m empty ops ∧
      limit < ((empty : Issuance κ).after ops).arena.slots.length := by
  obtain ⟨kept, rfl⟩ : ∃ kept, m = kept + 1 := ⟨m - 1, by omega⟩
  rw [Nat.add_sub_cancel]
  obtain ⟨hholds, hchurned⟩ := churned_churn (default : κ) kept
    (limit + reclaimed kept (sweepsWithin limit) + 1)
  have hexceeds := churn_exceeds (default : κ) kept limit
  refine ⟨⟨fun hall => ?_, fun hfew ops hops hn => ?_⟩, _, hholds, hexceeds⟩
  · refine Nat.le_of_not_lt fun hmany => ?_
    exact Nat.not_le_of_lt hexceeds (hall _ hholds (hchurned.issued.trans_le hmany))
  · obtain ⟨k, hk⟩ := hops.paced (paced_empty kept)
    refine Nat.le_of_not_lt fun hlt => ?_
    have hissued := hk.exceeded hlt
    omega

/-- If no more than one handle is held at any moment, 132 handles fit in 68 slots, and 133 do
not. -/
theorem slots_le_iff_one : 1 ≤ 1 ∧
    (∀ ops : List (Operation String), HoldsAtMost 1 empty ops →
      ((empty : Issuance String).after ops).arena.issued ≤ 132 →
        ((empty : Issuance String).after ops).arena.slots.length ≤ 64 + 4 * 1) ∧
    (¬ ∀ ops : List (Operation String), HoldsAtMost 1 empty ops →
      ((empty : Issuance String).after ops).arena.issued ≤ 133 →
        ((empty : Issuance String).after ops).arena.slots.length ≤ 64 + 4 * 1) ∧
    ∃ ops : List (Operation String), HoldsAtMost 1 empty ops ∧
      64 + 4 * 1 < ((empty : Issuance String).after ops).arena.slots.length :=
  ⟨Nat.le_refl 1, (slots_le_iff (Nat.le_refl 1) (64 + 4 * 1) 132).1.mpr (by decide),
    fun h => absurd ((slots_le_iff (Nat.le_refl 1) (64 + 4 * 1) 133).1.mp h) (by decide),
    (slots_le_iff (Nat.le_refl 1) (64 + 4 * 1) 133).2⟩

end Issuance

end LiveDocument
