import LiveDocument.Proofs.Address.Places

/-!
# Reckoning the places of a slice

The bounds of a slice are reckoned in signed words, and its places are read off as unsigned ones.
None of this shows as long as the length of the sequence is a signed word: no sum leaves the words,
no negative word becomes a place, and the places are those of the usual rule in unbounded integers.

* `ends?`: the two ends of the walk, with every sum checked. `ends?_eq`: no check fails.
* `Walk`: the walk itself, which reads off no negative word and ends by itself. `walk_placesFrom`:
  the listed places are those of the walk.
* `Walk.mem_iff`, `Walk.pairwise`: which places these are, and their order.
* `places_exact`: the places that a slice selects.
-/

namespace LiveDocument

namespace Slice

open Position

variable {stride bound i : Int} {length : Nat} {places : List Nat}

/-! ## The ends of the walk -/

/-- The least and the greatest bound in the direction of a step, in unbounded integers. -/
def extremes (stride length : Int) : Int × Int :=
  if 0 < stride then (0, length) else (-1, length - 1)

/-- A bound by the usual rule, in unbounded integers: a negative one counts from the end, and then
it is clamped between the extremes. -/
def settle (stride length : Int) (bound : Option Int64) (absent : Int) : Int :=
  match bound with
  | none => absent
  | some b =>
    let counted := if b.toInt < 0 then b.toInt + length else b.toInt
    max (extremes stride length).1 (min counted (extremes stride length).2)

/-- Where the walk begins by the usual rule: at the extreme on its near side if nothing is said. -/
def exactFirst (s : Slice) (length : Int) : Int :=
  let (lower, upper) := extremes s.stride length
  settle s.stride length s.start (if 0 < s.stride then lower else upper)

/-- Before what the walk ends by the usual rule: the extreme on its far side if nothing is said. -/
def exactBound (s : Slice) (length : Int) : Int :=
  let (lower, upper) := extremes s.stride length
  settle s.stride length s.stop (if 0 < s.stride then upper else lower)

/-- An integer as a signed word, if it is one. -/
def word? (i : Int) : Option Int :=
  if fits i then some i else none

/-- The least and the greatest bound reckoned in signed words, or nothing if the sum is none. -/
def extremes? (stride length : Int) : Option (Int × Int) :=
  if 0 < stride then some (0, length) else (word? (length - 1)).map fun last => (-1, last)

/-- A bound reckoned in signed words, or nothing if the sum is none. -/
def clamp? (lower upper length : Int) (bound : Option Int64) (absent : Int) : Option Int :=
  match bound with
  | none => some absent
  | some b =>
    if b.toInt < 0 then (word? (b.toInt + length)).map fun counted => max counted lower
    else some (min b.toInt upper)

/-- The two ends of the walk reckoned in signed words, or nothing if an integer on the way to them
is none. -/
def ends? (s : Slice) (length : Int) : Option (Int × Int) :=
  (word? length).bind fun length => (extremes? s.stride length).bind fun (lower, upper) =>
    (clamp? lower upper length s.start (if 0 < s.stride then lower else upper)).bind fun first =>
      (clamp? lower upper length s.stop (if 0 < s.stride then upper else lower)).map fun last =>
        (first, last)

theorem fits_natCast (hlength : length < 9223372036854775808) : fits (length : Int) = true :=
  fits_iff.mpr (by omega)

theorem word?_of_fits (h : fits i = true) : word? i = some i :=
  if_pos h

theorem limits_eq (hlength : length < 9223372036854775808) (stride : Int) :
    limits stride length = extremes stride length := by
  have hlast : fits ((length : Int) - 1) = true := fits_iff.mpr (by omega)
  rw [limits, extremes, wrap_of_fits hlast]

theorem extremes_le (stride : Int) (length : Nat) :
    (extremes stride length).1 ≤ (extremes stride length).2 ∧ (extremes stride length).1 ≤ 0 := by
  unfold extremes
  split <;> dsimp only <;> omega

/-- The sum for a bound that counts from the end is a signed word, and it does not pass the last
place. -/
theorem fits_counted (hlength : length < 9223372036854775808) (stride : Int) {b : Int64}
    (hb : b.toInt < 0) : fits (b.toInt + length) = true ∧
      b.toInt + length ≤ (extremes stride length).2 := by
  have hlow := b.le_toInt
  refine ⟨fits_iff.mpr (by omega), ?_⟩
  unfold extremes
  split <;> dsimp only <;> omega

theorem extremes?_eq (hlength : length < 9223372036854775808) (stride : Int) :
    extremes? stride length = some (extremes stride length) := by
  have hlast : fits ((length : Int) - 1) = true := fits_iff.mpr (by omega)
  rw [extremes?, word?_of_fits hlast, extremes]
  split <;> rfl

theorem clamp?_eq (hlength : length < 9223372036854775808) (stride : Int) (bound : Option Int64)
    (absent : Int) :
    clamp? (extremes stride length).1 (extremes stride length).2 length bound absent =
      some (settle stride length bound absent) := by
  obtain ⟨hle, hlow⟩ := extremes_le stride length
  cases bound with
  | none => rfl
  | some b =>
    by_cases hb : b.toInt < 0
    · obtain ⟨hfits, hupper⟩ := fits_counted hlength stride hb
      simp only [clamp?, settle, hb, if_true, word?_of_fits hfits, Option.map_some,
        Option.some.injEq]
      omega
    · simp only [clamp?, settle, hb, if_false, Option.some.injEq]
      omega

theorem clamp_eq (hlength : length < 9223372036854775808) (stride : Int) (bound : Option Int64)
    (absent : Int) : clamp stride length bound absent = settle stride length bound absent := by
  obtain ⟨hle, hlow⟩ := extremes_le stride length
  cases bound with
  | none => rfl
  | some b =>
    rw [clamp, limits_eq hlength]
    by_cases hb : b.toInt < 0
    · obtain ⟨hfits, hupper⟩ := fits_counted hlength stride hb
      simp only [settle, hb, if_true, wrap_of_fits hfits]
      omega
    · simp only [settle, hb, if_false]
      omega

/-- No sum on the way to the ends of the walk leaves the signed words, and the ends are those of the
usual rule. -/
theorem ends?_eq (hlength : length < 9223372036854775808) (s : Slice) :
    s.ends? length = some (s.exactFirst length, s.exactBound length) := by
  rw [ends?, word?_of_fits (fits_natCast hlength), Option.bind_some, extremes?_eq hlength,
    Option.bind_some]
  dsimp only
  rw [clamp?_eq hlength, clamp?_eq hlength]
  rfl

theorem first_eq (hlength : length < 9223372036854775808) (s : Slice) :
    s.first length = s.exactFirst length := by
  unfold first exactFirst
  rw [limits_eq hlength]
  exact clamp_eq hlength _ _ _

theorem bound_eq (hlength : length < 9223372036854775808) (s : Slice) :
    s.bound length = s.exactBound length := by
  unfold Slice.bound exactBound
  rw [limits_eq hlength]
  exact clamp_eq hlength _ _ _

/-- A settled bound lies between the extremes. -/
theorem settle_mem (stride : Int) (length : Nat) (bound : Option Int64) {absent : Int}
    (habsent : (extremes stride length).1 ≤ absent ∧ absent ≤ (extremes stride length).2) :
    (extremes stride length).1 ≤ settle stride length bound absent ∧
      settle stride length bound absent ≤ (extremes stride length).2 := by
  obtain ⟨hle, -⟩ := extremes_le stride length
  cases bound with
  | none => exact habsent
  | some b =>
    dsimp only [settle]
    omega

theorem exactFirst_mem (s : Slice) (length : Nat) :
    (extremes s.stride length).1 ≤ s.exactFirst length ∧
      s.exactFirst length ≤ (extremes s.stride length).2 := by
  obtain ⟨hle, -⟩ := extremes_le s.stride length
  refine settle_mem s.stride length s.start ?_
  split
  · exact ⟨Int.le_refl _, hle⟩
  · exact ⟨hle, Int.le_refl _⟩

theorem exactBound_mem (s : Slice) (length : Nat) :
    (extremes s.stride length).1 ≤ s.exactBound length ∧
      s.exactBound length ≤ (extremes s.stride length).2 := by
  obtain ⟨hle, -⟩ := extremes_le s.stride length
  refine settle_mem s.stride length s.stop ?_
  split
  · exact ⟨hle, Int.le_refl _⟩
  · exact ⟨Int.le_refl _, hle⟩

/-- The ends of the walk are signed words. -/
theorem fits_ends (hlength : length < 9223372036854775808) (s : Slice) :
    fits (s.exactFirst length) = true ∧ fits (s.exactBound length) = true := by
  have hextremes : -1 ≤ (extremes s.stride length).1 ∧ (extremes s.stride length).2 ≤ length := by
    unfold extremes
    split <;> dsimp only <;> omega
  have hfirst := exactFirst_mem s length
  have hbound := exactBound_mem s length
  exact ⟨fits_iff.mpr (by omega), fits_iff.mpr (by omega)⟩

/-! ## The walk -/

/-- A walk from a signed word and the places that it reads off. It goes on while it is before the
bound and the next point is a signed word; only a word that is not negative is read off. -/
inductive Walk (stride bound : Int) : Int → List Nat → Prop
  | ended {i : Int} (h : before stride i bound = false) : Walk stride bound i []
  | last {i : Int} (h : before stride i bound = true) (hi : 0 ≤ i)
    (hnext : fits (i + stride) = false) : Walk stride bound i [i.toNat]
  | next {i : Int} {places : List Nat} (h : before stride i bound = true) (hi : 0 ≤ i)
    (hnext : fits (i + stride) = true) (hrest : Walk stride bound (i + stride) places) :
    Walk stride bound i (i.toNat :: places)

theorem before_iff :
    before stride i bound = true ↔ 0 < stride ∧ i < bound ∨ stride < 0 ∧ bound < i := by
  simp only [before, Bool.or_eq_true, Bool.and_eq_true, decide_eq_true_eq]

/-- Where a walk over the places of a sequence can be: behind its low end when it goes up, and
behind its high end when it goes down; and its bound lies at the other end or before it. -/
structure Within (stride bound : Int) (length : Nat) (i : Int) : Prop where
  up : 0 < stride → 0 ≤ i ∧ bound ≤ length
  down : stride < 0 → i < length ∧ -1 ≤ bound

theorem Within.next (h : Within stride bound length i) :
    Within stride bound length (i + stride) where
  up hs := by
    obtain ⟨hi, hbound⟩ := h.up hs
    exact ⟨by omega, hbound⟩
  down hs := by
    obtain ⟨hi, hbound⟩ := h.down hs
    exact ⟨by omega, hbound⟩

/-- A point of the walk before the bound is a place of the sequence. -/
theorem Within.place (h : Within stride bound length i) (hbefore : before stride i bound = true) :
    0 ≤ i ∧ i < length := by
  rcases before_iff.mp hbefore with ⟨hs, hi⟩ | ⟨hs, hi⟩
  · have := h.up hs
    omega
  · have := h.down hs
    omega

theorem within_ends (s : Slice) (length : Nat) :
    Within s.stride (s.exactBound length) length (s.exactFirst length) := by
  have hfirst := exactFirst_mem s length
  have hbound := exactBound_mem s length
  constructor
  · intro hs
    simp only [extremes, hs, if_true] at hfirst hbound
    exact ⟨hfirst.1, hbound.2⟩
  · intro hs
    have hnot : ¬ 0 < s.stride := by omega
    simp only [extremes, hnot, if_false] at hfirst hbound
    exact ⟨by omega, hbound.1⟩

/-- With as many steps as there are places, the listed places are those of the walk. -/
theorem walk_placesFrom (hlength : length < 9223372036854775808) {fuel : Nat}
    (hi : Within stride bound length i) (hup : 0 < stride → bound ≤ i + fuel)
    (hdown : stride < 0 → i ≤ bound + fuel) :
    Walk stride bound i (placesFrom stride bound fuel i) := by
  induction fuel generalizing i with
  | zero =>
    refine .ended (Bool.eq_false_iff.mpr fun hbefore => ?_)
    rcases before_iff.mp hbefore with ⟨hs, h⟩ | ⟨hs, h⟩
    · have := hup hs
      omega
    · have := hdown hs
      omega
  | succ fuel ih =>
    unfold placesFrom
    cases hbefore : before stride i bound with
    | false => exact .ended hbefore
    | true =>
      obtain ⟨hlow, hhigh⟩ := hi.place hbefore
      have hfits : fits i = true := fits_iff.mpr (by omega)
      rw [if_pos rfl, unsigned_of_fits hfits hlow]
      cases hnext : fits (i + stride) with
      | false => exact .last hbefore hlow hnext
      | true =>
        refine .next hbefore hlow hnext (ih hi.next (fun hs => ?_) fun hs => ?_)
        · have := hup hs
          omega
        · have := hdown hs
          omega

/-! ## The places of a walk -/

/-- A walk does not come before its bound again. -/
theorem before_of_before_add (k : Nat) (h : before stride (i + k * stride) bound = true) :
    before stride i bound = true := by
  rw [before_iff] at h ⊢
  rcases h with ⟨hs, h⟩ | ⟨hs, h⟩
  · have hk : 0 ≤ (k : Int) * stride := Int.mul_nonneg (by omega) (by omega)
    exact .inl ⟨hs, by omega⟩
  · have hk : 0 ≤ (k : Int) * -stride := Int.mul_nonneg (by omega) (by omega)
    rw [Int.mul_neg] at hk
    exact .inr ⟨hs, by omega⟩

/-- Where the next point would be no signed word, no later one comes before the bound. -/
theorem not_before_of_not_fits (hi : fits i = true) (hbound : fits bound = true)
    (hnext : fits (i + stride) = false) : ¬ before stride (i + stride) bound = true := by
  intro hbefore
  rw [fits_iff] at hi hbound
  have hout := fun h => Bool.eq_false_iff.mp hnext (fits_iff.mpr h)
  rcases before_iff.mp hbefore with ⟨hs, h⟩ | ⟨hs, h⟩
  · exact hout (by omega)
  · exact hout (by omega)

/-- The places that a walk reads off are its points before the bound. -/
theorem Walk.mem_iff (hbound : fits bound = true) (hi : fits i = true)
    (h : Walk stride bound i places) (j : Int) :
    (∃ p ∈ places, (p : Int) = j) ↔
      ∃ k : Nat, j = i + k * stride ∧ before stride j bound = true := by
  have hhere : i + (0 : Nat) * stride = i := by simp
  induction h with
  | ended hb =>
    constructor
    · rintro ⟨p, hp, -⟩
      cases hp
    · rintro ⟨k, rfl, hk⟩
      rw [before_of_before_add k hk] at hb
      cases hb
  | last hb hlow hnext =>
    constructor
    · rintro ⟨p, hp, rfl⟩
      rw [List.mem_singleton.mp hp, Int.toNat_of_nonneg hlow]
      exact ⟨0, hhere.symm, hb⟩
    · rintro ⟨k, rfl, hk⟩
      cases k with
      | zero => exact ⟨_, List.mem_singleton_self _, by rw [Int.toNat_of_nonneg hlow, hhere]⟩
      | succ k =>
        rw [add_succ_mul] at hk
        exact absurd (before_of_before_add k hk) (not_before_of_not_fits hi hbound hnext)
  | @next i places hb hlow hnext _ ih =>
    have hrest := ih hnext (by simp)
    constructor
    · rintro ⟨p, hp, rfl⟩
      rcases List.mem_cons.mp hp with rfl | hp
      · rw [Int.toNat_of_nonneg hlow]
        exact ⟨0, hhere.symm, hb⟩
      · obtain ⟨k, hk, hbefore⟩ := hrest.mp ⟨p, hp, rfl⟩
        exact ⟨k + 1, by rw [add_succ_mul, hk], hbefore⟩
    · rintro ⟨k, rfl, hk⟩
      cases k with
      | zero => exact ⟨_, List.mem_cons_self, by rw [Int.toNat_of_nonneg hlow, hhere]⟩
      | succ k =>
        obtain ⟨p, hp, he⟩ := hrest.mpr ⟨k, add_succ_mul i stride k, hk⟩
        exact ⟨p, List.mem_cons_of_mem _ hp, he⟩

/-- Every later place of a walk is further in the direction of the step. -/
theorem Walk.further (hbound : fits bound = true) (hi : fits (i + stride) = true)
    (h : Walk stride bound (i + stride) places) {p : Nat} (hp : p ∈ places) :
    (0 < stride → i < p) ∧ (stride < 0 → p < i) := by
  obtain ⟨k, hk, -⟩ := (h.mem_iff hbound hi p).mp ⟨p, hp, rfl⟩
  constructor
  · intro hs
    have : 0 ≤ (k : Int) * stride := Int.mul_nonneg (by omega) (by omega)
    omega
  · intro hs
    have hneg : 0 ≤ (k : Int) * -stride := Int.mul_nonneg (by omega) (by omega)
    rw [Int.mul_neg] at hneg
    omega

/-- A walk up reads its places off in ascending order, and a walk down in descending order. -/
theorem Walk.pairwise (hbound : fits bound = true) (h : Walk stride bound i places) :
    (0 < stride → places.Pairwise (· < ·)) ∧ (stride < 0 → places.Pairwise (· > ·)) := by
  induction h with
  | ended hb => exact ⟨fun _ => .nil, fun _ => .nil⟩
  | last hb hlow hnext => exact ⟨fun _ => List.pairwise_singleton _ _, fun _ =>
      List.pairwise_singleton _ _⟩
  | @next i places hb hlow hnext hrest ih =>
    refine ⟨fun hs => .cons (fun p hp => ?_) (ih.1 hs), fun hs => .cons (fun p hp => ?_) (ih.2 hs)⟩
    · have := (hrest.further hbound hnext hp).1 hs
      omega
    · have := (hrest.further hbound hnext hp).2 hs
      show p < i.toNat
      omega

theorem Walk.lt_length (hi : Within stride bound length i) (h : Walk stride bound i places)
    {p : Nat} (hp : p ∈ places) : p < length := by
  induction h with
  | ended hb => cases hp
  | last hb hlow hnext =>
    rw [List.mem_singleton.mp hp]
    have := hi.place hb
    omega
  | next hb hlow hnext hrest ih =>
    rcases List.mem_cons.mp hp with rfl | hp
    · have := hi.place hb
      omega
    · exact ih hi.next hp

/-! ## The places of a slice -/

theorem stride_eq_zero_iff {s : Slice} : s.stride = 0 ↔ s.step = some 0 := by
  unfold stride
  cases s.step with
  | none => simp
  | some step =>
    rw [Option.map_some, Option.getD_some, Option.some.injEq]
    exact Int64.toInt_inj (y := 0)

/-- For a sequence whose length is a signed word, only a slice with a step of zero has no answer.
Every other one selects, in order and each once, exactly the points of its walk by the usual rule
that lie before the bound; they are places of the sequence. Reckoning the ends of the walk never
leaves the signed words, and the walk ends without reading off a negative one. -/
theorem places_exact (s : Slice) (length : Nat) (hlength : length < 9223372036854775808) :
    (s.places? length = none ↔ s.step = some 0) ∧
      (s.step ≠ some 0 → ∃ places, s.places? length = some places ∧
        s.ends? length = some (s.exactFirst length, s.exactBound length) ∧
        Walk s.stride (s.exactBound length) (s.exactFirst length) places ∧
        (∀ i : Int, (∃ p ∈ places, (p : Int) = i) ↔ ∃ k : Nat, i = s.exactFirst length +
          k * s.stride ∧ (0 < s.stride ∧ i < s.exactBound length ∨
            s.stride < 0 ∧ s.exactBound length < i)) ∧
        (∀ p ∈ places, p < length) ∧ places.Nodup ∧
          (0 < s.stride → places.Pairwise (· < ·)) ∧ (s.stride < 0 → places.Pairwise (· > ·))) := by
  have hplaces : s.places? length = if s.stride = 0 then none else
      some (placesFrom s.stride (s.exactBound length) length (s.exactFirst length)) := by
    unfold places?
    dsimp only
    rw [wrap_of_fits (fits_natCast hlength), first_eq hlength, bound_eq hlength]
  rw [hplaces]
  refine ⟨by simp [stride_eq_zero_iff], fun hstep => ?_⟩
  have hstride : s.stride ≠ 0 := mt stride_eq_zero_iff.mp hstep
  refine ⟨_, if_neg hstride, ends?_eq hlength s, ?_⟩
  obtain ⟨hfirst, hbound⟩ := fits_ends hlength s
  have hwithin := within_ends s length
  have hwalk : Walk s.stride (s.exactBound length) (s.exactFirst length)
      (placesFrom s.stride (s.exactBound length) length (s.exactFirst length)) := by
    refine walk_placesFrom hlength hwithin (fun hs => ?_) fun hs => ?_
    · have := hwithin.up hs
      omega
    · have := hwithin.down hs
      omega
  obtain ⟨hup, hdown⟩ := hwalk.pairwise hbound
  refine ⟨hwalk, fun i => ?_, fun p hp => hwalk.lt_length hwithin hp, ?_, hup, hdown⟩
  · rw [hwalk.mem_iff hbound hfirst i]
    simp only [before_iff]
  · rcases Int.lt_or_gt_of_ne hstride with hs | hs
    · exact (hdown hs).imp fun h => (Nat.ne_of_lt h).symm
    · exact (hup hs).imp fun h => Nat.ne_of_lt h

/-- A step as long as words can be, down from the last place but one. -/
theorem places_exact_longest_step :
    ∃ places, places? ⟨some (-2), none, some Int64.minValue⟩ 4 = some places ∧ 2 ∈ places ∧
      ends? ⟨some (-2), none, some Int64.minValue⟩ 4 = some (2, -1) ∧
        places.Pairwise (· > ·) ∧ ∀ p ∈ places, p < 4 := by
  obtain ⟨-, hselects⟩ := places_exact ⟨some (-2), none, some Int64.minValue⟩ 4 (by decide)
  obtain ⟨places, hplaces, hends, -, hmem, hlt, -, -, hdown⟩ := hselects (by decide)
  obtain ⟨p, hp, he⟩ := (hmem 2).mpr ⟨0, by decide, by decide⟩
  obtain rfl : p = 2 := Int.ofNat_inj.mp he
  exact ⟨places, hplaces, hp, hends, hdown (by decide), hlt⟩

end Slice

end LiveDocument
