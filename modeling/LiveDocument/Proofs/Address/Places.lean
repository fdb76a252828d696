import LiveDocument.Address.Slice

/-!
# The places of a slice

A slice walks through signed words in steps that are not zero, so no place occurs twice, also after
the words have been read as unsigned ones. The walk begins within the signed words, since clamping
keeps a bound between two of them, and it ends before it would leave them.

* `fits_first`: where the walk begins.
* `mem_placesFrom`: the points of the walk.
* `nodup_places?`: no place occurs twice.
-/

namespace LiveDocument

namespace Position

theorem fits_iff {i : Int} :
    fits i = true ↔ -9223372036854775808 ≤ i ∧ i < 9223372036854775808 := by
  simp only [fits, Bool.and_eq_true, decide_eq_true_eq]

theorem fits_wrap (i : Int) : fits (wrap i) = true := by
  have hle := Int.le_bmod (x := i) (m := 18446744073709551616) (by decide)
  have hlt := Int.bmod_lt (x := i) (m := 18446744073709551616) (by decide)
  rw [fits_iff, wrap]
  omega

theorem fits_toInt (i : Int64) : fits i.toInt = true :=
  fits_iff.mpr ⟨i.le_toInt, i.toInt_lt⟩

theorem fits_max {i j : Int} (hi : fits i = true) (hj : fits j = true) :
    fits (max i j) = true := by
  rw [fits_iff] at hi hj ⊢
  omega

theorem fits_min {i j : Int} (hi : fits i = true) (hj : fits j = true) :
    fits (min i j) = true := by
  rw [fits_iff] at hi hj ⊢
  omega

/-- Signed words are told apart by their unsigned words. -/
theorem unsigned_inj {i j : Int} (hi : fits i = true) (hj : fits j = true)
    (h : unsigned i = unsigned j) : i = j := by
  rw [fits_iff] at hi hj
  unfold unsigned at h
  omega

end Position

namespace Slice

open Position

/-- The bounds of a sequence are signed words. -/
theorem fits_limits {length : Int} (hlength : fits length = true) (stride : Int) :
    fits (limits stride length).1 = true ∧ fits (limits stride length).2 = true := by
  unfold limits
  split
  · exact ⟨rfl, hlength⟩
  · exact ⟨rfl, fits_wrap _⟩

theorem fits_clamp {length : Int} (hlength : fits length = true) (stride : Int)
    (bound : Option Int64) {absent : Int} (habsent : fits absent = true) :
    fits (clamp stride length bound absent) = true := by
  obtain ⟨hlower, hupper⟩ := fits_limits hlength stride
  cases bound with
  | none => exact habsent
  | some b =>
    unfold clamp
    dsimp only
    split
    · exact fits_max (fits_wrap _) hlower
    · exact fits_min (fits_toInt b) hupper

/-- The walk begins within the signed words. -/
theorem fits_first {length : Int} (hlength : fits length = true) (s : Slice) :
    fits (s.first length) = true := by
  obtain ⟨hlower, hupper⟩ := fits_limits hlength s.stride
  unfold first
  refine fits_clamp hlength s.stride s.start ?_
  split
  · exact hlower
  · exact hupper

theorem add_succ_mul (i stride : Int) (k : Nat) :
    i + (k + 1 : Nat) * stride = i + stride + k * stride := by
  rw [Int.natCast_add, Int.add_mul]
  omega

/-- Every listed place is the unsigned word of a point of the walk that is a signed word and lies
before the bound. -/
theorem mem_placesFrom {stride bound : Int} {fuel : Nat} {i : Int} (hi : fits i = true) {p : Nat}
    (h : p ∈ placesFrom stride bound fuel i) :
    ∃ k : Nat, p = unsigned (i + k * stride) ∧ fits (i + k * stride) = true ∧
      before stride (i + k * stride) bound = true := by
  induction fuel generalizing i with
  | zero => cases h
  | succ fuel ih =>
    unfold placesFrom at h
    split at h
    · rename_i hbefore
      rcases List.mem_cons.mp h with rfl | h
      · have hzero : i + (0 : Nat) * stride = i := by simp
        exact ⟨0, by rw [hzero], by rw [hzero, hi], by rw [hzero, hbefore]⟩
      · split at h
        · rename_i hnext
          obtain ⟨k, hk⟩ := ih hnext h
          rw [← add_succ_mul] at hk
          exact ⟨k + 1, hk⟩
        · cases h
    · cases h

theorem nodup_placesFrom {stride : Int} (hstride : stride ≠ 0) (bound : Int) (fuel : Nat) {i : Int}
    (hi : fits i = true) : (placesFrom stride bound fuel i).Nodup := by
  induction fuel generalizing i with
  | zero => exact List.nodup_nil
  | succ fuel ih =>
    unfold placesFrom
    split
    · refine List.nodup_cons.mpr ⟨fun hmem => ?_, ?_⟩
      · split at hmem
        · rename_i hnext
          -- A later point that is this one again would be no step away.
          obtain ⟨k, hp, hk, -⟩ := mem_placesFrom hnext hmem
          have he := unsigned_inj hi hk hp
          have hzero : ((k : Int) + 1) * stride = 0 := by
            rw [Int.add_mul]
            omega
          rcases Int.mul_eq_zero.mp hzero with hk | hs
          · omega
          · exact hstride hs
        · cases hmem
      · split
        · rename_i hnext
          exact ih hnext
        · exact List.nodup_nil
    · exact List.nodup_nil

/-- No place occurs twice. -/
theorem nodup_places? {s : Slice} {length : Nat} {places : List Nat}
    (h : s.places? length = some places) : places.Nodup := by
  unfold places? at h
  dsimp only at h
  rw [Option.ite_none_left_eq_some] at h
  obtain ⟨hstride, h⟩ := h
  rw [← Option.some.inj h]
  exact nodup_placesFrom hstride _ _ (fits_first (fits_wrap _) s)

end Slice

end LiveDocument
