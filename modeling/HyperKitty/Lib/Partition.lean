import Mathlib

namespace Partition

variable {ι κ K : Type*} [Field K] {e : ι → κ → K} {i j : ι} {k l : κ}

structure IsPartition [Fintype ι] (e : ι → κ → K) : Prop where
  idempotent : ∀ i k, e i k * e i k = e i k
  total : ∀ k, ∑ i, e i k = 1

/-- On the coordinates of one vector, a constant times its number of coordinates. -/
theorem dot_of_constant [Fintype κ] {v : κ → K} {c : K} (hv : ∀ k, e i k ≠ 0 → v k = c) :
    ∑ k, v k * e i k = c * ∑ k, e i k := by
  rw [Finset.mul_sum]
  apply Finset.sum_congr rfl
  intro k _
  rcases eq_or_ne (e i k) 0 with h0 | h0
  · rw [h0, mul_zero, mul_zero]
  · rw [hv k h0]

namespace IsPartition

variable [Fintype ι] (h : IsPartition e)
include h

theorem eq_one (hk : e i k ≠ 0) : e i k = 1 :=
  mul_left_cancel₀ hk (by rw [h.idempotent, mul_one])

theorem exists_ne_zero (k : κ) : ∃ i, e i k ≠ 0 := by
  by_contra hno
  push Not at hno
  have htotal := h.total k
  simp [hno] at htotal

variable [LinearOrder K] [IsStrictOrderedRing K]

theorem nonneg (i : ι) (k : κ) : 0 ≤ e i k := by
  rw [← h.idempotent]
  exact mul_self_nonneg _

/-- No two of the vectors share a coordinate. -/
theorem eq_zero_of_ne (hk : e i k ≠ 0) (hj : j ≠ i) : e j k = 0 := by
  classical
  have hrest : ∑ m ∈ Finset.univ.erase i, e m k = 0 := by
    have htotal := h.total k
    rw [← Finset.add_sum_erase _ _ (Finset.mem_univ i), h.eq_one hk] at htotal
    linarith
  exact (Finset.sum_eq_zero_iff_of_nonneg fun m _ => h.nonneg m k).mp hrest j
    (Finset.mem_erase.mpr ⟨hj, Finset.mem_univ j⟩)

/-- At a coordinate only the coefficient of its own vector counts. -/
theorem combination_apply (hk : e i k ≠ 0) (c : ι → K) : ∑ m, c m * e m k = c i := by
  rw [Finset.sum_eq_single i, h.eq_one hk, mul_one]
  · intro m _ hm
    rw [h.eq_zero_of_ne hk hm, mul_zero]
  · simp

theorem combination_eq_iff (c : ι → K) (v : κ → K) :
    (∀ k, ∑ i, c i * e i k = v k) ↔ ∀ i k, e i k ≠ 0 → v k = c i := by
  constructor
  · intro hv i k hk
    rw [← hv, h.combination_apply hk]
  · intro hv k
    obtain ⟨i, hk⟩ := h.exists_ne_zero k
    rw [h.combination_apply hk, hv i k hk]

variable [Fintype κ]

theorem two_le_sum (hk : e i k ≠ 0) (hl : e i l ≠ 0) (hne : k ≠ l) : 2 ≤ ∑ m, e i m := by
  classical
  calc (2 : K) = e i k + e i l := by rw [h.eq_one hk, h.eq_one hl]; norm_num
    _ = ∑ m ∈ {k, l}, e i m := (Finset.sum_pair hne).symm
    _ ≤ ∑ m, e i m :=
      Finset.sum_le_sum_of_subset_of_nonneg (Finset.subset_univ _) fun m _ _ => h.nonneg i m

/-- The unnormalised projections of `v` add up to `v` exactly when `v` is zero on every vector of
two coordinates or more. -/
theorem sum_projections_eq_iff (v : κ → K) :
    (∀ k, ∑ i, (∑ l, v l * e i l) * e i k = v k) ↔
      ∀ i, (∃ k l, k ≠ l ∧ e i k ≠ 0 ∧ e i l ≠ 0) → ∀ k, e i k ≠ 0 → v k = 0 := by
  rw [h.combination_eq_iff]
  constructor
  · intro hv i ⟨k, l, hne, hk, hl⟩ m hm
    have hdot := dot_of_constant (hv i)
    have htwo := h.two_le_sum hk hl hne
    have hzero : (∑ l, v l * e i l) * (∑ l, e i l - 1) = 0 := by
      rw [mul_sub, ← hdot, mul_one, sub_self]
    rw [hv i m hm]
    rcases mul_eq_zero.mp hzero with h0 | h0
    · exact h0
    · linarith
  · intro hv i k hk
    by_cases htwo : ∃ l, l ≠ k ∧ e i l ≠ 0
    · obtain ⟨l, hne, hl⟩ := htwo
      have hzero := hv i ⟨l, k, hne, hl, hk⟩
      rw [dot_of_constant hzero, zero_mul, hzero k hk]
    · push Not at htwo
      rw [Finset.sum_eq_single k, h.eq_one hk, mul_one]
      · intro l _ hl
        rw [htwo l hl, mul_zero]
      · simp

/-- Where the projections add up, projecting one of them again gives it back. -/
theorem projection_self {v : κ → K} (hv : ∀ k, ∑ i, (∑ l, v l * e i l) * e i k = v k) (j : ι) :
    ∑ l, (∑ m, v m * e j m) * e j l * e j l = ∑ l, v l * e j l := by
  have hown := (h.combination_eq_iff _ v).mp hv j
  conv_rhs => rw [dot_of_constant hown, Finset.mul_sum]
  apply Finset.sum_congr rfl
  intro l _
  rw [mul_assoc, h.idempotent]

/-- The other vectors do not see it. -/
theorem projection_other (hji : j ≠ i) (c : K) : ∑ l, c * e i l * e j l = 0 := by
  apply Finset.sum_eq_zero
  intro l _
  rcases eq_or_ne (e i l) 0 with h0 | h0
  · rw [h0, mul_zero, zero_mul]
  · rw [h.eq_zero_of_ne h0 hji, mul_zero]

end IsPartition
end Partition
