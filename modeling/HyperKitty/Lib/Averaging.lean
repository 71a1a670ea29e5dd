import Mathlib

namespace Averaging

variable {K E : Type*} [Field K] [AddCommGroup E] [Module K E]
variable {Q : QuadraticForm K E} {C : E →ₗ[K] E} {a b : K}

/-- The average of `C` and the identity with the weights `a` and `b`. -/
def average (C : E →ₗ[K] E) (a b : K) : E →ₗ[K] E := a • C + b • LinearMap.id

theorem average_apply (x : E) : average C a b x = a • C x + b • x := rfl

theorem average_sub (h : a + b = 1) (x : E) : average C a b x - x = a • (C x - x) := by
  obtain rfl : b = 1 - a := eq_sub_of_add_eq' h
  rw [average_apply]
  module

/-- A fixed point of the average is one of the map. -/
theorem average_eq_self (h : a + b = 1) (ha : a ≠ 0) {x : E} :
    average C a b x = x ↔ C x = x := by
  rw [← sub_eq_zero, average_sub h, smul_eq_zero, or_iff_right ha, sub_eq_zero]

/-- The average takes each step of its orbit to the next one. -/
theorem average_step (x : E) :
    average C a b (average C a b x) - average C a b x = average C a b (average C a b x - x) :=
  (map_sub _ _ _).symm

theorem map_combination (h : a + b = 1) (x y : E) :
    Q (a • x + b • y) = a * Q x + b * Q y - a * b * Q (x - y) := by
  obtain rfl : b = 1 - a := eq_sub_of_add_eq' h
  have hsub : Q (x - y) = Q x + Q y - QuadraticMap.polar Q x y := by
    rw [sub_eq_add_neg, QuadraticMap.map_add Q, QuadraticMap.map_neg,
      QuadraticMap.polar_neg_right]
    ring
  rw [QuadraticMap.map_add Q, QuadraticMap.map_smul, QuadraticMap.map_smul, hsub,
    QuadraticMap.polar_smul_left, QuadraticMap.polar_smul_right]
  simp only [smul_eq_mul]
  ring

/-- What the form loses in a step, weighed against the form of the step. -/
theorem step_energy (hC : ∀ x, Q (C x) = Q x) (h : a + b = 1) (x : E) :
    b * Q (average C a b x - x) = a * (Q x - Q (average C a b x)) := by
  rw [average_sub h, QuadraticMap.map_smul, average_apply, map_combination h, hC, smul_eq_mul]
  obtain rfl : b = 1 - a := eq_sub_of_add_eq' h
  ring

/-- The steps of an orbit share what the form loses along it. -/
theorem sum_steps (hC : ∀ x, Q (C x) = Q x) (h : a + b = 1) (x : E) (n : Nat) :
    b * ∑ k ∈ Finset.range n, Q ((average C a b)^[k + 1] x - (average C a b)^[k] x) =
      a * (Q x - Q ((average C a b)^[n] x)) := by
  induction n with
  | zero => simp
  | succ n ih =>
    rw [Finset.sum_range_succ, mul_add, ih, Function.iterate_succ_apply', step_energy hC h]
    ring

/-- The map keeps a form without negative values, and both weights are positive. -/
structure Averaged [LinearOrder K] (Q : QuadraticForm K E) (C : E →ₗ[K] E) (a b : K) : Prop where
  keeps : ∀ x, Q (C x) = Q x
  nonneg : ∀ x, 0 ≤ Q x
  left : 0 < a
  right : 0 < b
  total : a + b = 1

namespace Averaged

variable [LinearOrder K] [IsStrictOrderedRing K] (h : Averaged Q C a b)
include h

theorem average_le (x : E) : Q (average C a b x) ≤ Q x := by
  have hstep : 0 ≤ a * (Q x - Q (average C a b x)) := by
    rw [← step_energy h.keeps h.total]
    exact mul_nonneg h.right.le (h.nonneg _)
  exact sub_nonneg.mp (nonneg_of_mul_nonneg_right hstep h.left)

theorem steps_antitone (x : E) :
    Antitone fun k => Q ((average C a b)^[k + 1] x - (average C a b)^[k] x) := by
  apply antitone_nat_of_succ_le
  intro k
  rw [Function.iterate_succ_apply', Function.iterate_succ_apply', average_step]
  exact h.average_le _

theorem exists_short_step [Archimedean K] (x : E) {ε : K} (hε : 0 < ε) :
    ∃ k, Q ((average C a b)^[k + 1] x - (average C a b)^[k] x) < ε := by
  by_contra hno
  push Not at hno
  obtain ⟨n, hn⟩ := Archimedean.arch (a * Q x + 1) (mul_pos h.right hε)
  have hsum : n • ε ≤ ∑ k ∈ Finset.range n,
      Q ((average C a b)^[k + 1] x - (average C a b)^[k] x) := by
    have hcard := Finset.card_nsmul_le_sum (Finset.range n) _ ε fun k _ => hno k
    rwa [Finset.card_range] at hcard
  have hle : b * (n • ε) ≤ a * Q x := by
    calc b * (n • ε)
        ≤ b * ∑ k ∈ Finset.range n, Q ((average C a b)^[k + 1] x - (average C a b)^[k] x) :=
          mul_le_mul_of_nonneg_left hsum h.right.le
      _ = a * (Q x - Q ((average C a b)^[n] x)) := sum_steps h.keeps h.total x n
      _ ≤ a * Q x := mul_le_mul_of_nonneg_left (sub_le_self _ (h.nonneg _)) h.left.le
  rw [mul_smul_comm] at hle
  linarith

end Averaged
end Averaging
