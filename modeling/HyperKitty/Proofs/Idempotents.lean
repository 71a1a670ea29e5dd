import HyperKitty.Spectral.Jordan

namespace HyperKitty.Spectral

variable {l m n : Nat} {a : Matrix (Fin n) (Fin n) ℝ}

theorem matrixMult_eq (a : Matrix (Fin l) (Fin m) ℝ) (b : Matrix (Fin m) (Fin n) ℝ) :
    matrixMult a b = a * b := by
  ext i j
  rw [matrixMult, Scan.sumFrom_eq, zero_add, Matrix.mul_apply]

/-- After some rounds the working matrix is a power of the input. -/
theorem squared_iterate (a : Matrix (Fin n) (Fin n) ℝ) (k : Nat) :
    (fun work => matrixMult work work)^[k] a = a ^ 2 ^ k := by
  induction k with
  | zero => rw [Function.iterate_zero_apply, pow_zero, pow_one]
  | succ k ih =>
    rw [Function.iterate_succ_apply', ih, matrixMult_eq, ← pow_add, ← two_mul, pow_succ']

/-- The Frobenius distance of two matrices. -/
noncomputable def frobeniusDistance (a b : Matrix (Fin n) (Fin n) ℝ) : ℝ :=
  Real.sqrt (∑ i, ∑ j, (a i j - b i j) ^ 2)

theorem squareDistance_eq (work squared : Matrix (Fin n) (Fin n) ℝ) :
    squareDistance Real.sqrt work squared = frobeniusDistance squared work := by
  rw [squareDistance, Scan.doubleSum_eq, frobeniusDistance]
  simp only [sq]

/-- A power within the limit is closer to its square than the tolerance. -/
def NearIdempotent (a : Matrix (Fin n) (Fin n) ℝ) (maxIterations : Int) (tolerance : ℝ) (k : Int) :
    Prop :=
  0 ≤ k ∧ k < maxIterations ∧
    frobeniusDistance (a ^ 2 ^ (k.toNat + 1)) (a ^ 2 ^ k.toNat) < tolerance

theorem nearIdempotent_iff {maxIterations : Int} {tolerance : ℝ} {k : Int} :
    NearIdempotent a maxIterations tolerance k ↔
      FirstHit.Stops (fun work => matrixMult work work)
        (fun work squared => decide (squareDistance Real.sqrt work squared < tolerance)) a
        maxIterations k := by
  unfold NearIdempotent FirstHit.Stops FirstHit.Hits
  rw [decide_eq_true_iff, squareDistance_eq, squared_iterate, squared_iterate]

/-- Squaring returns the first power that is nearly idempotent, or minus one without one. -/
theorem convergeIdempotent_first (a : Matrix (Fin (n + 1)) (Fin (n + 1)) ℝ) (maxIterations : Int)
    (tolerance : ℝ) :
    ((∃ k, NearIdempotent a maxIterations tolerance k) →
      IsLeast {k | NearIdempotent a maxIterations tolerance k}
        (convergeIdempotent Real.sqrt (some a) maxIterations tolerance)) ∧
    (convergeIdempotent Real.sqrt (some a) maxIterations tolerance = -1 ↔
      ¬ ∃ k, NearIdempotent a maxIterations tolerance k) := by
  simp only [nearIdempotent_iff, convergeIdempotent, Nat.succ_ne_zero, if_false, not_exists]
  exact ⟨FirstHit.run_isLeast, FirstHit.run_eq_neg_one⟩

/-- One node routes to another, and there the routing ends. -/
def oneWay : Matrix (Fin 2) (Fin 2) ℝ := !![0, 1; 0, 0]

/-- Its first square is nothing, and nothing is idempotent. -/
theorem oneWay_converges : ¬ NearIdempotent oneWay 5 1 0 ∧
    IsLeast {k | NearIdempotent oneWay 5 1 k}
      (convergeIdempotent Real.sqrt (some oneWay) 5 1) := by
  have hsquare : oneWay ^ 2 = 0 := by
    ext i j
    fin_cases i <;> fin_cases j <;> simp [oneWay, sq, Matrix.mul_apply]
  have hfourth : oneWay ^ 4 = 0 := by
    rw [show 4 = 2 + 2 from rfl, pow_add, hsquare, zero_mul]
  refine ⟨fun h => ?_, (convergeIdempotent_first oneWay 5 1).1 ⟨1, by norm_num, by norm_num, ?_⟩⟩
  · have hnear : frobeniusDistance (oneWay ^ 2) oneWay < 1 := by simpa using h.2.2
    rw [hsquare] at hnear
    norm_num [frobeniusDistance, oneWay] at hnear
  · norm_num [hsquare, hfourth, frobeniusDistance]

end HyperKitty.Spectral
