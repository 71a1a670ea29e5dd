import Mathlib

namespace Levels

variable {ι α K : Type*}

theorem toSquareBlock_smul_one_sub [DecidableEq ι] [Ring K] (a : Matrix ι ι K) (b : ι → α) (k : α)
    (t : K) : (t • (1 : Matrix ι ι K) - a).toSquareBlock b k = t • 1 - a.toSquareBlock b k := by
  ext i j
  simp [Matrix.toSquareBlock_def, Matrix.one_apply, Subtype.ext_iff]

variable [Fintype ι] [LinearOrder α]

section Rows

variable [AddCommMonoid K]

/-- The sum of a row, as far as its own level reaches. -/
def rowSum (b : ι → α) (a : Matrix ι ι K) (i : ι) : K := ∑ j with b j = b i, a i j

theorem rowSum_eq_block (b : ι → α) (a : Matrix ι ι K) {k : α} (i : { i // b i = k }) :
    rowSum b a i = ∑ j, a.toSquareBlock b k i j := by
  obtain ⟨i, rfl⟩ := i
  exact Finset.sum_subtype _ (fun j => by simp) _

/-- A level of its own holds one entry of a row. -/
theorem rowSum_of_injective {b : ι → α} (hb : Function.Injective b) (a : Matrix ι ι K) (i : ι) :
    rowSum b a i = a i i := by
  classical
  have hone : ({j | b j = b i} : Finset ι) = {i} := by
    ext j
    simp [hb.eq_iff]
  rw [rowSum, hone, Finset.sum_singleton]

end Rows

variable [DecidableEq ι] [NormedField K] {a : Matrix ι ι K} {b : ι → α} {k : α} {t : K}

def rowNorm (b : ι → α) (a : Matrix ι ι K) (i : ι) : ℝ := rowSum b (a.map fun x => ‖x‖) i

/-- The eigenvalues are those of the levels. -/
theorem det_eq_zero_iff (h : a.BlockTriangular b) :
    (t • (1 : Matrix ι ι K) - a).det = 0 ↔
      ∃ i, (t • 1 - a.toSquareBlock b (b i)).det = 0 := by
  have hsub : (t • (1 : Matrix ι ι K) - a).BlockTriangular b :=
    .sub (fun i j hij => by simp [Matrix.blockTriangular_one hij]) h
  rw [hsub.det, Finset.prod_eq_zero_iff]
  simp [toSquareBlock_smul_one_sub]

theorem rowNorm_eq_block (i : { i // b i = k }) : rowNorm b a i =
    ‖a i i‖ + ∑ j ∈ Finset.univ.erase i, ‖a.toSquareBlock b k i j‖ := by
  rw [rowNorm, rowSum_eq_block, ← Finset.add_sum_erase _ _ (Finset.mem_univ i)]
  rfl

/-- What is larger than every row of a level is no eigenvalue of it. -/
theorem block_det_ne_zero (h : ∀ i, b i = k → rowNorm b a i < ‖t‖) :
    (t • 1 - a.toSquareBlock b k).det ≠ 0 := by
  apply det_ne_zero_of_sum_row_lt_diag
  intro i
  have hsum : ∑ j ∈ Finset.univ.erase i, ‖(t • 1 - a.toSquareBlock b k) i j‖ =
      ∑ j ∈ Finset.univ.erase i, ‖a.toSquareBlock b k i j‖ := by
    refine Finset.sum_congr rfl fun j hj => ?_
    have hne : i ≠ j := (Finset.ne_of_mem_erase hj).symm
    simp [hne]
  have hdiag : (t • 1 - a.toSquareBlock b k) i i = t - a i i := by
    simp [Matrix.toSquareBlock_def]
  have hrow := h i i.2
  rw [rowNorm_eq_block] at hrow
  rw [hsum, hdiag]
  calc ∑ j ∈ Finset.univ.erase i, ‖a.toSquareBlock b k i j‖ < ‖t‖ - ‖a i i‖ := by linarith
    _ ≤ ‖t - a i i‖ := norm_sub_norm_le t (a i i)

/-- Every eigenvalue is within the reach of some row. -/
theorem exists_norm_le (h : a.BlockTriangular b)
    (ht : (t • (1 : Matrix ι ι K) - a).det = 0) : ∃ i, ‖t‖ ≤ rowNorm b a i := by
  obtain ⟨i, hi⟩ := (det_eq_zero_iff h).mp ht
  by_contra hno
  push Not at hno
  exact block_det_ne_zero (fun j _ => hno j) hi

/-- The common sum of the rows of a level is an eigenvalue. -/
theorem det_rowSum (h : a.BlockTriangular b) (i : ι)
    (hsame : ∀ j, b j = b i → rowSum b a j = rowSum b a i) :
    (rowSum b a i • (1 : Matrix ι ι K) - a).det = 0 := by
  rw [det_eq_zero_iff h]
  refine ⟨i, Matrix.exists_mulVec_eq_zero_iff.mp ⟨1, ?_, ?_⟩⟩
  · intro hzero
    exact one_ne_zero (congrFun hzero ⟨i, rfl⟩)
  · funext j
    rw [Matrix.sub_mulVec, Matrix.smul_mulVec, Matrix.one_mulVec, Pi.sub_apply, Matrix.mulVec,
      dotProduct]
    simp only [Pi.smul_apply, Pi.one_apply, smul_eq_mul, mul_one, Pi.zero_apply]
    rw [← rowSum_eq_block, hsame j j.2, sub_self]

end Levels
