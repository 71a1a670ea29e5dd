import HyperKitty.Jordan.Density
import HyperKitty.Lib.Averaging

namespace HyperKitty.Jordan

open Exec Matrix

namespace DensityMatrix

section Shapes

variable {K : Type*} [Field K]

/-- The matrix has `n` rows of `n` entries. -/
def IsSquare (n : Nat) (m : DensityMatrix K) : Prop :=
  m.data.length = n ∧ ∀ row ∈ m.data, row.length = n

def IsSymmetric (m : DensityMatrix K) : Prop := m.transpose = .ok m

/-- The transpose is the inverse. -/
def IsOrthogonal (u : DensityMatrix K) : Prop :=
  ∃ ut, u.transpose = .ok ut ∧ u.multiply ut = .ok (identity u.size)

/-- The matrix after `k` evolution steps. -/
def evolveTimes (u : DensityMatrix K) : Nat → DensityMatrix K → Exec Unit (DensityMatrix K)
  | 0, rho => .ok rho
  | k + 1, rho => do evolveTimes u k (← rho.evolve u)

end Shapes

section Refinement

variable {K : Type*} {n : Nat}

/-- The rows of a matrix over `Fin n`. -/
def ofMatrix (a : Matrix (Fin n) (Fin n) K) : DensityMatrix K :=
  ⟨(List.finRange n).map fun i => (List.finRange n).map fun j => a i j⟩

@[simp] theorem size_ofMatrix (a : Matrix (Fin n) (Fin n) K) : (ofMatrix a).size = n := by
  simp [size, ofMatrix]

theorem isSquare_ofMatrix (a : Matrix (Fin n) (Fin n) K) : IsSquare n (ofMatrix a) := by
  simp [IsSquare, ofMatrix]

@[simp] theorem entry_ofMatrix (a : Matrix (Fin n) (Fin n) K) (i j : Fin n) :
    (ofMatrix a).entry i j = .ok (a i j) := by
  simp [entry, ofMatrix]

theorem ofMatrix_injective : (ofMatrix : Matrix (Fin n) (Fin n) K → _).Injective := by
  intro a b h
  ext i j
  have he := entry_ofMatrix a i j
  rw [h, entry_ofMatrix] at he
  exact (Except.ok.inj he).symm

theorem exists_ofMatrix {m : DensityMatrix K} (h : IsSquare n m) :
    ∃ a : Matrix (Fin n) (Fin n) K, m = ofMatrix a := by
  obtain ⟨data⟩ := m
  obtain ⟨hlen, hrows⟩ := h
  subst hlen
  obtain ⟨a, ha⟩ := Scan.exists_ofFn_rows hrows
  refine ⟨a, congrArg mk ?_⟩
  simpa only [List.ofFn_eq_map] using ha

theorem tabulate_eq {f : Nat → Nat → Exec Unit K} {a : Matrix (Fin n) (Fin n) K}
    (h : ∀ i j : Fin n, f i j = .ok (a i j)) : tabulate n f = .ok (ofMatrix a) := by
  have hrow : ∀ i ∈ List.finRange n, ((List.finRange n).mapM fun j : Fin n => f i j) =
      .ok ((List.finRange n).map fun j => a i j) := fun i _ => mapM_ok fun j _ => h i j
  rw [tabulate, mapM_ok hrow]
  rfl

theorem transpose_ofMatrix (a : Matrix (Fin n) (Fin n) K) :
    (ofMatrix a).transpose = .ok (ofMatrix aᵀ) := by
  rw [transpose, size_ofMatrix]
  exact tabulate_eq fun i j => entry_ofMatrix a j i

theorem isSymmetric_ofMatrix (a : Matrix (Fin n) (Fin n) K) :
    IsSymmetric (ofMatrix a) ↔ aᵀ = a := by
  rw [IsSymmetric, transpose_ofMatrix, Except.ok.injEq, ofMatrix_injective.eq_iff]

variable [Field K]

theorem foldlM_sum_eq {pass : K → Fin n → Exec Unit K} {g : Fin n → K}
    (h : ∀ sum k, pass sum k = .ok (sum + g k)) :
    (List.finRange n).foldlM pass 0 = .ok (∑ k, g k) := by
  rw [foldlM_ok (g := fun sum k => sum + g k) fun k _ sum => h sum k, Scan.foldl_add, zero_add,
    Fin.sum_univ_def]

variable (a b : Matrix (Fin n) (Fin n) K)

theorem multiply_ofMatrix : (ofMatrix a).multiply (ofMatrix b) = .ok (ofMatrix (a * b)) := by
  rw [multiply, size_ofMatrix]
  apply tabulate_eq
  intro i j
  rw [Matrix.mul_apply]
  apply foldlM_sum_eq
  intro sum k
  rw [entry_ofMatrix, entry_ofMatrix]
  rfl

theorem add_ofMatrix : (ofMatrix a).add (ofMatrix b) = .ok (ofMatrix (a + b)) := by
  rw [add, size_ofMatrix]
  apply tabulate_eq
  intro i j
  simp

theorem scale_ofMatrix (s : K) : (ofMatrix a).scale s = ofMatrix (s • a) := by
  simp [scale, ofMatrix, Function.comp_def, mul_comm]

theorem identity_eq : identity n = ofMatrix (1 : Matrix (Fin n) (Fin n) K) := by
  simp [identity, ofMatrix, Matrix.one_apply]

theorem trace_ofMatrix : (ofMatrix a).trace = .ok a.trace := by
  rw [trace, size_ofMatrix]
  apply foldlM_sum_eq
  intro sum k
  rw [entry_ofMatrix]
  rfl

/-- The sum of the squares of the entries. -/
def energy : K := ∑ i, ∑ j, a i j ^ 2

theorem frobeniusNorm_ofMatrix (sqrt : K → K) :
    (ofMatrix a).frobeniusNorm sqrt = sqrt (energy a) := by
  have hsum : ((ofMatrix a).data.flatten.map fun x => x * x).sum = energy a := by
    simp only [ofMatrix, energy, List.map_flatten, List.map_map, List.sum_flatten, Fin.sum_univ_def,
      Function.comp_def, sq]
  rw [frobeniusNorm, hsum]

theorem distanceTo_ofMatrix (sqrt : K → K) :
    distanceTo sqrt (ofMatrix a) (ofMatrix b) = .ok (sqrt (energy (a - b))) := by
  rw [distanceTo, scale_ofMatrix, add_ofMatrix, ok_bind, frobeniusNorm_ofMatrix, neg_one_smul,
    ← sub_eq_add_neg]
  rfl

/-- A step of the evolution. -/
def evolved (u rho : Matrix (Fin n) (Fin n) K) : Matrix (Fin n) (Fin n) K :=
  goldenRatioInv K • (u * rho * uᵀ) + goldenRatioInvSq K • rho

theorem evolve_ofMatrix : (ofMatrix a).evolve (ofMatrix b) = .ok (ofMatrix (evolved b a)) := by
  rw [evolve, transpose_ofMatrix, ok_bind, multiply_ofMatrix, ok_bind, multiply_ofMatrix, ok_bind,
    scale_ofMatrix, scale_ofMatrix, add_ofMatrix]
  rfl

theorem evolveTimes_ofMatrix (k : Nat) :
    evolveTimes (ofMatrix b) k (ofMatrix a) = .ok (ofMatrix ((evolved b)^[k] a)) := by
  induction k generalizing a with
  | zero => rfl
  | succ k ih => rw [evolveTimes, evolve_ofMatrix, ok_bind, ih, Function.iterate_succ_apply]

theorem isOrthogonal_ofMatrix : IsOrthogonal (ofMatrix a) ↔ a * aᵀ = 1 := by
  rw [IsOrthogonal, transpose_ofMatrix, size_ofMatrix, identity_eq]
  simp [multiply_ofMatrix, ofMatrix_injective.eq_iff]

end Refinement

section Conjugation

variable {n : Nat} {u : Matrix (Fin n) (Fin n) ℝ}

def conjugation (u : Matrix (Fin n) (Fin n) ℝ) :
    Matrix (Fin n) (Fin n) ℝ →ₗ[ℝ] Matrix (Fin n) (Fin n) ℝ :=
  LinearMap.mulLeft ℝ u ∘ₗ LinearMap.mulRight ℝ uᵀ

theorem conjugation_apply (u a : Matrix (Fin n) (Fin n) ℝ) : conjugation u a = u * a * uᵀ :=
  (Matrix.mul_assoc u a uᵀ).symm

/-- The energy as a quadratic form. -/
noncomputable def energyForm (n : Nat) : QuadraticForm ℝ (Matrix (Fin n) (Fin n) ℝ) :=
  ∑ i, ∑ j, QuadraticMap.sq.comp (Matrix.entryLinearMap ℝ ℝ i j)

theorem energyForm_apply (a : Matrix (Fin n) (Fin n) ℝ) : energyForm n a = energy a := by
  simp [energyForm, energy, sq]

theorem energy_eq_trace (a : Matrix (Fin n) (Fin n) ℝ) : energy a = (a * aᵀ).trace := by
  simp [energy, Matrix.trace, Matrix.mul_apply, sq]

theorem trace_conjugation (hu : u * uᵀ = 1) (a : Matrix (Fin n) (Fin n) ℝ) :
    (u * a * uᵀ).trace = a.trace := by
  have hinv : uᵀ * u = 1 := mul_eq_one_comm.mp hu
  rw [Matrix.trace_mul_comm, ← Matrix.mul_assoc, hinv, Matrix.one_mul]

theorem energy_conjugation (hu : u * uᵀ = 1) (a : Matrix (Fin n) (Fin n) ℝ) :
    energy (u * a * uᵀ) = energy a := by
  have hinv : uᵀ * u = 1 := mul_eq_one_comm.mp hu
  have hsquare : u * a * uᵀ * (u * a * uᵀ)ᵀ = u * (a * aᵀ) * uᵀ := by
    calc u * a * uᵀ * (u * a * uᵀ)ᵀ = u * a * (uᵀ * u) * aᵀ * uᵀ := by
          simp only [Matrix.transpose_mul, Matrix.transpose_transpose, Matrix.mul_assoc]
      _ = u * (a * aᵀ) * uᵀ := by rw [hinv, Matrix.mul_one, Matrix.mul_assoc u]
  rw [energy_eq_trace, hsquare, trace_conjugation hu, energy_eq_trace]

theorem goldenRatio_sum : goldenRatioInv ℝ + goldenRatioInvSq ℝ = 1 := by
  norm_num [goldenRatioInv, goldenRatioInvSq]

theorem goldenRatioInv_pos : 0 < goldenRatioInv ℝ := by
  norm_num [goldenRatioInv]

theorem goldenRatioInvSq_pos : 0 < goldenRatioInvSq ℝ := by
  norm_num [goldenRatioInvSq]

theorem averaged_conjugation (hu : u * uᵀ = 1) : Averaging.Averaged (energyForm n) (conjugation u)
    (goldenRatioInv ℝ) (goldenRatioInvSq ℝ) where
  keeps a := by rw [energyForm_apply, energyForm_apply, conjugation_apply, energy_conjugation hu]
  nonneg a := by
    rw [energyForm_apply]
    exact Finset.sum_nonneg fun i _ => Finset.sum_nonneg fun j _ => sq_nonneg _
  left := goldenRatioInv_pos
  right := goldenRatioInvSq_pos
  total := goldenRatio_sum

/-- A step of the evolution averages the conjugation with the identity. -/
theorem evolved_eq (u : Matrix (Fin n) (Fin n) ℝ) :
    evolved u = Averaging.average (conjugation u) (goldenRatioInv ℝ) (goldenRatioInvSq ℝ) := by
  funext rho
  rw [Averaging.average_apply, conjugation_apply]
  rfl

theorem energy_evolved_le (hu : u * uᵀ = 1) (rho : Matrix (Fin n) (Fin n) ℝ) :
    energy (evolved u rho) ≤ energy rho := by
  have hle := (averaged_conjugation hu).average_le rho
  rwa [← evolved_eq, energyForm_apply, energyForm_apply] at hle

theorem trace_evolved (hu : u * uᵀ = 1) (rho : Matrix (Fin n) (Fin n) ℝ) :
    (evolved u rho).trace = rho.trace := by
  rw [evolved, Matrix.trace_add, Matrix.trace_smul, Matrix.trace_smul, trace_conjugation hu,
    ← add_smul, goldenRatio_sum, one_smul]

theorem transpose_evolved {rho : Matrix (Fin n) (Fin n) ℝ} (h : rhoᵀ = rho) :
    (evolved u rho)ᵀ = evolved u rho := by
  simp only [evolved, Matrix.transpose_add, Matrix.transpose_smul, Matrix.transpose_mul,
    Matrix.transpose_transpose, h, Matrix.mul_assoc]

theorem conjugation_eq_self (hu : u * uᵀ = 1) (rho : Matrix (Fin n) (Fin n) ℝ) :
    conjugation u rho = rho ↔ u * rho = rho * u := by
  have hinv : uᵀ * u = 1 := mul_eq_one_comm.mp hu
  rw [conjugation_apply]
  constructor
  · intro h
    calc u * rho = u * rho * uᵀ * u := by rw [Matrix.mul_assoc (u * rho), hinv, Matrix.mul_one]
      _ = rho * u := by rw [h]
  · intro h
    rw [h, Matrix.mul_assoc, hu, Matrix.mul_one]

end Conjugation

/-- What the evolution keeps of a matrix. -/
structure Conserved (rho rho' : DensityMatrix ℝ) : Prop where
  trace : ∃ t, rho.trace = .ok t ∧ rho'.trace = .ok t
  symmetric : rho.IsSymmetric → rho'.IsSymmetric
  norm : rho'.frobeniusNorm Real.sqrt ≤ rho.frobeniusNorm Real.sqrt

section Evolution

variable {n : Nat} {u : Matrix (Fin n) (Fin n) ℝ}

theorem conserved_ofMatrix {a b : Matrix (Fin n) (Fin n) ℝ} (ht : b.trace = a.trace)
    (hs : aᵀ = a → bᵀ = b) (he : energy b ≤ energy a) :
    Conserved (ofMatrix a) (ofMatrix b) where
  trace := ⟨a.trace, trace_ofMatrix a, ht ▸ trace_ofMatrix b⟩
  symmetric := by
    rw [isSymmetric_ofMatrix, isSymmetric_ofMatrix]
    exact hs
  norm := by
    rw [frobeniusNorm_ofMatrix, frobeniusNorm_ofMatrix]
    exact Real.sqrt_le_sqrt he

theorem conserved_iterate (hu : u * uᵀ = 1) (rho : Matrix (Fin n) (Fin n) ℝ) (k : Nat) :
    Conserved (ofMatrix rho) (ofMatrix ((evolved u)^[k] rho)) := by
  have hkeep : ((evolved u)^[k] rho).trace = rho.trace ∧
      (rhoᵀ = rho → ((evolved u)^[k] rho)ᵀ = (evolved u)^[k] rho) ∧
      energy ((evolved u)^[k] rho) ≤ energy rho := by
    induction k with
    | zero => exact ⟨rfl, id, le_rfl⟩
    | succ k ih =>
      obtain ⟨ht, hs, he⟩ := ih
      rw [Function.iterate_succ_apply']
      exact ⟨(trace_evolved hu _).trans ht, fun h => transpose_evolved (hs h),
        (energy_evolved_le hu _).trans he⟩
  exact conserved_ofMatrix hkeep.1 hkeep.2.1 hkeep.2.2

end Evolution

variable {n : Nat} {rho u : DensityMatrix ℝ}

/-- Under an orthogonal `u` any number of evolution steps keeps the trace and the symmetry, and
does not raise the norm. -/
theorem evolve_conserves (hrho : IsSquare n rho) (hu : IsSquare n u) (ho : IsOrthogonal u) :
    (∃ rho', rho.evolve u = .ok rho' ∧ Conserved rho rho') ∧
      ∀ k, ∃ rho', evolveTimes u k rho = .ok rho' ∧ Conserved rho rho' := by
  obtain ⟨a, rfl⟩ := exists_ofMatrix hrho
  obtain ⟨b, rfl⟩ := exists_ofMatrix hu
  have hb := (isOrthogonal_ofMatrix b).mp ho
  exact ⟨⟨_, evolve_ofMatrix a b, conserved_iterate hb a 1⟩,
    fun k => ⟨_, evolveTimes_ofMatrix a b k, conserved_iterate hb a k⟩⟩

/-- A quarter turn of the plane. -/
def quarterTurn : Matrix (Fin 2) (Fin 2) ℝ := !![0, -1; 1, 0]

theorem quarterTurn_orthogonal : quarterTurn * quarterTurnᵀ = 1 := by
  ext i j
  fin_cases i <;> fin_cases j <;> simp [quarterTurn, Matrix.mul_apply, Fin.sum_univ_two]

theorem evolve_conserves_quarterTurn :
    (∃ rho', (ofMatrix !![1, 2; 3, (4 : ℝ)]).evolve (ofMatrix quarterTurn) = .ok rho' ∧
      Conserved (ofMatrix !![1, 2; 3, 4]) rho') ∧
      ∀ k, ∃ rho', evolveTimes (ofMatrix quarterTurn) k (ofMatrix !![1, 2; 3, 4]) = .ok rho' ∧
        Conserved (ofMatrix !![1, 2; 3, 4]) rho' :=
  evolve_conserves (isSquare_ofMatrix _) (isSquare_ofMatrix _)
    ((isOrthogonal_ofMatrix _).mpr quarterTurn_orthogonal)

/-- The fixed points of the evolution are the matrices that commute with `u`. -/
theorem evolve_eq_self_iff (hrho : IsSquare n rho) (hu : IsSquare n u) (ho : IsOrthogonal u) :
    rho.evolve u = .ok rho ↔ ∃ m, u.multiply rho = .ok m ∧ rho.multiply u = .ok m := by
  obtain ⟨a, rfl⟩ := exists_ofMatrix hrho
  obtain ⟨b, rfl⟩ := exists_ofMatrix hu
  have hb := (isOrthogonal_ofMatrix b).mp ho
  have hcommute : (∃ m, (ofMatrix b).multiply (ofMatrix a) = .ok m ∧
      (ofMatrix a).multiply (ofMatrix b) = .ok m) ↔ b * a = a * b := by
    rw [multiply_ofMatrix, multiply_ofMatrix]
    simp [ofMatrix_injective.eq_iff, eq_comm]
  rw [hcommute, evolve_ofMatrix, Except.ok.injEq, ofMatrix_injective.eq_iff, evolved_eq,
    Averaging.average_eq_self goldenRatio_sum goldenRatioInv_pos.ne', conjugation_eq_self hb]

theorem evolve_eq_self_iff_quarterTurn :
    (ofMatrix !![1, 2; 3, (4 : ℝ)]).evolve (ofMatrix quarterTurn) = .ok (ofMatrix !![1, 2; 3, 4]) ↔
      ∃ m, (ofMatrix quarterTurn).multiply (ofMatrix !![1, 2; 3, 4]) = .ok m ∧
        (ofMatrix !![1, 2; 3, 4]).multiply (ofMatrix quarterTurn) = .ok m :=
  evolve_eq_self_iff (isSquare_ofMatrix _) (isSquare_ofMatrix _)
    ((isOrthogonal_ofMatrix _).mpr quarterTurn_orthogonal)

end DensityMatrix
end HyperKitty.Jordan
