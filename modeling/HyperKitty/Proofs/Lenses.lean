import HyperKitty.Spectral.Jacobian

namespace HyperKitty.Spectral

variable {n : Nat} {entry : ℝ} {a : Matrix (Fin n) (Fin n) ℝ}

theorem epsilon_pos : (0 : ℝ) < epsilon := by
  unfold epsilon
  norm_num

/-- The threshold cancels out, and an entry of magnitude one is at the boundary. -/
theorem abs_perturbed (entry : ℝ) : |perturbed entry| = epsilon * max 1 |entry| := by
  have h0 := epsilon_pos
  have habs : |entry * epsilon| = epsilon * |entry| := by
    rw [abs_mul, abs_of_pos h0, mul_comm]
  have hiff : |entry * epsilon| < epsilon ↔ |entry| < 1 := by
    rw [habs]
    exact mul_lt_iff_lt_one_right h0
  unfold perturbed
  dsimp only
  split
  · rename_i h
    rw [abs_of_pos h0, max_eq_left (hiff.mp h).le, mul_one]
  · rename_i h
    rw [habs, max_eq_right (not_lt.mp fun hlt => h (hiff.mpr hlt))]

theorem epsilon_lt_perturbed : epsilon < |perturbed entry| ↔ 1 < |entry| := by
  rw [abs_perturbed, lt_mul_iff_one_lt_right epsilon_pos, lt_max_iff]
  simp

section DeadPaths

/-- The columns whose entries are all within a bound. -/
def columnsWithin {K : Type*} [Field K] [LinearOrder K] (a : Matrix (Fin n) (Fin n) K) (b : K) :
    Finset (Fin n) :=
  Finset.univ.filter fun j => ∀ i, |a i j| ≤ b

theorem mem_columnsWithin {b : ℝ} {j : Fin n} :
    j ∈ columnsWithin a b ↔ ∀ i, |a i j| ≤ b := by simp [columnsWithin]

theorem countDeadPaths_perturbed (a : Matrix (Fin n) (Fin n) ℝ) :
    countDeadPaths (fun i j => perturbed (a i j)) = (columnsWithin a 1).card := by
  have hdead : ∀ j, ((List.finRange n).all fun i => !decide (epsilon < |perturbed (a i j)|)) =
      decide (∀ i, |a i j| ≤ 1) := by
    intro j
    rw [Bool.eq_iff_iff, decide_eq_true_iff]
    simp [epsilon_lt_perturbed]
  unfold countDeadPaths columnsWithin
  simp only [hdead]
  rw [List.countP_eq_length_filter,
    ← List.toFinset_card_of_nodup ((List.nodup_finRange n).filter _)]
  congr 1
  ext j
  simp

/-- Dead columns are those without influence, and no column with a structural edge is dead. -/
structure CountsDead (a : Matrix (Fin n) (Fin n) ℝ) : Prop where
  exact : (jacobianLens Real.sqrt (some a)).deadPaths = (columnsWithin a epsilon).card
  structural : (jacobianLens Real.sqrt (some a)).deadPaths ≤
    (Finset.univ.filter fun j => ∀ i, a i j ≠ 1).card

theorem deadPaths_eq (a : Matrix (Fin n) (Fin n) ℝ) :
    (jacobianLens Real.sqrt (some a)).deadPaths = (columnsWithin a 1).card := by
  unfold jacobianLens
  dsimp only
  split
  · rename_i h
    subst h
    simp [columnsWithin]
  · exact countDeadPaths_perturbed a

theorem columnsWithin_mono {b c : ℝ} (h : b ≤ c) : columnsWithin a b ⊆ columnsWithin a c := by
  intro j hj
  rw [mem_columnsWithin] at hj ⊢
  exact fun i => (hj i).trans h

theorem epsilon_lt_one : (epsilon : ℝ) < 1 := by
  unfold epsilon
  norm_num

/-- The count is right exactly where no column has its largest magnitude above the threshold
and up to one. -/
theorem countsDead_iff (a : Matrix (Fin n) (Fin n) ℝ) :
    CountsDead a ↔ ∀ j, (∀ i, |a i j| ≤ 1) → ∀ i, |a i j| ≤ epsilon := by
  have hsub : columnsWithin a epsilon ⊆ columnsWithin a 1 := columnsWithin_mono epsilon_lt_one.le
  constructor
  · intro h j hj
    have hcard := h.exact
    rw [deadPaths_eq] at hcard
    have heq := Finset.eq_of_subset_of_card_le hsub hcard.le
    rw [← mem_columnsWithin, heq, mem_columnsWithin]
    exact hj
  · intro h
    have heq : columnsWithin a 1 = columnsWithin a epsilon := by
      apply Finset.Subset.antisymm _ hsub
      intro j hj
      rw [mem_columnsWithin] at hj ⊢
      exact h j hj
    refine ⟨?_, ?_⟩
    · rw [deadPaths_eq, heq]
    · rw [deadPaths_eq, heq]
      apply Finset.card_le_card
      intro j hj
      rw [mem_columnsWithin] at hj
      simp only [Finset.mem_filter_univ]
      intro i hi
      have hle := hj i
      rw [hi, abs_one] at hle
      exact absurd hle (not_le.mpr epsilon_lt_one)

/-- A single structural edge is counted as a dead path. -/
theorem structural_edge_dead : ¬ CountsDead (1 : Matrix (Fin 1) (Fin 1) ℝ) := by
  intro h
  have hdead := h.structural
  rw [deadPaths_eq] at hdead
  have h1 : (0 : Fin 1) ∈ columnsWithin (1 : Matrix (Fin 1) (Fin 1) ℝ) 1 := by
    rw [mem_columnsWithin]
    intro i
    rw [Subsingleton.elim i 0, Matrix.one_apply_eq, abs_one]
  have hnone : (Finset.univ.filter fun j : Fin 1 => ∀ i, (1 : Matrix (Fin 1) (Fin 1) ℝ) i j ≠ 1) =
      ∅ := by
    rw [Finset.filter_eq_empty_iff]
    intro j _ hj
    exact hj j (Matrix.one_apply_eq j)
  rw [hnone, Finset.card_empty] at hdead
  exact absurd hdead (not_le.mpr (Finset.card_pos.mpr ⟨0, h1⟩))

end DeadPaths

section Invertibility

/-- The squares of the entries, each taken as one at least. -/
noncomputable def liftedSquares (a : Matrix (Fin n) (Fin n) ℝ) : ℝ :=
  ∑ i, ∑ j, max 1 |a i j| ^ 2

theorem sum_perturbed (a : Matrix (Fin n) (Fin n) ℝ) :
    (Scan.doubleSum fun i j => perturbed (a i j) * perturbed (a i j)) =
      epsilon ^ 2 * liftedSquares a := by
  rw [Scan.doubleSum_eq, liftedSquares, Finset.mul_sum]
  apply Finset.sum_congr rfl
  intro i _
  rw [Finset.mul_sum]
  apply Finset.sum_congr rfl
  intro j _
  rw [← abs_mul_abs_self, abs_perturbed]
  ring

theorem conditionNumber_gt_iff (b : Matrix (Fin (n + 1)) (Fin (n + 1)) ℝ) :
    100 < (jacobianLens Real.sqrt (some b)).conditionNumber ↔
      10 ^ 4 * ((n + 1 : Nat) : ℝ) < liftedSquares b := by
  have h0 := epsilon_pos
  have hdim : (0 : ℝ) < Real.sqrt ((n + 1 : Nat) : ℝ) := by
    rw [Real.sqrt_pos]
    exact_mod_cast Nat.succ_pos n
  have hcond : Real.sqrt (epsilon ^ 2 * liftedSquares b) / Real.sqrt ((n + 1 : Nat) : ℝ) / epsilon =
      Real.sqrt (liftedSquares b) / Real.sqrt ((n + 1 : Nat) : ℝ) := by
    rw [Real.sqrt_mul (sq_nonneg _), Real.sqrt_sq h0.le]
    field_simp
  have hclamp : ∀ c : ℝ, 100 < (if c < 1 then 1 else c) ↔ 100 < c := by
    intro c
    split
    · constructor
      · intro h
        norm_num at h
      · intro h
        linarith
    · exact Iff.rfl
  simp only [jacobianLens, estimateConditionNumber, Nat.succ_ne_zero, if_false, sum_perturbed,
    hcond, hclamp]
  rw [lt_div_iff₀ hdim, Real.lt_sqrt (by positivity), mul_pow, Real.sq_sqrt (by positivity)]
  norm_num

theorem jacobianLocallyInvertible_iff (b : Matrix (Fin (n + 1)) (Fin (n + 1)) ℝ) :
    jacobianLocallyInvertible Real.sqrt (some b) = 1 ↔
      ¬ 10 ^ 4 * ((n + 1 : Nat) : ℝ) < liftedSquares b ∧ columnsWithin b 1 = ∅ := by
  rw [← conditionNumber_gt_iff, ← Finset.card_eq_zero, ← deadPaths_eq, jacobianLocallyInvertible]
  have hlimit : (100.0 : ℝ) = 100 := by norm_num
  simp only [Option.isNone_some, Nat.succ_ne_zero, decide_false, Bool.or_false, Bool.false_eq_true,
    if_false, hlimit]
  split
  · rename_i hlarge
    exact iff_of_false nofun fun h => h.1 hlarge
  · rename_i hsmall
    split
    · rename_i hdead
      exact iff_of_false nofun fun h => hdead.ne' h.2
    · rename_i hdead
      exact iff_of_true rfl ⟨hsmall, Nat.eq_zero_of_not_pos hdead⟩

/-- The verdict is sound, and the identity passes. -/
structure SoundVerdict (a : Matrix (Fin n) (Fin n) ℝ) : Prop where
  invertible : jacobianLocallyInvertible Real.sqrt (some a) = 1 → a.det ≠ 0
  identity : a = 1 → jacobianLocallyInvertible Real.sqrt (some a) = 1

theorem mem_columnsWithin_one (j : Fin (n + 1)) :
    j ∈ columnsWithin (1 : Matrix (Fin (n + 1)) (Fin (n + 1)) ℝ) 1 := by
  rw [mem_columnsWithin]
  intro i
  rw [Matrix.one_apply]
  split
  · rw [abs_one]
  · rw [abs_zero]
    exact zero_le_one

/-- A column without an entry above one counts as dead, and large entries as ill-conditioned. -/
inductive KeptBack (b : Matrix (Fin n) (Fin n) ℝ) : Prop
  | dead {j : Fin n} : (∀ i, |b i j| ≤ 1) → KeptBack b
  | large : 10 ^ 4 * (n : ℝ) < ∑ i, ∑ j, max 1 |b i j| ^ 2 → KeptBack b

theorem not_keptBack_iff {b : Matrix (Fin (n + 1)) (Fin (n + 1)) ℝ} :
    ¬ KeptBack b ↔ jacobianLocallyInvertible Real.sqrt (some b) = 1 := by
  rw [jacobianLocallyInvertible_iff, columnsWithin, Finset.filter_eq_empty_iff]
  constructor
  · exact fun h => ⟨fun hlarge => h (.large hlarge), fun j _ hj => h (.dead hj)⟩
  · rintro ⟨hsize, hcols⟩ hkept
    cases hkept with
    | dead hj => exact hcols (Finset.mem_univ _) hj
    | large hlarge => exact hsize hlarge

/-- The verdict can be relied on exactly where a matrix that is not invertible is kept back all the
same. The identity is kept back, too. -/
theorem soundVerdict_iff (b : Matrix (Fin (n + 1)) (Fin (n + 1)) ℝ) :
    SoundVerdict b ↔ b ≠ 1 ∧ (b.det = 0 → KeptBack b) := by
  constructor
  · intro h
    refine ⟨?_, fun hdet => ?_⟩
    · rintro rfl
      have hcolumn := mem_columnsWithin.mp (mem_columnsWithin_one (n := n) 0)
      exact not_keptBack_iff.mpr (h.identity rfl) (.dead hcolumn)
    · by_contra hno
      exact h.invertible (not_keptBack_iff.mp hno) hdet
  · intro ⟨hone, hkept⟩
    exact ⟨fun hpass hdet => not_keptBack_iff.mpr hpass (hkept hdet), fun h => absurd h hone⟩

/-- A matrix of twos passes as invertible. -/
theorem twos_pass : ¬ SoundVerdict (Matrix.of fun _ _ : Fin 2 => (2 : ℝ)) := by
  intro h
  refine h.invertible ((jacobianLocallyInvertible_iff _).mpr ⟨?_, ?_⟩) ?_
  · norm_num [liftedSquares]
  · rw [columnsWithin, Finset.filter_eq_empty_iff]
    intro j _ hj
    have h2 := hj 0
    norm_num at h2
  · rw [Matrix.det_fin_two]
    norm_num

end Invertibility

end HyperKitty.Spectral
