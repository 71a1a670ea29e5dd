import HyperKitty.Lib.Levels
import HyperKitty.Spectral.Jordan

namespace HyperKitty.Spectral

variable {n : Nat} {a : Matrix (Fin (n + 1)) (Fin (n + 1)) ℝ}

theorem qrIterate_eq (a : Matrix (Fin n) (Fin n) ℝ) (maxIter : Nat) :
    qrIterate a (maxIter + 1) = fun i => a i i := by
  unfold qrIterate
  rw [List.range_succ, List.foldl_append]
  rfl

/-- The sum of the magnitudes in a row off the diagonal. -/
def offDiagonal {K : Type*} [Field K] [LinearOrder K] (a : Matrix (Fin n) (Fin n) K) (i : Fin n) :
    K :=
  ∑ j ∈ Finset.univ.erase i, |a i j|

theorem rowSum_eq (a : Matrix (Fin n) (Fin n) ℝ) (i : Fin n) :
    (List.finRange n).foldl (fun sum j => if i ≠ j then sum + |a i j| else sum) 0 =
      offDiagonal a i := by
  have hstep : (fun (sum : ℝ) j => if i ≠ j then sum + |a i j| else sum) =
      fun sum j => sum + if i ≠ j then |a i j| else 0 := by
    funext sum j
    split
    · rfl
    · rw [add_zero]
  rw [hstep, Scan.foldl_add, zero_add, ← Fin.sum_univ_def, offDiagonal, ← Finset.sum_filter]
  apply Finset.sum_congr _ fun _ _ => rfl
  ext j
  simp [eq_comm]

/-- The features by which a spectrum is judged, as functions of the entries. -/
theorem jordanTransform_eq (a : Matrix (Fin (n + 1)) (Fin (n + 1)) ℝ) :
    (jordanTransform (some a)).spectralRadius = Scan.largest (fun i => |a i i|) ∧
      (jordanTransform (some a)).gershgorinRadius = Scan.largest (offDiagonal a) ∧
      (jordanTransform (some a)).spectralGap =
        if 2 ≤ n + 1 then
          Scan.largest (fun i => |a i i|) -
            Scan.largestBelow (Scan.largest fun i => |a i i|) fun i => |a i i|
        else 0 := by
  simp only [jordanTransform, Nat.succ_ne_zero, if_false, qrIterate_eq, rowSum_eq, and_self]

section Eigenvalues

def IsEigenvalue (a : Matrix (Fin n) (Fin n) ℝ) (t : ℝ) : Prop := ∃ v ≠ 0, a.mulVec v = t • v

theorem isEigenvalue_iff (a : Matrix (Fin n) (Fin n) ℝ) (t : ℝ) :
    IsEigenvalue a t ↔ (t • (1 : Matrix (Fin n) (Fin n) ℝ) - a).det = 0 := by
  rw [← Matrix.exists_mulVec_eq_zero_iff]
  apply exists_congr
  intro v
  rw [Matrix.sub_mulVec, Matrix.smul_mulVec, Matrix.one_mulVec, sub_eq_zero, eq_comm (b := t • v)]

/-- Both radii bound the real eigenvalues. -/
structure BoundsSpectrum (a : Matrix (Fin n) (Fin n) ℝ) : Prop where
  spectral : ∀ t, IsEigenvalue a t → |t| ≤ (jordanTransform (some a)).spectralRadius
  gershgorin : ∀ t, IsEigenvalue a t → |t| ≤ (jordanTransform (some a)).gershgorinRadius

theorem abs_le_spectralRadius {t : ℝ} :
    |t| ≤ (jordanTransform (some a)).spectralRadius ↔ ∃ i, |t| ≤ |a i i| := by
  rw [(jordanTransform_eq a).1]
  exact Scan.le_largest_iff fun i => abs_nonneg (a i i)

theorem offDiagonal_nonneg (a : Matrix (Fin n) (Fin n) ℝ) (i : Fin n) : 0 ≤ offDiagonal a i :=
  Finset.sum_nonneg fun _ _ => abs_nonneg _

theorem abs_le_gershgorinRadius {t : ℝ} :
    |t| ≤ (jordanTransform (some a)).gershgorinRadius ↔ ∃ i, |t| ≤ offDiagonal a i := by
  rw [(jordanTransform_eq a).2.1]
  exact Scan.le_largest_iff (offDiagonal_nonneg a)

theorem boundsSpectrum_iff_forall : BoundsSpectrum a ↔
    ∀ t, IsEigenvalue a t → (∃ i, |t| ≤ |a i i|) ∧ ∃ i, |t| ≤ offDiagonal a i := by
  constructor
  · intro h t ht
    exact ⟨abs_le_spectralRadius.mp (h.spectral t ht),
      abs_le_gershgorinRadius.mp (h.gershgorin t ht)⟩
  · intro h
    exact ⟨fun t ht => abs_le_spectralRadius.mpr (h t ht).1,
      fun t ht => abs_le_gershgorinRadius.mpr (h t ht).2⟩

/-- The rows within their levels reach no further than a diagonal entry, and no further than some
row off the diagonal. -/
def Reached (b : Fin n → Nat) (a : Matrix (Fin n) (Fin n) ℝ) : Prop :=
  ∃ l k, ∀ i, ∑ j with b j = b i, |a i j| ≤ |a l l| ∧ ∑ j with b j = b i, |a i j| ≤ offDiagonal a k

/-- The rows of a level have one sum, and no row has two signs in its level. -/
structure EvenLevels (b : Fin n → Nat) (a : Matrix (Fin n) (Fin n) ℝ) : Prop where
  sums : ∀ i i', b i = b i' → ∑ j with b j = b i, a i j = ∑ j with b j = b i', a i' j
  signs : ∀ i, (∀ j, b j = b i → 0 ≤ a i j) ∨ ∀ j, b j = b i → a i j ≤ 0

theorem EvenLevels.abs_sum {b : Fin n → Nat} {a : Matrix (Fin n) (Fin n) ℝ}
    (h : EvenLevels b a) (i : Fin n) :
    |∑ j with b j = b i, a i j| = ∑ j with b j = b i, |a i j| := by
  rcases h.signs i with hpos | hneg
  · rw [Finset.abs_sum_of_nonneg fun j hj => hpos j (Finset.mem_filter.mp hj).2]
    refine Finset.sum_congr rfl fun j hj => ?_
    rw [abs_of_nonneg (hpos j (Finset.mem_filter.mp hj).2)]
  · rw [abs_of_nonpos (Finset.sum_nonpos fun j hj => hneg j (Finset.mem_filter.mp hj).2),
      ← Finset.sum_neg_distrib]
    refine Finset.sum_congr rfl fun j hj => ?_
    rw [abs_of_nonpos (hneg j (Finset.mem_filter.mp hj).2)]

/-- Nothing leads back in levels of one node each: this is what a triangular matrix is. -/
theorem even_of_triangular {a : Matrix (Fin n) (Fin n) ℝ} (h : ∀ i j, j < i → a i j = 0) :
    a.BlockTriangular Fin.val ∧ EvenLevels Fin.val a ∧
      ∀ i, ∑ j with Fin.val j = Fin.val i, |a i j| = |a i i| := by
  refine ⟨fun i j hji => h i j hji, ⟨?_, ?_⟩,
    Levels.rowSum_of_injective Fin.val_injective (a.map fun x => |x|)⟩
  · intro i i' hi
    rw [Fin.val_inj.mp hi]
  · intro i
    refine (le_total 0 (a i i)).imp ?_ ?_
    · intro hpos j hj
      rwa [Fin.val_inj.mp hj]
    · intro hneg j hj
      rwa [Fin.val_inj.mp hj]

theorem boundsSpectrum_of_reached {b : Fin (n + 1) → Nat} (hb : a.BlockTriangular b)
    (h : Reached b a) : BoundsSpectrum a := by
  obtain ⟨l, k, hreach⟩ := h
  rw [boundsSpectrum_iff_forall]
  intro t ht
  obtain ⟨i, hi⟩ := Levels.exists_norm_le hb ((isEigenvalue_iff a t).mp ht)
  exact ⟨⟨l, hi.trans (hreach i).1⟩, k, hi.trans (hreach i).2⟩

theorem reached_of_boundsSpectrum {b : Fin (n + 1) → Nat} (hb : a.BlockTriangular b)
    (heven : EvenLevels b a) (h : BoundsSpectrum a) : Reached b a := by
  obtain ⟨m, hm⟩ := Finite.exists_max fun i => ∑ j with b j = b i, |a i j|
  have ht : IsEigenvalue a (∑ j with b j = b m, a m j) :=
    (isEigenvalue_iff a _).mpr (Levels.det_rowSum hb m fun j hj => heven.sums j m hj)
  obtain ⟨⟨l, hl⟩, k, hk⟩ := boundsSpectrum_iff_forall.mp h _ ht
  rw [heven.abs_sum] at hl hk
  exact ⟨l, k, fun i => ⟨(hm i).trans hl, (hm i).trans hk⟩⟩

/-- In levels from which nothing leads back, the radii are bounds where they reach every row within
its level. They are bounds only there, where the rows of each level are even; for a triangular
matrix, exactly where some row off the diagonal reaches the diagonal. -/
theorem boundsSpectrum_iff (a : Matrix (Fin (n + 1)) (Fin (n + 1)) ℝ) :
    (∀ b : Fin (n + 1) → Nat, a.BlockTriangular b →
      (Reached b a → BoundsSpectrum a) ∧ (EvenLevels b a → (BoundsSpectrum a ↔ Reached b a))) ∧
    ((∀ i j, j < i → a i j = 0) →
      (BoundsSpectrum a ↔ ∃ k, ∀ i, |a i i| ≤ ∑ j ∈ Finset.univ.erase k, |a k j|)) := by
  constructor
  · intro b hb
    exact ⟨boundsSpectrum_of_reached hb, fun heven =>
      ⟨reached_of_boundsSpectrum hb heven, boundsSpectrum_of_reached hb⟩⟩
  · intro htri
    obtain ⟨hb, heven, hrow⟩ := even_of_triangular htri
    constructor
    · intro h
      obtain ⟨l, k, hreach⟩ := reached_of_boundsSpectrum hb heven h
      exact ⟨k, fun i => (hrow i).ge.trans (hreach i).2⟩
    · intro ⟨k, hk⟩
      obtain ⟨l, hl⟩ := Finite.exists_max fun i => |a i i|
      exact boundsSpectrum_of_reached hb
        ⟨l, k, fun i => ⟨(hrow i).le.trans (hl i), (hrow i).le.trans (hk i)⟩⟩

/-- A node that routes to two others, which route to each other. -/
def forkedPath : Matrix (Fin 3) (Fin 3) ℝ := !![4, 8, 8; 0, 1, 2; 0, 2, 1]

theorem forkedPath_bounded : BoundsSpectrum forkedPath ∧ BoundsSpectrum !![1, 2; 0, 1] := by
  constructor
  · refine ((boundsSpectrum_iff forkedPath).1 ![0, 1, 1] ?_).1 ⟨0, 0, fun i => ?_⟩
    · intro i j hij
      fin_cases i <;> fin_cases j <;> simp_all [forkedPath]
    · have hrow : offDiagonal forkedPath 0 = 16 := by
        norm_num [offDiagonal, forkedPath, Fin.sum_univ_succ]
      rw [hrow, Finset.sum_filter]
      revert i
      norm_num [Fin.forall_fin_succ, Fin.sum_univ_succ, forkedPath]
  · apply ((boundsSpectrum_iff !![1, 2; 0, 1]).2 _).mpr
    · refine ⟨0, fun i => ?_⟩
      have hrow :
          ∑ j ∈ Finset.univ.erase 0, |(!![1, 2; 0, 1] : Matrix (Fin 2) (Fin 2) ℝ) 0 j| = 2 := by
        rw [show (Finset.univ.erase 0 : Finset (Fin 2)) = {1} from rfl]
        norm_num
      rw [hrow]
      fin_cases i <;> norm_num
    · intro i j hji
      fin_cases i <;> fin_cases j <;> simp_all

/-- Two nodes that route to each other have the eigenvalue one and the spectral radius zero. -/
theorem swap_unbounded : ¬ BoundsSpectrum !![0, 1; 1, 0] := by
  intro h
  have he : IsEigenvalue !![0, 1; 1, 0] 1 := by
    rw [isEigenvalue_iff, Matrix.det_fin_two]
    norm_num
  obtain ⟨⟨i, hi⟩, _⟩ := boundsSpectrum_iff_forall.mp h 1 he
  fin_cases i <;> norm_num at hi

end Eigenvalues

section Gaps

/-- The largest of the numbers, and the largest of the others. -/
def TopTwo (f : Fin n → ℝ) (first second : ℝ) : Prop :=
  ∃ i j, i ≠ j ∧ f i = first ∧ f j = second ∧ (∀ k, f k ≤ first) ∧ ∀ k ≠ i, f k ≤ second

/-- The gap is the distance of the two largest magnitudes on the diagonal. -/
def ExactGap (a : Matrix (Fin n) (Fin n) ℝ) : Prop :=
  ∃ first second, TopTwo (fun i => |a i i|) first second ∧
    (jordanTransform (some a)).spectralGap = first - second

variable {f : Fin (n + 2) → ℝ}

theorem exists_second (f : Fin (n + 2) → ℝ) (i : Fin (n + 2)) :
    ∃ j, j ≠ i ∧ ∀ k ≠ i, f k ≤ f j := by
  obtain ⟨d, hd⟩ := exists_ne i
  have hne : (Finset.univ.erase i).Nonempty := ⟨d, by simp [hd]⟩
  obtain ⟨j, hj, hmax⟩ := Finset.exists_max_image _ f hne
  refine ⟨j, Finset.ne_of_mem_erase hj, ?_⟩
  intro k hk
  exact hmax k (by simp [hk])

/-- Where the gap is exact, the second largest number was not passed over, or is zero. -/
theorem unique_or_zero_of_gap (h0 : ∀ i, 0 ≤ f i) {i j : Fin (n + 2)} (hi : ∀ k, f k ≤ f i)
    (hj : ∀ k ≠ i, f k ≤ f j) (hlow : Scan.largestBelow (f i) f = f j) :
    (∃ i, ∀ j ≠ i, f j < f i) ∨ ∀ i, f i = 0 := by
  rcases Scan.largestBelow_attained (f i) f with h | ⟨d, hd, h⟩
  · by_cases hz : f i = 0
    · right
      intro k
      exact le_antisymm ((hi k).trans hz.le) (h0 k)
    · left
      refine ⟨i, fun k hk => ?_⟩
      calc f k ≤ f j := hj k hk
        _ = 0 := hlow.symm.trans h
        _ < f i := lt_of_le_of_ne (h0 i) (Ne.symm hz)
  · left
    refine ⟨i, fun k hk => ?_⟩
    calc f k ≤ f j := hj k hk
      _ = f d := hlow.symm.trans h
      _ < f i := hd

theorem largestBelow_of_unique {d i j : Fin (n + 2)} (hd : ∀ k ≠ d, f k < f d)
    (hi : ∀ k, f k ≤ f i) (hj : j ≠ i) (hmax : ∀ k ≠ i, f k ≤ f j) (h0 : 0 ≤ f j) :
    Scan.largestBelow (f i) f = f j := by
  have hdi : d = i := by
    by_contra hne
    exact absurd (hd i (Ne.symm hne)) (not_lt.mpr (hi d))
  subst hdi
  apply Scan.largestBelow_eq_of_greatest h0 (hd j hj)
  intro k hk
  apply hmax
  rintro rfl
  exact lt_irrefl _ hk

/-- The second scan passes over every copy of the largest number. -/
theorem gap_eq_iff (h0 : ∀ i, 0 ≤ f i) :
    (∃ first second, TopTwo f first second ∧
      Scan.largest f - Scan.largestBelow (Scan.largest f) f = first - second) ↔
    (∃ i, ∀ j ≠ i, f j < f i) ∨ ∀ i, f i = 0 := by
  constructor
  · rintro ⟨_, _, ⟨i, j, hij, rfl, rfl, hi, hj⟩, hgap⟩
    rw [Scan.largest_eq_of_greatest (h0 i) hi] at hgap
    exact unique_or_zero_of_gap h0 hi hj (sub_right_inj.mp hgap)
  · intro h
    obtain ⟨i, hi⟩ := Finite.exists_max f
    obtain ⟨j, hj, hmax⟩ := exists_second f i
    refine ⟨f i, f j, ⟨i, j, hj.symm, rfl, rfl, hi, hmax⟩, ?_⟩
    rw [Scan.largest_eq_of_greatest (h0 i) hi]
    congr 1
    rcases h with ⟨d, hd⟩ | hz
    · exact largestBelow_of_unique hd hi hj hmax (h0 j)
    · rw [hz j]
      exact Scan.largestBelow_eq_zero fun k => (hz k).le

/-- The gap is exact where one magnitude on the diagonal is above all others, or all are zero. -/
theorem exactGap_iff (a : Matrix (Fin (n + 2)) (Fin (n + 2)) ℝ) :
    ExactGap a ↔ (∃ i, ∀ j ≠ i, |a j j| < |a i i|) ∨ ∀ i, a i i = 0 := by
  unfold ExactGap
  rw [(jordanTransform_eq a).2.2, if_pos (Nat.le_add_left 2 n)]
  rw [gap_eq_iff fun i => abs_nonneg _]
  simp only [abs_eq_zero]

/-- Two equal magnitudes are reported as the widest gap. -/
theorem tie_decisive : ¬ ExactGap (1 : Matrix (Fin 2) (Fin 2) ℝ) := by
  intro ⟨first, second, htop, hgap⟩
  have hone : (fun i => |(1 : Matrix (Fin 2) (Fin 2) ℝ) i i|) = fun _ => 1 := by
    funext i
    rw [Matrix.one_apply_eq, abs_one]
  have hiff := (gap_eq_iff (f := fun _ : Fin 2 => (1 : ℝ)) fun _ => zero_le_one).mp
    ⟨first, second, hone ▸ htop, by
      rw [← hgap, (jordanTransform_eq _).2.2, hone]
      rfl⟩
  rcases hiff with ⟨i, hi⟩ | hz
  · obtain ⟨j, hj⟩ := exists_ne i
    exact lt_irrefl _ (hi j hj)
  · exact one_ne_zero (hz 0)

end Gaps

end HyperKitty.Spectral
