import HyperKitty.Jordan.Idempotent
import HyperKitty.Lib.Partition
import HyperKitty.Lib.Scan

namespace HyperKitty.Jordan

namespace PrimitiveIdempotents

/-- The three checks pass under a comparison. -/
structure Certified {K : Type*} [CommRing K] (eq : K → K → Bool) (p : PrimitiveIdempotents K) :
    Prop where
  idempotency : p.verifyIdempotency eq = true
  orthogonality : p.verifyOrthogonality eq = true
  identity : p.sumToIdentity eq = true

/-- The components add up to the vector, and each is its own only component. -/
structure Reconstructs (p : PrimitiveIdempotents ℝ) (n : Nat) (v : List ℝ) : Prop where
  sum : vectorSum n (p.peirceDecompose v) = v
  stable : ∀ (i : Nat) (c : List ℝ), (p.peirceDecompose v)[i]? = some c →
    ∀ (j : Nat) (d : List ℝ), (p.peirceDecompose c)[j]? = some d →
      d = if j = i then c else List.replicate n 0

/-- The vector has a nonzero entry at a place. -/
def Supported (e : List ℝ) (k : Nat) : Prop := ∃ x, e[k]? = some x ∧ x ≠ 0

/-- The vector is zero wherever an element with two nonzero entries or more is not. -/
def Spares (p : PrimitiveIdempotents ℝ) (v : List ℝ) : Prop :=
  ∀ e ∈ p.elements, (∃ k l, k ≠ l ∧ Supported e k ∧ Supported e l) →
    ∀ k, Supported e k → v[k]? = some 0

section Families

variable {m n : Nat}

variable {K : Type*}

/-- The elements that a family of vectors stands for. -/
def ofFamily (e : Fin m → Fin n → K) : PrimitiveIdempotents K :=
  ⟨List.ofFn fun i => List.ofFn (e i)⟩

theorem exists_ofFamily {p : PrimitiveIdempotents K} (h : ∀ e ∈ p.elements, e.length = n) :
    ∃ (m : Nat) (e : Fin m → Fin n → K), p = ofFamily e := by
  obtain ⟨elements⟩ := p
  obtain ⟨e, he⟩ := Scan.exists_ofFn_rows h
  exact ⟨elements.length, e, congrArg mk he⟩

variable [CommRing K]

theorem dot_ofFn (v e : Fin n → K) :
    (((List.ofFn v).zip (List.ofFn e)).map fun (x, y) => x * y).sum = ∑ k, v k * e k := by
  rw [Scan.zip_ofFn, List.map_ofFn, List.sum_ofFn]
  rfl

theorem peirceDecompose_ofFamily (e : Fin m → Fin n → K) (v : Fin n → K) :
    (ofFamily e).peirceDecompose (List.ofFn v) =
      List.ofFn fun i => List.ofFn fun k => (∑ l, v l * e i l) * e i k := by
  rw [peirceDecompose, ofFamily, List.map_ofFn]
  congr 1
  funext i
  simp only [Function.comp_apply, dot_ofFn, List.map_ofFn]
  rfl

theorem foldl_add_ofFn (es : List (Fin n → K)) (start : Fin n → K) :
    (es.map List.ofFn).foldl (fun acc e => (acc.zip e).map fun (a, b) => a + b) (List.ofFn start) =
      List.ofFn fun k => start k + (es.map fun e => e k).sum := by
  induction es generalizing start with
  | nil => simp
  | cons e es ih =>
    rw [List.map_cons, List.foldl_cons, Scan.zip_ofFn, List.map_ofFn]
    refine (ih _).trans ?_
    congr 1
    funext k
    rw [List.map_cons, List.sum_cons, ← add_assoc]
    rfl

theorem vectorSum_ofFn (e : Fin m → Fin n → K) :
    vectorSum n (List.ofFn fun i => List.ofFn (e i)) = List.ofFn fun k => ∑ i, e i k := by
  have hmap : (List.ofFn fun i => List.ofFn (e i)) = (List.ofFn e).map List.ofFn := by
    rw [List.map_ofFn]
    rfl
  have hzero : List.replicate n (0 : K) = List.ofFn fun _ : Fin n => 0 := (List.ofFn_const n 0).symm
  rw [vectorSum, hmap, hzero, foldl_add_ofFn]
  congr 1
  funext k
  rw [zero_add, List.map_ofFn, List.sum_ofFn]
  rfl

end Families

section Exact

variable {m n : Nat} {e : Fin m → Fin n → ℝ} {v : Fin n → ℝ} {p : PrimitiveIdempotents ℝ}

theorem vectorEqual_exactEq {a b : List ℝ} : vectorEqual exactEq a b = true ↔ a = b := by
  constructor
  · intro h
    unfold vectorEqual at h
    split at h
    · cases h
    · rename_i hlen
      rw [List.all_eq_true] at h
      apply List.ext_getElem (not_not.mp hlen)
      intro k h₁ h₂
      have hk : k < (a.zip b).length := by simp [h₁, h₂]
      have heq := h _ (List.getElem_mem hk)
      rw [List.getElem_zip] at heq
      exact of_decide_eq_true heq
  · rintro rfl
    rw [vectorEqual, if_neg (not_not.mpr rfl), List.all_eq_true]
    intro q hq
    obtain ⟨k, hk, rfl⟩ := List.mem_iff_getElem.mp hq
    simp [exactEq, List.getElem_zip]

/-- The check of the sum compares it with ones, whatever the comparison. -/
theorem sum_of_identity {eq : ℝ → ℝ → Bool} (hlen : ∀ e ∈ p.elements, e.length = n)
    (h : p.sumToIdentity eq = true) :
    vectorEqual eq (vectorSum n p.elements) (List.replicate n 1) = true := by
  obtain ⟨elements⟩ := p
  cases elements with
  | nil => cases h
  | cons e es =>
    have he : e.length = n := hlen e List.mem_cons_self
    subst he
    exact h

theorem length_ofFamily (e : Fin m → Fin n → ℝ) : ∀ f ∈ (ofFamily e).elements, f.length = n := by
  intro f hf
  obtain ⟨i, rfl⟩ := List.mem_ofFn.mp hf
  exact List.length_ofFn

theorem isPartition_of_certified (h : Certified exactEq (ofFamily e)) :
    Partition.IsPartition e where
  idempotent := by
    intro i k
    have hall := List.all_eq_true.mp h.idempotency (List.ofFn (e i)) (List.mem_ofFn.mpr ⟨i, rfl⟩)
    rw [vectorEqual_exactEq, List.map_ofFn, List.ofFn_inj] at hall
    exact (congrFun hall k).symm
  total := by
    have hsum := sum_of_identity (length_ofFamily e) h.identity
    rw [vectorEqual_exactEq, ofFamily, vectorSum_ofFn, ← List.ofFn_const, List.ofFn_inj] at hsum
    exact congrFun hsum

theorem supported_ofFn {f : Fin n → ℝ} {k : Nat} :
    Supported (List.ofFn f) k ↔ ∃ h : k < n, f ⟨k, h⟩ ≠ 0 := by
  unfold Supported
  simp only [List.getElem?_ofFn]
  by_cases h : k < n
  · simp [h]
  · simp [h]

theorem spares_ofFamily : Spares (ofFamily e) (List.ofFn v) ↔
    ∀ i, (∃ k l, k ≠ l ∧ e i k ≠ 0 ∧ e i l ≠ 0) → ∀ k, e i k ≠ 0 → v k = 0 := by
  constructor
  · intro h i ⟨k, l, hne, hk, hl⟩ j hj
    have hat := h (List.ofFn (e i)) (List.mem_ofFn.mpr ⟨i, rfl⟩)
      ⟨k, l, Fin.val_ne_of_ne hne, supported_ofFn.mpr ⟨k.isLt, hk⟩, supported_ofFn.mpr ⟨l.isLt, hl⟩⟩
      j (supported_ofFn.mpr ⟨j.isLt, hj⟩)
    simpa using hat
  · intro h f hf ⟨k, l, hne, hk, hl⟩ j hj
    obtain ⟨i, rfl⟩ := List.mem_ofFn.mp hf
    obtain ⟨hkn, hk⟩ := supported_ofFn.mp hk
    obtain ⟨hln, hl⟩ := supported_ofFn.mp hl
    obtain ⟨hjn, hj⟩ := supported_ofFn.mp hj
    have hzero := h i ⟨⟨k, hkn⟩, ⟨l, hln⟩, by simpa using hne, hk, hl⟩ ⟨j, hjn⟩ hj
    simp [hjn, hzero]

theorem sum_ofFamily : vectorSum n ((ofFamily e).peirceDecompose (List.ofFn v)) = List.ofFn v ↔
    ∀ k, ∑ i, (∑ l, v l * e i l) * e i k = v k := by
  rw [peirceDecompose_ofFamily, vectorSum_ofFn, List.ofFn_inj, funext_iff]

theorem stable_ofFamily (h : Partition.IsPartition e)
    (hv : ∀ k, ∑ i, (∑ l, v l * e i l) * e i k = v k) (i j : Nat) (c d : List ℝ)
    (hc : ((ofFamily e).peirceDecompose (List.ofFn v))[i]? = some c)
    (hd : ((ofFamily e).peirceDecompose c)[j]? = some d) :
    d = if j = i then c else List.replicate n 0 := by
  rw [peirceDecompose_ofFamily, List.getElem?_eq_some_iff] at hc
  obtain ⟨hi, rfl⟩ := hc
  rw [List.getElem_ofFn, peirceDecompose_ofFamily, List.getElem?_eq_some_iff] at hd
  obtain ⟨hj, rfl⟩ := hd
  rw [List.length_ofFn] at hi hj
  simp only [List.getElem_ofFn]
  split
  · rename_i hji
    subst hji
    rw [h.projection_self hv]
  · rename_i hji
    have hne : (⟨j, hj⟩ : Fin m) ≠ ⟨i, hi⟩ := fun he => hji (Fin.mk.inj he)
    rw [h.projection_other hne, ← List.ofFn_const]
    simp

/-- Of a certified system, the components add up exactly where the vector spares the elements
with two entries or more. -/
theorem reconstructs_iff (p : PrimitiveIdempotents ℝ) (n : Nat) (v : List ℝ)
    (hlen : ∀ e ∈ p.elements, e.length = n) (hp : Certified exactEq p) (hv : v.length = n) :
    Reconstructs p n v ↔ Spares p v := by
  obtain ⟨m, e, rfl⟩ := exists_ofFamily hlen
  obtain ⟨w, rfl⟩ := Scan.exists_ofFn hv
  have hpart := isPartition_of_certified hp
  rw [spares_ofFamily, ← hpart.sum_projections_eq_iff, ← sum_ofFamily]
  constructor
  · intro h
    exact h.sum
  · intro h
    exact ⟨h, fun i c hc j d hd => stable_ofFamily hpart (sum_ofFamily.mp h) i j c d hc hd⟩

theorem reconstructs_iff_pair :
    Reconstructs ⟨[[1, 1, 0], [0, 0, 1]]⟩ 3 [0, 0, 5] ↔
      Spares ⟨[[1, 1, 0], [0, 0, 1]]⟩ [0, 0, 5] :=
  reconstructs_iff ⟨[[1, 1, 0], [0, 0, 1]]⟩ 3 [0, 0, 5] (by simp)
    ⟨by simp [verifyIdempotency, vectorEqual, exactEq],
      by simp [verifyOrthogonality, vectorIsZero, jordanProduct, exactEq],
      by simp [sumToIdentity, vectorSum, vectorEqual, exactEq]⟩ rfl

/-- The one idempotent (1, 1) passes the checks, and the component of (1, 0) is (1, 1). -/
theorem not_reconstructs_of_ones : ¬ ∀ (p : PrimitiveIdempotents ℝ) (n : Nat) (v : List ℝ),
    (∀ e ∈ p.elements, e.length = n) → Certified exactEq p → v.length = n →
      Reconstructs p n v := by
  intro h
  have hp : Certified exactEq (⟨[[1, 1]]⟩ : PrimitiveIdempotents ℝ) :=
    ⟨by simp [verifyIdempotency, vectorEqual, exactEq],
      by simp [verifyOrthogonality],
      by simp [sumToIdentity, vectorSum, vectorEqual, exactEq]⟩
  have hsum := (h ⟨[[1, 1]]⟩ 2 [1, 0] (by simp) hp rfl).sum
  simp [vectorSum, peirceDecompose] at hsum

end Exact

section Rounding

variable {eq eq' : ℝ → ℝ → Bool} {p : PrimitiveIdempotents ℝ}

theorem vectorEqual_mono (h : ∀ a b, eq a b = true → eq' a b = true) {x y : List ℝ}
    (hxy : vectorEqual eq x y = true) : vectorEqual eq' x y = true := by
  unfold vectorEqual at hxy ⊢
  split at hxy
  · cases hxy
  · rename_i hlen
    rw [if_neg hlen]
    exact List.all_eq_true.mpr fun q hq => h _ _ (List.all_eq_true.mp hxy q hq)

theorem Certified.mono (h : ∀ a b, eq a b = true → eq' a b = true) (hp : Certified eq p) :
    Certified eq' p where
  idempotency := List.all_eq_true.mpr fun e he =>
    vectorEqual_mono h (List.all_eq_true.mp hp.idempotency e he)
  orthogonality := by
    have hold := hp.orthogonality
    unfold verifyOrthogonality vectorIsZero at hold ⊢
    simp only [List.all_eq_true, Bool.or_eq_true] at hold ⊢
    exact fun a ha b hb => (hold a ha b hb).imp_right fun hzero x hx => h _ _ (hzero x hx)
  identity := by
    have hold := hp.identity
    obtain ⟨elements⟩ := p
    cases elements with
    | nil => cases hold
    | cons e es => exact vectorEqual_mono h hold

/-- What passes the checks exactly passes them in the code. -/
theorem Certified.close (hp : Certified exactEq p) : Certified close p := by
  apply hp.mono
  intro a b hab
  rw [of_decide_eq_true hab, Jordan.close, floatEq, sub_self, abs_zero]
  norm_num

end Rounding

end PrimitiveIdempotents
end HyperKitty.Jordan
