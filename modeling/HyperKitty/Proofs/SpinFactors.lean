import HyperKitty.Lib.Scan
import HyperKitty.Lib.Spin
import HyperKitty.Jordan.SpinFactor

namespace HyperKitty.Jordan

open Exec

namespace SpinFactor

variable {K : Type*} [CommRing K] {n : Nat} {x y : SpinFactor K}

theorem dot_isSymm (K : Type*) [CommRing K] (n : Nat) :
    LinearMap.BilinForm.IsSymm (dotProductBilin K K : LinearMap.BilinForm K (Fin n → K)) :=
  ⟨fun v w => dotProduct_comm v w⟩

/-- The element for a scalar and a vector. -/
def ofPair (p : K × (Fin n → K)) : SpinFactor K := ⟨p.1, List.ofFn p.2⟩

theorem identity_eq (n : Nat) :
    (identity n : SpinFactor K) = ofPair ((1, 0) : K × (Fin n → K)) := by
  unfold identity ofPair
  congr 1
  exact (List.ofFn_const n 0).symm

/-- The code's product is that of the spin factor of the dot product. -/
theorem product_ofPair (p q : K × (Fin n → K)) :
    (ofPair p).product (ofPair q) = .ok (ofPair (Spin.mul (dotProductBilin K K) p q)) := by
  have hl : ¬ (ofPair p).v.length ≠ (ofPair q).v.length := by simp [ofPair]
  rw [product, if_neg hl]
  simp only [ofPair, Scan.zip_ofFn, List.map_ofFn, List.sum_ofFn]
  rfl

theorem power_ofPair (p : K × (Fin n → K)) (k : Nat) :
    (ofPair p).power k = .ok (ofPair (Spin.power (dotProductBilin K K) p k)) := by
  induction k with
  | zero =>
    have hd : (ofPair p).dim = n := List.length_ofFn
    rw [power, hd, identity_eq]
    rfl
  | succ k ih =>
    rw [power, ih, ok_bind, product_ofPair]
    rfl

omit [CommRing K] in
theorem exists_ofPair (x : SpinFactor K) : ∃ p : K × (Fin x.dim → K), ofPair p = x :=
  ⟨(x.alpha, x.v.get), congrArg (mk x.alpha) (List.ofFn_get x.v)⟩

/-- The laws of a Jordan algebra with associating powers. -/
structure JordanLaws (x y : SpinFactor K) : Prop where
  commutes : ∃ r, x.product y = .ok r ∧ y.product x = .ok r
  identity : (identity x.dim).product x = .ok x
  jordan : ∃ xy xx yxx r, x.product y = .ok xy ∧ x.product x = .ok xx ∧ y.product xx = .ok yxx ∧
    xy.product xx = .ok r ∧ x.product yxx = .ok r
  power_one : x.power 1 = .ok x
  power_succ : ∀ k, 1 ≤ k → ∃ xk r, x.power k = .ok xk ∧ x.product xk = .ok r ∧
    x.power (k + 1) = .ok r
  powers : ∀ p q, 1 ≤ p → 1 ≤ q → ∃ xp xq r, x.power p = .ok xp ∧ x.power q = .ok xq ∧
    xp.product xq = .ok r ∧ x.power (p + q) = .ok r

theorem jordanLaws_ofPair (p q : K × (Fin n → K)) : JordanLaws (ofPair p) (ofPair q) where
  commutes := by
    refine ⟨_, product_ofPair p q, ?_⟩
    rw [product_ofPair, Spin.commutes (dot_isSymm K n)]
  identity := by
    have hd : (ofPair p).dim = n := List.length_ofFn
    rw [hd, identity_eq, product_ofPair, Spin.one_left]
  jordan := by
    refine ⟨_, _, _, _, product_ofPair p q, product_ofPair p p, product_ofPair q _,
      product_ofPair _ _, ?_⟩
    rw [product_ofPair, Spin.jordan (dot_isSymm K n)]
  power_one := by rw [power_ofPair, Spin.power_one]
  power_succ k _ := ⟨_, _, power_ofPair p k, product_ofPair p _, power_ofPair p (k + 1)⟩
  powers i j _ _ := by
    refine ⟨_, _, _, power_ofPair p i, power_ofPair p j, product_ofPair _ _, ?_⟩
    rw [power_ofPair, Spin.power_mul_power]

/-- Elements of one dimension satisfy the laws, and no product of them panics. -/
theorem product_jordan (x y : SpinFactor K) (h : x.dim = y.dim) : JordanLaws x y := by
  obtain ⟨p, hp⟩ := exists_ofPair x
  obtain ⟨q, hq⟩ := exists_ofPair y
  rw [← hp, ← hq]
  clear hp hq
  generalize x.dim = m at p h
  subst h
  exact jordanLaws_ofPair p q

/-- Two elements whose products do not associate. -/
theorem product_jordan_plane :
    JordanLaws (⟨1, [1, 0]⟩ : SpinFactor ℚ) ⟨0, [0, 1]⟩ :=
  product_jordan _ _ rfl

end SpinFactor
end HyperKitty.Jordan
