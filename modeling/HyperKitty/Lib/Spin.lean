import Mathlib

namespace Spin

variable {R M : Type*} [CommRing R] [AddCommGroup M] [Module R M]
variable (B : LinearMap.BilinForm R M)

/-- The product of two elements, each a scalar with a vector. -/
def mul (x y : R × M) : R × M := (x.1 * y.1 + B x.2 y.2, x.1 • y.2 + y.1 • x.2)

/-- The powers of an element, multiplied up from the right. -/
def power (x : R × M) : Nat → R × M
  | 0 => (1, 0)
  | k + 1 => mul B x (power x k)

variable {B}

theorem one_left (x : R × M) : mul B (1, 0) x = x := by simp [mul]

theorem one_right (x : R × M) : mul B x (1, 0) = x := by simp [mul]

theorem power_one (x : R × M) : power B x 1 = x := one_right x

/-- By how much three elements do not associate. Their scalars do not matter. -/
theorem associator (x y z : R × M) : mul B (mul B x y) z - mul B x (mul B y z) =
    (0, B x.2 y.2 • z.2 - B y.2 z.2 • x.2) := by
  ext
  · simp only [mul, Prod.fst_sub, map_add, map_smul, LinearMap.add_apply, LinearMap.smul_apply,
      smul_eq_mul]
    ring
  · simp only [mul, Prod.snd_sub]
    module

section Symmetric

variable (hB : B.IsSymm)
include hB

theorem commutes (x y : R × M) : mul B x y = mul B y x := by
  unfold mul
  rw [hB.eq y.2 x.2, mul_comm y.1, add_comm (x.1 • y.2)]

/-- The Jordan identity: a product with the square of a factor may be rearranged. -/
theorem jordan (x y : R × M) :
    mul B (mul B x y) (mul B x x) = mul B x (mul B y (mul B x x)) := by
  have hs : B y.2 x.2 = B x.2 y.2 := hB.eq y.2 x.2
  ext
  · simp only [mul, map_add, map_smul, LinearMap.add_apply, LinearMap.smul_apply, smul_eq_mul, hs]
    ring
  · simp only [mul, map_add, map_smul, LinearMap.add_apply, LinearMap.smul_apply, smul_eq_mul, hs]
    module

end Symmetric

section Powers

variable (B)

/-- The elements whose vector is a multiple of one vector are a commutative ring: a root of the
square of that vector joined to the scalars. -/
def embed (v : M) (z : QuadraticAlgebra R (B v v) 0) : R × M := (z.re, z.im • v)

theorem embed_mul (v : M) (z w : QuadraticAlgebra R (B v v) 0) :
    embed B v (z * w) = mul B (embed B v z) (embed B v w) := by
  ext
  · simp only [embed, mul, QuadraticAlgebra.re_mul, map_smul, LinearMap.smul_apply, smul_eq_mul]
    ring
  · simp only [embed, mul, QuadraticAlgebra.im_mul]
    module

theorem power_eq_embed (x : R × M) (k : Nat) :
    power B x k = embed B x.2 ((⟨x.1, 1⟩ : QuadraticAlgebra R (B x.2 x.2) 0) ^ k) := by
  induction k with
  | zero => rw [power, pow_zero, embed, QuadraticAlgebra.re_one, QuadraticAlgebra.im_one, zero_smul]
  | succ k ih =>
    have hx : embed B x.2 ⟨x.1, 1⟩ = x := by simp [embed]
    rw [power, ih, pow_succ', embed_mul, hx]

/-- Powers associate. -/
theorem power_mul_power (x : R × M) (p q : Nat) :
    mul B (power B x p) (power B x q) = power B x (p + q) := by
  rw [power_eq_embed, power_eq_embed, power_eq_embed, ← embed_mul, pow_add]

end Powers

end Spin
