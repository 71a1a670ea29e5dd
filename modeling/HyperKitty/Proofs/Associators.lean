import HyperKitty.Jordan.Associativity
import HyperKitty.Proofs.SpinFactors

namespace HyperKitty.Jordan.SpinFactor

open Exec

variable {K : Type} {n : Nat}

theorem exists_pair {x : SpinFactor K} (h : x.dim = n) :
    ∃ p : K × (Fin n → K), ofPair p = x := by
  subst h
  exact exists_ofPair x

section Remainder

variable [CommRing K]

/-- What three vectors leave over where they do not associate. -/
def remainder (u v w : Fin n → K) (i : Fin n) : K := (u ⬝ᵥ v) * w i - (v ⬝ᵥ w) * u i

theorem remainder_of_le_one (hn : n ≤ 1) (u v w : Fin n → K) (i : Fin n) :
    remainder u v w i = 0 := by
  have hpos := i.pos
  obtain rfl : n = 1 := by omega
  rw [remainder, dotProduct, dotProduct, Fin.sum_univ_one, Fin.sum_univ_one, Fin.fin_one_eq_zero i]
  ring

/-- One direction twice, and then another. -/
theorem remainder_directions {i j : Fin n} (hij : i ≠ j) :
    remainder (Pi.single i (1 : K)) (Pi.single i 1) (Pi.single j 1) j = 1 := by
  simp [remainder, hij.symm]

end Remainder

variable [Field K] [LinearOrder K]

theorem close_iff {a b : K} : close a b = true ↔ |a - b| < 1e-10 := decide_eq_true_iff

theorem near_ofPair (p q : K × (Fin n → K)) : near (ofPair p) (ofPair q) = true ↔
    |(p - q).1| < 1e-10 ∧ ∀ i, |(p - q).2 i| < 1e-10 := by
  rw [near, Bool.and_eq_true, close_iff]
  refine and_congr Iff.rfl ?_
  simp only [ofPair, Scan.zip_ofFn, List.all_eq_true, List.forall_mem_ofFn_iff, close_iff]
  exact Iff.rfl

/-- Every two elements of the dimension pass the check of commutativity. -/
def Commutative (K : Type) [Field K] [LinearOrder K] (n : Nat) : Prop :=
  ∀ x y : SpinFactor K, x.dim = n → y.dim = n → x.isCommutativeWith y = .ok true

/-- Every three elements of the dimension pass the check of associativity. -/
def Associative (K : Type) [Field K] [LinearOrder K] (n : Nat) : Prop :=
  ∀ x y z : SpinFactor K, x.dim = n → y.dim = n → z.dim = n →
    x.isAssociativeTriple y z = .ok true

/-- What the check for idempotent elements comes to. -/
theorem isIdempotent_ofPair (p : K × (Fin n → K)) : (ofPair p).isIdempotent =
    .ok (decide (|p.1 * p.1 + p.2 ⬝ᵥ p.2 - p.1| < 1e-10 ∧
      ∀ i, |(2 * p.1 - 1) * p.2 i| < 1e-10)) := by
  have hnear : near (ofPair (Spin.mul (dotProductBilin K K) p p)) (ofPair p) =
      decide (|p.1 * p.1 + p.2 ⬝ᵥ p.2 - p.1| < 1e-10 ∧
        ∀ i, |(2 * p.1 - 1) * p.2 i| < 1e-10) := by
    have hentry : ∀ i, (Spin.mul (dotProductBilin K K) p p - p).2 i = (2 * p.1 - 1) * p.2 i := by
      intro i
      simp only [Spin.mul, Prod.snd_sub, Pi.sub_apply, Pi.add_apply, Pi.smul_apply, smul_eq_mul]
      ring
    rw [Bool.eq_iff_iff, near_ofPair, decide_eq_true_eq]
    refine and_congr Iff.rfl (forall_congr' fun i => ?_)
    rw [hentry]
  simp only [isIdempotent, product_ofPair, ok_bind, hnear]
  rfl

variable [IsStrictOrderedRing K]

theorem abs_zero_lt : |(0 : K)| < 1e-10 := by norm_num

theorem isCommutativeWith_ofPair (p q : K × (Fin n → K)) :
    (ofPair p).isCommutativeWith (ofPair q) = .ok true := by
  have hsame : Spin.mul (dotProductBilin K K) q p = Spin.mul (dotProductBilin K K) p q :=
    Spin.commutes (dot_isSymm K n) q p
  have hnear : near (ofPair (Spin.mul (dotProductBilin K K) p q))
      (ofPair (Spin.mul (dotProductBilin K K) p q)) = true := by
    rw [near_ofPair, sub_self]
    exact ⟨abs_zero_lt, fun _ => abs_zero_lt⟩
  simp only [isCommutativeWith, product_ofPair, ok_bind, hsame, hnear]
  rfl

/-- The check looks at the vectors alone. -/
theorem isAssociativeTriple_ofPair (p q r : K × (Fin n → K)) :
    (ofPair p).isAssociativeTriple (ofPair q) (ofPair r) =
      .ok (decide (∀ i, |remainder p.2 q.2 r.2 i| < 1e-10)) := by
  have hnear : near (ofPair (Spin.mul (dotProductBilin K K) (Spin.mul (dotProductBilin K K) p q) r))
      (ofPair (Spin.mul (dotProductBilin K K) p (Spin.mul (dotProductBilin K K) q r))) =
        decide (∀ i, |remainder p.2 q.2 r.2 i| < 1e-10) := by
    rw [Bool.eq_iff_iff, near_ofPair, Spin.associator, decide_eq_true_eq]
    exact and_iff_right abs_zero_lt
  simp only [isAssociativeTriple, product_ofPair, ok_bind, hnear]
  rfl

/-- The product commutes in every dimension. It does not associate in any with two directions,
and the distance that the checks allow for makes no difference to that: a triple passes where no
entry of what its vectors leave over is as large as that. -/
theorem associative_iff (K : Type) [Field K] [LinearOrder K] [IsStrictOrderedRing K] (n : Nat) :
    Commutative K n ∧ (Associative K n ↔ n ≤ 1) ∧
      ∀ p q r : K × (Fin n → K), (ofPair p).isAssociativeTriple (ofPair q) (ofPair r) =
        .ok (decide (∀ i, |(p.2 ⬝ᵥ q.2) * r.2 i - (q.2 ⬝ᵥ r.2) * p.2 i| < 1e-10)) := by
  refine ⟨fun x y hx hy => ?_, ⟨fun h => ?_, fun hn x y z hx hy hz => ?_⟩,
    isAssociativeTriple_ofPair⟩
  · obtain ⟨p, rfl⟩ := exists_pair hx
    obtain ⟨q, rfl⟩ := exists_pair hy
    exact isCommutativeWith_ofPair p q
  · by_contra hn
    have hij : (⟨0, by omega⟩ : Fin n) ≠ ⟨1, by omega⟩ := by simp
    generalize (⟨0, by omega⟩ : Fin n) = i, (⟨1, by omega⟩ : Fin n) = j at hij
    have hlen : ∀ p : K × (Fin n → K), (ofPair p).dim = n := fun p => List.length_ofFn
    have hpass := h (ofPair (0, Pi.single i 1)) (ofPair (0, Pi.single i 1))
      (ofPair (0, Pi.single j 1)) (hlen _) (hlen _) (hlen _)
    rw [isAssociativeTriple_ofPair, Except.ok.injEq, decide_eq_true_eq] at hpass
    have hsmall := hpass j
    rw [remainder_directions hij] at hsmall
    norm_num at hsmall
  · obtain ⟨p, rfl⟩ := exists_pair hx
    obtain ⟨q, rfl⟩ := exists_pair hy
    obtain ⟨r, rfl⟩ := exists_pair hz
    rw [isAssociativeTriple_ofPair, Except.ok.injEq, decide_eq_true_eq]
    intro i
    rw [remainder_of_le_one hn]
    exact abs_zero_lt

theorem associative_iff_plane : Commutative ℚ 2 ∧ (Associative ℚ 2 ↔ 2 ≤ 1) :=
  ⟨(associative_iff ℚ 2).1, (associative_iff ℚ 2).2.1⟩

end HyperKitty.Jordan.SpinFactor
