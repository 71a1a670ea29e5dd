import Mathlib

namespace Strides

variable {f : Nat → Nat}

/-- The scanner comes to a position when it starts at zero. -/
def Lands (f : Nat → Nat) (p : Nat) : Prop := ∃ k, f^[k] 0 = p

theorem lands_zero : Lands f 0 := ⟨0, rfl⟩

theorem Lands.next {p : Nat} (h : Lands f p) : Lands f (f p) := by
  obtain ⟨k, rfl⟩ := h
  exact ⟨k + 1, Function.iterate_succ_apply' f k 0⟩

/-- The rule for what holds of all positions that the scanner comes to. -/
theorem Lands.rule {P : Nat → Prop} (h0 : P 0) (hstep : ∀ p, Lands f p → P p → P (f p))
    {p : Nat} (h : Lands f p) : P p := by
  obtain ⟨k, rfl⟩ := h
  induction k with
  | zero => exact h0
  | succ k ih =>
    rw [Function.iterate_succ_apply']
    exact hstep _ ⟨k, rfl⟩ ih

section Advancing

variable (hadv : ∀ p, p < f p)
include hadv

theorem strictMono_iterate : StrictMono fun k => f^[k] 0 := by
  apply strictMono_nat_of_lt_succ
  intro k
  rw [Function.iterate_succ_apply']
  exact hadv _

/-- Every position lies in the stride that begins at or before it. -/
theorem exists_stride (p : Nat) : ∃ i, Lands f i ∧ i ≤ p ∧ p < f i := by
  induction p with
  | zero => exact ⟨0, lands_zero, le_rfl, hadv 0⟩
  | succ p ih =>
    obtain ⟨i, hi, hle, hlt⟩ := ih
    rcases (Nat.succ_le_of_lt hlt).lt_or_eq with h | h
    · exact ⟨i, hi, by omega, h⟩
    · exact ⟨f i, hi.next, h.ge, h ▸ hadv _⟩

/-- The scanner comes to no position inside of a stride. -/
theorem Lands.eq_or_ge {i p : Nat} (hi : Lands f i) (hp : Lands f p) (hle : i ≤ p) :
    p = i ∨ f i ≤ p := by
  obtain ⟨k, rfl⟩ := hi
  obtain ⟨l, rfl⟩ := hp
  have hmono := strictMono_iterate hadv
  rcases (hmono.le_iff_le.mp hle).lt_or_eq with h | h
  · right
    rw [← Function.iterate_succ_apply' f]
    exact hmono.monotone h
  · exact .inl (h ▸ rfl)

end Advancing

end Strides
