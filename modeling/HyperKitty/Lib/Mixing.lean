import Mathlib

namespace Mixing

open Function

variable {σ β : Type*} {step : σ → β → σ}

theorem foldl_injective (h : ∀ b, Injective fun s => step s b) (l : List β) :
    Injective fun s => l.foldl step s := by
  induction l with
  | nil => exact injective_id
  | cons b l ih => exact ih.comp (h b)

/-- What two inputs have in common behind their difference neither makes nor mends a collision. -/
theorem foldl_eq_iff (h : ∀ b, Injective fun s => step s b) (s : σ) (u x y w : List β) :
    (u ++ x ++ w).foldl step s = (u ++ y ++ w).foldl step s ↔
      x.foldl step (u.foldl step s) = y.foldl step (u.foldl step s) := by
  rw [List.foldl_append, List.foldl_append, List.foldl_append, List.foldl_append]
  exact (foldl_injective h w).eq_iff

end Mixing
