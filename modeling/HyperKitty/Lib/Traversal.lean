import Mathlib

/-- The order in which the entries of a hash map are visited, which may be any. -/
structure Traversal (α : Type*) where
  order : List α → List α
  perm : ∀ xs, (order xs).Perm xs

namespace Traversal

variable {α : Type*}

def forward : Traversal α := ⟨id, fun _ => .refl _⟩

def backward : Traversal α := ⟨List.reverse, List.reverse_perm⟩

theorem eq_of_perm {xs ys : List α} (hp : ys.Perm xs) (h : xs.length ≤ 1) : ys = xs := by
  match xs, h with
  | [], _ => exact List.perm_nil.mp hp
  | [x], _ => exact List.perm_singleton.mp hp

theorem order_of_length_le (t : Traversal α) {xs : List α} (h : xs.length ≤ 1) :
    t.order xs = xs := eq_of_perm (t.perm xs) h

end Traversal
