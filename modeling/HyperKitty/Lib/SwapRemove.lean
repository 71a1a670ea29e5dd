import Mathlib

namespace SwapRemove

variable {α : Type*}

/-- The last element takes place `i`, and the array gets shorter. -/
def swapRemove (xs : List α) (i : Nat) : List α :=
  match xs.getLast? with
  | none => xs
  | some last => (xs.set i last).dropLast

variable {p : α → Bool} {x y : α} {xs front back : List α} {i : Nat}

/-- Every other element stays, in whatever order. -/
theorem swapRemove_perm : (swapRemove (front ++ x :: back) front.length).Perm (front ++ back) := by
  rcases List.eq_nil_or_concat back with rfl | ⟨mid, last, rfl⟩
  · simp [swapRemove]
  · have hlast : (front ++ x :: mid.concat last).getLast? = some last := by
      rw [List.concat_eq_append, ← List.cons_append, ← List.append_assoc, List.getLast?_concat]
    have hset : (front ++ x :: mid.concat last).set front.length last =
        (front ++ last :: mid) ++ [last] := by
      simp
    rw [swapRemove, hlast]
    simp only [hset, List.dropLast_concat]
    apply List.Perm.append_left front
    rw [List.concat_eq_append]
    exact (List.perm_append_singleton last mid).symm

theorem mem_around (h : y ∈ front ++ back) : y ∈ front ++ x :: back := by
  have hsub : (front ++ back).Sublist (front ++ x :: back) :=
    (List.sublist_cons_self x back).append_left front
  exact hsub.subset h

/-- The element that is found, with those before it and behind it. -/
theorem findIdx?_some (h : xs.findIdx? p = some i) :
    ∃ front x back, xs = front ++ x :: back ∧ front.length = i ∧ p x = true := by
  obtain ⟨hi, hp, -⟩ := List.findIdx?_eq_some_iff_getElem.mp h
  refine ⟨xs.take i, xs[i], xs.drop (i + 1), ?_, List.length_take_of_le hi.le, hp⟩
  rw [List.getElem_cons_drop, List.take_append_drop]

end SwapRemove
