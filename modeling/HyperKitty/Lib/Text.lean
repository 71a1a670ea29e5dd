import Mathlib

namespace Text

open String (utf8Len)

/-- The text from byte `n` on. There is none when `n` lies past the end of the
text or inside one of its characters. -/
def sliceFrom : List Char → Nat → Option (List Char)
  | cs, 0 => some cs
  | [], _ + 1 => none
  | c :: cs, n + 1 => if c.utf8Size ≤ n + 1 then sliceFrom cs (n + 1 - c.utf8Size) else none

theorem sliceFrom_zero (cs : List Char) : sliceFrom cs 0 = some cs := by
  cases cs <;> rfl

theorem sliceFrom_cons_add (c : Char) (cs : List Char) (n : Nat) :
    sliceFrom (c :: cs) (c.utf8Size + n) = sliceFrom cs n := by
  have hc := c.utf8Size_pos
  obtain ⟨k, hk⟩ : ∃ k, c.utf8Size + n = k + 1 := ⟨c.utf8Size + n - 1, by omega⟩
  rw [hk, sliceFrom, if_pos (by omega), ← hk, Nat.add_sub_cancel_left]

/-- Slicing where a prefix ends leaves what follows the prefix. -/
theorem sliceFrom_append_add (pre rest : List Char) (n : Nat) :
    sliceFrom (pre ++ rest) (utf8Len pre + n) = sliceFrom rest n := by
  induction pre generalizing n with
  | nil => simp
  | cons c pre ih =>
    rw [List.cons_append, String.utf8Len_cons, Nat.add_right_comm, Nat.add_comm _ c.utf8Size,
      sliceFrom_cons_add, ih]

theorem sliceFrom_append (pre rest : List Char) :
    sliceFrom (pre ++ rest) (utf8Len pre) = some rest := by
  simpa [sliceFrom_zero] using sliceFrom_append_add pre rest 0

/-- Collecting one more character moves it from the text to what is collected. -/
theorem push_append_ofList (acc : String) (c : Char) (cs : List Char) :
    acc.push c ++ String.ofList cs = acc ++ String.ofList (c :: cs) :=
  String.toList_inj.mp (by simp)

section Munch

variable {α : Type*} {p : α → Bool}

/-- The longest run of `p` stops where the first element without `p` stands. -/
theorem takeWhile_append_stop {xs ys : List α} (hx : ∀ x ∈ xs, p x = true)
    (hy : ∀ y ∈ ys.head?, p y = false) : (xs ++ ys).takeWhile p = xs := by
  rw [List.takeWhile_append_of_pos hx]
  cases ys with
  | nil => simp
  | cons y ys => simp [hy y (by simp)]

theorem dropWhile_append_stop {xs ys : List α} (hx : ∀ x ∈ xs, p x = true)
    (hy : ∀ y ∈ ys.head?, p y = false) : (xs ++ ys).dropWhile p = ys := by
  rw [List.dropWhile_append_of_pos hx]
  cases ys with
  | nil => simp
  | cons y ys => simp [hy y (by simp)]

theorem head?_dropWhile_not {xs : List α} : ∀ x ∈ (xs.dropWhile p).head?, p x = false := by
  intro x hx
  have h := List.head?_dropWhile_not p xs
  rw [Option.mem_def.mp hx] at h
  simpa using h

end Munch

end Text
