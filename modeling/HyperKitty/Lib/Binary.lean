import Mathlib

namespace Binary

/-- The `n` lowest digits of a number. -/
def digits (n row : Nat) : List Bool :=
  (List.range n).map fun i => (row >>> (n - 1 - i)) % 2 == 1

/-- The number that digits denote. -/
def value (ds : List Bool) : Nat := ds.foldl (fun x d => 2 * x + d.toNat) 0

@[simp] theorem length_digits (n row : Nat) : (digits n row).length = n := by simp [digits]

theorem digits_succ (n row : Nat) : digits (n + 1) row = digits n (row / 2) ++ [row % 2 == 1] := by
  unfold digits
  rw [List.range_succ, List.map_append, List.map_singleton]
  congr 1
  · apply List.map_congr_left
    intro i hi
    have hlt := List.mem_range.mp hi
    have he : n + 1 - 1 - i = (n - 1 - i) + 1 := by omega
    rw [he, Nat.shiftRight_succ_inside]
  · simp

theorem value_concat (ds : List Bool) (d : Bool) : value (ds ++ [d]) = 2 * value ds + d.toNat := by
  unfold value
  rw [List.foldl_append]
  rfl

theorem value_lt (ds : List Bool) : value ds < 2 ^ ds.length := by
  induction ds using List.reverseRecOn with
  | nil => exact Nat.one_pos
  | append_singleton ds d ih =>
    rw [value_concat, List.length_append, List.length_singleton, pow_succ]
    have hd := Bool.toNat_le d
    omega

theorem value_digits {n row : Nat} (h : row < 2 ^ n) : value (digits n row) = row := by
  induction n generalizing row with
  | zero =>
    rw [pow_zero] at h
    have h0 : row = 0 := by omega
    subst h0
    rfl
  | succ n ih =>
    rw [pow_succ] at h
    rw [digits_succ, value_concat, ih (by omega)]
    rcases Nat.mod_two_eq_zero_or_one row with hm | hm
    · rw [hm]
      simp
      omega
    · rw [hm]
      simp
      omega

theorem digits_value (ds : List Bool) : digits ds.length (value ds) = ds := by
  induction ds using List.reverseRecOn with
  | nil => rfl
  | append_singleton ds d ih =>
    rw [List.length_append, List.length_singleton, digits_succ, value_concat]
    have hhalf : (2 * value ds + d.toNat) / 2 = value ds := by
      have hd := Bool.toNat_le d
      have hne : d.toNat < 2 := by omega
      omega
    have hlow : ((2 * value ds + d.toNat) % 2 == 1) = d := by
      cases d
      · simp
      · simp [Nat.add_mod]
    rw [hhalf, hlow, ih]

/-- Every list of `n` digits stands once among those of the numbers below `2 ^ n`. -/
theorem count_digits {ds : List Bool} {n : Nat} (h : ds.length = n) :
    ((List.range (2 ^ n)).map (digits n)).count ds = 1 := by
  subst h
  have hnodup : ((List.range (2 ^ ds.length)).map (digits ds.length)).Nodup := by
    apply List.Nodup.map_on _ List.nodup_range
    intro x hx y hy he
    have hv := congrArg value he
    rwa [value_digits (List.mem_range.mp hx), value_digits (List.mem_range.mp hy)] at hv
  apply List.count_eq_one_of_mem hnodup
  rw [List.mem_map]
  exact ⟨value ds, List.mem_range.mpr (value_lt ds), digits_value ds⟩

end Binary
