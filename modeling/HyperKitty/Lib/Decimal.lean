import Mathlib

namespace Decimal

def IsDigit (c : Char) : Prop := 48 ≤ c.toNat ∧ c.toNat ≤ 57

/-- The number that a text of digits denotes. -/
def value (ds : List Char) : Nat := ds.foldl (fun n d => 10 * n + (d.toNat - 48)) 0

/-- How often a digit other than `0` occurs in the number. -/
def occurrences (c : Char) (n : Nat) : Nat :=
  if 48 < c.toNat ∧ c.toNat ≤ 57 then (Nat.digits 10 n).count (c.toNat - 48) else 0

theorem value_concat (ds : List Char) (d : Char) :
    value (ds ++ [d]) = 10 * value ds + (d.toNat - 48) := by
  unfold value
  rw [List.foldl_append]
  rfl

theorem digits_step {v x : Nat} (hx : x < 10) {y : Nat} (hy : 0 < y) :
    (Nat.digits 10 (10 * v + x)).count y = (Nat.digits 10 v).count y + if x = y then 1 else 0 := by
  rcases Nat.eq_zero_or_pos (10 * v + x) with h0 | hpos
  · have hv : v = 0 := by omega
    have hx0 : x = 0 := by omega
    subst hv hx0
    simp [hy.ne]
  · have hmod : (10 * v + x) % 10 = x := by omega
    have hdiv : (10 * v + x) / 10 = v := by omega
    rw [Nat.digits_def' (by norm_num) hpos, hmod, hdiv, List.count_cons]
    simp

/-- Leading zeros apart, the digits of a text are those of its number. -/
theorem count_eq_occurrences {ds : List Char} (hds : ∀ d ∈ ds, IsDigit d) {c : Char}
    (hc : c ≠ '0') : ds.count c = occurrences c (value ds) := by
  induction ds using List.reverseRecOn with
  | nil => simp [value, occurrences]
  | append_singleton ds d ih =>
    have hd : IsDigit d := hds d (by simp)
    have ih' := ih fun e he => hds e (by simp [he])
    unfold IsDigit at hd
    rw [List.count_append, ih', value_concat, List.count_singleton]
    unfold occurrences
    split
    · next hr =>
      rw [digits_step (by omega) (by omega)]
      congr 1
      have hiff : (d == c) = true ↔ d.toNat - 48 = c.toNat - 48 := by
        rw [beq_iff_eq, ← Char.toNat_inj]
        omega
      simp only [hiff]
    · next hr =>
      have hne : (d == c) = false := by
        rw [beq_eq_false_iff_ne]
        rintro rfl
        have h0 : d.toNat ≠ '0'.toNat := fun h => hc (Char.toNat_inj.mp h)
        have h48 : '0'.toNat = 48 := rfl
        omega
      simp [hne]

/-- A text of zeros denotes zero. -/
theorem exists_nonzero {ds : List Char} (h : 0 < value ds) : ∃ d ∈ ds, d ≠ '0' := by
  by_contra hno
  push Not at hno
  have hz : value ds = 0 := by
    induction ds using List.reverseRecOn with
    | nil => rfl
    | append_singleton ds d ih =>
      have hd : d = '0' := hno d (by simp)
      subst hd
      rw [value_concat]
      by_contra hne
      have hpos : 0 < value ds := by
        have h48 : '0'.toNat - 48 = 0 := rfl
        omega
      have hzero := ih hpos fun e he => hno e (by simp [he])
      omega
  omega

end Decimal
