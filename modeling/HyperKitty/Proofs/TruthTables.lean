import HyperKitty.Lib.Binary
import HyperKitty.Nand.Boolean

namespace HyperKitty.Nand

open Exec Isomorphism

variable {b : Build} {t : Target} {n : Nat} {x y : BoolExpr}

/-- The value of an expression where its variables are bound. -/
def BoolExpr.value (bindings : List Bool) : BoolExpr → Bool
  | .var idx => bindings.getD idx false
  | .const val => val
  | .nand a b => Nand.nand (a.value bindings) (b.value bindings)

theorem eval_eq (hx : x.Below n) {bindings : List Bool} (hl : bindings.length = n) :
    eval bindings x = .ok (x.value bindings) := by
  induction x with
  | var idx =>
    have hi : idx < bindings.length := hl ▸ hx
    rw [eval, BoolExpr.value, List.getD_eq_getElem?_getD, List.getElem?_eq_getElem hi]
    rfl
  | const val => rfl
  | nand a b iha ihb =>
    rw [eval, iha hx.1, ihb hx.2]
    rfl

theorem lowerToNand_eq (x : BoolExpr) : lowerToNand x = x := by
  induction x with
  | var idx => rfl
  | const val => rfl
  | nand a b iha ihb => rw [lowerToNand, iha, ihb]

theorem shiftDistance_eq (h : n < t.width) : shiftDistance b t n = .ok n := by
  cases b with
  | debug => exact if_pos h
  | release => exact congrArg Except.ok (Nat.mod_eq_of_lt h)

/-- The bindings of a row are its digits in binary. -/
theorem bindings_eq (h : n < t.width) (row : Nat) :
    (List.range n).mapM (binding b t n row) = .ok (Binary.digits n row) := by
  apply mapM_ok
  intro i _
  rw [binding, shiftDistance_eq (by omega), ok_bind, Nat.and_one_is_mod]
  rfl

/-- The rows of the table of an expression whose variables are below `n`. -/
def rows (x : BoolExpr) (n : Nat) : List (List Bool × Bool) :=
  (List.range (2 ^ n)).map fun row => (Binary.digits n row, x.value (Binary.digits n row))

/-- Whether a `Vec` of the rows for `n` variables is within `isize::MAX` bytes. -/
def Fits (t : Target) (n : Nat) : Prop := 2 ^ n * rowBytes t ≤ isizeMax t

theorem truthTable_of_fits (hw : n < t.width) (hf : Fits t n) (hx : x.Below n) :
    truthTable b t x n = .ok (rows x n) := by
  rw [truthTable, shiftDistance_eq hw, ok_bind, Nat.one_shiftLeft]
  have hc : withCapacity t (2 ^ n) = .ok () := if_pos hf
  dsimp only
  rw [hc, ok_bind]
  apply mapM_ok
  intro row _
  rw [bindings_eq hw, ok_bind, eval_eq hx (Binary.length_digits n row)]
  rfl

theorem truthTable_of_not_fits (hw : n < t.width) (hf : ¬ Fits t n) (x : BoolExpr) :
    truthTable b t x n = .error .panic := by
  rw [truthTable, shiftDistance_eq hw, ok_bind, Nat.one_shiftLeft]
  have hc : withCapacity t (2 ^ n) = .error .panic := if_neg hf
  dsimp only
  rw [hc]
  rfl

/-- A table lists each assignment of `n` variables once, in increasing order and with the value
of the expression beside it. -/
structure IsTruthTable (x : BoolExpr) (n : Nat) (table : List (List Bool × Bool)) : Prop where
  length : table.length = 2 ^ n
  widths : ∀ row ∈ table, row.1.length = n
  ascending : table.map (fun row => Binary.value row.1) = List.range (2 ^ n)
  once : ∀ s : List Bool, s.length = n → (table.map Prod.fst).count s = 1
  values : ∀ row ∈ table, eval row.1 x = .ok row.2

theorem rows_isTruthTable (hx : x.Below n) : IsTruthTable x n (rows x n) where
  length := by simp [rows]
  widths := by simp [rows]
  ascending := by
    rw [rows, List.map_map]
    conv_rhs => rw [← List.map_id (List.range (2 ^ n))]
    apply List.map_congr_left
    intro row hrow
    exact Binary.value_digits (List.mem_range.mp hrow)
  once := by
    intro s hs
    rw [rows, List.map_map]
    exact Binary.count_digits hs
  values := by
    intro row hrow
    obtain ⟨i, _, rfl⟩ := List.mem_map.mp hrow
    exact eval_eq hx (Binary.length_digits n i)

/-- Zipping two tables of one width drops no row. -/
theorem zip_rows (x y : BoolExpr) (n : Nat) :
    (rows x n).zip (rows y n) = (List.range (2 ^ n)).map fun row =>
      ((Binary.digits n row, x.value (Binary.digits n row)),
        (Binary.digits n row, y.value (Binary.digits n row))) := by
  rw [rows, rows, List.zip_map']

theorem functionallyEquivalent_of_fits (hw : n < t.width) (hf : Fits t n) (hx : x.Below n)
    (hy : y.Below n) :
    ∃ r, functionallyEquivalent b t x y n = .ok r ∧
      (r = true ↔ ∀ s : List Bool, s.length = n → eval s x = eval s y) := by
  refine ⟨_, by rw [functionallyEquivalent, truthTable_of_fits hw hf hx, ok_bind,
    truthTable_of_fits hw hf hy, ok_bind, pure_eq], ?_⟩
  rw [zip_rows, List.all_map, List.all_eq_true]
  constructor
  · intro h s hs
    have hs' := h (Binary.value s) (List.mem_range.mpr (hs ▸ Binary.value_lt s))
    have hd : Binary.digits n (Binary.value s) = s := hs ▸ Binary.digits_value s
    rw [eval_eq hx hs, eval_eq hy hs]
    simpa [hd] using hs'
  · intro h row _
    have hv := h _ (Binary.length_digits n row)
    rw [eval_eq hx (Binary.length_digits n row), eval_eq hy (Binary.length_digits n row)] at hv
    simpa using hv

/-- Below the width a table is the whole truth table, or panics where the rows do not fit. -/
theorem truth_tables_decide (hw : n < t.width) (hx : x.Below n) (hy : y.Below n) :
    (Fits t n →
      (∃ table, truthTable b t x n = .ok table ∧ IsTruthTable x n table) ∧
      (∃ r, functionallyEquivalent b t x y n = .ok r ∧
        (r = true ↔ ∀ s : List Bool, s.length = n → eval s x = eval s y)) ∧
      functionallyEquivalent b t (lowerToNand x) x n = .ok true) ∧
    (¬ Fits t n → truthTable b t x n = .error .panic ∧
      functionallyEquivalent b t x y n = .error .panic) ∧
    ∀ s, eval s (lowerToNand x) = eval s x := by
  refine ⟨?_, ?_, fun s => by rw [lowerToNand_eq]⟩
  · intro hf
    refine ⟨⟨_, truthTable_of_fits hw hf hx, rows_isTruthTable hx⟩,
      functionallyEquivalent_of_fits hw hf hx hy, ?_⟩
    obtain ⟨r, hr, hiff⟩ := functionallyEquivalent_of_fits (b := b) hw hf hx hx
    rw [lowerToNand_eq, hr, hiff.mpr fun _ _ => rfl]
  · intro hf
    refine ⟨truthTable_of_not_fits hw hf x, ?_⟩
    rw [functionallyEquivalent, truthTable_of_not_fits hw hf]
    rfl

theorem nand_table : (∃ table, truthTable .debug .bits64 (.nand (.var 0) (.var 1)) 2 = .ok table ∧
      IsTruthTable (.nand (.var 0) (.var 1)) 2 table) ∧
    ∃ r, functionallyEquivalent .debug .bits64 (.nand (.var 0) (.var 1)) (.const true) 2 = .ok r ∧
      (r = true ↔ ∀ s : List Bool, s.length = 2 →
        eval s (.nand (.var 0) (.var 1)) = eval s (.const true)) := by
  have h := truth_tables_decide (b := .debug) (t := .bits64) (n := 2) (x := .nand (.var 0) (.var 1))
    (y := .const true) (by decide) ⟨Nat.two_pos, Nat.one_lt_two⟩ trivial
  have hf := h.1 (by unfold Fits; decide)
  exact ⟨hf.1, hf.2.1⟩

/-- The rows for 60 variables overflow the capacity of a `Vec`. -/
theorem no_table_of_sixty : ¬ ∀ (b : Build) (t : Target) (n : Nat), n < t.width →
    ∀ x : BoolExpr, x.Below n → ∃ table, truthTable b t x n = .ok table ∧ table.length = 2 ^ n := by
  intro h
  obtain ⟨table, ht, _⟩ := h .debug .bits64 60 (by decide) (.const true) trivial
  have hf : ¬ Fits .bits64 60 := by
    unfold Fits
    decide
  rw [truthTable_of_not_fits (by decide) hf] at ht
  cases ht

end HyperKitty.Nand
