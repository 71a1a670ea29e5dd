import HyperKitty.Lib.Sheffer
import HyperKitty.Nand.Primitive
import HyperKitty.Proofs.TruthTables

namespace HyperKitty.Nand

open Exec Isomorphism

/-- What the constructors of expressions are there for. -/
inductive Formula where
  | var (idx : Nat)
  | const (val : Bool)
  | nand (a b : Formula)
  | not (a : Formula)
  | and (a b : Formula)
  | or (a b : Formula)
  | xor (a b : Formula)
  | implies (a b : Formula)
  deriving DecidableEq, Repr

namespace Formula

/-- The truth value of a formula; a variable without a value has none. -/
def truth (bindings : List Bool) : Formula → Option Bool
  | .var idx => bindings[idx]?
  | .const val => some val
  | .nand a b => Option.map₂ (fun x y => !(x && y)) (a.truth bindings) (b.truth bindings)
  | .not a => (a.truth bindings).map (!·)
  | .and a b => Option.map₂ (· && ·) (a.truth bindings) (b.truth bindings)
  | .or a b => Option.map₂ (· || ·) (a.truth bindings) (b.truth bindings)
  | .xor a b => Option.map₂ (· ^^ ·) (a.truth bindings) (b.truth bindings)
  | .implies a b => Option.map₂ (fun x y => !x || y) (a.truth bindings) (b.truth bindings)

/-- The formula as an expression, one constructor after another. -/
def lower : Formula → BoolExpr
  | .var idx => .var idx
  | .const val => .const val
  | .nand a b => .nand a.lower b.lower
  | .not a => .fromNot a.lower
  | .and a b => .fromAnd a.lower b.lower
  | .or a b => .fromOr a.lower b.lower
  | .xor a b => .fromXor a.lower b.lower
  | .implies a b => .fromImplies a.lower b.lower

end Formula

variable {bindings : List Bool} {a b x : BoolExpr} {va vb : Option Bool} {n : Nat}

/-- The expression has the value, or panics where there is none. -/
def Yields (bindings : List Bool) (x : BoolExpr) (v : Option Bool) : Prop :=
  eval bindings x = v.elim (.error .panic) .ok

namespace Yields

theorem nand (ha : Yields bindings a va) (hb : Yields bindings b vb) :
    Yields bindings (.nand a b) (Option.map₂ Nand.nand va vb) := by
  unfold Yields at ha hb ⊢
  rw [eval, ha, hb]
  cases va with
  | none => rfl
  | some va => cases vb <;> rfl

theorem of_eq (h : Yields bindings x va) (he : va = vb) : Yields bindings x vb := he ▸ h

theorem fromNot (ha : Yields bindings a va) :
    Yields bindings (.fromNot a) (va.map Primitive.not) :=
  (ha.nand ha).of_eq (by cases va <;> rfl)

theorem fromAnd (ha : Yields bindings a va) (hb : Yields bindings b vb) :
    Yields bindings (.fromAnd a b) (Option.map₂ Primitive.and va vb) :=
  ((ha.nand hb).nand (ha.nand hb)).of_eq (by cases va <;> cases vb <;> rfl)

theorem fromOr (ha : Yields bindings a va) (hb : Yields bindings b vb) :
    Yields bindings (.fromOr a b) (Option.map₂ Primitive.or va vb) :=
  ((ha.nand ha).nand (hb.nand hb)).of_eq (by cases va <;> cases vb <;> rfl)

theorem fromXor (ha : Yields bindings a va) (hb : Yields bindings b vb) :
    Yields bindings (.fromXor a b) (Option.map₂ Primitive.xor va vb) :=
  (((ha.nand ha).nand hb).nand (ha.nand (hb.nand hb))).of_eq (by cases va <;> cases vb <;> rfl)

theorem fromImplies (ha : Yields bindings a va) (hb : Yields bindings b vb) :
    Yields bindings (.fromImplies a b) (Option.map₂ Primitive.implies va vb) :=
  (ha.nand (hb.nand hb)).of_eq (by cases va <;> cases vb <;> rfl)

end Yields

theorem yields_lower (f : Formula) (bindings : List Bool) :
    Yields bindings f.lower (f.truth bindings) := by
  induction f with
  | var idx =>
    rw [Yields, Formula.lower, eval, Formula.truth]
    cases bindings[idx]? <;> rfl
  | const val => rfl
  | nand a b iha ihb => exact iha.nand ihb
  | not a iha => exact iha.fromNot.of_eq (by rw [Primitive.not_eq, Formula.truth])
  | and a b iha ihb => exact (iha.fromAnd ihb).of_eq (by rw [Primitive.and_eq, Formula.truth])
  | or a b iha ihb => exact (iha.fromOr ihb).of_eq (by rw [Primitive.or_eq, Formula.truth])
  | xor a b iha ihb => exact (iha.fromXor ihb).of_eq (by rw [Primitive.xor_eq, Formula.truth])
  | implies a b iha ihb =>
    exact (iha.fromImplies ihb).of_eq (by rw [Primitive.implies_eq, Formula.truth])

theorem isPureNand_eq (x : BoolExpr) : x.isPureNand = true := by
  induction x with
  | var idx => rfl
  | const val => rfl
  | nand a b iha ihb => rw [BoolExpr.isPureNand, iha, ihb, Bool.and_self]

/-- An expression made of a formula is made of gates, has the truth value of the formula, and
panics exactly where a variable of it is out of the bindings, also once it is lowered. -/
theorem lower_preserves (f : Formula) (bindings : List Bool) :
    (f.lower.isPureNand = true ∧
      eval bindings f.lower = (f.truth bindings).elim (.error .panic) .ok) ∧
    (lowerToNand f.lower).isPureNand = true ∧
      eval bindings (lowerToNand f.lower) = (f.truth bindings).elim (.error .panic) .ok := by
  have hbuilt := yields_lower f bindings
  rw [lowerToNand_eq]
  exact ⟨⟨isPureNand_eq _, hbuilt⟩, isPureNand_eq _, hbuilt⟩

/-- Nothing but variables and gates. -/
def BoolExpr.Wired : BoolExpr → Prop
  | .var _ => True
  | .const _ => False
  | .nand a b => a.Wired ∧ b.Wired

/-- The expression has the values of `f` on `n` variables. -/
def Expresses (n : Nat) (x : BoolExpr) (f : List Bool → Bool) : Prop :=
  x.Below n ∧ x.Wired ∧ ∀ s, s.length = n → eval s x = .ok (f s)

theorem exists_expresses (hn : 0 < n) (f : List Bool → Bool) : ∃ x, Expresses n x f := by
  have hbuilt := Sheffer.built hn f
  induction hbuilt with
  | @bit i hi => exact ⟨.var i, hi, trivial, fun s hs => eval_eq (x := .var i) hi hs⟩
  | stroke _ _ ihf ihg =>
    obtain ⟨x, hx, hxw, hxv⟩ := ihf
    obtain ⟨y, hy, hyw, hyv⟩ := ihg
    refine ⟨.nand x y, ⟨hx, hy⟩, ⟨hxw, hyw⟩, fun s hs => ?_⟩
    rw [eval, hxv s hs, hyv s hs]
    rfl
  | agree _ hagree ih =>
    obtain ⟨x, hx, hxw, hxv⟩ := ih
    exact ⟨x, hx, hxw, fun s hs => by rw [hxv s hs, hagree s hs]⟩

theorem not_wired_of_below_zero (hx : x.Below 0) : ¬ x.Wired := by
  induction x with
  | var idx => exact absurd hx (Nat.not_lt_zero idx)
  | const val => exact id
  | nand a b iha _ => exact fun hw => iha hx.1 hw.1

/-- The table of an expression is the table of the function. -/
theorem Expresses.truthTable_eq {b : Build} {t : Target} {f : List Bool → Bool}
    (h : Expresses n x f) (hw : n < t.width) (hf : Fits t n) :
    truthTable b t x n = .ok ((List.range (2 ^ n)).map fun row =>
      (Binary.digits n row, f (Binary.digits n row))) := by
  obtain ⟨hx, -, hv⟩ := h
  rw [truthTable_of_fits hw hf hx, rows]
  congr 1
  apply List.map_congr_left
  intro row _
  have hlen := Binary.length_digits n row
  have he := hv _ hlen
  rw [eval_eq hx hlen] at he
  rw [Except.ok.inj he]

/-- Gates alone express every Boolean function of `n` variables, with its whole truth table
wherever that fits, exactly if there is a variable at all. -/
theorem gates_complete_iff (n : Nat) : 0 < n ↔ ∀ f : List Bool → Bool, ∃ x : BoolExpr,
    Expresses n x f ∧ ∀ b t, n < t.width → Fits t n →
      truthTable b t x n = .ok ((List.range (2 ^ n)).map fun row =>
        (Binary.digits n row, f (Binary.digits n row))) := by
  constructor
  · intro hn f
    obtain ⟨x, hx⟩ := exists_expresses hn f
    exact ⟨x, hx, fun b t hw hf => hx.truthTable_eq hw hf⟩
  · intro h
    obtain ⟨x, ⟨hx, hw, -⟩, -⟩ := h fun _ => true
    by_contra hn
    obtain rfl : n = 0 := Nat.eq_zero_of_not_pos hn
    exact not_wired_of_below_zero hx hw

end HyperKitty.Nand
