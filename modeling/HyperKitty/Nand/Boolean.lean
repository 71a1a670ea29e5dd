import HyperKitty.Isomorphism.Layers

namespace HyperKitty.Nand

open Exec Isomorphism

/-- The only primitive. -/
def nand (a b : Bool) : Bool := !(a && b)

/-- A Boolean expression built from variables, constants, and NAND gates. -/
inductive BoolExpr where
  | var (idx : Nat)
  | const (val : Bool)
  | nand (a b : BoolExpr)
deriving DecidableEq, Repr

/-- Panics if a variable references an index outside the bindings. -/
def eval (bindings : List Bool) : BoolExpr → Exec Unit Bool
  | .var idx =>
    match bindings[idx]? with
    | some val => .ok val
    | none => .error .panic
  | .const val => .ok val
  | .nand a b => do
    let va ← eval bindings a
    let vb ← eval bindings b
    pure (nand va vb)

section Words

variable (b : Build) (t : Target)

/-- The distance of a shift: a debug build panics where it reaches the width of the word, and a
released one keeps the remainder. -/
def shiftDistance (n : Nat) : Exec Unit Nat :=
  match b with
  | .debug => if n < t.width then .ok n else .error .panic
  | .release => .ok (n % t.width)

/-- The bytes of a row: a `Vec` of three words and the result. -/
def rowBytes : Nat := 4 * (t.width / 8)

/-- No allocation may be larger than `isize::MAX` bytes. -/
def isizeMax : Nat := 2 ^ (t.width - 1) - 1

/-- `Vec::with_capacity`, which panics on a capacity overflow. -/
def withCapacity (rows : Nat) : Exec Unit Unit :=
  if rows * rowBytes t ≤ isizeMax t then .ok () else .error .panic

/-- The binding of a variable in a row. -/
def binding (nVars row varIdx : Nat) : Exec Unit Bool := do
  let d ← shiftDistance b t (nVars - 1 - varIdx)
  pure ((row >>> d) &&& 1 == 1)

def truthTable (expr : BoolExpr) (nVars : Nat) : Exec Unit (List (List Bool × Bool)) := do
  let d ← shiftDistance b t nVars
  let nRows := 1 <<< d
  withCapacity t nRows
  (List.range nRows).mapM fun row => do
    let bindings ← (List.range nVars).mapM (binding b t nVars row)
    let result ← eval bindings expr
    pure (bindings, result)

def functionallyEquivalent (x y : BoolExpr) (nVars : Nat) : Exec Unit Bool := do
  let tx ← truthTable b t x nVars
  let ty ← truthTable b t y nVars
  pure ((tx.zip ty).all fun rows => rows.1.2 == rows.2.2)

end Words

/-- Lower any expression to pure NAND form. -/
def lowerToNand : BoolExpr → BoolExpr
  | .var idx => .var idx
  | .const val => .const val
  | .nand a b => .nand (lowerToNand a) (lowerToNand b)

/-- All variables are below `n`. -/
def BoolExpr.Below (n : Nat) : BoolExpr → Prop
  | .var idx => idx < n
  | .const _ => True
  | .nand a b => a.Below n ∧ b.Below n

namespace BoolExpr

def fromNot (a : BoolExpr) : BoolExpr := .nand a a

def fromAnd (a b : BoolExpr) : BoolExpr :=
  let nandAb := .nand a b
  .nand nandAb nandAb

def fromOr (a b : BoolExpr) : BoolExpr :=
  let notA := .nand a a
  let notB := .nand b b
  .nand notA notB

def fromXor (a b : BoolExpr) : BoolExpr :=
  let notA := .nand a a
  let notB := .nand b b
  let left := .nand notA b
  let right := .nand a notB
  .nand left right

def fromImplies (a b : BoolExpr) : BoolExpr :=
  let notB := .nand b b
  .nand a notB

/-- Whether there are only variables, constants and NAND gates. -/
def isPureNand : BoolExpr → Bool
  | .var _ | .const _ => true
  | .nand a b => a.isPureNand && b.isPureNand

end BoolExpr

end HyperKitty.Nand
