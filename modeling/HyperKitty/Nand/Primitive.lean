import HyperKitty.Nand.Boolean

namespace HyperKitty.Nand.Primitive

def not (a : Bool) : Bool := nand a a

def and (a b : Bool) : Bool :=
  let n := nand a b
  nand n n

def or (a b : Bool) : Bool := nand (nand a a) (nand b b)

def xor (a b : Bool) : Bool :=
  let notA := nand a a
  let notB := nand b b
  nand (nand notA b) (nand a notB)

def implies (a b : Bool) : Bool := nand a (nand b b)

/-- The derived operations are the connectives that they are named for. -/
theorem not_eq : not = fun a => !a := by
  funext a
  cases a <;> rfl

theorem and_eq : and = fun a b => a && b := by
  funext a b
  cases a <;> cases b <;> rfl

theorem or_eq : or = fun a b => a || b := by
  funext a b
  cases a <;> cases b <;> rfl

theorem xor_eq : xor = fun a b => a ^^ b := by
  funext a b
  cases a <;> cases b <;> rfl

theorem implies_eq : implies = fun a b => !a || b := by
  funext a b
  cases a <;> cases b <;> rfl

end HyperKitty.Nand.Primitive
