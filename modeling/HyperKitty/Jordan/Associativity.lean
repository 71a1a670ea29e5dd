import HyperKitty.Jordan.Idempotent
import HyperKitty.Jordan.SpinFactor

namespace HyperKitty.Jordan.SpinFactor

open Exec

variable {K : Type} [Field K] [LinearOrder K]

/-- The scalars are close, and the vectors as far as both of them go. -/
def near (x y : SpinFactor K) : Bool :=
  close x.alpha y.alpha && (x.v.zip y.v).all fun (a, b) => close a b

def isCommutativeWith (x y : SpinFactor K) : Exec Unit Bool := do
  let xy ← x.product y
  let yx ← y.product x
  pure (near xy yx)

def isAssociativeTriple (x y z : SpinFactor K) : Exec Unit Bool := do
  let xy ← x.product y
  let left ← xy.product z
  let yz ← y.product z
  let right ← x.product yz
  pure (near left right)

def isIdempotent (x : SpinFactor K) : Exec Unit Bool := do
  let ee ← x.product x
  pure (near ee x)

end HyperKitty.Jordan.SpinFactor
