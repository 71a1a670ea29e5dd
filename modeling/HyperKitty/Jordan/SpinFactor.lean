import HyperKitty.Lib.Exec

namespace HyperKitty.Jordan

open Exec

/-- A scalar with a vector of any length. -/
structure SpinFactor (K : Type*) where
  alpha : K
  v : List K
  deriving DecidableEq, Repr

namespace SpinFactor

variable {K : Type*} [CommRing K]

def dim (x : SpinFactor K) : Nat := x.v.length

def identity (n : Nat) : SpinFactor K where
  alpha := 1
  v := List.replicate n 0

/-- Panics on vectors of different lengths. -/
def product (x y : SpinFactor K) : Exec Unit (SpinFactor K) :=
  if x.v.length ≠ y.v.length then .error .panic
  else
    let dot := ((x.v.zip y.v).map fun (a, b) => a * b).sum
    .ok
      { alpha := x.alpha * y.alpha + dot
        v := (x.v.zip y.v).map fun (vi, wi) => x.alpha * wi + y.alpha * vi }

/-- The powers of an element: each is the element times the one before it. -/
def power (x : SpinFactor K) : Nat → Exec Unit (SpinFactor K)
  | 0 => .ok (identity x.dim)
  | k + 1 => do x.product (← x.power k)

end SpinFactor
end HyperKitty.Jordan
