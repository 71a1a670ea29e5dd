import HyperKitty.Jordan.Density
import HyperKitty.Lib.Floating

namespace HyperKitty.Jordan

open Exec

structure ConvergenceTrace (K : Type*) where
  iterations : List (DensityMatrix K)
  converged : Bool
  finalDistance : F64 K
  deriving DecidableEq, Repr

variable {K : Type*} [Field K] [LinearOrder K] (sqrt : K → K)

/-- The rounds that are left, from the current matrix and the trace so far. -/
def convergeLoop (u : DensityMatrix K) (tolerance : K) :
    Nat → DensityMatrix K → ConvergenceTrace K → Exec Unit (ConvergenceTrace K)
  | 0, _, trace => .ok trace
  | rounds + 1, rho, trace => do
    let rhoNext ← rho.evolve u
    let distance ← rho.distanceTo sqrt rhoNext
    let iterations := trace.iterations ++ [rhoNext]
    if distance < tolerance then pure ⟨iterations, true, .finite distance⟩
    else convergeLoop u tolerance rounds rhoNext ⟨iterations, trace.converged, .finite distance⟩

def converge (rhoInit u : DensityMatrix K) (maxIters : Nat) (tolerance : K) :
    Exec Unit (ConvergenceTrace K) :=
  convergeLoop sqrt u tolerance maxIters rhoInit ⟨[rhoInit], false, .infinite false⟩

end HyperKitty.Jordan
