import HyperKitty.Lib.Scan

namespace HyperKitty.Spectral

variable {K : Type*} {m n : Nat}

inductive Status where
  | ok | errNull | errAlloc
  deriving DecidableEq, Repr

variable (K) in
structure JacobianMetrics where
  conditionNumber : K
  deadPaths : Nat
  status : Status

variable [Field K] [LinearOrder K] (sqrt : K → K)

def epsilon : K := 1e-8

/-- A norm in place of a condition number. The square root is that of the C library. -/
def estimateConditionNumber (jac : Matrix (Fin m) (Fin n) K) : K :=
  if n = 0 then 0
  else
    let fnorm := sqrt (Scan.doubleSum fun i j => jac i j * jac i j)
    let spectral := fnorm / sqrt n
    let condition := spectral / epsilon
    if condition < 1 then 1 else condition

/-- A column is dead unless the loop finds an entry above the threshold. -/
def countDeadPaths (jac : Matrix (Fin m) (Fin n) K) : Nat :=
  (List.finRange n).countP fun j =>
    (List.finRange m).all fun i => !decide (epsilon < |jac i j|)

/-- The derivative that is stored for an entry. -/
def perturbed (entry : K) : K :=
  let delta := entry * epsilon
  if |delta| < epsilon then epsilon else delta

def jacobianLens (routingMatrix : Option (Matrix (Fin n) (Fin n) K)) : JacobianMetrics K :=
  match routingMatrix with
  | none => ⟨0, 0, .errNull⟩
  | some routing =>
    if n = 0 then ⟨0, 0, .errNull⟩
    else
      let jac : Matrix (Fin n) (Fin n) K := fun i j => perturbed (routing i j)
      { conditionNumber := estimateConditionNumber sqrt jac
        deadPaths := countDeadPaths jac
        status := .ok }

def jacobianLocallyInvertible (matrix : Option (Matrix (Fin n) (Fin n) K)) : Int :=
  if matrix.isNone || n = 0 then 0
  else
    let metrics := jacobianLens sqrt matrix
    if 100.0 < metrics.conditionNumber then 0
    else if 0 < metrics.deadPaths then 0
    else 1

end HyperKitty.Spectral
