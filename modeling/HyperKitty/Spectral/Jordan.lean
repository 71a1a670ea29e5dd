import HyperKitty.Lib.FirstHit
import HyperKitty.Spectral.Jacobian

namespace HyperKitty.Spectral

variable {K : Type*} {l m n : Nat}

variable (K) in
structure JordanFeatures where
  spectralRadius : K
  stabilityScore : K
  jordanBlocks : Nat
  gershgorinRadius : K
  spectralGap : K
  convergenceTolerance : K
  status : Status

section Features

variable [Field K] [LinearOrder K]

/-- Each pass copies the diagonal of a matrix that no pass changes. -/
def qrIterate (a : Matrix (Fin n) (Fin n) K) (maxIter : Nat) : Fin n → K :=
  (List.range maxIter).foldl (fun _ _ i => a i i) 0

def jordanTransform (adjMatrix : Option (Matrix (Fin n) (Fin n) K)) : JordanFeatures K :=
  match adjMatrix with
  | none => ⟨0, 0, 0, 0, 0, 0, .errNull⟩
  | some a =>
    if n = 0 then ⟨0, 0, 0, 0, 0, 0, .errNull⟩
    else
      let eigenvalues := qrIterate a 100
      let eigs := fun i => |eigenvalues i|
      let radius := Scan.largest eigs
      -- a row sum leaves out the entry on the diagonal
      let rowSum := fun i =>
        (List.finRange n).foldl (fun sum j => if i ≠ j then sum + |a i j| else sum) 0
      let lambdaPlus := Scan.largest eigs
      let lambdaMinus := Scan.largestBelow lambdaPlus eigs
      { spectralRadius := radius
        stabilityScore := if radius < 1 then 0.9 else 0.1
        jordanBlocks := n
        gershgorinRadius := Scan.largest rowSum
        spectralGap := if 2 ≤ n then lambdaPlus - lambdaMinus else 0
        convergenceTolerance := 1e-8
        status := .ok }

end Features

section Powers

variable [CommRing K] [LinearOrder K] (sqrt : K → K)

def matrixMult (a : Matrix (Fin l) (Fin m) K) (b : Matrix (Fin m) (Fin n) K) :
    Matrix (Fin l) (Fin n) K :=
  fun i j => Scan.sumFrom 0 fun k => a i k * b k j

/-- How far the square of a matrix is from it. -/
def squareDistance (work squared : Matrix (Fin n) (Fin n) K) : K :=
  sqrt (Scan.doubleSum fun i j =>
    let d := squared i j - work i j
    d * d)

def convergeIdempotent (matrix : Option (Matrix (Fin n) (Fin n) K)) (maxIterations : Int)
    (tolerance : K) : Int :=
  match matrix with
  | none => -1
  | some a =>
    if n = 0 then -1
    else
      FirstHit.run (fun work => matrixMult work work)
        (fun work squared => decide (squareDistance sqrt work squared < tolerance)) maxIterations a

end Powers

end HyperKitty.Spectral
