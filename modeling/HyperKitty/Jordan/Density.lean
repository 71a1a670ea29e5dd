import HyperKitty.Lib.Exec
import HyperKitty.Lib.Scan

namespace HyperKitty.Jordan

open Exec

section Constants

variable (K : Type*) [Field K]

/-- Inverse golden ratio -/
def goldenRatioInv : K := 0.61803398874989484820458683436563811772030917980576

/-- Square of inverse golden ratio -/
def goldenRatioInvSq : K := 0.38196601125010515179541316563436188227969082019424

end Constants

/-- The rows of a matrix. No operation checks that they have as many entries as there are rows. -/
structure DensityMatrix (K : Type*) where
  data : List (List K)
  deriving DecidableEq, Repr

namespace DensityMatrix

section Operations

variable {K : Type*} [Field K] (self other : DensityMatrix K)

def size : Nat := self.data.length

/-- `self.data[i][j]`, which panics out of bounds. -/
def entry (i j : Nat) : Exec Unit K :=
  match self.data[i]?.bind (·[j]?) with
  | some x => .ok x
  | none => .error .panic

/-- The matrix of `n` rows whose entries the loops over `i` and `j` assign. -/
def tabulate (n : Nat) (f : Nat → Nat → Exec Unit K) : Exec Unit (DensityMatrix K) := do
  let data ← (List.finRange n).mapM fun i : Fin n =>
    (List.finRange n).mapM fun j : Fin n => f i j
  pure ⟨data⟩

def identity (n : Nat) : DensityMatrix K :=
  ⟨(List.finRange n).map fun i : Fin n =>
    (List.finRange n).map fun j : Fin n => if i = j then 1 else 0⟩

def multiply : Exec Unit (DensityMatrix K) :=
  tabulate self.size fun i j =>
    (List.finRange self.size).foldlM
      (fun sum (k : Fin self.size) => do
        pure (sum + (← self.entry i k) * (← other.entry k j))) 0

def scale (s : K) : DensityMatrix K := ⟨self.data.map fun row => row.map fun val => val * s⟩

def add : Exec Unit (DensityMatrix K) :=
  tabulate self.size fun i j => do pure ((← self.entry i j) + (← other.entry i j))

def transpose : Exec Unit (DensityMatrix K) := tabulate self.size fun i j => self.entry j i

def evolve (u : DensityMatrix K) : Exec Unit (DensityMatrix K) := do
  let ut ← u.transpose
  let urho ← u.multiply self
  let urhou ← urho.multiply ut
  let term1 := urhou.scale (goldenRatioInv K)
  let term2 := self.scale (goldenRatioInvSq K)
  term1.add term2

def trace : Exec Unit K :=
  (List.finRange self.size).foldlM
    (fun sum (i : Fin self.size) => do pure (sum + (← self.entry i i))) 0

end Operations

section Distance

variable {K : Type*} [Field K] (sqrt : K → K) (self other : DensityMatrix K)

def frobeniusNorm : K := sqrt ((self.data.flatten.map fun x => x * x).sum)

def distanceTo : Exec Unit K := do
  let difference ← self.add (other.scale (-1))
  pure (difference.frobeniusNorm sqrt)

end Distance
end DensityMatrix
end HyperKitty.Jordan
