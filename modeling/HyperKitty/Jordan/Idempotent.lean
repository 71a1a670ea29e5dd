import Mathlib

namespace HyperKitty.Jordan

section Comparisons

variable {K : Type*} [Field K] [LinearOrder K]

def floatEq (a b epsilon : K) : Bool := decide (|a - b| < epsilon)

/-- The comparison of the code. -/
def close (a b : K) : Bool := floatEq a b 1e-10

def exactEq (a b : K) : Bool := decide (a = b)

end Comparisons

/-- Primitive idempotents in a Jordan algebra -/
structure PrimitiveIdempotents (K : Type*) where
  elements : List (List K)
  deriving DecidableEq, Repr

namespace PrimitiveIdempotents

variable {K : Type*} [CommRing K] (eq : K → K → Bool) (self : PrimitiveIdempotents K)

def vectorEqual (a b : List K) : Bool :=
  if a.length ≠ b.length then false else (a.zip b).all fun (x, y) => eq x y

def vectorIsZero (v : List K) : Bool := v.all fun x => eq x 0

def jordanProduct (a b : List K) : List K :=
  let dot := ((a.zip b).map fun (x, y) => x * y).sum
  (a.zip b).map fun (ai, bi) => dot * ai + dot * bi

def verifyIdempotency : Bool :=
  self.elements.all fun e => vectorEqual eq e (e.map fun x => x * x)

def verifyOrthogonality : Bool :=
  self.elements.zipIdx.all fun (e1, i) => self.elements.zipIdx.all fun (e2, j) =>
    i == j || vectorIsZero eq (jordanProduct e1 e2)

/-- The vectors added up from `n` zeros. -/
def vectorSum (n : Nat) (vs : List (List K)) : List K :=
  vs.foldl (fun acc e => (acc.zip e).map fun (a, b) => a + b) (List.replicate n 0)

def sumToIdentity : Bool :=
  match self.elements with
  | [] => false
  | e :: _ =>
    let n := e.length
    vectorEqual eq (vectorSum n self.elements) (List.replicate n 1)

def peirceDecompose (v : List K) : List (List K) :=
  self.elements.map fun e =>
    let dot := ((v.zip e).map fun (vi, ej) => vi * ej).sum
    e.map fun ei => dot * ei

end PrimitiveIdempotents
end HyperKitty.Jordan
