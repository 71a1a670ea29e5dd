import HyperKitty.Core.Glyph

namespace HyperKitty.Runtime

inductive ValidityGate where
  | balance | invariant | entropy | proof | reconciliation | route
  deriving DecidableEq, Repr

def ValidityGate.name : ValidityGate → String
  | balance => "Balance"
  | invariant => "Invariant"
  | entropy => "Entropy"
  | proof => "Proof"
  | reconciliation => "Reconciliation"
  | route => "Route"

structure ValidityInput (K : Type) where
  currentState : Glyph
  previousState : Glyph
  routeResult : Option Glyph
  entropy : F64 K
  proofExists : Bool
  invariantOk : Bool

structure ValidityDecision (K : Type) where
  accepted : Bool
  balanceOk : Bool
  invariantOk : Bool
  entropyOk : Bool
  proofOk : Bool
  reconciliationOk : Bool
  routeOk : Bool
  failedGate : Option ValidityGate
  measuredEntropy : F64 K
  deriving DecidableEq

variable {K : Type} [Field K]

namespace ValidityDecision

def reject (gate : ValidityGate) (entropy : F64 K) : ValidityDecision K where
  accepted := false
  balanceOk := false
  invariantOk := false
  entropyOk := false
  proofOk := false
  reconciliationOk := false
  routeOk := false
  failedGate := some gate
  measuredEntropy := entropy

def accept : ValidityDecision K where
  accepted := true
  balanceOk := true
  invariantOk := true
  entropyOk := true
  proofOk := true
  reconciliationOk := true
  routeOk := true
  failedGate := none
  measuredEntropy := .finite 0

end ValidityDecision

structure ValidityPredicate (K : Type) where
  entropyThreshold : F64 K

namespace ValidityPredicate

def new : ValidityPredicate K := ⟨maxEntropy⟩

variable [LinearOrder K]

def check (self : ValidityPredicate K) (input : ValidityInput K) : ValidityDecision K :=
  if input.routeResult.isNone then .reject .route input.entropy
  else if !input.entropy.isFinite ∨ input.entropy < .finite 0 then .reject .entropy input.entropy
  else if self.entropyThreshold < input.entropy then .reject .entropy input.entropy
  else if !input.proofExists then .reject .proof input.entropy
  else if !input.invariantOk then .reject .invariant input.entropy
  else if input.currentState.index ≥ 6 ∨ input.previousState.index ≥ 6 then
    .reject .balance input.entropy
  else .accept

end ValidityPredicate

end HyperKitty.Runtime
