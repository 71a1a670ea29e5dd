import HyperKitty.Routing.Qra
import HyperKitty.Runtime.Validity

namespace HyperKitty.Runtime

open Routing

/-- The full outcome of reconciling a candidate transition. -/
structure ReconciliationDecision (K : Type) where
  accepted : Bool
  currentState : Glyph
  previousState : Glyph
  nextState : Option Glyph
  entropy : F64 K
  validityDecision : ValidityDecision K
  routeValid : Bool
  invariantPreserved : Bool
  failedGate : Option ValidityGate
  traceId : UInt64
  deriving DecidableEq

variable {K : Type}

namespace ReconciliationDecision

def accept (current previous next : Glyph) (entropy : F64 K) (validity : ValidityDecision K) :
    ReconciliationDecision K where
  accepted := true
  currentState := current
  previousState := previous
  nextState := some next
  entropy := entropy
  validityDecision := validity
  routeValid := true
  invariantPreserved := validity.invariantOk
  failedGate := none
  traceId := 0

def reject (current previous : Glyph) (entropy : F64 K) (validity : ValidityDecision K)
    (gate : ValidityGate) : ReconciliationDecision K where
  accepted := false
  currentState := current
  previousState := previous
  nextState := none
  entropy := entropy
  validityDecision := validity
  routeValid := false
  invariantPreserved := false
  failedGate := some gate
  traceId := 0

end ReconciliationDecision

structure ReconciliationState (K : Type) where
  committedState : Glyph
  committedAt : UInt64
  lastEntropy : F64 K
  rejectionCount : UInt64
  acceptanceCount : UInt64
  deriving DecidableEq

namespace ReconciliationState

def new [Field K] (initial : Glyph) : ReconciliationState K where
  committedState := initial
  committedAt := 0
  lastEntropy := .finite 0
  rejectionCount := 0
  acceptanceCount := 0

def advance (self : ReconciliationState K) (next : Glyph) (entropy : F64 K) :
    ReconciliationState K :=
  { self with
    committedState := next
    committedAt := self.committedAt + 1
    lastEntropy := entropy
    acceptanceCount := self.acceptanceCount + 1 }

def reject (self : ReconciliationState K) : ReconciliationState K :=
  { self with rejectionCount := self.rejectionCount + 1 }

end ReconciliationState

structure ReconciliationProtocol (K : Type) where
  predicate : ValidityPredicate K
  state : ReconciliationState K

/-- What the message of a rejection shows of the gate that failed. -/
def showGate : Option ValidityGate → String
  | some gate => s!"Some({gate.name})"
  | none => "None"

namespace ReconciliationProtocol

variable [Field K] [LinearOrder K]

def new (initialState : Glyph) : ReconciliationProtocol K where
  predicate := .new
  state := .new initialState

def reconcile (self : ReconciliationProtocol K) (current previous : Glyph)
    (proofExists invariantOk : Bool) :
    Except Error (ReconciliationDecision K) × ReconciliationProtocol K :=
  let result := do
    let qraResult ← (QRADispatcher.dispatch current previous).mapError
      fun _ => Error.parseError "qra_dispatch_failed"
    let entropy : F64 K := .finite 0
    let invariantOkComputed := invariantOk && qraResult.isValid
    let validityInput : ValidityInput K :=
      { currentState := current
        previousState := previous
        routeResult := some qraResult.next
        entropy
        proofExists
        invariantOk := invariantOkComputed }
    let validityDecision := self.predicate.check validityInput
    if validityDecision.accepted then
      pure (.accept current previous qraResult.next entropy validityDecision)
    else
      pure (.reject current previous entropy validityDecision
        (validityDecision.failedGate.getD .route))
  (result, self)

def commit (self : ReconciliationProtocol K) (decision : ReconciliationDecision K) :
    Except Error Unit × ReconciliationProtocol K :=
  if !decision.accepted then
    (.error (.parseError s!"reconciliation_rejected: {showGate decision.failedGate}"),
      { self with state := self.state.reject })
  else
    match decision.nextState with
    | some nextState =>
      (.ok (), { self with state := self.state.advance nextState decision.entropy })
    | none => (.error (.parseError "accepted but no next_state"), self)

def getState (self : ReconciliationProtocol K) : Glyph := self.state.committedState

/-- A call of a client. -/
inductive Call (K : Type) where
  | reconcile (current previous : Glyph) (proofExists invariantOk : Bool)
  | commit (decision : ReconciliationDecision K)

inductive Answer (K : Type) where
  | decided (result : Except Error (ReconciliationDecision K))
  | committed (result : Except Error Unit)

/-- The protocol serves one call at a time, in any order in which its clients make them. -/
def step (self : ReconciliationProtocol K) : Call K → Answer K × ReconciliationProtocol K
  | .reconcile current previous proofExists invariantOk =>
    let (result, self) := self.reconcile current previous proofExists invariantOk
    (.decided result, self)
  | .commit decision =>
    let (result, self) := self.commit decision
    (.committed result, self)

end ReconciliationProtocol

end HyperKitty.Runtime
