import HyperKitty.Runtime.Reconciliation

namespace HyperKitty.Runtime

/-- The record that crosses the boundary to the kernel. -/
structure RouteDecision (K : Type) where
  abiVersion : UInt32
  currentState : UInt8
  previousState : UInt8
  nextState : UInt8
  padding0 : UInt8
  accepted : UInt32
  failedGate : UInt32
  entropy : F64 K
  entropyOk : UInt32
  padding1 : UInt32
  reconciliationOk : UInt32
  routeValid : UInt32
  invariantPreserved : UInt32
  traceId : UInt64
  proofOk : UInt32
  padding2 : UInt32
  deriving DecidableEq

variable {K : Type}

/-- A flag as the record carries it. -/
def flag (b : Bool) : UInt32 := if b then 1 else 0

/-- How a number is displayed. -/
def showF64 [ToString K] : F64 K → String
  | .nan => "NaN"
  | .infinite negative => if negative then "-inf" else "inf"
  | .finite x => toString x

namespace RouteDecision

def abiVersionCurrent : UInt32 := 1

def new (current previous next : Glyph) (entropy : F64 K) (accepted : Bool) (failedGate : UInt32)
    (entropyOk reconciliationOk routeValid invariantOk : Bool) (traceId : UInt64)
    (proofOk : Bool) : RouteDecision K where
  abiVersion := abiVersionCurrent
  currentState := current.toByte
  previousState := previous.toByte
  nextState := next.toByte
  padding0 := 0
  accepted := flag accepted
  failedGate := failedGate
  entropy := entropy
  entropyOk := flag entropyOk
  padding1 := 0
  reconciliationOk := flag reconciliationOk
  routeValid := flag routeValid
  invariantPreserved := flag invariantOk
  traceId := traceId
  proofOk := flag proofOk
  padding2 := 0

def failedGateCode : Option ValidityGate → UInt32
  | none => 0
  | some .balance => 1
  | some .invariant => 2
  | some .entropy => 3
  | some .proof => 4
  | some .reconciliation => 5
  | some .route => 6

def validateHeader (self : RouteDecision K) : Except String Unit :=
  if self.abiVersion ≠ abiVersionCurrent then
    .error s!"ABI version mismatch: expected {abiVersionCurrent}, got {self.abiVersion}"
  else .ok ()

def validateGlyphs (self : RouteDecision K) : Except String Unit :=
  if self.currentState > 5 then .error s!"invalid current_state: {self.currentState}"
  else if self.previousState > 5 then .error s!"invalid previous_state: {self.previousState}"
  else if self.nextState > 5 then .error s!"invalid next_state: {self.nextState}"
  else .ok ()

variable [Field K] [LinearOrder K]

def fromReconciliation (decision : ReconciliationDecision K) : RouteDecision K :=
  let next := decision.nextState.getD .lambda
  new decision.currentState decision.previousState next decision.entropy decision.accepted
    (failedGateCode decision.failedGate) (decision.entropy ≤ maxEntropy)
    decision.validityDecision.reconciliationOk decision.routeValid decision.invariantPreserved
    decision.traceId decision.validityDecision.proofOk

def validateEntropy [ToString K] (self : RouteDecision K) : Except String Unit :=
  if !self.entropy.isFinite then .error s!"nonfinite entropy: {showF64 self.entropy}"
  else if self.entropy < .finite 0 then .error s!"negative entropy: {showF64 self.entropy}"
  else if maxEntropy < self.entropy then
    .error s!"entropy exceeds bound: {showF64 self.entropy}"
  else .ok ()

def validateAll [ToString K] (self : RouteDecision K) : Except String Unit := do
  self.validateHeader
  self.validateGlyphs
  self.validateEntropy
  if self.accepted = 1 then
    if self.entropyOk = 0 then .error "accepted but entropy_ok=0"
    else if self.reconciliationOk = 0 then .error "accepted but reconciliation_ok=0"
    else if self.routeValid = 0 then .error "accepted but route_valid=0"
    else if self.proofOk = 0 then .error "accepted but proof_ok=0"
    else .ok ()
  else .ok ()

end RouteDecision

end HyperKitty.Runtime
