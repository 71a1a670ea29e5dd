import HyperKitty.Runtime.RouteDecision

namespace HyperKitty.Kernel

open HyperKitty.Runtime (RouteDecision)

structure KernelState (K : Type) where
  committedState : UInt8
  committedAt : UInt64
  lastEntropy : F64 K
  acceptanceCount : UInt64
  rejectionCount : UInt64
  deriving DecidableEq

inductive ValidationGate where
  | header | glyphs | entropy | validity | consistency
  deriving DecidableEq, Repr

/-- The gate is `none` where the source has the code 0. -/
structure KernelResult where
  status : Int
  gate : Option ValidationGate
  traceId : UInt64
  deriving DecidableEq

def routeDecisionAbiVersion : UInt32 := 1

variable {K : Type}

def validateHeader (d : RouteDecision K) : Bool :=
  if d.abiVersion ≠ routeDecisionAbiVersion then false else true

def validateGlyphs (d : RouteDecision K) : Bool :=
  if d.currentState > 5 then false
  else if d.previousState > 5 then false
  else if d.nextState > 5 then false
  else true

def validateConsistency (d : RouteDecision K) : Bool :=
  if d.accepted = 1 ∧ d.entropyOk = 0 then false
  else if d.accepted = 1 ∧ d.reconciliationOk = 0 then false
  else if d.accepted = 1 ∧ d.routeValid = 0 then false
  else if d.accepted = 1 ∧ d.proofOk = 0 then false
  else if d.accepted = 0 ∧ d.failedGate = 0 then false
  else true

def commitState (kernel : KernelState K) (d : RouteDecision K) : KernelState K :=
  { kernel with
    committedState := d.nextState
    committedAt := kernel.committedAt + 1
    lastEntropy := d.entropy
    acceptanceCount := kernel.acceptanceCount + 1 }

/-- The early return of a gate, which counts a rejection. -/
def rejectAt (kernel : KernelState K) (status : Int) (gate : ValidationGate) (traceId : UInt64) :
    KernelResult × KernelState K :=
  (⟨status, some gate, traceId⟩, { kernel with rejectionCount := kernel.rejectionCount + 1 })

variable [Field K]

/-- The kernel as it is initialised. -/
def initial : KernelState K where
  committedState := 0xFF
  committedAt := 0
  lastEntropy := .finite 0
  acceptanceCount := 0
  rejectionCount := 0

variable [LinearOrder K]

def validateEntropy (d : RouteDecision K) : Bool :=
  if ¬ (.finite 0 ≤ d.entropy ∧ d.entropy ≤ .finite 0.20) then false
  else if d.entropy != d.entropy then false
  else true

def kernelDecide (kernel : KernelState K) :
    Option (RouteDecision K) → KernelResult × KernelState K
  | none => (⟨-1, some .header, 0⟩, kernel)
  | some d =>
    if !validateHeader d then rejectAt kernel (-1) .header d.traceId
    else if !validateGlyphs d then rejectAt kernel (-2) .glyphs d.traceId
    else if !validateEntropy d then rejectAt kernel (-3) .entropy d.traceId
    else if d.accepted = 0 then rejectAt kernel (-4) .validity d.traceId
    else if !validateConsistency d then rejectAt kernel (-5) .consistency d.traceId
    else (⟨0, none, d.traceId⟩, commitState kernel d)

end HyperKitty.Kernel
