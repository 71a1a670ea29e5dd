import HyperKitty.Kernel.Decide
import HyperKitty.Runtime.RouteDecision

namespace HyperKitty.Kernel

open HyperKitty.Runtime

/-- The protocol, the kernel that its decisions are forwarded to, and the decisions that the
clients were given so far. -/
structure Boundary (K : Type) where
  protocol : ReconciliationProtocol K
  kernel : KernelState K
  given : List (ReconciliationDecision K)

/-- A request of a client, which knows a decision by its place among those given. -/
inductive Request where
  | reconcile (current previous : Glyph) (proofExists invariantOk : Bool)
  | commit (i : Nat)
  | forward (i : Nat) (traceId : UInt64)
  deriving DecidableEq

inductive Reply (K : Type) where
  | decided (result : Except Error (ReconciliationDecision K))
  | committed (result : Except Error Unit)
  | judged (decision : ReconciliationDecision K) (result : KernelResult)
  | unknown

namespace Boundary

variable {K : Type} [Field K] [LinearOrder K]

def new (g : Glyph) : Boundary K := ⟨.new g, initial, []⟩

def step (self : Boundary K) : Request → Reply K × Boundary K
  | .reconcile current previous proofExists invariantOk =>
    match self.protocol.reconcile current previous proofExists invariantOk with
    | (.ok d, protocol) => (.decided (.ok d), { self with protocol, given := self.given ++ [d] })
    | (.error e, protocol) => (.decided (.error e), { self with protocol })
  | .commit i =>
    match self.given[i]? with
    | some d =>
      let (result, protocol) := self.protocol.commit d
      (.committed result, { self with protocol })
    | none => (.unknown, self)
  | .forward i traceId =>
    match self.given[i]? with
    | some d =>
      let sent := { d with traceId }
      let (result, kernel) := kernelDecide self.kernel (some (.fromReconciliation sent))
      (.judged sent result, { self with kernel })
    | none => (.unknown, self)

end Boundary

end HyperKitty.Kernel
