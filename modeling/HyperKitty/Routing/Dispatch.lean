import HyperKitty.Isomorphism.Layers
import HyperKitty.Lib.Keyed
import HyperKitty.Routing.Pipeline

namespace HyperKitty.Routing

open Exec Isomorphism

/-- Dispatcher orchestrates execution of routing nodes. Its counter is a `usize`. -/
structure Dispatcher (t : Target) where
  executionCount : Fin (2 ^ t.width)
  deriving DecidableEq

variable {K : Type} [Field K] [LinearOrder K]

/-- Check if this node is valid for routing. -/
def RoutingNode.isValid (self : RoutingNode K) : Bool :=
  self.enabled && decide (F64.finite 0 < self.weight) && !self.name.isEmpty

namespace Dispatcher

variable (b : Build) {t : Target} (fmt : Formats K)

/-- `execution_count += 1`, which panics on an overflow in a debug build and wraps around in a
released one. -/
def increment (self : Dispatcher t) : Exec Unit (Dispatcher t) :=
  if h : self.executionCount.val + 1 < 2 ^ t.width then .ok ⟨⟨self.executionCount.val + 1, h⟩⟩
  else
    match b with
    | .debug => .error .panic
    | .release => .ok ⟨⟨0, Nat.two_pow_pos t.width⟩⟩

def batchText (count : Nat) (node : RoutingNode K) : String :=
  s!"batch_exec_{count}(node: {node.id}, name: {node.name}, weight: {fmt.fixed 4 node.weight})"

abbrev Results := AList fun _ : UInt64 => String

/-- One node of a batch: a valid one is executed and its result recorded. -/
def batchOne (s : Dispatcher t × Results) (node : RoutingNode K) :
    Exec Unit (Dispatcher t × Results) :=
  if node.isValid then do
    let self ← s.1.increment b
    pure (self, s.2.insert node.id (batchText fmt self.executionCount.val node))
  else .ok s

/-- Batch dispatch multiple nodes: what is returned, and the dispatcher it leaves. -/
def dispatchBatch (self : Dispatcher t) (nodes : List (RoutingNode K)) (message : String) :
    Exec Unit (Except Error Results × Dispatcher t) :=
  if nodes.isEmpty then .ok (.error .noValidRoutes, self)
  else if message.isEmpty then .ok (.error (.parseError "empty_message"), self)
  else do
    let (self, results) ← nodes.foldlM (batchOne b fmt) (self, ∅)
    if results.entries.isEmpty then pure (.error .noValidRoutes, self)
    else pure (.ok results, self)

end Dispatcher
end HyperKitty.Routing
