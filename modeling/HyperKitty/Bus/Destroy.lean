import HyperKitty.Bus.Broker
import HyperKitty.Lib.Exec

namespace HyperKitty.Bus

open Exec

/-- Reading a connection that was freed is a panic. -/
def loadConn (heap : List Conn) (freed : List Nat) (p : Nat) : Exec Unit Conn :=
  if p ∈ freed then .error .panic
  else
    match heap[p]? with
    | none => .error .panic
    | some c => .ok c

/-- Wake up everybody who waits for a message. -/
def stopConn (heap : List Conn) (p : Nat) : Exec Unit (List Conn) := do
  let c ← loadConn heap [] p
  pure (heap.set p { c with active := false })

def freeConn (heap : List Conn) (freed : List Nat) (p : Nat) : Exec Unit (List Nat) := do
  let _ ← loadConn heap freed p
  pure (freed ++ [p])

/-- The bus that is left, with the pointers that were freed. It runs in one process, where no
connection has a thread. -/
def destroy (b : Bus) : Exec Unit (List Nat × Bus) := do
  let heap ← b.conns.foldlM stopConn b.heap
  let freed ← b.conns.foldlM (freeConn heap) []
  pure (freed, { b with heap, conns := [] })

end HyperKitty.Bus
