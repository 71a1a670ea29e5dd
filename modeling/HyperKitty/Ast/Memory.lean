import HyperKitty.Ast.Inverted

namespace HyperKitty.Ast

open Exec

/-- Reading a node that was freed is a panic. -/
def load (h : Heap) (freed : List Ptr) (p : Ptr) : Exec Unit ASTNode :=
  if p ∈ freed then .error .panic else deref h p

/-- So is freeing it again. -/
def release (h : Heap) (freed : List Ptr) (p : Ptr) : Exec Unit (List Ptr) := do
  let _ ← load h freed p
  pure (freed ++ [p])

/-- The nodes that are freed, in order. Each pass of the loop reads the node again. -/
def nodeFree (h : Heap) : Nat → List Ptr → Option Ptr → Exec Unit (List Ptr)
  | 0, _, _ => .error .outOfFuel
  | _ + 1, freed, none => pure freed
  | fuel + 1, freed, some p => do
    let node ← load h freed p
    let freed ← node.children.foldlM (fun freed child => do
      let _ ← load h freed p
      nodeFree h fuel freed (some child)) freed
    release h freed p

end HyperKitty.Ast
