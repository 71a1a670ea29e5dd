import Mathlib

namespace HyperKitty.Validation

inductive NodeType where
  -- structural: carry authority
  | intent | constraint | language | entity | route | proofRequirement | stateTransition
  -- payload: cannot control routing
  | word | pathRef | number | functionRef | stringLiteral | binaryPayload
deriving DecidableEq, Repr

def NodeType.isStructural : NodeType → Bool
  | intent | constraint | language | entity | route | proofRequirement | stateTransition => true
  | _ => false

def NodeType.isPayload (t : NodeType) : Bool := !t.isStructural

structure AstNode where
  nodeType : NodeType
  label : String
  metadata : List (String × String)
deriving DecidableEq, Repr

def AstNode.new (nodeType : NodeType) (label : String) : AstNode := ⟨nodeType, label, []⟩

/-- Edge weight rules; the first question is about `src` and the second about `dst`. -/
def edgeWeight (src dst : AstNode) : ℚ :=
  match src.nodeType.isPayload, dst.nodeType.isStructural with
  | true, true => 0
  | false, true => 1/10
  | false, false => 1/2
  | true, false => 0

/-- A payload node pointing to a structural authority node. -/
def hasDangerousPattern (src dst : AstNode) : Bool :=
  src.nodeType.isPayload && dst.nodeType.isStructural

inductive Error where
  | invalidAST (msg : String)
deriving DecidableEq, Repr

/-- Validate AST structure before construction: the first bad edge is reported. -/
def validate (nodes : List AstNode) : List (Nat × Nat) → Except Error Unit
  | [] => .ok ()
  | (i, j) :: edges =>
    match nodes[i]?, nodes[j]? with
    | some src, some dst =>
      if hasDangerousPattern src dst then
        .error (.invalidAST ("Dangerous pattern: " ++ src.label ++ " → " ++ dst.label))
      else validate nodes edges
    | _, _ => .error (.invalidAST "Edge index out of bounds")

end HyperKitty.Validation
