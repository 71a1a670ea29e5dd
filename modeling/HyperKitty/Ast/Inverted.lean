import HyperKitty.Lib.CString

namespace HyperKitty.Ast

open Exec

inductive NodeType where
  | unknown
  | program | function | «class» | interface | module | «if» | loop | block | type | constraint
  | route
  | identifier | literalInt | literalStr | literalBool | literalNull | comment | parameter
  deriving DecidableEq, Repr

/-- The types that carry routing authority. -/
def NodeType.structural (t : NodeType) : Bool :=
  t ∈ [program, function, «class», interface, module, «if», loop, block, type, constraint, route]

def getNodeWeight : NodeType → ℚ
  | .program | .function | .class | .interface | .module | .if | .loop | .block | .type
  | .constraint | .route => 1
  | _ => 0

def nodeTypeName : NodeType → String
  | .unknown => "UNKNOWN"
  | .program => "PROGRAM"
  | .function => "FUNCTION"
  | .class => "CLASS"
  | .interface => "INTERFACE"
  | .module => "MODULE"
  | .if => "IF"
  | .loop => "LOOP"
  | .block => "BLOCK"
  | .type => "TYPE"
  | .constraint => "CONSTRAINT"
  | .route => "ROUTE"
  | .identifier => "IDENTIFIER"
  | .literalInt => "LITERAL_INT"
  | .literalStr => "LITERAL_STR"
  | .literalBool => "LITERAL_BOOL"
  | .literalNull => "LITERAL_NULL"
  | .comment => "COMMENT"
  | .parameter => "PARAMETER"

abbrev Ptr := Nat

structure ASTNode where
  type : NodeType
  weight : ℚ
  label : Option (List UInt8)
  value : Option (List UInt8)
  children : List Ptr
  parentIdx : Int
  deriving DecidableEq

/-- The nodes in the order of their allocation. -/
abbrev Heap := List ASTNode

def maxChildren : Nat := 16

inductive HkStatus where
  | ok | errNull | errAlloc | errInvalidState
  deriving DecidableEq, Repr

/-- Reading where no node was allocated is a panic. -/
def deref (h : Heap) (p : Ptr) : Exec Unit ASTNode :=
  match h[p]? with
  | some node => pure node
  | none => .error .panic

def nodeAlloc (h : Heap) (t : NodeType) (label : Option (List UInt8)) : Ptr × Heap :=
  (h.length, h ++ [{
    type := t
    weight := getNodeWeight t
    label := label.map Buffer.cString
    value := none
    children := []
    parentIdx := -1 }])

/-- A payload node gets no structural child. -/
def addChild (h : Heap) : Option Ptr → Option Ptr → Exec Unit (HkStatus × Heap)
  | some parent, some child => do
    let p ← deref h parent
    let c ← deref h child
    if p.weight = 0 ∧ c.weight = 1 then pure (.errInvalidState, h)
    else if p.children.length ≥ maxChildren then pure (.errAlloc, h)
    else
      let linked := h.modify parent fun node => { node with children := node.children ++ [child] }
      pure (.ok, linked.modify child fun node => { node with parentIdx := p.children.length })
  | _, _ => pure (.errNull, h)

def getEdgeWeight (h : Heap) : Option Ptr → Option Ptr → Exec Unit ℚ
  | some source, some target => do
    let s ← deref h source
    let t ← deref h target
    if s.weight = 1 ∧ t.weight = 1 then pure 1
    else if s.weight = 1 ∧ t.weight = 0 then pure (1 / 10)
    else pure 0
  | _, _ => pure 0

/-- The depth of the recursion is bounded by the fuel, as it is by the stack. -/
def computeWeight (h : Heap) : Nat → Option Ptr → Exec Unit ℚ
  | 0, _ => .error .outOfFuel
  | _ + 1, none => pure 0
  | fuel + 1, some p => do
    let node ← deref h p
    node.children.foldlM (fun total child => do
      let edgeWeight ← getEdgeWeight h (some p) (some child)
      let childWeight ← computeWeight h fuel (some child)
      pure (total + edgeWeight * childWeight)) node.weight

structure ASTGraph where
  adj : List (List ℚ)
  dim : Nat
  nodeLabels : List (List UInt8)
  deriving DecidableEq

def countNodes (h : Heap) : Nat → Option Ptr → Exec Unit Nat
  | 0, _ => .error .outOfFuel
  | _ + 1, none => pure 0
  | fuel + 1, some root => do
    let node ← deref h root
    node.children.foldlM (fun count child => do
      let n ← countNodes h fuel (some child)
      pure (count + n)) 1

/-- The array with the index of its first free cell. -/
def flattenTree (h : Heap) :
    Nat → Option Ptr → List (Option Ptr) × Nat → Exec Unit (List (Option Ptr) × Nat)
  | 0, _, _ => .error .outOfFuel
  | _ + 1, none, s => pure s
  | fuel + 1, some root, (flat, idx) =>
    if idx < flat.length then do
      let node ← deref h root
      node.children.foldlM (fun s child => flattenTree h fuel (some child) s)
        (flat.set idx (some root), idx + 1)
    else .error .panic

/-- The text `"%s_%d"` of a node, in a block of 256 bytes. -/
def nodeLabel (t : NodeType) (i : Nat) : List UInt8 :=
  let text := CString.ascii (nodeTypeName t) ++ CString.ascii "_" ++ CString.decimal i
  Buffer.cString (CString.snprintf (List.replicate 256 0) text).2

/-- Write the weight of the edge from the `i`-th node to a child of it, where the
child is first found. -/
def fillCell (h : Heap) (flat : List (Option Ptr)) (i : Nat) (source : Ptr) (adj : List (List ℚ))
    (child : Ptr) : Exec Unit (List (List ℚ)) :=
  match flat.findIdx? (· == some child) with
  | some k => do
    let w ← getEdgeWeight h (some source) (some child)
    pure (adj.modify i (·.set k w))
  | none => pure adj

def fillRow (h : Heap) (flat : List (Option Ptr)) (graph : ASTGraph) (i : Nat) :
    Exec Unit ASTGraph :=
  match flat[i]? with
  | some (some source) => do
    let node ← deref h source
    let adj ← node.children.foldlM (fillCell h flat i source) graph.adj
    pure { graph with adj := adj, nodeLabels := graph.nodeLabels ++ [nodeLabel node.type i] }
  | _ => .error .panic

def toGraph (h : Heap) (fuel : Nat) : Option Ptr → OrNull ASTGraph
  | none => fail ()
  | some root => do
    let dim ← countNodes h fuel (some root)
    let adj := List.replicate dim (List.replicate dim 0)
    let (flat, _) ← flattenTree h fuel (some root) (List.replicate dim none, 0)
    (List.range dim).foldlM (fillRow h flat) { adj := adj, dim := dim, nodeLabels := [] }

/-- A call that builds trees. -/
inductive Op where
  | alloc (t : NodeType) (label : Option (List UInt8))
  | addChild (parent child : Option Ptr)

/-- The heap after a call; a call that reads where nothing was allocated is out of
the question and leaves it alone. -/
def step (h : Heap) : Op → Heap
  | .alloc t label => (nodeAlloc h t label).2
  | .addChild parent child =>
    match addChild h parent child with
    | .ok (_, h') => h'
    | .error _ => h

def build (ops : List Op) : Heap := ops.foldl step []

end HyperKitty.Ast
