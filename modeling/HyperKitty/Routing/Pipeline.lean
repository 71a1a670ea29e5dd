import HyperKitty.Constraints.Unicode
import HyperKitty.Core.Error
import HyperKitty.Lib.Floating
import HyperKitty.Lib.Traversal

namespace HyperKitty.Routing

open Constraints (isWhitespace)

/-- What the standard library makes of strings and numbers: the debug text of a string, a number
with so many decimals, a number as it is displayed, and the logarithm. -/
structure Formats (K : Type) where
  quote : String → String
  fixed : Nat → F64 K → String
  display : F64 K → String
  ln : F64 K → F64 K

/-- The parts of a text between white space. -/
def splitWhitespace (s : String) : List String :=
  ((s.toList.splitOnP isWhitespace).filter (· ≠ [])).map String.ofList

/-- An executable expert in the routing pipeline. -/
structure RoutingNode (K : Type) where
  id : UInt64
  name : String
  weight : F64 K
  enabled : Bool

structure PipelineState (K : Type) where
  input : String
  tokens : List String := []
  ast : Option String := none
  graph : Option String := none
  jordan : Option String := none
  jacobian : Option String := none
  constraintsValid : Bool := true
  activationSet : List UInt64 := []
  routingNodes : List (RoutingNode K) := []
  filteredNodes : List (RoutingNode K) := []
  dispatchResults : AList fun _ : UInt64 => String := ∅
  mergedOutput : String := ""

/-- The entries of the dispatch results. -/
abbrev Dispatched := Sigma fun _ : UInt64 => String

structure RoutingPipeline where
  stages : List String

def RoutingPipeline.new : RoutingPipeline :=
  ⟨["RegexParser", "ASTBuilder", "SymbolicGraph", "JordanTransformer", "JacobianLens",
    "ConstraintEval", "SparseActivation", "RoutingNodes", "NANDFilter", "AgentDispatch",
    "MergeOutput"]⟩

variable {K : Type} [Field K] [LinearOrder K]

namespace RoutingNode

def new (id : UInt64) (name : String) (weight : F64 K) : RoutingNode K :=
  ⟨id, name, weight, decide (F64.finite 0 < weight)⟩

def execute (fmt : Formats K) (self : RoutingNode K) (input : String) : Except Error String :=
  if !self.enabled then .error .invalidRoute
  else .ok (self.name ++ "(weight: " ++ fmt.fixed 4 self.weight ++ ", input: '" ++ input ++ "' )")

end RoutingNode

namespace RoutingPipeline

variable (fmt : Formats K) (state : PipelineState K)

/-- Stage 1: tokenize the input. -/
def stageRegexParser : Except Error (PipelineState K) :=
  let tokens := splitWhitespace state.input
  if tokens.isEmpty then .error (.parseError "empty_token_stream")
  else .ok { state with tokens }

/-- Stage 2: construct the tree. -/
def stageAstBuilder : Except Error (PipelineState K) :=
  let tokens := "[" ++ ", ".intercalate (state.tokens.map fmt.quote) ++ "]"
  .ok { state with
    ast := some ("AST(tokens: " ++ tokens ++ ", depth: " ++ toString state.tokens.length ++ ")") }

/-- Stage 3: convert to a weighted graph. -/
def stageSymbolicGraph : Except Error (PipelineState K) :=
  let size := max state.tokens.length 1
  let weightSum := fmt.display (.finite (size * 1.5))
  .ok { state with
    graph := some ("Graph(nodes: " ++ toString size ++ ", edges: " ++
      toString (size * (size - 1) / 2) ++ ", weight_sum: " ++ weightSum ++ ")") }

/-- Stage 4: spectral radius and decomposition. -/
def stageJordanTransformer : Except Error (PipelineState K) :=
  let graphNodes := max state.tokens.length 1
  let spectralRadius : F64 K := .finite (graphNodes * 2.71828)
  .ok { state with
    jordan := some ("Jordan(spectral_radius: " ++ fmt.fixed 4 spectralRadius ++ ", blocks: " ++
      toString (graphNodes / 2 + 1) ++ ", determinant: " ++ fmt.fixed 4 (fmt.ln spectralRadius) ++
      ")") }

/-- Stage 5: route sensitivity. -/
def stageJacobianLens : Except Error (PipelineState K) :=
  let sensitivity : F64 K := .finite (state.tokens.length / 10)
  let deadPaths := if sensitivity < .finite 0.5 then 2 else 0
  .ok { state with
    jacobian := some ("Jacobian(sensitivity: " ++ fmt.fixed 4 sensitivity ++ ", dead_paths: " ++
      toString deadPaths ++ ", rank: " ++ toString state.tokens.length ++ ")") }

/-- Stage 6: evaluate validity predicates. -/
def stageConstraintEval : Except Error (PipelineState K) :=
  let allValid := !state.tokens.isEmpty && state.ast.isSome && state.graph.isSome &&
    state.jordan.isSome
  if !allValid then .error (.invariantViolated "constraint_violation")
  else .ok { state with constraintsValid := allValid }

/-- Stage 7: the activation set, which has at most five experts. -/
def stageSparseActivation : Except Error (PipelineState K) :=
  let activationSet := (List.range (min state.tokens.length 5)).map fun i =>
    .ofNat i * 1000 + .ofNat state.tokens.length
  if activationSet.isEmpty then .error .noValidRoutes
  else .ok { state with activationSet }

/-- Stage 8: convert activations to nodes, the later the lighter. -/
def stageRoutingNodes : Except Error (PipelineState K) :=
  let routingNodes := state.activationSet.mapIdx fun idx nodeId =>
    RoutingNode.new nodeId ("route_" ++ toString idx) (.finite (1 / ((idx : K) + 1)))
  if routingNodes.isEmpty then .error .noValidRoutes
  else .ok { state with routingNodes }

/-- Stage 9: remove incompatible routes. -/
def stageNandFilter : Except Error (PipelineState K) :=
  let filteredNodes := state.routingNodes.filter fun node => .finite 0.3 < node.weight
  if filteredNodes.isEmpty then .error .noValidRoutes
  else .ok { state with filteredNodes }

/-- What is recorded for a node: its result, or the text of its error. -/
def dispatchOne (input : String) (results : AList fun _ : UInt64 => String)
    (node : RoutingNode K) : AList fun _ : UInt64 => String :=
  match node.execute fmt input with
  | .ok result => results.insert node.id result
  | .error e => results.insert node.id ("error: " ++ e.display)

/-- Stage 10: execute admitted experts. -/
def stageAgentDispatch : Except Error (PipelineState K) :=
  let dispatchResults := state.filteredNodes.foldl (dispatchOne fmt state.input)
    state.dispatchResults
  if dispatchResults.entries.isEmpty then .error (.custom "no_dispatch_results")
  else .ok { state with dispatchResults }

/-- Stage 11: recombine the results, in the order in which the map is visited. -/
def stageMergeOutput (t : Traversal Dispatched) (self : RoutingPipeline) :
    Except Error (PipelineState K) :=
  let results := (t.order state.dispatchResults.entries).map fun e =>
    "[" ++ toString e.1 ++ "]: " ++ e.2
  .ok { state with
    mergedOutput := "routed(input: '" ++ state.input ++ "', stages: " ++
      toString self.stages.length ++ ", results: " ++ " | ".intercalate results ++ ")" }

/-- The stages up to the filter. -/
def upToFilter (input : String) : Except Error (PipelineState K) := do
  let state ← stageRegexParser { input }
  let state ← stageAstBuilder fmt state
  let state ← stageSymbolicGraph fmt state
  let state ← stageJordanTransformer fmt state
  let state ← stageJacobianLens fmt state
  let state ← stageConstraintEval state
  let state ← stageSparseActivation state
  let state ← stageRoutingNodes state
  stageNandFilter state

def process (t : Traversal Dispatched) (self : RoutingPipeline) (input : String) :
    Except Error String := do
  let state ← upToFilter fmt input
  let state ← stageAgentDispatch fmt state
  let state ← stageMergeOutput state t self
  pure state.mergedOutput

end RoutingPipeline

end HyperKitty.Routing
