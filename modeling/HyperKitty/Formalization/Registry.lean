import HyperKitty.Constraints.Ast
import Mathlib

namespace HyperKitty.Formalization

inductive ConstraintKind where
  | prohibition | technology | booleanAlgebra | refinementType | graphInvariant | transformation
  | truth | proofArtifact | executionOrder | acceptance | structural | componentContract
  | generalConstraint
  deriving DecidableEq, Repr

def ConstraintKind.asStr : ConstraintKind → String
  | prohibition => "PROHIBITION"
  | technology => "TECHNOLOGY"
  | booleanAlgebra => "BOOLEAN_ALGEBRA"
  | refinementType => "REFINEMENT_TYPE"
  | graphInvariant => "GRAPH_INVARIANT"
  | transformation => "TRANSFORMATION"
  | truth => "TRUTH"
  | proofArtifact => "PROOF_ARTIFACT"
  | executionOrder => "EXECUTION_ORDER"
  | acceptance => "ACCEPTANCE"
  | structural => "STRUCTURE"
  | componentContract => "COMPONENT_CONTRACT"
  | generalConstraint => "GENERAL_CONSTRAINT"

inductive Polarity where
  | positive | negative | neutral
  deriving DecidableEq, Repr

structure Invariant where
  id : String
  kind : ConstraintKind
  polarity : Polarity
  normalizedExpr : String
  invertedExpr : String
  sourceClass : String
  deriving DecidableEq, Repr

abbrev InvariantMap := AList fun _ : String => Invariant

/-- The order in which a hash map is iterated, which may be any. -/
structure Traversal where
  order : List (Sigma fun _ : String => Invariant) → List (Sigma fun _ : String => Invariant)
  perm : ∀ entries, (order entries).Perm entries

structure InvariantRegistry where
  invariants : InvariantMap
  projectName : String
  organization : String
  formalizationOrder : String
  agdaIterationMultiplicity : UInt32

namespace InvariantRegistry

def new (projectName organization formalizationOrder : String)
    (agdaIterationMultiplicity : UInt32) : InvariantRegistry :=
  ⟨∅, projectName, organization, formalizationOrder, agdaIterationMultiplicity⟩

/-- Adding under an id that is there already replaces the invariant. -/
def addInvariant (r : InvariantRegistry) (invariant : Invariant) : InvariantRegistry :=
  { r with invariants := r.invariants.insert invariant.id invariant }

def getInvariant (r : InvariantRegistry) (id : String) : Option Invariant := r.invariants.lookup id

/-- A traversal visits exactly the entries that lookups see. -/
theorem mem_traversal {r : InvariantRegistry} {id : String} {inv : Invariant} (t : Traversal) :
    ⟨id, inv⟩ ∈ t.order r.invariants.entries ↔ r.getInvariant id = some inv := by
  rw [(t.perm _).mem_iff, getInvariant]
  exact AList.mem_lookup_iff.symm

end InvariantRegistry

end HyperKitty.Formalization
