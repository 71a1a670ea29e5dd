import HyperKitty.Formalization.Registry
import HyperKitty.Lib.Keyed

namespace HyperKitty.Formalization

open Constraints

/-- The provers in the order of the pipeline. The source has one list of
artifacts, and one copy of each operation on them, for every prover. -/
inductive Prover where
  | hol | lean | agda
  deriving DecidableEq, Repr

namespace Prover

def name : Prover → String
  | hol => "HOL"
  | lean => "Lean4"
  | agda => "Agda"

/-- What the ids of the prover's artifacts begin with. -/
def tag : Prover → String
  | hol => "hol-"
  | lean => "lean-"
  | agda => "agda-"

end Prover

inductive ProverStatus where
  | generatedUnverified | compiledUnverified | verified | failed
  deriving DecidableEq, Repr

structure ProverArtifact where
  prover : String
  invariantId : String
  artifactId : String
  status : ProverStatus
  holType : Option String
  leanType : Option String
  agdaType : Option String
  sourceCode : String
  deriving DecidableEq, Repr

namespace ProverArtifact

def new (prover invariantId artifactId sourceCode : String) : ProverArtifact :=
  ⟨prover, invariantId, artifactId, .generatedUnverified, none, none, none, sourceCode⟩

def withType (a : ProverArtifact) (type : String) : Prover → ProverArtifact
  | .hol => { a with holType := some type }
  | .lean => { a with leanType := some type }
  | .agda => { a with agdaType := some type }

end ProverArtifact

inductive CorrespondenceStatus where
  | unresolved | pending | validated | failed
  deriving DecidableEq, Repr

structure CorrespondenceObligation where
  invariantId : String
  sourceProver : String
  targetProver : String
  sourceArtifactId : String
  targetArtifactId : String
  requiredStatement : String
  status : CorrespondenceStatus
  deriving DecidableEq, Repr

structure AgdaIterationObligation where
  invariantId : String
  index : UInt32
  transformName : String
  sourceInvariant : String
  derivedInvariant : String
  deriving DecidableEq

def AgdaIterationObligation.iterationTransformName (index : UInt32) : String :=
  match index.toNat with
  | 1 => "identity-preservation"
  | 2 => "double-negation-stability"
  | 3 => "conjunction-left-projection"
  | 4 => "conjunction-right-projection"
  | 5 => "implication-closure"
  | 6 => "contrapositive-check"
  | 7 => "reflexive-equality"
  | 8 => "symmetric-equality"
  | 9 => "transitive-equality"
  | 10 => "substitution-preservation"
  | 11 => "domain-restriction"
  | 12 => "codomain-preservation"
  | 13 => "state-transition-preservation"
  | 14 => "graph-edge-preservation"
  | 15 => "topological-order-preservation"
  | 16 => "refinement-strengthening"
  | 17 => "refinement-weakening-check"
  | 18 => "rejection-monotonicity"
  | 19 => "acceptance-soundness"
  | 20 => "cross-prover-correspondence"
  | _ => "unknown-transform"

structure FormalizationMachine where
  projectName : String
  organization : String
  stylesheetVersion : String
  executionPolicy : String
  formalizationOrder : String
  agdaIterationMultiplicity : UInt32
  strictMode : Bool
  registry : InvariantRegistry
  holArtifacts : List ProverArtifact
  leanArtifacts : List ProverArtifact
  agdaArtifacts : List ProverArtifact
  correspondences : List CorrespondenceObligation
  agdaIterations : List AgdaIterationObligation

structure FormalizationSummary where
  totalInvariants : Nat
  holArtifactsCount : Nat
  leanArtifactsCount : Nat
  agdaArtifactsCount : Nat
  correspondenceObligations : Nat
  agdaIterations : Nat
  holVerified : Nat
  leanVerified : Nat
  agdaVerified : Nat
  correspondencesValidated : Nat
  deriving DecidableEq, Repr

namespace FormalizationMachine

def new (projectName organization formalizationOrder : String)
    (agdaIterationMultiplicity : UInt32) : FormalizationMachine where
  projectName := projectName
  organization := organization
  stylesheetVersion := "1.0.0"
  executionPolicy := "PARSE_INVERT_FORMALIZE_VERIFY_REPEAT"
  formalizationOrder := formalizationOrder
  agdaIterationMultiplicity := agdaIterationMultiplicity
  strictMode := true
  registry :=
    .new projectName organization formalizationOrder agdaIterationMultiplicity
  holArtifacts := []
  leanArtifacts := []
  agdaArtifacts := []
  correspondences := []
  agdaIterations := []

def artifacts (m : FormalizationMachine) : Prover → List ProverArtifact
  | .hol => m.holArtifacts
  | .lean => m.leanArtifacts
  | .agda => m.agdaArtifacts

def setArtifacts (m : FormalizationMachine) (as : List ProverArtifact) :
    Prover → FormalizationMachine
  | .hol => { m with holArtifacts := as }
  | .lean => { m with leanArtifacts := as }
  | .agda => { m with agdaArtifacts := as }

def registerInvariant (m : FormalizationMachine) (invariant : Invariant) : FormalizationMachine :=
  { m with registry := m.registry.addInvariant invariant }

/-- An operation returns its result and the machine it leaves. -/
abbrev Returning (α : Type) := Except Error α × FormalizationMachine

def emitArtifact (p : Prover) (m : FormalizationMachine) (invariantId type sourceCode : String) :
    Returning ProverArtifact :=
  let artifactId := p.tag ++ invariantId
  let artifact := (ProverArtifact.new p.name invariantId artifactId sourceCode).withType type p
  (.ok artifact, m.setArtifacts (m.artifacts p ++ [artifact]) p)

def emitHolArtifact := emitArtifact .hol

def emitLeanArtifact := emitArtifact .lean

def emitAgdaArtifact := emitArtifact .agda

def obligation (source target : Prover) (requiredStatement invariantId : String) :
    CorrespondenceObligation where
  invariantId := invariantId
  sourceProver := source.name
  targetProver := target.name
  sourceArtifactId := source.tag ++ invariantId
  targetArtifactId := target.tag ++ invariantId
  requiredStatement := requiredStatement
  status := .unresolved

def holLeanObligation := obligation .hol .lean
  "HOL semantics and Lean semantics preserve canonical normalized predicate."

def leanAgdaObligation := obligation .lean .agda
  "Lean semantics and Agda semantics preserve normalized predicate tree."

def pushCorrespondence (m : FormalizationMachine) (c : CorrespondenceObligation) : Returning Unit :=
  (.ok (), { m with correspondences := m.correspondences ++ [c] })

def createHolLeanCorrespondence (m : FormalizationMachine) (invariantId : String) :
    Returning Unit :=
  m.pushCorrespondence (holLeanObligation invariantId)

def createLeanAgdaCorrespondence (m : FormalizationMachine) (invariantId : String) :
    Returning Unit :=
  m.pushCorrespondence (leanAgdaObligation invariantId)

def agdaIteration (invariantId : String) (index : UInt32) : AgdaIterationObligation where
  invariantId := invariantId
  index := index
  transformName := AgdaIterationObligation.iterationTransformName index
  sourceInvariant := s!"{invariantId}_iter_{index - 1}"
  derivedInvariant := s!"{invariantId}_iter_{index}"

def generateAgdaIterations (m : FormalizationMachine) (invariantId : String) : Returning Unit :=
  let indices := (List.range' 1 m.agdaIterationMultiplicity.toNat).map UInt32.ofNat
  (.ok (), { m with agdaIterations := m.agdaIterations ++ indices.map (agdaIteration invariantId) })

/-- What one obligation is checked for. The source artifact is looked up among
the HOL artifacts, whichever prover the obligation names. -/
def artifactsExist (m : FormalizationMachine) (c : CorrespondenceObligation) : Bool :=
  let holExists := m.holArtifacts.any (·.artifactId == c.sourceArtifactId)
  let targetExists := m.leanArtifacts.any (·.artifactId == c.targetArtifactId) ||
    m.agdaArtifacts.any (·.artifactId == c.targetArtifactId)
  holExists && targetExists

/-- Mark the obligations of an invariant as validated. -/
def validated (invariantId : String) (c : CorrespondenceObligation) : CorrespondenceObligation :=
  if c.invariantId == invariantId then { c with status := .validated } else c

def validateCorrespondence (m : FormalizationMachine) (invariantId : String) : Returning Bool :=
  let matching := m.correspondences.filter (·.invariantId == invariantId)
  if matching.isEmpty then (.ok false, m)
  else
    let allValid := matching.all m.artifactsExist
    if allValid then
      (.ok allValid, { m with correspondences := m.correspondences.map (validated invariantId) })
    else (.ok allValid, m)

def exportConstraint (id : String) (invariant : Invariant) : Constraint :=
  let constraintName := s!"{invariant.kind.asStr}-{id}"
  let otherwiseAction :=
    match invariant.polarity with
    | .negative => .reject
    | _ => .accept
  (Constraint.new constraintName id otherwiseAction).addRequirement (.predicate s!"check_{id}")

def toConstraintProgram (t : Traversal) (m : FormalizationMachine) :
    Except Error ConstraintProgram :=
  .ok <| (t.order m.registry.invariants.entries).foldl
    (fun program entry => program.addConstraint (exportConstraint entry.1 entry.2)) .new

/-- The status of the first artifact with the id is set. -/
def recordStatus (p : Prover) (m : FormalizationMachine) (artifactId : String)
    (status : ProverStatus) : Returning Unit :=
  match Keyed.updateFirst ProverArtifact.artifactId artifactId
    (fun a => { a with status := status }) (m.artifacts p) with
  | some as => (.ok (), m.setArtifacts as p)
  | none => (.error .recordNotFound, m)

def recordHolStatus := recordStatus .hol

def recordLeanStatus := recordStatus .lean

def recordAgdaStatus := recordStatus .agda

def verifiedCount (as : List ProverArtifact) : Nat := as.countP (·.status = .verified)

def summary (m : FormalizationMachine) : FormalizationSummary where
  totalInvariants := m.registry.invariants.entries.length
  holArtifactsCount := m.holArtifacts.length
  leanArtifactsCount := m.leanArtifacts.length
  agdaArtifactsCount := m.agdaArtifacts.length
  correspondenceObligations := m.correspondences.length
  agdaIterations := m.agdaIterations.length
  holVerified := verifiedCount m.holArtifacts
  leanVerified := verifiedCount m.leanArtifacts
  agdaVerified := verifiedCount m.agdaArtifacts
  correspondencesValidated := m.correspondences.countP (·.status = .validated)

end FormalizationMachine

/-- A call that may change the machine. -/
inductive Op where
  | register (invariant : Invariant)
  | emit (p : Prover) (invariantId type sourceCode : String)
  | createHolLeanCorrespondence (invariantId : String)
  | createLeanAgdaCorrespondence (invariantId : String)
  | iterate (invariantId : String)
  | validate (invariantId : String)
  | record (p : Prover) (artifactId : String) (status : ProverStatus)

namespace FormalizationMachine

def step (m : FormalizationMachine) : Op → FormalizationMachine
  | .register invariant => m.registerInvariant invariant
  | .emit .hol invariantId type sourceCode => (m.emitHolArtifact invariantId type sourceCode).2
  | .emit .lean invariantId type sourceCode => (m.emitLeanArtifact invariantId type sourceCode).2
  | .emit .agda invariantId type sourceCode => (m.emitAgdaArtifact invariantId type sourceCode).2
  | .createHolLeanCorrespondence invariantId => (m.createHolLeanCorrespondence invariantId).2
  | .createLeanAgdaCorrespondence invariantId => (m.createLeanAgdaCorrespondence invariantId).2
  | .iterate invariantId => (m.generateAgdaIterations invariantId).2
  | .validate invariantId => (m.validateCorrespondence invariantId).2
  | .record .hol artifactId status => (m.recordHolStatus artifactId status).2
  | .record .lean artifactId status => (m.recordLeanStatus artifactId status).2
  | .record .agda artifactId status => (m.recordAgdaStatus artifactId status).2

theorem step_emit (m : FormalizationMachine) (p : Prover) (invariantId type sourceCode : String) :
    m.step (.emit p invariantId type sourceCode) =
      (emitArtifact p m invariantId type sourceCode).2 := by
  cases p <;> rfl

theorem step_record (m : FormalizationMachine) (p : Prover) (artifactId : String)
    (status : ProverStatus) :
    m.step (.record p artifactId status) = (recordStatus p m artifactId status).2 := by
  cases p <;> rfl

def run (m : FormalizationMachine) (ops : List Op) : FormalizationMachine := ops.foldl step m

end FormalizationMachine

end HyperKitty.Formalization
