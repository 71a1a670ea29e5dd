import HyperKitty.Core.Error

namespace HyperKitty.Constraints

inductive OtherwiseAction where
  | reject | accept
  deriving DecidableEq, Repr

inductive Requirement where
  | predicate (name : String)
  | check (name : String)
  deriving DecidableEq, Repr

structure Constraint where
  name : String
  param : String
  requires : List Requirement
  otherwise : OtherwiseAction
  deriving DecidableEq, Repr

structure ConstraintProgram where
  constraints : List Constraint
  deriving DecidableEq, Repr

/-- Evaluation only looks names up, so a map of bindings is its lookup function. -/
abbrev Bindings := String → Option Bool

/-- A name that is not bound counts as false. -/
def Bindings.holds (b : Bindings) (name : String) : Bool := (b name).getD false

namespace Requirement

def name : Requirement → String
  | predicate name => name
  | check name => name

def evaluate (b : Bindings) : Requirement → Bool
  | predicate name => b.holds name
  | check name =>
    if name = "always_true" then true
    else if name = "always_false" then false
    else b.holds name

end Requirement

namespace Constraint

def new (name param : String) (otherwise : OtherwiseAction) : Constraint :=
  ⟨name, param, [], otherwise⟩

def addRequirement (c : Constraint) (req : Requirement) : Constraint :=
  { c with requires := c.requires ++ [req] }

/-- The loop over the requirements, which returns at the first that fails. -/
def evaluateLoop (b : Bindings) (otherwise : OtherwiseAction) : List Requirement → Bool
  | [] => true
  | req :: rest =>
    if !req.evaluate b then otherwise == .accept else evaluateLoop b otherwise rest

def evaluate (b : Bindings) (c : Constraint) : Bool := evaluateLoop b c.otherwise c.requires

end Constraint

namespace ConstraintProgram

def new : ConstraintProgram := ⟨[]⟩

def addConstraint (p : ConstraintProgram) (c : Constraint) : ConstraintProgram :=
  ⟨p.constraints ++ [c]⟩

def evaluate (b : Bindings) (p : ConstraintProgram) : Bool := p.constraints.all (·.evaluate b)

end ConstraintProgram

structure Evaluator where
  program : ConstraintProgram

namespace Evaluator

def evaluate (ev : Evaluator) (b : Bindings) : Except Error Bool := .ok (ev.program.evaluate b)

/-- The first constraint of the name decides. -/
def evaluateConstraint (ev : Evaluator) (name : String) (b : Bindings) : Except Error Bool :=
  match ev.program.constraints.find? (·.name == name) with
  | some c => .ok (c.evaluate b)
  | none => .error (.custom s!"Constraint not found: {name}")

def countPassing (ev : Evaluator) (b : Bindings) : Nat :=
  (ev.program.constraints.filter (·.evaluate b)).length

end Evaluator

end HyperKitty.Constraints
