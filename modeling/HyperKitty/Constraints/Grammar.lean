import HyperKitty.Constraints.Ast
import HyperKitty.Constraints.Lexer

namespace HyperKitty.Constraints

inductive RequirementDerives : List Token → Requirement → Prop
  | check : RequirementDerives [.ident name, .lparen, .rparen] (.check name)
  | predicate : RequirementDerives [.ident name] (.predicate name)

inductive RequiresDerive : List Token → List Requirement → Prop
  | nil : RequiresDerive [] []
  | cons (hr : RequirementDerives ts req) (ht : RequiresDerive us reqs) :
      RequiresDerive (.require :: (ts ++ .semicolon :: us)) (req :: reqs)

inductive ParamDerives : Token → String → Prop
  | ident : ParamDerives (.ident s) s
  | string : ParamDerives (.string s) s

inductive ActionDerives : Token → OtherwiseAction → Prop
  | reject : ActionDerives .reject .reject
  | accept : ActionDerives .accept .accept

/-- A missing clause means rejection. -/
inductive OtherwiseDerives : List Token → OtherwiseAction → Prop
  | missing : OtherwiseDerives [] .reject
  | clause (ha : ActionDerives t action) : OtherwiseDerives [.otherwise, t, .semicolon] action

inductive ConstraintDerives : List Token → Constraint → Prop
  | mk (hp : ParamDerives t param) (hr : RequiresDerive ts reqs) (ho : OtherwiseDerives us action) :
      ConstraintDerives
        (.validity :: .lparen :: .ident name :: .rparen :: t :: .lbrace ::
          (ts ++ (us ++ [.rbrace])))
        ⟨name, param, reqs, action⟩

inductive ProgramDerives : List Token → List Constraint → Prop
  | nil : ProgramDerives [] []
  | cons (hc : ConstraintDerives ts c) (ht : ProgramDerives us cs) :
      ProgramDerives (ts ++ us) (c :: cs)

theorem RequiresDerive.snoc (hs : RequiresDerive ts reqs) (hr : RequirementDerives us req) :
    RequiresDerive (ts ++ .require :: (us ++ [.semicolon])) (reqs ++ [req]) := by
  induction hs with
  | nil => exact .cons hr .nil
  | cons hr' _ ih => simpa using RequiresDerive.cons hr' ih

theorem ProgramDerives.snoc (hs : ProgramDerives ts cs) (hc : ConstraintDerives us c) :
    ProgramDerives (ts ++ us) (cs ++ [c]) := by
  induction hs with
  | nil => simpa using ProgramDerives.cons hc .nil
  | cons hc' _ ih => simpa using ProgramDerives.cons hc' ih

theorem ConstraintDerives.ne_nil (h : ConstraintDerives ts c) : ts ≠ [] := by
  cases h
  simp

/-- The tokens before the first end of file. -/
def beforeEof (ts : List Token) : List Token := ts.takeWhile (· ≠ .eof)

theorem RequirementDerives.no_eof (h : RequirementDerives ts req) : .eof ∉ ts := by
  cases h <;> simp

theorem RequiresDerive.no_eof (h : RequiresDerive ts reqs) : .eof ∉ ts := by
  induction h with
  | nil => simp
  | cons hr _ ih => simp [hr.no_eof, ih]

theorem OtherwiseDerives.no_eof (h : OtherwiseDerives ts action) : .eof ∉ ts := by
  cases h with
  | missing => simp
  | clause ha => cases ha <;> simp

theorem ConstraintDerives.no_eof (h : ConstraintDerives ts c) : .eof ∉ ts := by
  cases h with
  | mk hp hr ho => cases hp <;> simp [hr.no_eof, ho.no_eof]

theorem ProgramDerives.no_eof (h : ProgramDerives ts cs) : .eof ∉ ts := by
  induction h with
  | nil => simp
  | cons hc _ ih => simp [hc.no_eof, ih]

end HyperKitty.Constraints
