import HyperKitty.Constraints.Ast
import HyperKitty.Constraints.Lexer

namespace HyperKitty.Constraints

open Exec

/-- Debug output of a token; payloads are quoted and escaped. -/
def Token.debug (u : Unicode) : Token → String
  | validity => "Validity"
  | require => "Require"
  | deny => "Deny"
  | otherwise => "Otherwise"
  | reject => "Reject"
  | accept => "Accept"
  | ident name => "Ident(" ++ quoted name ++ ")"
  | number text => "Number(" ++ quoted text ++ ")"
  | string text => "String(" ++ quoted text ++ ")"
  | lparen => "LParen"
  | rparen => "RParen"
  | lbrace => "LBrace"
  | rbrace => "RBrace"
  | semicolon => "Semicolon"
  | colon => "Colon"
  | comma => "Comma"
  | arrow => "Arrow"
  | eof => "Eof"
where
  quoted (s : String) : String := "\"" ++ String.join (s.toList.map u.escapeDebug) ++ "\""

structure Parser where
  tokens : List Token
  pos : Nat

namespace Parser

def new (tokens : List Token) : Parser := ⟨tokens, 0⟩

/-- Past the last token the parser sees the end of the file. -/
def current (ps : Parser) : Token := ps.tokens[ps.pos]?.getD .eof

def advance (ps : Parser) : Parser :=
  if ps.pos < ps.tokens.length then { ps with pos := ps.pos + 1 } else ps

/-- Only the kinds of the two tokens are compared, not their payloads. -/
def expect (u : Unicode) (ps : Parser) (expected : Token) : Exec Error Parser :=
  if ps.current.ctorIdx = expected.ctorIdx then .ok ps.advance
  else
    let want := expected.debug u
    let got := ps.current.debug u
    fail (.syntaxError s!"Expected {want}, got {got}")

def parseName (ps : Parser) : Exec Error (String × Parser) :=
  match ps.current with
  | .ident s => .ok (s, ps.advance)
  | _ => fail (.syntaxError "Expected constraint name")

def parseParam (ps : Parser) : Exec Error (String × Parser) :=
  match ps.current with
  | .ident s => .ok (s, ps.advance)
  | .string s => .ok (s, ps.advance)
  | _ => fail (.syntaxError "Expected constraint parameter")

def parseRequirement (u : Unicode) (ps : Parser) : Exec Error (Requirement × Parser) :=
  match ps.current with
  | .ident name => do
    let ps := ps.advance
    if ps.current = .lparen then
      let ps ← expect u ps.advance .rparen
      pure (.check name, ps)
    else pure (.predicate name, ps)
  | _ => fail (.syntaxError "Expected requirement predicate or check")

/-- More passes than any loop over the tokens can make. -/
def fuel (ps : Parser) : Nat := ps.tokens.length + 1

def requiresPass (u : Unicode) :
    Constraint × Parser → Exec Error (Step (Constraint × Parser) (Constraint × Parser))
  | (c, ps) =>
    if ps.current ≠ .otherwise ∧ ps.current ≠ .rbrace then do
      let ps ← expect u ps .require
      let (req, ps) ← parseRequirement u ps
      let ps ← expect u ps .semicolon
      pure (.next (c.addRequirement req, ps))
    else pure (.done (c, ps))

def parseAction (ps : Parser) : Exec Error (OtherwiseAction × Parser) :=
  match ps.current with
  | .reject => .ok (.reject, ps.advance)
  | .accept => .ok (.accept, ps.advance)
  | _ => fail (.syntaxError "Expected 'reject' or 'accept' after 'otherwise'")

/-- The clause may be missing, which leaves the constraint's action as it is. -/
def parseOtherwise (u : Unicode) (c : Constraint) (ps : Parser) :
    Exec Error (Constraint × Parser) :=
  if ps.current = .otherwise then do
    let (action, ps) ← parseAction ps.advance
    let ps ← expect u ps .semicolon
    pure ({ c with otherwise := action }, ps)
  else pure (c, ps)

def parseConstraint (u : Unicode) (ps : Parser) : Exec Error (Constraint × Parser) := do
  let ps ← expect u ps .validity
  let ps ← expect u ps .lparen
  let (name, ps) ← parseName ps
  let ps ← expect u ps .rparen
  let (param, ps) ← parseParam ps
  let ps ← expect u ps .lbrace
  let (c, ps) ← loop ps.fuel (requiresPass u) (Constraint.new name param .reject, ps)
  let (c, ps) ← parseOtherwise u c ps
  let ps ← expect u ps .rbrace
  pure (c, ps)

def parsePass (u : Unicode) : ConstraintProgram × Parser →
    Exec Error (Step (ConstraintProgram × Parser) ConstraintProgram)
  | (program, ps) =>
    if ps.current ≠ .eof then do
      let (c, ps) ← parseConstraint u ps
      pure (.next (program.addConstraint c, ps))
    else pure (.done program)

def parse (u : Unicode) (ps : Parser) : Exec Error ConstraintProgram :=
  loop ps.fuel (parsePass u) (ConstraintProgram.new, ps)

end Parser

/-- The steps of the compiler that the code has: tokens, then the tree. -/
def compile (u : Unicode) (source : String) : Exec Error ConstraintProgram := do
  let tokens ← (Lexer.new source).tokenize u
  Parser.parse u (Parser.new tokens)

end HyperKitty.Constraints
