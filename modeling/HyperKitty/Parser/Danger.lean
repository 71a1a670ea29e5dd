import HyperKitty.Lib.Exec
import HyperKitty.Parser.Tokenizer

namespace HyperKitty.Parser

open Exec

structure DangerousPattern where
  pattern : String
  reason : String
  deriving DecidableEq, Repr

def dangerousPatterns : List DangerousPattern := [
  ⟨"<!DOCTYPE", "XXE_DOCTYPE"⟩,
  ⟨"<!ENTITY", "XXE_ENTITY"⟩,
  ⟨"SYSTEM\\s*=", "XXE_SYSTEM_REF"⟩,
  ⟨"file://", "FILE_PROTOCOL"⟩,
  ⟨"eval\\s*\\(", "CODE_EVAL"⟩,
  ⟨"exec\\s*\\(", "CODE_EXEC"⟩,
  ⟨"fork\\s*\\(", "PROCESS_FORK"⟩,
  ⟨"__import__", "PYTHON_IMPORT"⟩,
  ⟨"subprocess\\.", "SUBPROCESS_CALL"⟩,
  ⟨"os\\.system", "OS_SYSTEM"⟩,
  ⟨"while\\s*\\(\\s*true\\s*\\)", "INFINITE_LOOP"⟩,
  ⟨"while\\s*\\(\\s*1\\s*\\)", "INFINITE_LOOP"⟩,
  ⟨"password\\s*=", "EMBEDDED_PASSWORD"⟩,
  ⟨"api[_-]?key", "EMBEDDED_API_KEY"⟩,
  ⟨"secret", "EMBEDDED_SECRET"⟩,
  ⟨"aws_secret", "AWS_SECRET"⟩,
  ⟨"beacon|tracker|analytics(?!_test)", "UNAUTHORIZED_TELEMETRY"⟩]

/-- The regex functions of the C library, for extended expressions that ignore case:
which patterns compile, and in which texts a pattern has a match. -/
structure RegexLibrary where
  regcomp : String → Bool
  regexec : String → List UInt8 → Bool

/-- The static variables of the parser: the expressions by slot, and their number. A
slot whose expression was not compiled must not be executed. -/
structure Compiled where
  slots : List (Option String)
  numPatterns : Nat
  deriving DecidableEq, Repr

def Compiled.initial : Compiled := ⟨List.replicate 32 none, 0⟩

def compileFrom (lib : RegexLibrary) : Nat → List DangerousPattern → Compiled → Compiled
  | _, [], s => s
  | i, p :: ps, s =>
    compileFrom lib (i + 1) ps <|
      if lib.regcomp p.pattern then
        { slots := s.slots.set i (some p.pattern), numPatterns := s.numPatterns + 1 }
      else { s with slots := s.slots.set i none }

def compilePatterns (lib : RegexLibrary) (s : Compiled) : Compiled :=
  if 0 < s.numPatterns then s else compileFrom lib 0 dangerousPatterns s

/-- The loop of `detectDanger` from a slot on, with some slots left. Executing what is
not compiled is a panic. -/
def detectFrom (lib : RegexLibrary) (s : Compiled) (input : List UInt8) :
    Nat → Nat → Exec Unit (Option String)
  | 0, _ => pure none
  | left + 1, i =>
    match s.slots[i]? with
    | some (some pattern) =>
      if lib.regexec pattern input then pure (dangerousPatterns[i]?.map DangerousPattern.reason)
      else detectFrom lib s input left (i + 1)
    | _ => .error .panic

def detectDanger (lib : RegexLibrary) (s : Compiled) (input : List UInt8) :
    Exec Unit (Option String) × Compiled :=
  let s := compilePatterns lib s
  (detectFrom lib s input s.numPatterns 0, s)

inductive ParseStatus where
  | ok | rejected | error
  deriving DecidableEq, Repr

structure ParseResult where
  tokens : Option (List Token)
  tokenCount : Nat
  status : ParseStatus
  error : Option String
  deriving DecidableEq, Repr

def ParseResult.failed (status : ParseStatus) (error : String) : ParseResult where
  tokens := none
  tokenCount := 0
  status := status
  error := some error

/-- The text of the argument is what stands in front of its zero byte. -/
def parseInput (lib : RegexLibrary) (s : Compiled) : Option (List UInt8) →
    Exec Unit ParseResult × Compiled
  | none => (pure (.failed .error "null_input"), s)
  | some input =>
    let (danger, s) := detectDanger lib s input
    let result := do
      match ← danger with
      | some reason => pure (.failed .rejected reason)
      | none =>
        let tokens := tokenize input
        pure
          { tokens := some tokens
            tokenCount := tokens.length
            status := .ok
            error := none }
    (result, s)

end HyperKitty.Parser
