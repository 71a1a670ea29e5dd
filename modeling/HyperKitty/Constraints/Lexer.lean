import HyperKitty.Core.Error
import HyperKitty.Lib.Text
import HyperKitty.Constraints.Unicode

namespace HyperKitty.Constraints

open Exec

inductive Token where
  | validity | require | deny | otherwise | reject | accept
  | ident (name : String) | number (text : String) | string (text : String)
  | lparen | rparen | lbrace | rbrace | semicolon | colon | comma | arrow
  | eof
  deriving DecidableEq, Repr

/-- The position counts bytes of the UTF-8 source, as the source's index does. -/
structure Lexer where
  source : List Char
  pos : Nat
  line : Nat

namespace Lexer

def new (source : String) : Lexer := ⟨source.toList, 0, 1⟩

/-- The first character of the slice at a byte position; slicing inside a
character or past the end panics. -/
def charAt (lx : Lexer) (pos : Nat) : Exec Error (Option Char) :=
  match Text.sliceFrom lx.source pos with
  | some cs => pure cs.head?
  | none => .error .panic

def currentChar (lx : Lexer) : Exec Error (Option Char) := lx.charAt lx.pos

def peekChar (lx : Lexer) (offset : Nat) : Exec Error (Option Char) := lx.charAt (lx.pos + offset)

def advance (lx : Lexer) : Exec Error Lexer := do
  match ← lx.currentChar with
  | some ch =>
    let line := if ch = '\n' then lx.line + 1 else lx.line
    pure { lx with line := line, pos := lx.pos + ch.utf8Size }
  | none => pure lx

/-- More passes than any loop over the source can make, as each one consumes
a character. -/
def fuel (lx : Lexer) : Nat := lx.source.length + 1

/-- One pass of the loop inside a comment. -/
def commentPass (lx : Lexer) : Exec Error (Step Lexer Lexer) := do
  match ← lx.currentChar with
  | some c =>
    let lx ← lx.advance
    if c = '\n' then pure (.done lx) else pure (.next lx)
  | none => pure (.done lx)

/-- Skip to the end of the line. -/
def skipComment (lx : Lexer) : Exec Error Lexer := loop lx.fuel commentPass lx

def whitespacePass (lx : Lexer) : Exec Error (Step Lexer Lexer) := do
  match ← lx.currentChar with
  | some ch =>
    if isWhitespace ch then
      pure (.next (← lx.advance))
    else if ch = '#' then
      pure (.next (← lx.skipComment))
    else pure (.done lx)
  | none => pure (.done lx)

def skipWhitespace (lx : Lexer) : Exec Error Lexer := loop lx.fuel whitespacePass lx

/-- The character an escape stands for. -/
def unescape : Char → Char
  | 'n' => '\n'
  | 't' => '\t'
  | 'r' => '\r'
  | c => c

def stringPass (quote : Char) : String × Lexer → Exec Error (Step (String × Lexer) (String × Lexer))
  | (result, lx) => do
    match ← lx.currentChar with
    | some ch =>
      if ch = quote then
        pure (.done (result, ← lx.advance))
      else if ch = '\\' then
        let lx ← lx.advance
        match ← lx.currentChar with
        | some c => pure (.next (result.push (unescape c), ← lx.advance))
        | none => fail (.lexerError "Unterminated string escape")
      else pure (.next (result.push ch, ← lx.advance))
    | none => fail (.lexerError "Unterminated string")

def readString (lx : Lexer) (quote : Char) : Exec Error (String × Lexer) := do
  let lx ← lx.advance
  loop lx.fuel (stringPass quote) ("", lx)

/-- The loop of numbers and names: collect characters while `p` holds. -/
def whilePass (p : Char → Bool) :
    String × Lexer → Exec Error (Step (String × Lexer) (String × Lexer))
  | (result, lx) => do
    match ← lx.currentChar with
    | some ch =>
      if p ch then pure (.next (result.push ch, ← lx.advance)) else pure (.done (result, lx))
    | none => pure (.done (result, lx))

def readWhile (lx : Lexer) (p : Char → Bool) : Exec Error (String × Lexer) :=
  loop lx.fuel (whilePass p) ("", lx)

def isNumberPart (c : Char) : Bool := isAsciiDigit c || c == '.'

def readNumber (lx : Lexer) : Exec Error (String × Lexer) := lx.readWhile isNumberPart

def readIdent (lx : Lexer) (u : Unicode) : Exec Error (String × Lexer) := lx.readWhile u.isIdentPart

/-- The tokens of one fixed character. -/
def punctuation : Char → Option Token
  | '(' => some .lparen
  | ')' => some .rparen
  | '{' => some .lbrace
  | '}' => some .rbrace
  | ';' => some .semicolon
  | ':' => some .colon
  | ',' => some .comma
  | _ => none

def keyword (ident : String) : Token :=
  if ident = "validity" then .validity
  else if ident = "require" then .require
  else if ident = "deny" then .deny
  else if ident = "otherwise" then .otherwise
  else if ident = "reject" then .reject
  else if ident = "accept" then .accept
  else .ident ident

/-- The guard of the arrow arm, which looks past the equals sign only. -/
def arrowAhead (lx : Lexer) (ch : Char) : Exec Error Bool := do
  if ch = '=' then
    pure (decide ((← lx.peekChar 1) = some '>'))
  else pure false

/-- The token that begins with the current character `ch`. -/
def readToken (lx : Lexer) (u : Unicode) (ch : Char) : Exec Error (Token × Lexer) := do
  match punctuation ch with
  | some t => pure (t, ← lx.advance)
  | none =>
    if ← lx.arrowAhead ch then
      let lx ← lx.advance
      pure (.arrow, ← lx.advance)
    else if ch = '"' ∨ ch = '\'' then
      let (s, lx) ← lx.readString ch
      pure (.string s, lx)
    else if isAsciiDigit ch then
      let (num, lx) ← lx.readNumber
      pure (.number num, lx)
    else if u.isIdentStart ch then
      let (ident, lx) ← lx.readIdent u
      pure (keyword ident, lx)
    else
      let line := lx.line
      fail (.lexerError s!"Unexpected character: {ch} at line {line}")

def tokenizePass (u : Unicode) :
    List Token × Lexer → Exec Error (Step (List Token × Lexer) (List Token))
  | (tokens, lx) => do
    let lx ← lx.skipWhitespace
    match ← lx.currentChar with
    | none => pure (.done (tokens ++ [.eof]))
    | some ch =>
      let (t, lx) ← lx.readToken u ch
      pure (.next (tokens ++ [t], lx))

def tokenize (lx : Lexer) (u : Unicode) : Exec Error (List Token) :=
  loop lx.fuel (tokenizePass u) ([], lx)

end Lexer

end HyperKitty.Constraints
