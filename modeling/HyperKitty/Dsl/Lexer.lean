import HyperKitty.Core.Error
import HyperKitty.Lib.Decimal
import HyperKitty.Constraints.Unicode

namespace HyperKitty.Dsl

open Exec
open Constraints (Unicode isAsciiDigit)

inductive Token where
  | require | balance | invariant | entropy | proof | runtime | identity | phase
  | otherwise | reject
  | identifier (name : String) | number (n : Int64) | string (text : String)
  | lessThanEq | equals | leftParen | rightParen | leftBrace | rightBrace | semicolon | comma
  | eof
deriving DecidableEq, Repr

/-- The characters that the lexer skips as white space. -/
def isBlank (c : Char) : Bool := c == ' ' || c == '\t' || c == '\n' || c == '\r'

/-- The tokens of one fixed character. -/
def punctuation : Char → Option Token
  | '(' => some .leftParen
  | ')' => some .rightParen
  | '\x7b' => some .leftBrace
  | '\x7d' => some .rightBrace
  | ';' => some .semicolon
  | ',' => some .comma
  | _ => none

/-- `parse::<i64>` on a text of digits. -/
def parseI64 (num : List Char) : Option Int64 :=
  if Decimal.value num < 2 ^ 63 then some (.ofNat (Decimal.value num)) else none

def keyword (ident : String) : Token :=
  if ident = "require" then .require
  else if ident = "balance" then .balance
  else if ident = "invariant" then .invariant
  else if ident = "entropy" then .entropy
  else if ident = "proof" then .proof
  else if ident = "runtime" then .runtime
  else if ident = "identity" then .identity
  else if ident = "phase" then .phase
  else if ident = "otherwise" then .otherwise
  else if ident = "reject" then .reject
  else .identifier ident

/-- What is pushed for the next character `ch`, and what is left to read. -/
def scan (u : Unicode) (ch : Char) (chars : List Char) : Option Token × List Char :=
  if isBlank ch then (none, chars)
  else
    match punctuation ch with
    | some t => (some t, chars)
    | none =>
      if ch = '=' then
        if chars.head? = some '=' then (some .equals, chars.tail) else (some .equals, chars)
      else if ch = '<' then
        if chars.head? = some '=' then (some .lessThanEq, chars.tail) else (none, chars)
      else if ch = '"' then
        -- the closing quote is consumed if there is one
        (some (.string (.ofList (chars.takeWhile (· != '"')))),
          (chars.dropWhile (· != '"')).tail)
      else if isAsciiDigit ch then
        let num := (ch :: chars).takeWhile isAsciiDigit
        ((parseI64 num).map .number, (ch :: chars).dropWhile isAsciiDigit)
      else if u.isIdentStart ch then
        let ident := (ch :: chars).takeWhile u.isIdentPart
        (some (keyword (.ofList ident)), (ch :: chars).dropWhile u.isIdentPart)
      else (none, chars)

/-- One pass of the loop over the characters. -/
def lexPass (u : Unicode) :
    List Token × List Char → Exec Error (Step (List Token × List Char) (List Token))
  | (tokens, []) => pure (.done (tokens ++ [.eof]))
  | (tokens, ch :: chars) =>
    let (t, chars) := scan u ch chars
    pure (.next (tokens ++ t.toList, chars))

/-- Each pass consumes a character. -/
def lex (u : Unicode) (input : String) : Exec Error (List Token) :=
  loop (input.toList.length + 1) (lexPass u) ([], input.toList)

end HyperKitty.Dsl
