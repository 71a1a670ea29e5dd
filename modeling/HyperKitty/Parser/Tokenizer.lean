import HyperKitty.Lib.CString

namespace HyperKitty.Parser

open CString

inductive TokenType where
  | structural | identifier | literal | operator | punctuation | comment | whitespace
  | dangerous | unknown
  deriving DecidableEq, Repr

structure Token where
  type : TokenType
  value : List UInt8
  start : Nat
  stop : Nat
  deriving DecidableEq, Repr

/-- The tokens for which there is room. -/
def maxTokens : Nat := 1024

/-- The letters of the C locale. -/
def isalpha (b : UInt8) : Bool := (65 ≤ b && b ≤ 90) || (97 ≤ b && b ≤ 122)

def isalnum (b : UInt8) : Bool := isalpha b || isdigit b

def underscore : UInt8 := 0x5F

def isPunctuation (b : UInt8) : Bool := b ∈ ascii "+-*/%=<>!&|^~;:,()[]\x7b\x7d."

/-- The byte at a position of a string, whose last byte is followed by a zero. -/
def charAt (input : List UInt8) (i : Nat) : UInt8 := input[i]?.getD 0

/-- Where the run of `p` that starts at `i` ends. -/
def runEnd (p : UInt8 → Bool) (input : List UInt8) (i : Nat) : Nat :=
  i + ((input.drop i).takeWhile p).length

/-- The bytes up to the closing quote. A backslash takes the byte behind it along. -/
def quotedLength (quote : UInt8) : List UInt8 → Nat
  | [] => 0
  | [b] => if b = quote then 0 else 1
  | b :: c :: rest =>
    if b = quote then 0
    else if b = 0x5C then quotedLength quote rest + 2
    else quotedLength quote (c :: rest) + 1

def startsWith (input : List UInt8) (i : Nat) (keyword : String) : Bool :=
  ascii keyword <+: input.drop i

def cut (type : TokenType) (input : List UInt8) (start stop : Nat) : Token where
  type := type
  value := (input.drop start).take (stop - start)
  start := start
  stop := stop

/-- The token at a position inside of the input. -/
def nextToken (input : List UInt8) (i : Nat) : Token :=
  let b := charAt input i
  if isspace b then cut .whitespace input i (runEnd isspace input i)
  else if startsWith input i "if" || startsWith input i "for" || startsWith input i "while" then
    let len := if charAt input (i + 2) = 0 || !isalnum (charAt input (i + 3)) then 2 else 3
    cut .structural input i (i + len)
  else if isalpha b || b = underscore then
    cut .identifier input i (runEnd (fun b => isalnum b || b = underscore) input i)
  else if b = 0x22 || b = 0x27 then
    let stop := i + 1 + quotedLength b (input.drop (i + 1))
    cut .literal input i (if stop < input.length then stop + 1 else stop)
  else if isdigit b then
    cut .literal input i (runEnd (fun b => isdigit b || b = 0x2E) input i)
  else if isPunctuation b then cut .punctuation input i (i + 1)
  else cut .unknown input i (i + 1)

/-- The loop of `tokenize` with room for some more tokens. -/
def tokenizeLoop (input : List UInt8) : Nat → Nat → List Token
  | 0, _ => []
  | room + 1, i =>
    if i < input.length then
      let token := nextToken input i
      token :: tokenizeLoop input room token.stop
    else []

def tokenize (input : List UInt8) : List Token := tokenizeLoop input maxTokens 0

end HyperKitty.Parser
