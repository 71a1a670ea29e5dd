import HyperKitty.Dsl.Lexer

namespace HyperKitty.Dsl

open Constraints (Unicode isAsciiDigit)

/-- The texts that spell a token. -/
inductive Spells (u : Unicode) : Token → List Char → Prop
  | punctuation {c : Char} {t : Token} (hc : punctuation c = some t) : Spells u t [c]
  | equals : Spells u .equals ['=']
  | doubleEquals : Spells u .equals ['=', '=']
  | lessThanEq : Spells u .lessThanEq ['<', '=']
  | string {s : List Char} (hs : '"' ∉ s) : Spells u (.string (.ofList s)) ('"' :: (s ++ ['"']))
  | number {ds : List Char} {n : Int64} (hne : ds ≠ []) (hd : ∀ d ∈ ds, isAsciiDigit d = true)
      (hv : n.toInt = Decimal.value ds) : Spells u (.number n) ds
  | name {c : Char} {cs : List Char} (hc : u.isIdentStart c = true)
      (hs : ∀ d ∈ cs, u.isIdentPart d = true) : Spells u (keyword (.ofList (c :: cs))) (c :: cs)

/-- A text made of spellings of the tokens in order, with blanks around them. -/
inductive Lays (u : Unicode) : List Token → List Char → Prop
  | nil : Lays u [] []
  | blank {c : Char} {ts : List Token} {text : List Char} (hc : isBlank c = true)
      (hl : Lays u ts text) : Lays u ts (c :: text)
  | token {t : Token} {cs : List Char} {ts : List Token} {text : List Char} (ht : Spells u t cs)
      (hl : Lays u ts text) : Lays u (t :: ts) (cs ++ text)

/-- Outside of strings there is nothing but blanks, the marks of the language with an equals sign
after each `<`, names, and numbers that fit 64 bits; and every string is closed. -/
inductive Clean (u : Unicode) : List Char → Prop
  | nil : Clean u []
  | blank {c : Char} {text : List Char} (hc : isBlank c = true) (h : Clean u text) :
      Clean u (c :: text)
  | punctuation {c : Char} {t : Token} {text : List Char} (hc : punctuation c = some t)
      (h : Clean u text) : Clean u (c :: text)
  | equals {text : List Char} (hn : text.head? ≠ some '=') (h : Clean u text) :
      Clean u ('=' :: text)
  | doubleEquals {text : List Char} (h : Clean u text) : Clean u ('=' :: '=' :: text)
  | lessThanEq {text : List Char} (h : Clean u text) : Clean u ('<' :: '=' :: text)
  | string {s text : List Char} (hs : '"' ∉ s) (h : Clean u text) :
      Clean u ('"' :: (s ++ '"' :: text))
  | number {d : Char} {ds text : List Char} (hd : ∀ e ∈ d :: ds, isAsciiDigit e = true)
      (hstop : ∀ e ∈ text.head?, isAsciiDigit e = false) (hv : Decimal.value (d :: ds) < 2 ^ 63)
      (h : Clean u text) : Clean u (d :: (ds ++ text))
  | name {c : Char} {cs text : List Char} (hc : u.isIdentStart c = true)
      (hs : ∀ d ∈ cs, u.isIdentPart d = true) (hstop : ∀ e ∈ text.head?, u.isIdentPart e = false)
      (h : Clean u text) : Clean u (c :: (cs ++ text))

end HyperKitty.Dsl
