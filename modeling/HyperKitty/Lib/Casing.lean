import Mathlib

/-- The tables of lower-case letters beyond ASCII, and of the characters that
decide whether a sigma ends its word. -/
structure Casing where
  lower : Char → List Char
  cased : Char → Bool
  caseIgnorable : Char → Bool

namespace Casing

variable (t : Casing)

def toLower (c : Char) : List Char := if c.toNat ≤ 0x7F then [c.toLower] else t.lower c

def isCased (c : Char) : Bool := if c.toNat ≤ 0x7F then c.isAlpha else t.cased c

def isCaseIgnorable (c : Char) : Bool :=
  if c.toNat ≤ 0x7F then "'.:^`".toList.contains c else t.caseIgnorable c

def caseIgnorableThenCased (cs : List Char) : Bool :=
  match cs.dropWhile t.isCaseIgnorable with
  | c :: _ => t.isCased c
  | [] => false

/-- The lower-case text of `cs`, where `before` is what stands before it, backwards. -/
def lowercaseFrom : List Char → List Char → List Char
  | _, [] => []
  | before, c :: cs =>
    (if c = 'Σ' then
      [if t.caseIgnorableThenCased before && !t.caseIgnorableThenCased cs then 'ς' else 'σ']
    else t.toLower c) ++ lowercaseFrom (c :: before) cs

def toLowercase (cs : List Char) : List Char := t.lowercaseFrom [] cs

/-- Tables that know ASCII only. -/
def ascii : Casing where
  lower c := [c]
  cased _ := false
  caseIgnorable _ := false

variable {t} {cs ds before more : List Char}

theorem caseIgnorableThenCased_newline :
    t.caseIgnorableThenCased (cs ++ '\n' :: ds) = t.caseIgnorableThenCased cs := by
  induction cs with
  | nil => simp [caseIgnorableThenCased, isCaseIgnorable, isCased, Char.isAlpha, Char.isUpper,
      Char.isLower]
  | cons c cs ih =>
    by_cases hc : t.isCaseIgnorable c = true
    · simpa only [caseIgnorableThenCased, List.cons_append, List.dropWhile_cons, hc, if_true]
        using ih
    · simp only [caseIgnorableThenCased, List.cons_append, List.dropWhile_cons, hc, if_false,
        Bool.false_eq_true]

/-- No word reaches back across a line feed. -/
theorem lowercaseFrom_before (t : Casing) (before more cs : List Char) :
    t.lowercaseFrom (before ++ '\n' :: more) cs = t.lowercaseFrom before cs := by
  induction cs generalizing before with
  | nil => rfl
  | cons c cs ih =>
    rw [lowercaseFrom, lowercaseFrom, caseIgnorableThenCased_newline, ← List.cons_append, ih]

theorem lowercaseFrom_newline : t.lowercaseFrom before (cs ++ '\n' :: ds) =
    t.lowercaseFrom before cs ++ '\n' :: t.toLowercase ds := by
  induction cs generalizing before with
  | nil =>
    have hback := t.lowercaseFrom_before [] before ds
    rw [List.nil_append] at hback
    rw [List.nil_append, lowercaseFrom, lowercaseFrom, if_neg (by decide), hback]
    rfl
  | cons c cs ih =>
    rw [List.cons_append, lowercaseFrom, lowercaseFrom, caseIgnorableThenCased_newline, ih,
      List.append_assoc]

theorem toLowercase_newline :
    t.toLowercase (cs ++ '\n' :: ds) = t.toLowercase cs ++ '\n' :: t.toLowercase ds :=
  lowercaseFrom_newline

theorem lowercaseFrom_ascii (h : ∀ c ∈ cs, c.toNat ≤ 0x7F) :
    t.lowercaseFrom before cs = cs.map Char.toLower := by
  induction cs generalizing before with
  | nil => rfl
  | cons c cs ih =>
    obtain ⟨hc, hcs⟩ := List.forall_mem_cons.mp h
    have hsigma : c ≠ 'Σ' := by
      rintro rfl
      revert hc
      decide
    rw [lowercaseFrom, if_neg hsigma, toLower, if_pos hc, ih hcs]
    rfl

theorem toLowercase_ascii (h : ∀ c ∈ cs, c.toNat ≤ 0x7F) :
    t.toLowercase cs = cs.map Char.toLower :=
  lowercaseFrom_ascii h

end Casing
