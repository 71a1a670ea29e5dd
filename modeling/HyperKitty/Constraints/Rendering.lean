import HyperKitty.Constraints.Grammar
import HyperKitty.Constraints.Layout

namespace HyperKitty.Constraints

def keywords : List String := ["validity", "require", "deny", "otherwise", "reject", "accept"]

/-- A name that is read as one name. -/
def isName (u : Unicode) (s : String) : Bool :=
  match s.toList with
  | [] => false
  | c :: cs => u.isIdentStart c && cs.all u.isIdentPart && !keywords.contains s

def Requirement.tokens : Requirement → List Token
  | predicate name => [.ident name]
  | check name => [.ident name, .lparen, .rparen]

def OtherwiseAction.token : OtherwiseAction → Token
  | reject => .reject
  | accept => .accept

namespace Constraint

def requiresTokens : List Requirement → List Token
  | [] => []
  | req :: reqs => .require :: (req.tokens ++ .semicolon :: requiresTokens reqs)

/-- The parameter is always written as a string literal. -/
def tokens (c : Constraint) : List Token :=
  .validity :: .lparen :: .ident c.name :: .rparen :: .string c.param :: .lbrace ::
    (requiresTokens c.requires ++ ([.otherwise, c.otherwise.token, .semicolon] ++ [.rbrace]))

/-- Every name of the constraint can be written down. -/
def Lexable (u : Unicode) (c : Constraint) : Prop :=
  isName u c.name = true ∧ ∀ req ∈ c.requires, isName u req.name = true

end Constraint

def ConstraintProgram.tokens (p : ConstraintProgram) : List Token :=
  p.constraints.flatMap Constraint.tokens

def ConstraintProgram.Lexable (u : Unicode) (p : ConstraintProgram) : Prop :=
  ∀ c ∈ p.constraints, c.Lexable u

/-- Only the quote and the backslash are escaped. -/
def escape (quote c : Char) : List Char := if c = quote ∨ c = '\\' then ['\\', c] else [c]

def Token.spelling (quote : Char) : Token → List Char
  | validity => "validity".toList
  | require => "require".toList
  | deny => "deny".toList
  | otherwise => "otherwise".toList
  | reject => "reject".toList
  | accept => "accept".toList
  | ident name => name.toList
  | number text => text.toList
  | string text => quote :: (text.toList.flatMap (escape quote) ++ [quote])
  | lparen => ['(']
  | rparen => [')']
  | lbrace => ['{']
  | rbrace => ['}']
  | semicolon => [';']
  | colon => [':']
  | comma => [',']
  | arrow => ['=', '>']
  | eof => []

/-- A blank before each token and the quote for it if it is a string, by position. -/
abbrev Style := Nat → List Char × Char

/-- No two tokens touch, and the quotes are quotes. -/
def Style.Spaced (style : Style) : Prop :=
  ∀ n, Blank (style n).1 ∧ (style n).1 ≠ [] ∧ ((style n).2 = '"' ∨ (style n).2 = '\'')

def renderTokens (style : Style) : List Token → List Char
  | [] => (style 0).1
  | t :: ts => (style 0).1 ++ (t.spelling (style 0).2 ++ renderTokens (fun n => style (n + 1)) ts)

def ConstraintProgram.render (style : Style) (p : ConstraintProgram) : String :=
  String.ofList (renderTokens style p.tokens)

theorem Requirement.tokens_derives (req : Requirement) : RequirementDerives req.tokens req := by
  cases req with
  | predicate name => exact .predicate
  | check name => exact .check

theorem OtherwiseAction.token_derives (action : OtherwiseAction) :
    ActionDerives action.token action := by
  cases action with
  | reject => exact .reject
  | accept => exact .accept

theorem Constraint.requiresTokens_derives (reqs : List Requirement) :
    RequiresDerive (requiresTokens reqs) reqs := by
  induction reqs with
  | nil => exact .nil
  | cons req reqs ih => exact .cons req.tokens_derives ih

theorem Constraint.tokens_derives (c : Constraint) : ConstraintDerives c.tokens c :=
  .mk .string (requiresTokens_derives c.requires) (.clause c.otherwise.token_derives)

/-- The grammar derives what is written out. -/
theorem ConstraintProgram.tokens_derives (p : ConstraintProgram) :
    ProgramDerives p.tokens p.constraints := by
  obtain ⟨cs⟩ := p
  induction cs with
  | nil => exact .nil
  | cons c cs ih => exact .cons c.tokens_derives ih

theorem keyword_of_not_mem (h : s ∉ keywords) : Lexer.keyword s = .ident s := by
  simp only [keywords, List.mem_cons, List.not_mem_nil, or_false, not_or] at h
  simp [Lexer.keyword, h]

theorem isName_spells (h : isName u s = true) : Spells u (.ident s) s.toList := by
  simp only [isName] at h
  split at h
  · cases h
  · rename_i c cs hs
    simp only [Bool.and_eq_true, Bool.not_eq_true', List.contains_eq_mem, decide_eq_false_iff_not,
      List.all_eq_true] at h
    have hw := Spells.word (u := u) h.1.1 h.1.2
    rw [← hs, String.ofList_toList, keyword_of_not_mem h.2] at hw
    exact hs ▸ hw

/-- Whatever the tables say, a keyword is read as one word. -/
theorem spells_keyword (u : Unicode) (hk : k ∈ keywords) :
    Spells u (Lexer.keyword k) k.toList := by
  have letters :
      keywords.all (fun k => k.toList.all (between 'a' 'z') && k.toList ≠ []) = true := by decide
  have h := List.all_eq_true.mp letters k hk
  simp only [Bool.and_eq_true, List.all_eq_true, decide_eq_true_eq] at h
  obtain ⟨hl, hn⟩ := h
  obtain ⟨c, cs, hs⟩ := List.exists_cons_of_ne_nil hn
  have hstart : ∀ d ∈ c :: cs, u.isIdentStart d = true := fun d hd => by
    simp [Unicode.isIdentStart, Unicode.isAlphabetic, hl d (hs ▸ hd)]
  have hw : Spells u (Lexer.keyword (String.ofList (c :: cs))) (c :: cs) :=
    .word (hstart c (by simp)) fun d hd => Unicode.isIdentPart_of_start (hstart d (by simp [hd]))
  rw [← hs, String.ofList_toList] at hw
  exact hs ▸ hw

/-- The quote and the backslash stand for themselves in an escape. -/
theorem unescape_quote (hq : quote = '"' ∨ quote = '\'') (hc : c = quote ∨ c = '\\') :
    Lexer.unescape c = c := by
  rcases hc with rfl | rfl
  · rcases hq with rfl | rfl <;> rfl
  · rfl

theorem quoted_escape (hq : quote = '"' ∨ quote = '\'') (s : List Char) :
    Quoted quote s (s.flatMap (escape quote)) := by
  induction s with
  | nil => exact .nil
  | cons c s ih =>
    rw [List.flatMap_cons, escape]
    split
    · rename_i hc
      have he := Quoted.escape (c := c) ih
      rwa [unescape_quote hq hc] at he
    · rename_i hc
      rw [not_or] at hc
      exact .plain hc.1 hc.2 ih

/-- The tokens that programs consist of, with names that can be written down. -/
def Token.Writable (u : Unicode) : Token → Prop
  | ident name => isName u name = true
  | number _ | eof => False
  | _ => True

theorem spells_spelling (hq : quote = '"' ∨ quote = '\'') (h : t.Writable u) :
    Spells u t (t.spelling quote) := by
  cases t with
  | validity => exact spells_keyword u (k := "validity") (by decide)
  | require => exact spells_keyword u (k := "require") (by decide)
  | deny => exact spells_keyword u (k := "deny") (by decide)
  | otherwise => exact spells_keyword u (k := "otherwise") (by decide)
  | reject => exact spells_keyword u (k := "reject") (by decide)
  | accept => exact spells_keyword u (k := "accept") (by decide)
  | ident name => exact isName_spells h
  | number text => exact h.elim
  | eof => exact h.elim
  | string text =>
    have hs := Spells.string (u := u) hq (quoted_escape hq text.toList)
    rwa [String.ofList_toList] at hs
  | arrow => exact .arrow
  | lparen | rparen | lbrace | rbrace | semicolon | colon | comma => exact .punctuation rfl

theorem layout_render (hts : ∀ t ∈ ts, t.Writable u) (hs : style.Spaced) :
    Layout u prev ts (renderTokens style ts) := by
  induction ts generalizing prev style with
  | nil => exact .nil (.blank (hs 0).1)
  | cons t ts ih =>
    obtain ⟨hb, hn, hq⟩ := hs 0
    exact .cons (fun _ _ _ => hn) hb (spells_spelling hq (hts t (by simp)))
      (ih (fun t' ht' => hts t' (by simp [ht'])) fun n => hs (n + 1))

theorem Constraint.tokens_writable {c : Constraint} (h : c.Lexable u) :
    ∀ t ∈ c.tokens, t.Writable u := by
  have hr : ∀ reqs : List Requirement, (∀ req ∈ reqs, isName u req.name = true) →
      ∀ t ∈ requiresTokens reqs, t.Writable u := by
    intro reqs hreqs
    induction reqs with
    | nil => simp [requiresTokens]
    | cons req reqs ih =>
      have hn := hreqs req (by simp)
      have ht := ih fun r hr => hreqs r (by simp [hr])
      cases req <;> simpa [requiresTokens, Requirement.tokens, Token.Writable] using ⟨hn, ht⟩
  have ha : c.otherwise.token.Writable u := by
    cases c.otherwise <;> simp [OtherwiseAction.token, Token.Writable]
  intro t ht
  simp only [tokens, List.mem_cons, List.mem_append, List.not_mem_nil, or_false] at ht
  rcases ht with rfl | rfl | rfl | rfl | rfl | rfl | ht | (rfl | rfl | rfl) | rfl
  all_goals first
    | exact trivial
    | exact h.1
    | exact hr c.requires h.2 t ht
    | exact ha

theorem ConstraintProgram.tokens_writable {p : ConstraintProgram} (h : p.Lexable u) :
    ∀ t ∈ p.tokens, t.Writable u := by
  intro t ht
  obtain ⟨c, hc, ht⟩ := List.mem_flatMap.mp ht
  exact c.tokens_writable (h c hc) t ht

end HyperKitty.Constraints
