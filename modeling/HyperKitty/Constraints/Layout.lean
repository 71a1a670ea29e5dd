import HyperKitty.Constraints.Lexer

namespace HyperKitty.Constraints

open Lexer

/-- White space and finished comments. -/
inductive Blank : List Char → Prop
  | nil : Blank []
  | space (hc : isWhitespace c = true) (ht : Blank w) : Blank (c :: w)
  | comment (hb : '\n' ∉ body) (ht : Blank w) : Blank ('#' :: (body ++ '\n' :: w))

/-- What may follow the last token: there the comment need not be finished. -/
inductive Trailing : List Char → Prop
  | blank (hw : Blank w) : Trailing w
  | comment (hw : Blank w) (hb : '\n' ∉ body) : Trailing (w ++ '#' :: body)

/-- A string and the inside of a literal for it. The quote and the backslash
must be escaped, any other character may be. -/
inductive Quoted (quote : Char) : List Char → List Char → Prop
  | nil : Quoted quote [] []
  | plain (hq : c ≠ quote) (hb : c ≠ '\\') (ht : Quoted quote s cs) :
      Quoted quote (c :: s) (c :: cs)
  | escape (ht : Quoted quote s cs) : Quoted quote (unescape c :: s) ('\\' :: c :: cs)

inductive Spells (u : Unicode) : Token → List Char → Prop
  | punctuation (hc : punctuation c = some t) : Spells u t [c]
  | arrow : Spells u .arrow ['=', '>']
  | string (hq : quote = '"' ∨ quote = '\'') (hs : Quoted quote s cs) :
      Spells u (.string (String.ofList s)) (quote :: (cs ++ [quote]))
  | number (hc : isAsciiDigit c = true) (hd : ∀ d ∈ cs, isNumberPart d = true) :
      Spells u (.number (String.ofList (c :: cs))) (c :: cs)
  | word (hc : u.isIdentStart c = true) (hd : ∀ d ∈ cs, u.isIdentPart d = true) :
      Spells u (keyword (String.ofList (c :: cs))) (c :: cs)

namespace Token

def isWord : Token → Bool
  | validity | require | deny | otherwise | reject | accept | ident _ => true
  | _ => false

def isNumber : Token → Bool
  | number _ => true
  | _ => false

/-- Two tokens that would be read as one, or be split elsewhere, if nothing
stood between them. -/
def sticks (t t' : Token) : Bool :=
  t.isWord && (t'.isWord || t'.isNumber) || t.isNumber && t'.isNumber

/-- A character that would be read as a part of the token before it. -/
def continues (u : Unicode) (t : Token) (c : Char) : Bool :=
  t.isWord && u.isIdentPart c || t.isNumber && isNumberPart c

end Token

/-- A text made of the tokens in order, with blanks before each token and after
the last. `prev` is the token before the text, if there is one. -/
inductive Layout (u : Unicode) : Option Token → List Token → List Char → Prop
  | nil (hw : Trailing w) : Layout u prev [] w
  | cons (gap : ∀ p ∈ prev, p.sticks t = true → w ≠ []) (hw : Blank w) (ht : Spells u t cs)
      (hl : Layout u (some t) ts text) : Layout u prev (t :: ts) (w ++ (cs ++ text))

/-- A character that begins a blank. -/
def startsBlank (c : Char) : Prop := isWhitespace c = true ∨ c = '#'

instance : DecidablePred startsBlank := fun c =>
  inferInstanceAs (Decidable (isWhitespace c = true ∨ c = '#'))

theorem Blank.append (hw : Blank w) (hv : Blank v) : Blank (w ++ v) := by
  induction hw with
  | nil => exact hv
  | space hc _ ih => exact .space hc ih
  | comment hb _ ih => simpa using Blank.comment hb ih

theorem Blank.append_trailing (hw : Blank w) (hv : Trailing v) : Trailing (w ++ v) := by
  cases hv with
  | blank hv => exact .blank (hw.append hv)
  | comment hv hb => rw [← List.append_assoc]; exact .comment (hw.append hv) hb

theorem Blank.head (hw : Blank w) : ∀ c ∈ w.head?, startsBlank c := by
  cases hw with
  | nil => simp
  | space hc _ => simp [startsBlank, hc]
  | comment _ _ => simp [startsBlank]

theorem Trailing.head (hw : Trailing w) : ∀ c ∈ w.head?, startsBlank c := by
  cases hw with
  | blank hw => exact hw.head
  | comment hw _ =>
    intro c hc
    rw [List.head?_append, Option.mem_def, Option.or_eq_some_iff] at hc
    rcases hc with hc | ⟨_, hc⟩
    · exact hw.head c hc
    · simp at hc
      exact Or.inr hc.symm

/-- Every text begins with a blank that ends where no further blank begins,
unless it consists of blanks altogether. -/
theorem blank_split (text : List Char) : Trailing text ∨
    ∃ w c rest, text = w ++ c :: rest ∧ Blank w ∧ ¬ startsBlank c := by
  induction h : text.length using Nat.strongRecOn generalizing text with
  | ind n ih =>
    have extend : ∀ w t, Blank w → t.length < n → text = w ++ t → Trailing text ∨
        ∃ w c rest, text = w ++ c :: rest ∧ Blank w ∧ ¬ startsBlank c := by
      rintro w t hw ht rfl
      rcases ih t.length ht t rfl with hr | ⟨v, c, rest, rfl, hv, hc⟩
      · exact Or.inl (hw.append_trailing hr)
      · exact Or.inr ⟨w ++ v, c, rest, by simp, hw.append hv, hc⟩
    cases text with
    | nil => exact Or.inl (.blank .nil)
    | cons c t =>
      by_cases hs : isWhitespace c = true
      · exact extend [c] t (.space hs .nil) (by simp at h; omega) rfl
      · by_cases hc : c = '#'
        · subst c
          by_cases hm : '\n' ∈ t
          · obtain ⟨body, t', rfl, hb⟩ := List.eq_append_cons_of_mem hm
            exact extend ('#' :: (body ++ ['\n'])) t' (.comment hb .nil)
              (by simp at h; omega) (by simp)
          · exact Or.inl (.comment (w := []) .nil hm)
        · exact Or.inr ⟨[], c, t, rfl, .nil, by simp [startsBlank, hs, hc]⟩

end HyperKitty.Constraints
