import HyperKitty.Proofs.Lexing

namespace HyperKitty.Constraints

open Exec

namespace Lexer

variable {u : Unicode} {source : List Char} {lx lx' : Lexer}

/-- The lexer stands between two characters of the source, or at one of its ends, and its line
counts the newlines behind it. -/
def Within (source : List Char) (lx : Lexer) : Prop :=
  ∃ pre rest, source = pre ++ rest ∧ lx = cursor pre rest

theorem within_new (source : String) : Within source.toList (new source) :=
  ⟨[], source.toList, rfl, rfl⟩

theorem advance_within (h : Within source lx) : Ensures lx.advance (Within source) := by
  obtain ⟨pre, rest, rfl, rfl⟩ := h
  cases rest with
  | nil =>
    rw [advance, currentChar_cursor]
    exact ensures_pure ⟨pre, [], rfl, rfl⟩
  | cons c rest =>
    rw [advance_cursor]
    exact ensures_pure ⟨pre ++ [c], rest, by simp, rfl⟩

section Scanners

theorem commentPass_within (h : Within source lx) :
    Ensures (commentPass lx) (Step.Sat (Within source) (Within source)) := by
  unfold commentPass
  refine (ensures_true _).bind fun o _ => ?_
  cases o with
  | none => exact ensures_pure h
  | some c =>
    refine (advance_within h).bind fun lx' h' => ?_
    split
    · exact ensures_pure h'
    · exact ensures_pure h'

theorem skipComment_within (h : Within source lx) :
    Ensures lx.skipComment (Within source) :=
  ensures_loop (fun _ => commentPass_within) h

theorem whitespacePass_within (h : Within source lx) :
    Ensures (whitespacePass lx) (Step.Sat (Within source) (Within source)) := by
  unfold whitespacePass
  refine (ensures_true _).bind fun o _ => ?_
  cases o with
  | none => exact ensures_pure h
  | some c =>
    dsimp only
    split
    · exact (advance_within h).bind fun lx' h' => ensures_pure h'
    · split
      · exact (skipComment_within h).bind fun lx' h' => ensures_pure h'
      · exact ensures_pure h

theorem skipWhitespace_within (h : Within source lx) :
    Ensures lx.skipWhitespace (Within source) :=
  ensures_loop (fun _ => whitespacePass_within) h

/-- A scanner that collects text, with the text so far. -/
def Collected (source : List Char) (r : String × Lexer) : Prop := Within source r.2

theorem stringPass_within (quote : Char) {r : String × Lexer} (h : Collected source r) :
    Ensures (stringPass quote r) (Step.Sat (Collected source) (Collected source)) := by
  obtain ⟨text, lx⟩ := r
  unfold stringPass
  refine (ensures_true _).bind fun o _ => ?_
  cases o with
  | none => exact ensures_fail _
  | some c =>
    dsimp only
    split
    · exact (advance_within h).bind fun lx' h' => ensures_pure h'
    · split
      · refine (advance_within h).bind fun lx' h' => ?_
        refine (ensures_true _).bind fun o _ => ?_
        cases o with
        | none => exact ensures_fail _
        | some d => exact (advance_within h').bind fun lx'' h'' => ensures_pure h''
      · exact (advance_within h).bind fun lx' h' => ensures_pure h'

theorem readString_within (quote : Char) (h : Within source lx) :
    Ensures (lx.readString quote) (Collected source) := by
  unfold readString
  refine (advance_within h).bind fun lx' h' => ?_
  exact ensures_loop (fun _ => stringPass_within quote) h'

theorem whilePass_within (p : Char → Bool) {r : String × Lexer} (h : Collected source r) :
    Ensures (whilePass p r) (Step.Sat (Collected source) (Collected source)) := by
  obtain ⟨text, lx⟩ := r
  unfold whilePass
  refine (ensures_true _).bind fun o _ => ?_
  cases o with
  | none => exact ensures_pure h
  | some c =>
    dsimp only
    split
    · exact (advance_within h).bind fun lx' h' => ensures_pure h'
    · exact ensures_pure h

theorem readWhile_within (p : Char → Bool) (h : Within source lx) :
    Ensures (lx.readWhile p) (Collected source) :=
  ensures_loop (fun _ => whilePass_within p) h

theorem readToken_within (ch : Char) (h : Within source lx) :
    Ensures (lx.readToken u ch) fun r => Within source r.2 := by
  unfold readToken
  cases punctuation ch with
  | some t => exact (advance_within h).bind fun lx' h' => ensures_pure h'
  | none =>
    dsimp only
    refine (ensures_true _).bind fun ahead _ => ?_
    split
    · refine (advance_within h).bind fun lx' h' => ?_
      exact (advance_within h').bind fun lx'' h'' => ensures_pure h''
    · split
      · exact (readString_within ch h).bind fun r hr => ensures_pure hr
      · split
        · exact (readWhile_within _ h).bind fun r hr => ensures_pure hr
        · split
          · exact (readWhile_within _ h).bind fun r hr => ensures_pure hr
          · exact ensures_fail _

theorem tokenizePass_within {r : List Token × Lexer} (h : Within source r.2) :
    Ensures (tokenizePass u r) (Step.Sat (fun r => Within source r.2) fun _ => True) := by
  obtain ⟨tokens, lx⟩ := r
  unfold tokenizePass
  refine (skipWhitespace_within h).bind fun lx' h' => ?_
  refine (ensures_true _).bind fun o _ => ?_
  cases o with
  | none => exact ensures_pure trivial
  | some c => exact (readToken_within c h').bind fun r hr => ensures_pure hr

end Scanners

/-- The lexers that a run goes through: at each pass of each of its loops, wherever one is begun,
and after each character that is consumed. -/
inductive Visited (u : Unicode) (source : String) : Lexer → Prop
  | start : Visited u source (new source)
  | advance {lx lx' : Lexer} : Visited u source lx → lx.advance = .ok lx' → Visited u source lx'
  | token {tokens tokens' : List Token} {lx lx' : Lexer} : Visited u source lx →
      Reaches (tokenizePass u) (tokens, lx) (tokens', lx') → Visited u source lx'
  | blank {lx lx' : Lexer} : Visited u source lx → Reaches whitespacePass lx lx' →
      Visited u source lx'
  | comment {lx lx' : Lexer} : Visited u source lx → Reaches commentPass lx lx' →
      Visited u source lx'
  | string {quote : Char} {text text' : String} {lx lx' : Lexer} : Visited u source lx →
      Reaches (stringPass quote) (text, lx) (text', lx') → Visited u source lx'
  | word {p : Char → Bool} {text text' : String} {lx lx' : Lexer} : Visited u source lx →
      Reaches (whilePass p) (text, lx) (text', lx') → Visited u source lx'

theorem Visited.within {source : String} (h : Visited u source lx) :
    Within source.toList lx := by
  induction h with
  | start => exact within_new source
  | advance _ ha ih => exact advance_within ih _ ha
  | token _ hr ih =>
    exact hr.sat (I := fun r => Within source.toList r.2) (fun _ => tokenizePass_within) ih
  | blank _ hr ih => exact hr.sat (fun _ => whitespacePass_within) ih
  | comment _ hr ih => exact hr.sat (fun _ => commentPass_within) ih
  | @string quote text text' lx lx' _ hr ih =>
    have hstart : Collected source.toList (text, lx) := ih
    have hend : Collected source.toList (text', lx') :=
      hr.sat (fun _ => stringPass_within quote) hstart
    exact hend
  | @word p text text' lx lx' _ hr ih =>
    have hstart : Collected source.toList (text, lx) := ih
    have hend : Collected source.toList (text', lx') :=
      hr.sat (fun _ => whilePass_within p) hstart
    exact hend

/-- The position is a boundary between two characters, from where both slices are valid, and the
line counts the newlines before it. -/
structure Positioned (source : List Char) (lx : Lexer) : Prop where
  boundary : ∃ pre rest, source = pre ++ rest ∧ lx.pos = String.utf8Len pre ∧
    lx.line = 1 + pre.count '\n'
  source_eq : lx.source = source
  current : ∃ o, lx.currentChar = .ok o
  peek : lx.currentChar = .ok (some '=') → ∃ o, lx.peekChar 1 = .ok o

theorem Within.positioned (h : Within source lx) : Positioned source lx := by
  obtain ⟨pre, rest, rfl, rfl⟩ := h
  refine ⟨⟨pre, rest, rfl, rfl, rfl⟩, rfl, ⟨_, currentChar_cursor pre rest⟩, ?_⟩
  intro hc
  rw [currentChar_cursor, Except.ok.injEq] at hc
  obtain ⟨rest', rfl⟩ := List.head?_eq_some_iff.mp hc
  exact ⟨_, peekChar_cursor pre rest' '=' (by decide)⟩

/-- Reading any text comes to an end without a panic, every lexer on the way is well positioned,
and what is read ends with its only end marker. -/
theorem tokenize_position_safe (u : Unicode) (source : String) :
    Returns ((new source).tokenize u) ∧
    (∀ lx, Visited u source lx → Positioned source.toList lx) ∧
    ∀ tokens, (new source).tokenize u = .ok tokens →
      tokens.getLast? = some .eof ∧ tokens.count .eof = 1 := by
  refine ⟨tokenize_returns u source, fun lx h => h.within.positioned, ?_⟩
  intro tokens h
  obtain ⟨ts, hl, rfl⟩ := tokenize_ok_iff.mp h
  rw [List.count_append, List.count_eq_zero.mpr hl.no_eof]
  exact ⟨List.getLast?_concat, rfl⟩

/-- The second line of a text, and the one token on it. -/
theorem second_line_positioned :
    Positioned "é\n(".toList (cursor ['é', '\n'] ['(']) ∧
      [Token.lparen, .eof].getLast? = some .eof ∧ [Token.lparen, .eof].count .eof = 1 := by
  have hv : Visited .ascii "é\n(" (cursor ['é', '\n'] ['(']) := by
    have h1 : Visited .ascii "é\n(" (cursor ['é'] ['\n', '(']) :=
      .advance .start (advance_cursor [] ['\n', '('] 'é')
    exact .advance h1 (advance_cursor ['é'] ['('] '\n')
  exact ⟨(tokenize_position_safe .ascii "é\n(").2.1 _ hv,
    (tokenize_position_safe .ascii "(").2.2 _ rfl⟩

end Lexer
end HyperKitty.Constraints
