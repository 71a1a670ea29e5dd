import HyperKitty.Constraints.Rendering
import HyperKitty.Lib.Keyed
import HyperKitty.Proofs.Evaluation
import HyperKitty.Proofs.Lexing
import HyperKitty.Proofs.Parsing

namespace HyperKitty.Constraints

open Exec Lexer

theorem beforeEof_append_eof (h : .eof ∉ ts) : beforeEof (ts ++ [.eof]) = ts :=
  Text.takeWhile_append_stop (fun _ ht => decide_eq_true (ne_of_mem_of_not_mem ht h)) (by simp)

/-- The compiler accepts exactly the texts laid out from tokens that the grammar
derives, and returns the derived program. -/
theorem compile_ok_iff : compile u text = .ok p ↔
    ∃ ts, Layout u none ts text.toList ∧ ProgramDerives ts p.constraints := by
  simp only [compile, bind_ok, tokenize_ok_iff, Parser.parse_ok_iff]
  constructor
  · intro h
    obtain ⟨_, ⟨ts, hl, rfl⟩, hd⟩ := h
    exact ⟨ts, hl, beforeEof_append_eof hl.no_eof ▸ hd⟩
  · intro h
    obtain ⟨ts, hl, hd⟩ := h
    exact ⟨_, ⟨ts, hl, rfl⟩, (beforeEof_append_eof hl.no_eof).symm ▸ hd⟩

/-- Compiling any text ends without a panic, in a program or in an error. -/
theorem compile_returns (u : Unicode) (text : String) : Returns (compile u text) := by
  apply (tokenize_returns u text).bind
  intro ts _
  rcases Parser.parse_split u ts with ⟨p, hp, _⟩ | ⟨e, he⟩
  · rw [hp]
    exact returns_ok p
  · rw [he]
    exact returns_fail e

/-- A text for the program, spelled and spaced in any way the layout allows. -/
def Renders (u : Unicode) (p : ConstraintProgram) (ts : List Token) (text : String) : Prop :=
  ProgramDerives ts p.constraints ∧ Layout u none ts text.toList

/-- Every text written for a program with lexable names is read back token by
token, and compiles to that program. -/
theorem compile_renders (u : Unicode) (p : ConstraintProgram) (hp : p.Lexable u) :
    (∀ style : Style, style.Spaced → Renders u p p.tokens (p.render style)) ∧
      ∀ ts text, Renders u p ts text →
        (Lexer.new text).tokenize u = .ok (ts ++ [.eof]) ∧ compile u text = .ok p := by
  constructor
  · intro style hs
    apply And.intro p.tokens_derives
    rw [ConstraintProgram.render, String.toList_ofList]
    exact layout_render (p.tokens_writable hp) hs
  · intro ts text h
    obtain ⟨hd, hl⟩ := h
    exact ⟨tokenize_layout hl, compile_ok_iff.mpr ⟨ts, hl, hd⟩⟩

/-- Two requirements, the accepting clause, and a parameter full of escapes. -/
theorem compile_renders_escapes :
    let p : ConstraintProgram :=
      ⟨[⟨"V_1", "a \"b\" \\ \n #c", [.check "sig", .predicate "fresh"], .accept⟩]⟩
    compile .ascii (p.render fun n => if n = 2 then ("# c\n".toList, '"') else ([' '], '"')) =
      .ok p := by
  intro p
  have hp : p.Lexable .ascii := by
    simp only [p, ConstraintProgram.Lexable, Constraint.Lexable]
    decide
  have hs : Style.Spaced fun n => if n = 2 then ("# c\n".toList, '"') else ([' '], '"') := by
    intro n
    by_cases h : n = 2
    · simp only [h, if_true]
      have hb : Blank ('#' :: ([' ', 'c'] ++ '\n' :: [])) := .comment (by decide) .nil
      exact ⟨hb, by simp⟩
    · simp only [h, if_false]
      exact ⟨.space (by decide) .nil, by simp⟩
  have h := compile_renders .ascii p hp
  exact (h.2 _ _ (h.1 _ hs)).2

end HyperKitty.Constraints
