import HyperKitty.Proofs.Compiling

namespace HyperKitty.Constraints

open Exec

def ConstraintProgram.names (p : ConstraintProgram) : List String :=
  p.constraints.map Constraint.name

/-- Names are distinct, and evaluating all of the program, each name of it, and
counting the constraints that pass come to the same. -/
structure ConstraintProgram.NamesIdentify (p : ConstraintProgram) : Prop where
  nodup : p.names.Nodup
  byName : ∀ b, (Evaluator.mk p).evaluate b = .ok true ↔
    ∀ name ∈ p.names, (Evaluator.mk p).evaluateConstraint name b = .ok true
  counting : ∀ b, (Evaluator.mk p).evaluate b = .ok true ↔
    (Evaluator.mk p).countPassing b = p.constraints.length

/-- The name in the header that follows a `validity` token. -/
def headerName : List Token → List String
  | .lparen :: .ident name :: _ => [name]
  | _ => []

/-- The names in all headers of a list of tokens, in order. -/
def headerNames : List Token → List String
  | [] => []
  | t :: ts => if t = .validity then headerName ts ++ headerNames ts else headerNames ts

theorem headerNames_skip (h : .validity ∉ ts) (rest : List Token) :
    headerNames (ts ++ rest) = headerNames rest := by
  induction ts with
  | nil => rfl
  | cons t ts ih =>
    simp only [List.mem_cons, not_or] at h
    rw [List.cons_append, headerNames, if_neg (Ne.symm h.1), ih h.2]

theorem RequiresDerive.no_validity (h : RequiresDerive ts reqs) : .validity ∉ ts := by
  induction h with
  | nil => simp
  | cons hr _ ih => cases hr <;> simp [ih]

theorem OtherwiseDerives.no_validity (h : OtherwiseDerives ts action) : .validity ∉ ts := by
  cases h with
  | missing => simp
  | clause ha => cases ha <;> simp

theorem ConstraintDerives.headerNames (h : ConstraintDerives ts c) (rest : List Token) :
    headerNames (ts ++ rest) = c.name :: headerNames rest := by
  cases h with
  | @mk t _ ts _ us _ _ hp hr ho =>
    have ht : t ≠ .validity := by cases hp <;> nofun
    have hbody : .validity ∉ .rparen :: t :: .lbrace :: (ts ++ (us ++ [.rbrace])) := by
      simp [ht.symm, hr.no_validity, ho.no_validity]
    have hs := headerNames_skip hbody rest
    simpa [Constraints.headerNames, headerName] using hs

/-- The headers of a program's tokens name its constraints. -/
theorem ProgramDerives.headerNames (h : ProgramDerives ts cs) :
    headerNames ts = cs.map Constraint.name := by
  induction h with
  | nil => rfl
  | cons hc _ ih => rw [hc.headerNames, ih, List.map_cons]

theorem Layout.unique {text : String} (h : Layout u none ts text.toList)
    (h' : Layout u none ts' text.toList) : ts = ts' := by
  have he := (Lexer.tokenize_layout h).symm.trans (Lexer.tokenize_layout h')
  simpa using he

namespace Evaluator

theorem evaluate_ok_true : (mk p).evaluate b = .ok true ↔
    ∀ c ∈ p.constraints, c.evaluate b = true := by
  rw [evaluate, Except.ok.injEq, ConstraintProgram.evaluate_eq_true]

theorem evaluateConstraint_of_mem (h : p.names.Nodup) (hc : c ∈ p.constraints) :
    (mk p).evaluateConstraint c.name b = .ok (c.evaluate b) := by
  rw [evaluateConstraint, Keyed.find?_key h hc]

/-- Counting does not look at names. -/
theorem countPassing_eq_length : (mk p).countPassing b = p.constraints.length ↔
    ∀ c ∈ p.constraints, c.evaluate b = true :=
  List.length_filter_eq_length_iff

end Evaluator

theorem ConstraintProgram.namesIdentify_iff {p : ConstraintProgram} :
    p.NamesIdentify ↔ p.names.Nodup := by
  refine ⟨NamesIdentify.nodup, fun h => ⟨h, fun b => ?_, fun b => ?_⟩⟩
  · rw [Evaluator.evaluate_ok_true, names, List.forall_mem_map]
    apply forall₂_congr
    intro c hc
    rw [Evaluator.evaluateConstraint_of_mem h hc, Except.ok.injEq]
  · rw [Evaluator.evaluate_ok_true, Evaluator.countPassing_eq_length]

/-- Names identify the constraints of a compiled program exactly when no two
headers of its source carry the same name: compiling does not check this. -/
theorem compile_namesIdentify (h : compile u text = .ok p) : p.NamesIdentify ↔
    ∀ ts, Layout u none ts text.toList → (headerNames ts).Nodup := by
  obtain ⟨ts, hl, hd⟩ := compile_ok_iff.mp h
  rw [ConstraintProgram.namesIdentify_iff]
  constructor
  · intro hn ts' hl'
    rw [hl'.unique hl, hd.headerNames]
    exact hn
  · intro hn
    have hts := hn ts hl
    rwa [hd.headerNames] at hts

theorem compile_namesIdentify_two :
    let p : ConstraintProgram :=
      ⟨[⟨"V", "a", [.predicate "x"], .reject⟩, ⟨"W", "b", [], .accept⟩]⟩
    let text := "validity(V) a \x7b require x; \x7d validity(W) 'b' \x7b otherwise accept; \x7d"
    p.NamesIdentify ↔ ∀ ts, Layout .ascii none ts text.toList → (headerNames ts).Nodup := by
  intro p text
  exact compile_namesIdentify (by decide +kernel : compile .ascii text = .ok p)

/-- Two constraints of one name compile. By name only the first is evaluated, so
each name holds although the program does not. -/
theorem compile_duplicate_names :
    let p : ConstraintProgram :=
      ⟨[⟨"V", "a", [.predicate "x"], .reject⟩, ⟨"V", "b", [.predicate "y"], .reject⟩]⟩
    let b : Bindings := fun name => if name = "x" then some true else none
    compile .ascii "validity(V) a \x7b require x; \x7d validity(V) b \x7b require y; \x7d" = .ok p ∧
      ¬ p.names.Nodup ∧ (Evaluator.mk p).evaluate b = .ok false ∧
      (∀ name ∈ p.names, (Evaluator.mk p).evaluateConstraint name b = .ok true) ∧
      ¬ p.NamesIdentify := by
  intro p b
  have hn : ¬ p.names.Nodup := by decide
  refine ⟨by decide +kernel, hn, by decide, by decide, fun h => hn h.nodup⟩

end HyperKitty.Constraints
