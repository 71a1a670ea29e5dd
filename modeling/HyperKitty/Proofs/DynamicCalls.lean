import HyperKitty.Lib.Regex
import HyperKitty.Proofs.Laundering

namespace HyperKitty.Ere

open Search Regex
open HyperKitty.Constraints (isWhitespace)

/-- The characters that belong to words, from a table of those beyond ASCII. -/
def isWord (table : Char → Bool) (c : Char) : Bool :=
  if c.toNat ≤ 0x7F then c.isAlphanum || c = '_' else table c

def unicode (table : Char → Bool) : Tables := ⟨isWhitespace, isWord table⟩

/-- Behind `front` stands a call that evaluates text: of `eval` or `exec` where a word begins, or
of a new `Function`. -/
inductive DynamicCall (table : Char → Bool) (front : List Char) : List Char → Prop
  | named {name : String} {spaces : List Char} : name ∈ ["eval", "exec"] →
      (∀ c ∈ front.getLast?, isWord table c = false) → (∀ c ∈ spaces, isWhitespace c = true) →
      DynamicCall table front (name.toList ++ (spaces ++ ['(']))
  | constructed {spaces spaces' : List Char} : spaces ≠ [] →
      (∀ c ∈ spaces, isWhitespace c = true) → (∀ c ∈ spaces', isWhitespace c = true) →
      DynamicCall table front
        ("new".toList ++ (spaces ++ ("Function".toList ++ (spaces' ++ ['(']))))

/-- The text has a dynamic call of which `P` holds. -/
def HasCall (table : Char → Bool) (cs : List Char) (P : List Char → Prop) : Prop :=
  ∃ front call back, cs = front ++ (call ++ back) ∧ DynamicCall table front call ∧ P call

/-- An artifact without comment lines has no dynamic call if it passes the gate. -/
def AdmitsNoCall (table : Char → Bool) (isMatch : String → List Char → Bool)
    (artifact : String) : Prop :=
  (∀ line ∈ lines artifact.toList, isComment line = false) →
    (checkEval isMatch artifact).1 = true → ¬ HasCall table artifact.toList fun _ => True

/-- One of the patterns of the gate is found in the line. -/
def Suspicious (table : Char → Bool) (line : List Char) : Prop :=
  ∃ check ∈ evalChecks, ∃ r, ofPattern check.1 = some r ∧ Found (unicode table) r line

variable {table : Char → Bool} {isMatch : String → List Char → Bool} {artifact : String}
variable {front call back before line : List Char}

theorem ofPattern_evalChecks : ∀ check ∈ evalChecks, (ofPattern check.1).isSome = true := by
  decide +kernel

theorem ofPattern_named (name : String) (h : name ∈ ["eval", "exec"]) :
    ∃ check ∈ evalChecks, ofPattern check.1 =
      some (.seq .boundary (literal name.toList (.seq (.star (.one .space))
        (literal ['('] .empty)))) := by
  rcases List.mem_pair.mp h with rfl | rfl
  · exact ⟨(jsEvalRegex, _), List.mem_cons_self, by decide +kernel⟩
  · exact ⟨(jsExecRegex, _), List.mem_cons_of_mem _ List.mem_cons_self, by decide +kernel⟩

theorem ofPattern_constructed : ∃ check ∈ evalChecks, ofPattern check.1 =
    some (literal "new".toList (.seq (.seq (.one .space) (.star (.one .space)))
      (literal "Function".toList (.seq (.star (.one .space)) (literal ['('] .empty))))) := by
  exact ⟨(jsFunctionRegex, _), List.mem_cons_of_mem _ (List.mem_cons_of_mem _ List.mem_cons_self),
    by decide +kernel⟩

/-- The start of a line is as good a place for a word to begin as what comes before it. -/
theorem atBoundary_of_name (name : String) (hname : name ∈ ["eval", "exec"])
    (hfront : ∀ c ∈ front.getLast?, isWord table c = false)
    (hbefore : before = [] ∨ before.getLast? = front.getLast?) (more : List Char) :
    atBoundary (unicode table) ⟨before.reverse, name.toList ++ more⟩ = true := by
  have hleft : before.reverse.head?.any (isWord table) = false := by
    rw [List.head?_reverse, Option.any_eq_false]
    rcases hbefore with rfl | heq
    · intro c hc
      cases hc
    · rw [heq]
      intro c hc
      simp [hfront c hc]
  have hright : (name.toList ++ more).head? = some 'e' := by
    rcases List.mem_pair.mp hname with rfl | rfl <;> rfl
  have hword : isWord table 'e' = true := rfl
  rw [atBoundary, hright]
  change (before.reverse.head?.any (isWord table) != isWord table 'e') = true
  rw [hleft, hword]
  rfl

theorem suspicious_of_call (h : DynamicCall table front call)
    (hbefore : before = [] ∨ before.getLast? = front.getLast?) :
    Suspicious table (before ++ (call ++ back)) := by
  cases h with
  | @named name spaces hname hfront hspaces =>
    obtain ⟨check, hcheck, hpattern⟩ := ofPattern_named name hname
    refine ⟨check, hcheck, _, hpattern, before, _, rfl, ?_⟩
    rw [List.append_assoc, List.append_assoc]
    apply begins_boundary (atBoundary_of_name name hname hfront hbefore _)
    apply begins_literal
    apply begins_spaces hspaces
    apply begins_literal
    exact begins_empty
  | @constructed spaces spaces' hne hspaces hspaces' =>
    obtain ⟨check, hcheck, hpattern⟩ := ofPattern_constructed
    refine ⟨check, hcheck, _, hpattern, before, _, rfl, ?_⟩
    simp only [List.append_assoc]
    apply begins_literal
    apply begins_spaces_plus hspaces hne
    apply begins_literal
    apply begins_spaces hspaces'
    apply begins_literal
    exact begins_empty

theorem getLast?_of_call (h : DynamicCall table front call) : call.getLast? = some '(' := by
  cases h with
  | named => simp
  | constructed => simp only [← List.append_assoc, List.getLast?_concat]

/-- A call within a line is found in that line. -/
theorem suspicious_of_hasCall
    (h : HasCall table artifact.toList fun call => '\n' ∉ call) :
    ∃ line ∈ lines artifact.toList, Suspicious table line := by
  obtain ⟨front, call, back, heq, hcall, hfeed⟩ := h
  have hend := getLast?_of_call hcall
  have hne : call ≠ [] := by
    rintro rfl
    cases hend
  obtain ⟨before, behind, hmem, hbefore⟩ :=
    mem_lines_of_infix front back hfeed hne (by simp [hend])
  rw [← heq] at hmem
  exact ⟨_, hmem, suspicious_of_call hcall hbefore⟩

/-- A gate that has its patterns found passes the artifacts without a suspicious line. -/
theorem checkEval_passed_iff (hd : Documented (unicode table) isMatch)
    (hc : ∀ line ∈ lines artifact.toList, isComment line = false) :
    (checkEval isMatch artifact).1 = true ↔
      ¬ ∃ line ∈ lines artifact.toList, Suspicious table line := by
  have hline : ∀ line, (∃ check ∈ evalChecks, isMatch check.1 line = true) ↔
      Suspicious table line := by
    intro line
    constructor
    · intro h
      obtain ⟨check, hcheck, hmatch⟩ := h
      obtain ⟨r, hr⟩ := Option.isSome_iff_exists.mp (ofPattern_evalChecks check hcheck)
      exact ⟨check, hcheck, r, hr, (hd _ r hr line).mp hmatch⟩
    · intro h
      obtain ⟨check, hcheck, r, hr, hfound⟩ := h
      exact ⟨check, hcheck, (hd _ r hr line).mpr hfound⟩
  rw [checkEval_passed]
  simp only [hline]
  apply not_congr
  constructor
  · intro h
    obtain ⟨line, hmem, -, hsuspicious⟩ := h
    exact ⟨line, hmem, hsuspicious⟩
  · intro h
    obtain ⟨line, hmem, hsuspicious⟩ := h
    exact ⟨line, hmem, hc line hmem, hsuspicious⟩

/-- An artifact gets a call past the gate exactly when it breaks the call over lines, and no line
is a comment or matches a pattern. -/
theorem admitsNoCall_iff_unbroken (table : Char → Bool) (isMatch : String → List Char → Bool)
    (hd : Documented (unicode table) isMatch) (artifact : String) :
    AdmitsNoCall table isMatch artifact ↔
      (∃ line ∈ lines artifact.toList, isComment line = true ∨ Suspicious table line) ∨
        ¬ HasCall table artifact.toList fun call => '\n' ∈ call := by
  constructor
  · intro h
    by_contra hn
    push Not at hn
    obtain ⟨hlines, front, call, back, heq, hcall, -⟩ := hn
    have hc : ∀ line ∈ lines artifact.toList, isComment line = false := by
      intro line hmem
      exact eq_false_of_ne_true (hlines line hmem).1
    apply h hc ((checkEval_passed_iff hd hc).mpr _)
    · exact ⟨front, call, back, heq, hcall, trivial⟩
    · intro hs
      obtain ⟨line, hmem, hsuspicious⟩ := hs
      exact (hlines line hmem).2 hsuspicious
  · intro h hc hpass hcall
    rw [checkEval_passed_iff hd hc] at hpass
    rcases h with ⟨line, hmem, hcomment | hsuspicious⟩ | hunbroken
    · rw [hc line hmem] at hcomment
      cases hcomment
    · exact hpass ⟨line, hmem, hsuspicious⟩
    · obtain ⟨front, call, back, heq, hcall, -⟩ := hcall
      by_cases hfeed : '\n' ∈ call
      · exact hunbroken ⟨front, call, back, heq, hcall, hfeed⟩
      · exact hpass (suspicious_of_hasCall ⟨front, call, back, heq, hcall, hfeed⟩)

theorem admitsNoCall_iff_unbroken_plain :
    AdmitsNoCall (fun _ => false) (matcher (unicode fun _ => false)) "let x = 1;" ↔
      (∃ line ∈ lines "let x = 1;".toList,
        isComment line = true ∨ Suspicious (fun _ => false) line) ∨
        ¬ HasCall (fun _ => false) "let x = 1;".toList fun call => '\n' ∈ call :=
  admitsNoCall_iff_unbroken _ _ (documented_matcher _) _

/-- A line feed in front of the parenthesis gets the call through. -/
theorem admitsNoCall_not_always : ¬ ∀ table isMatch, Documented (unicode table) isMatch →
    ∀ artifact, AdmitsNoCall table isMatch artifact := by
  intro h
  have hno := h (fun _ => false) _ (documented_matcher _) "eval\n(x)"
  apply hno
  · decide +kernel
  · decide +kernel
  · have hspaces : ∀ c ∈ ['\n'], isWhitespace c = true := List.forall_mem_singleton.mpr rfl
    have hcall : DynamicCall (fun _ => false) [] ("eval".toList ++ (['\n'] ++ ['('])) :=
      .named List.mem_cons_self (fun _ hc => by cases hc) hspaces
    exact ⟨[], _, "x)".toList, rfl, hcall, trivial⟩

end HyperKitty.Ere
