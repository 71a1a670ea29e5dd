import HyperKitty.Constraints.Parser
import HyperKitty.Constraints.Grammar

namespace HyperKitty.Constraints

open Exec

/-- The tokens that the parser may ask for by kind. -/
def Token.fixed : Token → Bool
  | ident _ | number _ | string _ | eof => false
  | _ => true

theorem Token.fixed_ctorIdx {t t' : Token} (ht : t.fixed = true) :
    t'.ctorIdx = t.ctorIdx ↔ t' = t := by
  cases t <;> cases ht <;> cases t' <;> simp [Token.ctorIdx]

namespace Parser

/-- The parser that has read `pre` and has `rest` to read. -/
def cursor (pre rest : List Token) : Parser := ⟨pre ++ rest, pre.length⟩

theorem new_cursor (ts : List Token) : new ts = cursor [] ts := rfl

@[simp] theorem fuel_cursor (pre rest : List Token) :
    (cursor pre rest).fuel = pre.length + rest.length + 1 := by
  simp [fuel, cursor]

@[simp] theorem current_cons (pre rest : List Token) (t : Token) :
    (cursor pre (t :: rest)).current = t := by
  simp [current, cursor]

@[simp] theorem current_nil (pre : List Token) : (cursor pre []).current = .eof := by
  simp [current, cursor]

@[simp] theorem advance_cursor (pre rest : List Token) (t : Token) :
    (cursor pre (t :: rest)).advance = cursor (pre ++ [t]) rest := by
  simp [advance, cursor]

variable {u : Unicode} {pre rest : List Token} {ps : Parser} {t : Token}

/-- A parser that sees anything but the end of the file has it in front of it. -/
theorem current_eq (h : (cursor pre rest).current = t) (ht : t ≠ .eof) :
    ∃ rest', rest = t :: rest' := by
  cases rest with
  | nil => exact absurd (h.symm.trans (current_nil pre)) ht
  | cons t' rest => exact ⟨rest, by rw [← h, current_cons]⟩

theorem current_ne (pre : List Token) (h : rest.head? ≠ some t) (ht : t ≠ .eof) :
    (cursor pre rest).current ≠ t := by
  intro hc
  obtain ⟨rest', rfl⟩ := current_eq hc ht
  exact h rfl

theorem expect_cons (pre rest : List Token) (t : Token) :
    expect u (cursor pre (t :: rest)) t = .ok (cursor (pre ++ [t]) rest) := by
  simp [expect]

theorem expect_ok (ht : t.fixed = true) (h : expect u (cursor pre rest) t = .ok ps) :
    ∃ rest', rest = t :: rest' ∧ ps = cursor (pre ++ [t]) rest' := by
  unfold expect at h
  split at h
  · rename_i hc
    have he : t ≠ .eof := by
      intro he
      rw [he] at ht
      cases ht
    obtain ⟨rest', rfl⟩ := current_eq ((Token.fixed_ctorIdx ht).mp hc) he
    rw [advance_cursor] at h
    cases h
    exact ⟨rest', rfl, rfl⟩
  · cases h

theorem expect_returns (u : Unicode) (ps : Parser) (t : Token) : Returns (expect u ps t) := by
  unfold expect
  split
  · exact returns_ok _
  · exact returns_fail _

theorem parseName_ok (h : parseName (cursor pre rest) = .ok (s, ps)) :
    ∃ rest', rest = .ident s :: rest' ∧ ps = cursor (pre ++ [.ident s]) rest' := by
  unfold parseName at h
  split at h
  · rename_i hc
    obtain ⟨rest', rfl⟩ := current_eq hc nofun
    cases h
    exact ⟨rest', rfl, advance_cursor _ _ _⟩
  · cases h

theorem parseParam_ok (h : parseParam (cursor pre rest) = .ok (s, ps)) :
    ∃ t rest', rest = t :: rest' ∧ ParamDerives t s ∧ ps = cursor (pre ++ [t]) rest' := by
  unfold parseParam at h
  split at h
  · rename_i hc
    obtain ⟨rest', rfl⟩ := current_eq hc nofun
    cases h
    exact ⟨_, rest', rfl, .ident, advance_cursor _ _ _⟩
  · rename_i hc
    obtain ⟨rest', rfl⟩ := current_eq hc nofun
    cases h
    exact ⟨_, rest', rfl, .string, advance_cursor _ _ _⟩
  · cases h

theorem parseAction_ok (h : parseAction (cursor pre rest) = .ok (action, ps)) :
    ∃ t rest', rest = t :: rest' ∧ ActionDerives t action ∧ ps = cursor (pre ++ [t]) rest' := by
  unfold parseAction at h
  split at h
  · rename_i hc
    obtain ⟨rest', rfl⟩ := current_eq hc nofun
    cases h
    exact ⟨_, rest', rfl, .reject, advance_cursor _ _ _⟩
  · rename_i hc
    obtain ⟨rest', rfl⟩ := current_eq hc nofun
    cases h
    exact ⟨_, rest', rfl, .accept, advance_cursor _ _ _⟩
  · cases h

theorem parseRequirement_ok (h : parseRequirement u (cursor pre rest) = .ok (req, ps)) :
    ∃ ts rest', rest = ts ++ rest' ∧ RequirementDerives ts req ∧ ps = cursor (pre ++ ts) rest' := by
  unfold parseRequirement at h
  split at h
  · rename_i name hc
    obtain ⟨rest, rfl⟩ := current_eq hc nofun
    simp only [advance_cursor] at h
    split at h
    · rename_i hl
      obtain ⟨rest, rfl⟩ := current_eq hl nofun
      rw [advance_cursor] at h
      simp only [bind_ok, pure_eq, Except.ok.injEq, Prod.mk.injEq] at h
      obtain ⟨ps', he, rfl, rfl⟩ := h
      obtain ⟨rest, rfl, rfl⟩ := expect_ok rfl he
      exact ⟨_, rest, rfl, .check, by simp⟩
    · simp only [pure_eq, Except.ok.injEq, Prod.mk.injEq] at h
      obtain ⟨rfl, rfl⟩ := h
      exact ⟨_, rest, rfl, .predicate, rfl⟩
  · cases h

theorem parseRequirement_returns (u : Unicode) (ps : Parser) :
    Returns (parseRequirement u ps) := by
  unfold parseRequirement
  split
  · dsimp only
    split
    · exact (expect_returns u _ _).bind (fun _ _ => returns_ok _)
    · exact returns_ok _
  · exact returns_fail _

/-- The tokens that the loop over requirements may have read after `pre`. -/
def RequiresRead (c : Constraint) (pre rest : List Token) (s : Constraint × Parser) : Prop :=
  ∃ ts reqs rest', rest = ts ++ rest' ∧ RequiresDerive ts reqs ∧
    s = ({ c with requires := c.requires ++ reqs }, cursor (pre ++ ts) rest')

/-- Tokens that remain to be read. -/
def remaining (ps : Parser) : Nat := ps.tokens.length - ps.pos

@[simp] theorem remaining_cursor (pre rest : List Token) :
    (cursor pre rest).remaining = rest.length := by
  simp [remaining, cursor]

theorem requiresPass_next (hs : RequiresRead c pre rest s)
    (h : requiresPass u s = .ok (.next s')) :
    RequiresRead c pre rest s' ∧ s'.2.remaining < s.2.remaining := by
  obtain ⟨ts, reqs, rest', rfl, hr, rfl⟩ := hs
  simp only [requiresPass] at h
  split at h
  · simp only [bind_ok, pure_eq, Except.ok.injEq, Step.next.injEq, Prod.exists] at h
    obtain ⟨ps, he, req, ps', hq, ps'', hs, rfl⟩ := h
    obtain ⟨rest', rfl, rfl⟩ := expect_ok rfl he
    obtain ⟨us, rest', rfl, hd, rfl⟩ := parseRequirement_ok hq
    obtain ⟨rest', rfl, rfl⟩ := expect_ok rfl hs
    refine ⟨⟨_, _, rest', ?_, hr.snoc hd, ?_⟩, ?_⟩
    · simp
    · simp [Constraint.addRequirement]
    · simp; omega
  · cases h

theorem requiresPass_done (hs : RequiresRead c pre rest s)
    (h : requiresPass u s = .ok (.done s')) : RequiresRead c pre rest s' := by
  obtain ⟨c', ps⟩ := s
  simp only [requiresPass] at h
  split at h
  · simp [bind_ok] at h
  · cases h
    exact hs

theorem requiresPass_returns (u : Unicode) (s : Constraint × Parser) :
    Returns (requiresPass u s) := by
  obtain ⟨c, ps⟩ := s
  simp only [requiresPass]
  split
  · apply (expect_returns u _ _).bind
    intro _ _
    apply (parseRequirement_returns u _).bind
    intro _ _
    exact (expect_returns u _ _).bind (fun _ _ => returns_ok _)
  · exact returns_ok _

/-- The loop over requirements reads some of them, or is an error. -/
theorem requiresLoop (u : Unicode) (c : Constraint) (pre rest : List Token) :
    (∃ s, loop (cursor pre rest).fuel (requiresPass u) (c, cursor pre rest) = .ok s ∧
      RequiresRead c pre rest s) ∨
      ∃ e, loop (cursor pre rest).fuel (requiresPass u) (c, cursor pre rest) = fail e :=
  loop_rule (RequiresRead c pre rest) (RequiresRead c pre rest) (fun s => s.2.remaining)
    (fun _ _ => requiresPass_next) (fun _ _ => requiresPass_done)
    (fun s _ => requiresPass_returns u s)
    ⟨[], [], rest, rfl, .nil, by simp⟩ (by simp)

theorem parseOtherwise_ok (h : parseOtherwise u c (cursor pre rest) = .ok (c', ps))
    (hc : c.otherwise = .reject) :
    ∃ ts action rest', rest = ts ++ rest' ∧ OtherwiseDerives ts action ∧
      c' = { c with otherwise := action } ∧ ps = cursor (pre ++ ts) rest' := by
  unfold parseOtherwise at h
  split at h
  · rename_i ho
    obtain ⟨rest, rfl⟩ := current_eq ho nofun
    simp only [advance_cursor, bind_ok, pure_eq, Except.ok.injEq, Prod.mk.injEq, Prod.exists] at h
    obtain ⟨action, ps', ha, ps'', he, rfl, rfl⟩ := h
    obtain ⟨t, rest, rfl, hd, rfl⟩ := parseAction_ok ha
    obtain ⟨rest, rfl, rfl⟩ := expect_ok rfl he
    exact ⟨_, action, rest, rfl, .clause hd, rfl, by simp⟩
  · simp only [pure_eq, Except.ok.injEq, Prod.mk.injEq] at h
    obtain ⟨rfl, rfl⟩ := h
    exact ⟨[], .reject, rest, rfl, .missing, by rw [← hc], by simp⟩

theorem parseOtherwise_returns (u : Unicode) (c : Constraint) (ps : Parser) :
    Returns (parseOtherwise u c ps) := by
  unfold parseOtherwise
  split
  · refine Returns.bind ?_ (fun _ _ => (expect_returns u _ _).bind (fun _ _ => returns_ok _))
    unfold parseAction
    split <;> simp
  · exact returns_ok _

theorem parseConstraint_ok (h : parseConstraint u (cursor pre rest) = .ok (c, ps)) :
    ∃ ts rest', rest = ts ++ rest' ∧ ConstraintDerives ts c ∧ ps = cursor (pre ++ ts) rest' := by
  simp only [parseConstraint, bind_ok, pure_eq, Except.ok.injEq, Prod.exists, Prod.mk.injEq] at h
  obtain ⟨_, h1, _, h2, name, _, h3, _, h4, param, _, h5, _, h6, c1, _, h7, c2, _, h8, _, h9,
    rfl, rfl⟩ := h
  obtain ⟨rest, rfl, rfl⟩ := expect_ok rfl h1
  obtain ⟨rest, rfl, rfl⟩ := expect_ok rfl h2
  obtain ⟨rest, rfl, rfl⟩ := parseName_ok h3
  obtain ⟨rest, rfl, rfl⟩ := expect_ok rfl h4
  obtain ⟨t, rest, rfl, hp, rfl⟩ := parseParam_ok h5
  obtain ⟨rest, rfl, rfl⟩ := expect_ok rfl h6
  rcases requiresLoop u (Constraint.new name param .reject) _ rest with
    ⟨s, hs, ts, reqs, rest, rfl, hr, rfl⟩ | ⟨e, he⟩
  · cases h7.symm.trans hs
    obtain ⟨us, action, rest, rfl, ho, rfl, rfl⟩ := parseOtherwise_ok h8 rfl
    obtain ⟨rest, rfl, rfl⟩ := expect_ok rfl h9
    have hd : ConstraintDerives _ ⟨name, param, reqs, action⟩ := .mk hp hr ho
    exact ⟨_, rest, by simp, hd, by simp⟩
  · rw [he] at h7
    cases h7

theorem parseConstraint_returns (u : Unicode) (pre rest : List Token) :
    Returns (parseConstraint u (cursor pre rest)) := by
  unfold parseConstraint
  apply (expect_returns u _ _).bind
  intro _ h1
  obtain ⟨rest, rfl, rfl⟩ := expect_ok rfl h1
  apply (expect_returns u _ _).bind
  intro _ h2
  obtain ⟨rest, rfl, rfl⟩ := expect_ok rfl h2
  refine Returns.bind (by unfold parseName; split <;> simp) (fun ⟨name, _⟩ h3 => ?_)
  obtain ⟨rest, rfl, rfl⟩ := parseName_ok h3
  apply (expect_returns u _ _).bind
  intro _ h4
  obtain ⟨rest, rfl, rfl⟩ := expect_ok rfl h4
  refine Returns.bind (by unfold parseParam; split <;> simp) (fun ⟨param, _⟩ h5 => ?_)
  obtain ⟨t, rest, rfl, _, rfl⟩ := parseParam_ok h5
  apply (expect_returns u _ _).bind
  intro _ h6
  obtain ⟨rest, rfl, rfl⟩ := expect_ok rfl h6
  refine Returns.bind ?_ (fun ⟨c, ps⟩ _ => ?_)
  · rcases requiresLoop u (Constraint.new name param .reject) _ rest with ⟨s, hs, _⟩ | ⟨e, he⟩
    · exact Or.inl ⟨s, hs⟩
    · exact Or.inr ⟨e, he⟩
  · refine (parseOtherwise_returns u c ps).bind (fun ⟨c, ps⟩ _ => ?_)
    exact (expect_returns u _ _).bind (fun _ _ => returns_ok _)

/-- What the loop over constraints may have read. -/
def ProgramRead (ts : List Token) (s : ConstraintProgram × Parser) : Prop :=
  ∃ us rest, ts = us ++ rest ∧ ProgramDerives us s.1.constraints ∧ s.2 = cursor us rest

theorem parsePass_next (hs : ProgramRead ts s) (h : parsePass u s = .ok (.next s')) :
    ProgramRead ts s' ∧ s'.2.remaining < s.2.remaining := by
  obtain ⟨p, _⟩ := s
  obtain ⟨us, rest, rfl, hp, rfl⟩ := hs
  simp only [parsePass] at h
  split at h
  · simp only [bind_ok, pure_eq, Except.ok.injEq, Step.next.injEq, Prod.exists] at h
    obtain ⟨c, ps, hc, rfl⟩ := h
    obtain ⟨vs, rest, rfl, hd, rfl⟩ := parseConstraint_ok hc
    refine ⟨⟨us ++ vs, rest, by simp, hp.snoc hd, rfl⟩, ?_⟩
    have := List.length_pos_of_ne_nil hd.ne_nil
    simp
    omega
  · cases h

/-- The loop over constraints stops at the end of the file only. -/
theorem parsePass_done (hs : ProgramRead ts s) (h : parsePass u s = .ok (.done p)) :
    ProgramDerives (beforeEof ts) p.constraints := by
  obtain ⟨p, _⟩ := s
  obtain ⟨us, rest, rfl, hp, rfl⟩ := hs
  simp only [parsePass] at h
  split at h
  · simp [bind_ok] at h
  · rename_i he
    cases h
    have hr : ∀ t ∈ rest.head?, decide (t ≠ Token.eof) = false := by
      intro t ht
      obtain ⟨rest, rfl⟩ := List.head?_eq_some_iff.mp ht
      simpa using he
    have hu : ∀ t ∈ us, decide (t ≠ Token.eof) = true := by
      intro t ht
      simpa using ne_of_mem_of_not_mem ht hp.no_eof
    rw [beforeEof, Text.takeWhile_append_stop hu hr]
    exact hp

theorem parsePass_returns (hs : ProgramRead ts s) : Returns (parsePass u s) := by
  obtain ⟨p, _⟩ := s
  obtain ⟨us, rest, rfl, hp, rfl⟩ := hs
  simp only [parsePass]
  split
  · exact (parseConstraint_returns u us rest).bind (fun _ _ => returns_ok _)
  · exact returns_ok _

/-- Parsing ends on every token list, in a tree the grammar derives or in an error. -/
theorem parse_split (u : Unicode) (ts : List Token) :
    (∃ p, parse u (new ts) = .ok p ∧ ProgramDerives (beforeEof ts) p.constraints) ∨
      ∃ e, parse u (new ts) = fail e := by
  have hs : ProgramRead ts (ConstraintProgram.new, new ts) := ⟨[], ts, rfl, .nil, rfl⟩
  have hn : (new ts).remaining < (new ts).fuel := by simp [new_cursor]
  exact loop_rule (ProgramRead ts) _ (fun s => s.2.remaining)
    (fun _ _ => parsePass_next) (fun _ _ => parsePass_done) (fun _ => parsePass_returns) hs hn

/-- A requirement is read in full where a parenthesis does not follow a bare name. -/
theorem parseRequirement_derives (pre rest : List Token) (hd : RequirementDerives ts req)
    (hr : rest.head? ≠ some .lparen) :
    parseRequirement u (cursor pre (ts ++ rest)) = .ok (req, cursor (pre ++ ts) rest) := by
  cases hd with
  | check => simp [parseRequirement, expect_cons]
  | @predicate name =>
    have hc := current_ne (pre ++ [.ident name]) hr nofun
    simp [parseRequirement, hc]

/-- The loop over requirements reads all of them when the clause or the closing
brace comes next. -/
theorem requiresLoop_derives (hd : RequiresDerive ts reqs)
    (hr : rest.head? = some .otherwise ∨ rest.head? = some .rbrace) (c : Constraint)
    (pre : List Token) (hn : ts.length < n) :
    loop n (requiresPass u) (c, cursor pre (ts ++ rest)) =
      .ok ({ c with requires := c.requires ++ reqs }, cursor (pre ++ ts) rest) := by
  induction hd generalizing n c pre with
  | nil =>
    cases n with
    | zero => simp at hn
    | succ n =>
      obtain ⟨t, rest, rfl⟩ : ∃ t rest', rest = t :: rest' := by
        cases rest with
        | nil => simp at hr
        | cons t rest => exact ⟨t, rest, rfl⟩
      have ht : ¬ (t ≠ .otherwise ∧ t ≠ .rbrace) := by simpa [or_iff_not_imp_left] using hr
      exact loop_done (by simp [requiresPass, ht])
  | @cons ts req us reqs hq _ ih =>
    cases n with
    | zero => simp at hn
    | succ n =>
      have h := parseRequirement_derives (u := u) (pre ++ [.require])
        (.semicolon :: (us ++ rest)) hq (by simp)
      rw [loop_next (t := (c.addRequirement req,
        cursor (pre ++ .require :: (ts ++ [.semicolon])) (us ++ rest)))
        (by simp [requiresPass, expect_cons, h]), ih _ _ (by simp at hn; omega)]
      simp [Constraint.addRequirement]

theorem parseOtherwise_derives (hd : OtherwiseDerives ts action)
    (hr : rest.head? = some .rbrace) (hc : c.otherwise = .reject) :
    parseOtherwise u c (cursor pre (ts ++ rest)) =
      .ok ({ c with otherwise := action }, cursor (pre ++ ts) rest) := by
  cases hd with
  | missing =>
    have h := current_ne pre (t := .otherwise) (by simp [hr] : rest.head? ≠ _) nofun
    simp [parseOtherwise, h, ← hc]
  | clause ha => cases ha <;> simp [parseOtherwise, parseAction, expect_cons]

theorem parseConstraint_derives (hd : ConstraintDerives ts c) (pre rest : List Token) :
    parseConstraint u (cursor pre (ts ++ rest)) = .ok (c, cursor (pre ++ ts) rest) := by
  obtain @⟨t, param, ts, reqs, us, action, name, hp, hr, ho⟩ := hd
  have hparam : ∀ pre rest, parseParam (cursor pre (t :: rest)) =
      .ok (param, cursor (pre ++ [t]) rest) := by
    intro pre rest
    cases hp <;> simp [parseParam]
  have hnext : (us ++ .rbrace :: rest).head? = some .otherwise ∨
      (us ++ .rbrace :: rest).head? = some .rbrace := by
    cases ho <;> simp
  have hloop : ∀ pre, loop (cursor pre (ts ++ (us ++ .rbrace :: rest))).fuel (requiresPass u)
      (Constraint.new name param .reject, cursor pre (ts ++ (us ++ .rbrace :: rest))) =
      .ok (⟨name, param, reqs, .reject⟩, cursor (pre ++ ts) (us ++ .rbrace :: rest)) :=
    fun pre => requiresLoop_derives hr hnext _ pre (by simp; omega)
  have hother : ∀ pre, parseOtherwise u ⟨name, param, reqs, .reject⟩
      (cursor pre (us ++ .rbrace :: rest)) =
      .ok (⟨name, param, reqs, action⟩, cursor (pre ++ us) (.rbrace :: rest)) :=
    fun pre => parseOtherwise_derives ho rfl rfl
  simp only [List.cons_append, List.append_assoc, List.nil_append]
  simp only [parseConstraint, parseName, expect_cons, current_cons, advance_cursor, ok_bind,
    hparam, hloop, hother, pure_eq]
  simp

theorem parseLoop_derives (hd : ProgramDerives ts cs) (hr : ∀ t ∈ rest.head?, t = .eof)
    (p : ConstraintProgram) (pre : List Token) (hn : ts.length < n) :
    loop n (parsePass u) (p, cursor pre (ts ++ rest)) = .ok ⟨p.constraints ++ cs⟩ := by
  induction hd generalizing n p pre with
  | nil =>
    cases n with
    | zero => simp at hn
    | succ n =>
      have hc : (cursor pre rest).current = .eof := by
        cases rest with
        | nil => exact current_nil pre
        | cons t rest => rw [current_cons, hr t rfl]
      exact loop_done (by simp [parsePass, hc])
  | @cons ts c us cs hc _ ih =>
    cases n with
    | zero => simp at hn
    | succ n =>
      have hcur : (cursor pre (ts ++ (us ++ rest))).current ≠ .eof := by
        cases hc
        simp
      have hpos := List.length_pos_of_ne_nil hc.ne_nil
      rw [List.append_assoc, loop_next (t := (p.addConstraint c, cursor (pre ++ ts) (us ++ rest)))
        (by simp [parsePass, hcur, parseConstraint_derives hc]), ih _ _ (by simp at hn; omega)]
      simp [ConstraintProgram.addConstraint]

/-- What the grammar derives before the end of the file, the parser returns. -/
theorem parse_derives (hd : ProgramDerives (beforeEof ts) p.constraints) :
    parse u (new ts) = .ok p := by
  have hr : ∀ t ∈ (ts.dropWhile (· ≠ Token.eof)).head?, t = .eof := by
    intro t ht
    simpa using Text.head?_dropWhile_not t ht
  have hts : ts = beforeEof ts ++ ts.dropWhile (· ≠ Token.eof) :=
    List.takeWhile_append_dropWhile.symm
  have hn : (beforeEof ts).length < (new ts).fuel := by
    have := congrArg List.length hts
    simp only [List.length_append] at this
    simp [new_cursor]
    omega
  have h := parseLoop_derives (u := u) hd hr .new [] hn
  rw [← hts] at h
  simpa [parse, new_cursor, ConstraintProgram.new] using h

theorem parse_ok_iff : parse u (new ts) = .ok p ↔ ProgramDerives (beforeEof ts) p.constraints := by
  apply Iff.intro ?_ parse_derives
  intro hp
  rcases parse_split u ts with ⟨q, hq, hd⟩ | ⟨e, he⟩
  · cases hq.symm.trans hp
    exact hd
  · cases he.symm.trans hp

/-- The parser accepts exactly the token lists whose part before the first end of
file the grammar derives, and returns the derived tree. Any other list is an error. -/
theorem parse_exact (u : Unicode) (ts : List Token) :
    (∀ p, parse u (new ts) = .ok p ↔ ProgramDerives (beforeEof ts) p.constraints) ∧
      ((∀ p : ConstraintProgram, ¬ ProgramDerives (beforeEof ts) p.constraints) →
        ∃ e, parse u (new ts) = fail e) := by
  apply And.intro (fun p => parse_ok_iff)
  intro h
  rcases parse_split u ts with ⟨q, _, hd⟩ | he
  · exact absurd hd (h q)
  · exact he

end Parser

end HyperKitty.Constraints
