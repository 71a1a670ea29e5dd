import HyperKitty.Lib.Machine
import HyperKitty.Parser.Danger

namespace HyperKitty.Parser

open Exec

variable (lib : RegexLibrary) (input : List UInt8)

/-- What compiling the pattern leaves in its slot. -/
def slotOf (p : DangerousPattern) : Option String :=
  if lib.regcomp p.pattern then some p.pattern else none

def accepted (p : DangerousPattern) : Bool := lib.regcomp p.pattern

def matched (p : DangerousPattern) : Bool :=
  lib.regexec p.pattern input

section Compiling

/-- Every pattern is compiled into the slot of its own index. -/
theorem compileFrom_eq (front back : List (Option String)) (ps : List DangerousPattern) (n : Nat)
    (old : List (Option String)) (hold : old.length = ps.length) :
    compileFrom lib front.length ps ⟨front ++ old ++ back, n⟩ =
      ⟨front ++ ps.map (slotOf lib) ++ back, n + ps.countP (accepted lib)⟩ := by
  induction ps generalizing front old n with
  | nil =>
    rw [List.length_eq_zero_iff.mp hold]
    rfl
  | cons p ps ih =>
    obtain ⟨o, old, rfl⟩ := List.exists_cons_of_length_eq_add_one hold
    have hset : (front ++ o :: old ++ back).set front.length (slotOf lib p) =
        (front ++ [slotOf lib p]) ++ old ++ back := by
      simp
    have hlen : (front ++ [slotOf lib p]).length = front.length + 1 := by simp
    have hnext := ih (front ++ [slotOf lib p])
      (if lib.regcomp p.pattern then n + 1 else n) old (by simpa using hold)
    rw [hlen, ← hset] at hnext
    rw [compileFrom]
    by_cases hp : lib.regcomp p.pattern
    · rw [slotOf, if_pos hp, if_pos hp] at hnext
      rw [if_pos hp, hnext]
      have hslot : slotOf lib p = some p.pattern := if_pos hp
      have hcount : (p :: ps).countP (accepted lib) = ps.countP (accepted lib) + 1 :=
        List.countP_cons_of_pos hp
      rw [List.map_cons, hslot, hcount, List.append_assoc front, List.singleton_append,
        Nat.add_assoc, Nat.add_comm 1]
    · rw [slotOf, if_neg hp, if_neg hp] at hnext
      rw [if_neg hp, hnext]
      have hslot : slotOf lib p = none := if_neg hp
      have hcount : (p :: ps).countP (accepted lib) = ps.countP (accepted lib) :=
        List.countP_cons_of_neg hp
      rw [List.map_cons, hslot, hcount, List.append_assoc front, List.singleton_append]

/-- The static variables once the patterns have been compiled. -/
def compiled : Compiled where
  slots := dangerousPatterns.map (slotOf lib) ++ List.replicate 15 none
  numPatterns := dangerousPatterns.countP (accepted lib)

theorem length_dangerousPatterns : dangerousPatterns.length = 17 := rfl

theorem compilePatterns_initial : compilePatterns lib .initial = compiled lib := by
  have hslots : Compiled.initial =
      ⟨[] ++ List.replicate 17 none ++ List.replicate 15 none, 0⟩ := by
    rw [List.nil_append, ← List.replicate_add]
    rfl
  have h := compileFrom_eq lib [] (List.replicate 15 none) dangerousPatterns 0
    (List.replicate 17 none) (by rw [List.length_replicate, length_dangerousPatterns])
  rw [List.length_nil, ← hslots, Nat.zero_add, List.nil_append] at h
  have hzero : ¬ 0 < Compiled.initial.numPatterns := Nat.lt_irrefl 0
  rw [compilePatterns, if_neg hzero, h, compiled]

/-- Compiling a second time changes nothing, not even where nothing was accepted. -/
theorem compilePatterns_compiled : compilePatterns lib (compiled lib) = compiled lib := by
  by_cases h : 0 < (compiled lib).numPatterns
  · exact if_pos h
  · have hfrom := compileFrom_eq lib [] (List.replicate 15 none) dangerousPatterns
      (compiled lib).numPatterns (dangerousPatterns.map (slotOf lib)) (List.length_map _)
    have hzero : (compiled lib).numPatterns = 0 := by omega
    rw [List.length_nil, List.nil_append] at hfrom
    rw [compilePatterns, if_neg h]
    apply hfrom.trans
    rw [hzero, Nat.zero_add, compiled]

/-- After any calls, compiling gives the same static variables. -/
theorem compilePatterns_run (earlier : List (Option (List UInt8))) :
    compilePatterns lib (Machine.run (parseInput lib) .initial earlier) = compiled lib := by
  induction earlier using List.reverseRecOn with
  | nil => exact compilePatterns_initial lib
  | append_singleton earlier call ih =>
    rw [Machine.run_snoc]
    cases call with
    | none => exact ih
    | some input =>
      change compilePatterns lib (compilePatterns lib _) = _
      rw [ih, compilePatterns_compiled]

end Compiling

/-- The loop over the patterns, each of which stands for its own slot. -/
def detectIn : List DangerousPattern → Exec Unit (Option String)
  | [] => pure none
  | p :: ps =>
    if accepted lib p then
      if matched lib input p then pure (some p.reason) else detectIn ps
    else .error .panic

theorem detectFrom_eq (n : Nat) (front back : List DangerousPattern)
    (h : dangerousPatterns = front ++ back) (hn : n ≤ back.length) :
    detectFrom lib (compiled lib) input n front.length = detectIn lib input (back.take n) := by
  induction n generalizing front back with
  | zero => rfl
  | succ n ih =>
    have hne : back ≠ [] := by
      intro he
      simp [he] at hn
    obtain ⟨p, back, rfl⟩ := List.exists_cons_of_ne_nil hne
    have hslot : (compiled lib).slots[front.length]? = some (slotOf lib p) := by
      simp [compiled, h]
    have hreason : dangerousPatterns[front.length]?.map DangerousPattern.reason =
        some p.reason := by
      simp [h]
    have hnext := ih (front ++ [p]) back (by simp [h]) (by simpa using hn)
    rw [List.length_append, List.length_singleton] at hnext
    rw [detectFrom, hslot, List.take_succ_cons, detectIn, slotOf, accepted, matched, hreason, hnext]
    by_cases hp : lib.regcomp p.pattern <;> simp [hp]

/-- What the loop over the patterns means for the caller. -/
def parseDanger (input : List UInt8) : Option String → ParseResult
  | some reason => .failed .rejected reason
  | none =>
    { tokens := some (tokenize input)
      tokenCount := (tokenize input).length
      status := .ok
      error := none }

/-- The result of a call does not depend on the calls before it. -/
theorem parseInput_run (earlier : List (Option (List UInt8))) :
    (parseInput lib (Machine.run (parseInput lib) .initial earlier) (some input)).1 =
      (detectIn lib input (dangerousPatterns.take (dangerousPatterns.countP (accepted lib)))).map
        (parseDanger input) := by
  have hdetect := detectFrom_eq lib input (dangerousPatterns.countP (accepted lib)) []
    dangerousPatterns rfl List.countP_le_length
  have hrun := compilePatterns_run lib earlier
  rw [parseInput, detectDanger, hrun]
  change (detectFrom lib (compiled lib) input (dangerousPatterns.countP (accepted lib)) 0 >>= _) = _
  rw [show (0 : Nat) = ([] : List DangerousPattern).length from rfl, hdetect]
  cases detectIn lib input (dangerousPatterns.take (dangerousPatterns.countP (accepted lib))) with
  | error e => rfl
  | ok danger => cases danger <;> rfl

section Detecting

variable {lib input} {p : DangerousPattern} {front back ps : List DangerousPattern}

theorem detectIn_panic (hf : ∀ q ∈ front, matched lib input q = false)
    (hp : accepted lib p = false) :
    detectIn lib input (front ++ p :: back) = .error .panic := by
  induction front with
  | nil => simp [detectIn, hp]
  | cons q front ih =>
    have hrest := ih fun q hq => hf q (by simp [hq])
    rw [List.cons_append, detectIn, hf q (by simp), hrest]
    cases accepted lib q <;> rfl

theorem detectIn_match (hf : ∀ q ∈ front, accepted lib q = true ∧ matched lib input q = false)
    (hp : accepted lib p = true) (hm : matched lib input p = true) :
    detectIn lib input (front ++ p :: back) = .ok (some p.reason) := by
  induction front with
  | nil => simp [detectIn, hp, hm]
  | cons q front ih =>
    obtain ⟨ha, hq⟩ := hf q (by simp)
    rw [List.cons_append, detectIn, if_pos ha, hq, ih fun q hq => hf q (by simp [hq])]
    rfl

/-- Without a match the loop ends well exactly when all of its patterns were accepted. -/
theorem detectIn_unmatched (hm : ∀ q ∈ ps, matched lib input q = false) (d : Option String) :
    detectIn lib input ps = .ok d ↔ d = none ∧ ∀ q ∈ ps, accepted lib q = true := by
  induction ps with
  | nil =>
    rw [detectIn, pure_eq, Except.ok.injEq]
    exact ⟨fun h => ⟨h.symm, nofun⟩, fun h => h.1.symm⟩
  | cons q ps ih =>
    rw [detectIn, hm q (by simp)]
    cases hq : accepted lib q with
    | false => simp [hq]
    | true => simp [hq, ih fun q hq => hm q (by simp [hq])]

end Detecting

/-- Every match of a listed pattern is rejected, the only one with its own reason,
and nothing that is not compiled is executed. -/
def FailClosed (earlier : List (Option (List UInt8))) : Prop :=
  ∃ result,
    (parseInput lib (Machine.run (parseInput lib) .initial earlier) (some input)).1 = .ok result ∧
    ((∃ p ∈ dangerousPatterns, matched lib input p = true) → result.status = .rejected) ∧
    ∀ p ∈ dangerousPatterns, matched lib input p = true →
      (∀ q ∈ dangerousPatterns, matched lib input q = true → q = p) →
        result.status = .rejected ∧ result.error = some p.reason

/-- Each pattern that is refused stands behind one that matches; or nothing matches,
and every pattern behind it is refused as well. -/
def Aligned : Prop :=
  ∀ front p back, dangerousPatterns = front ++ p :: back → accepted lib p = false →
    (∃ q ∈ front, matched lib input q = true) ∨
      ((∀ q ∈ dangerousPatterns, matched lib input q = false) ∧
        ∀ q ∈ back, accepted lib q = false)

section Alignment

variable {lib input} {p : DangerousPattern} {front back : List DangerousPattern}
variable {earlier : List (Option (List UInt8))}

theorem run_ok {result : ParseResult}
    (h : (parseInput lib (Machine.run (parseInput lib) .initial earlier) (some input)).1 =
      .ok result) :
    ∃ d, detectIn lib input
        (dangerousPatterns.take (dangerousPatterns.countP (accepted lib))) = .ok d ∧
      result = parseDanger input d := by
  rw [parseInput_run] at h
  generalize detectIn lib input
    (dangerousPatterns.take (dangerousPatterns.countP (accepted lib))) = danger at h
  cases danger with
  | error e => cases h
  | ok d => exact ⟨d, rfl, (Except.ok.inj h).symm⟩

/-- The loop does not get past a refused pattern. -/
theorem count_le_of_ok {d : Option String} (hsplit : dangerousPatterns = front ++ p :: back)
    (hf : ∀ q ∈ front, matched lib input q = false) (hp : accepted lib p = false)
    (h : detectIn lib input
      (dangerousPatterns.take (dangerousPatterns.countP (accepted lib))) = .ok d) :
    dangerousPatterns.countP (accepted lib) ≤ front.length := by
  by_contra hlt
  obtain ⟨m, hm⟩ := Nat.exists_eq_add_of_lt (Nat.lt_of_not_le hlt)
  rw [hm, hsplit, Nat.add_assoc, List.take_length_add_append, List.take_succ_cons,
    detectIn_panic hf hp] at h
  cases h

theorem aligned_of_failClosed (h : FailClosed lib input earlier) : Aligned lib input := by
  obtain ⟨result, hresult, hrejected, -⟩ := h
  obtain ⟨d, hd, rfl⟩ := run_ok hresult
  intro front p back hsplit hp
  by_cases hm : ∃ q ∈ front, matched lib input q = true
  · exact Or.inl hm
  have hfront : ∀ q ∈ front, matched lib input q = false := by
    intro q hq
    by_contra hne
    exact hm ⟨q, hq, by simpa using hne⟩
  have hle := count_le_of_ok hsplit hfront hp hd
  generalize hn : dangerousPatterns.countP (accepted lib) = n at hd hle
  rw [hsplit, List.take_append_of_le_length hle] at hd
  obtain ⟨rfl, hall⟩ := (detectIn_unmatched (fun q hq => hfront q (List.mem_of_mem_take hq)) d).mp hd
  refine Or.inr ⟨?_, ?_⟩
  · intro q hq
    by_contra hne
    exact absurd (hrejected ⟨q, hq, by simpa using hne⟩) (by simp [parseDanger])
  · have htake : (front.take n).countP (accepted lib) = n := by
      rw [List.countP_eq_length.mpr hall, List.length_take, Nat.min_eq_left hle]
    have hcount : (front.take n ++ front.drop n ++ p :: back).countP (accepted lib) = n := by
      rw [List.take_append_drop, ← hsplit, hn]
    rw [List.countP_append, List.countP_append, htake, List.countP_cons_of_neg (by simp [hp])]
      at hcount
    have hback : back.countP (accepted lib) = 0 := by omega
    intro q hq
    simpa using List.countP_eq_zero.mp hback q hq

/-- The patterns in front of the first match, and the match itself. -/
theorem exists_first_match (h : ∃ p ∈ dangerousPatterns, matched lib input p = true) :
    ∃ front p back, dangerousPatterns = front ++ p :: back ∧ matched lib input p = true ∧
      ∀ q ∈ front, matched lib input q = false := by
  obtain ⟨p, hp⟩ := Option.isSome_iff_exists.mp (List.find?_isSome.mpr h)
  obtain ⟨hm, front, back, hsplit, hf⟩ := List.find?_eq_some_iff_append.mp hp
  exact ⟨front, p, back, hsplit, hm, fun q hq => by simpa using hf q hq⟩

/-- No pattern up to the first match has been refused. -/
theorem accepted_to_match (h : Aligned lib input) (hsplit : dangerousPatterns = front ++ p :: back)
    (hp : matched lib input p = true) (hf : ∀ q ∈ front, matched lib input q = false) :
    ∀ q ∈ front ++ [p], accepted lib q = true := by
  intro q hq
  by_contra hne
  obtain ⟨u, v, hu⟩ := List.append_of_mem hq
  have hsplit' : dangerousPatterns = u ++ q :: (v ++ back) := by
    rw [hsplit, List.append_cons, hu]
    simp
  rcases h u q (v ++ back) hsplit' (by simpa using hne) with ⟨x, hx, hxm⟩ | ⟨hnone, -⟩
  · have hlen := congrArg List.length hu
    simp only [List.length_append, List.length_cons, List.length_nil] at hlen
    have hpre : u <+: front :=
      List.prefix_of_prefix_length_le ⟨q :: v, hu.symm⟩ (List.prefix_append front [p]) (by omega)
    rw [hf x (hpre.subset hx)] at hxm
    cases hxm
  · rw [hnone p (by simp [hsplit])] at hp
    cases hp

theorem failClosed_of_match (h : Aligned lib input)
    (hm : ∃ p ∈ dangerousPatterns, matched lib input p = true) : FailClosed lib input earlier := by
  obtain ⟨front, p, back, hsplit, hp, hfront⟩ := exists_first_match hm
  have hpass := accepted_to_match h hsplit hp hfront
  have hcount : ∃ m, dangerousPatterns.countP (accepted lib) = front.length + (m + 1) := by
    refine ⟨back.countP (accepted lib), ?_⟩
    have hfull : front.countP (accepted lib) = front.length :=
      List.countP_eq_length.mpr fun q hq => hpass q (by simp [hq])
    rw [hsplit, List.countP_append, hfull, List.countP_cons_of_pos (hpass p (by simp))]
  obtain ⟨m, hm⟩ := hcount
  have hdetect : detectIn lib input
      (dangerousPatterns.take (dangerousPatterns.countP (accepted lib))) = .ok (some p.reason) := by
    rw [hm, hsplit, List.take_length_add_append, List.take_succ_cons]
    exact detectIn_match (fun q hq => ⟨hpass q (by simp [hq]), hfront q hq⟩) (hpass p (by simp)) hp
  refine ⟨.failed .rejected p.reason, ?_, fun _ => rfl, ?_⟩
  · rw [parseInput_run, hdetect]
    rfl
  · intro q hq hqm honly
    obtain rfl : p = q := honly p (by simp [hsplit]) hp
    exact ⟨rfl, rfl⟩

theorem failClosed_of_unmatched (h : Aligned lib input)
    (hm : ∀ p ∈ dangerousPatterns, matched lib input p = false) :
    FailClosed lib input earlier := by
  have hall : ∀ q ∈ dangerousPatterns.take (dangerousPatterns.countP (accepted lib)),
      accepted lib q = true := by
    intro q hq
    by_contra hne
    obtain ⟨u, v, hu⟩ := List.append_of_mem hq
    have hsplit : dangerousPatterns = u ++ q ::
        (v ++ dangerousPatterns.drop (dangerousPatterns.countP (accepted lib))) := by
      conv_lhs => rw [← List.take_append_drop (dangerousPatterns.countP (accepted lib))
        dangerousPatterns, hu]
      simp
    have hq' : accepted lib q = false := by simpa using hne
    rcases h u q _ hsplit hq' with ⟨x, hx, hxm⟩ | ⟨-, hback⟩
    · rw [hm x (by rw [hsplit]; simp [hx])] at hxm
      cases hxm
    · have hzero := List.countP_eq_zero.mpr fun x hx => (Bool.eq_false_iff.mp (hback x hx))
      have hle := List.countP_le_length (p := accepted lib) (l := u)
      have hlen := congrArg List.length hu
      rw [List.length_take, List.length_append, List.length_cons] at hlen
      have hcount := congrArg (List.countP (accepted lib)) hsplit
      rw [List.countP_append, List.countP_cons_of_neg (by simp [hq']), hzero] at hcount
      omega
  have hdetect := (detectIn_unmatched (fun q hq => hm q (List.mem_of_mem_take hq)) none).mpr
    ⟨rfl, hall⟩
  refine ⟨parseDanger input none, ?_, ?_, ?_⟩
  · rw [parseInput_run, hdetect]
    rfl
  · intro hp
    obtain ⟨p, hp, hpm⟩ := hp
    rw [hm p hp] at hpm
    cases hpm
  · intro p hp hpm
    rw [hm p hp] at hpm
    cases hpm

end Alignment

/-- Detection is fail-closed exactly when the patterns that regcomp refuses stand
where they cannot be reached. -/
theorem failClosed_iff_aligned (earlier : List (Option (List UInt8))) :
    FailClosed lib input earlier ↔ Aligned lib input := by
  constructor
  · exact aligned_of_failClosed
  · intro h
    by_cases hm : ∃ p ∈ dangerousPatterns, matched lib input p = true
    · exact failClosed_of_match h hm
    · apply failClosed_of_unmatched h
      intro p hp
      by_contra hne
      exact hm ⟨p, hp, by simpa using hne⟩

/-- A library that refuses the seventeenth pattern lets a beacon through. -/
theorem failClosed_not_always : ¬ ∀ lib input, FailClosed lib input [] := by
  intro h
  let telemetry := "beacon|tracker|analytics(?!_test)"
  obtain ⟨result, hresult, hrejected, -⟩ :=
    h ⟨fun p => p ≠ telemetry, fun p _ => p = telemetry⟩ (CString.ascii "beacon")
  have hmatch : (parseInput ⟨fun p => p ≠ telemetry, fun p _ => p = telemetry⟩ .initial
      (some (CString.ascii "beacon"))).1.map ParseResult.status = .ok .ok := by
    decide +kernel
  have hstatus := hrejected ⟨⟨telemetry, "UNAUTHORIZED_TELEMETRY"⟩, by decide, by decide⟩
  rw [Machine.run_nil] at hresult
  rw [hresult] at hmatch
  simp [Except.map, hstatus] at hmatch

end HyperKitty.Parser
