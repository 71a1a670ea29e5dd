import HyperKitty.Lib.Posix
import HyperKitty.Pipeline.Master
import HyperKitty.Proofs.Detection

namespace HyperKitty.Pipeline

open Exec Posix HyperKitty.Parser

section Stages

/-- A stage that agrees to every state that is still valid, and keeps it so. -/
def Passes (stage : Stage) : Prop :=
  ∀ ps, (stage ps).1 = ps.valid ∧ (stage ps).2.valid = ps.valid

/-- After the parser no stage rejects anything of its own. -/
theorem passes_of_mem : ∀ stage ∈ stages.tail, Passes stage := by
  have hstub : Passes stub := fun _ => ⟨rfl, rfl⟩
  have hguard : ∀ f : PipelineState → PipelineState, (∀ ps, (f ps).valid = ps.valid) →
      Passes fun ps => if ps.valid then (true, f ps) else (false, ps) := by
    intro f hf ps
    cases hv : ps.valid <;> simp [hf, hv]
  simp only [stages, List.tail_cons, List.forall_mem_cons]
  exact ⟨hstub, hstub, hstub, hstub, hguard _ fun _ => rfl, hstub, hguard _ fun _ => rfl,
    hguard _ fun _ => rfl, hguard _ fun _ => rfl, fun _ h => absurd h List.not_mem_nil⟩

theorem foldl_passes (ss : List Stage) (hs : ∀ stage ∈ ss, Passes stage) (ok : Bool)
    (ps : PipelineState) :
    (ss.foldl (fun (ok, ps) stage => (ok && (stage ps).1, (stage ps).2)) (ok, ps)).2.valid =
        ps.valid ∧
      ((ok && ps.valid) = true →
        (ss.foldl (fun (ok, ps) stage => (ok && (stage ps).1, (stage ps).2)) (ok, ps)).1 = true) := by
  induction ss generalizing ok ps with
  | nil => exact ⟨rfl, fun h => (Bool.and_eq_true_iff.mp h).1⟩
  | cons stage ss ih =>
    obtain ⟨h1, h2⟩ := hs stage (by simp) ps
    obtain ⟨hv, hok⟩ := ih (fun s hs' => hs s (by simp [hs'])) (ok && (stage ps).1) (stage ps).2
    rw [h2] at hv hok
    refine ⟨hv, fun h => hok ?_⟩
    rw [h1]
    simpa using h

/-- The pipeline rejects what holds one of the nine texts, and nothing else. -/
theorem execute_cases (input : List UInt8) :
    ((∃ d ∈ dangerous, CString.ascii d <:+: input) ∧
      routingPipelineExecute (some input) = .failed .rejected "stage_failed") ∨
    ((¬ ∃ d ∈ dangerous, CString.ascii d <:+: input) ∧
      (routingPipelineExecute (some input)).status = .ok) := by
  have hexec : execute (.alloc input) =
      stages.tail.foldl (fun (ok, ps) stage => (ok && (stage ps).1, (stage ps).2))
        (stage1Parser (.alloc input)) := by
    rfl
  have hpass := foldl_passes stages.tail passes_of_mem (stage1Parser (.alloc input)).1
    (stage1Parser (.alloc input)).2
  rw [Prod.mk.eta, ← hexec] at hpass
  have hany : (dangerous.any fun d =>
      decide (CString.ascii d <:+: (PipelineState.alloc input).input)) = true ↔ ∃ d ∈ dangerous, CString.ascii d <:+: input := by
    simp only [List.any_eq_true, decide_eq_true_eq]
    exact Iff.rfl
  by_cases hd : ∃ d ∈ dangerous, CString.ascii d <:+: input
  · have hstage : stage1Parser (.alloc input) = (false, { PipelineState.alloc input with
        valid := false }) := if_pos (hany.mpr hd)
    rw [hstage] at hpass
    refine Or.inl ⟨hd, ?_⟩
    rw [routingPipelineExecute]
    simp [hpass.1]
  · have hstage : stage1Parser (.alloc input) = (true, .alloc input) :=
      if_neg fun h => hd (hany.mp h)
    rw [hstage] at hpass
    refine Or.inr ⟨hd, ?_⟩
    have hok := hpass.2 rfl
    have hvalid : (execute (.alloc input)).2.valid = true := hpass.1
    rw [routingPipelineExecute]
    simp [hok, hvalid]

end Stages

section Patterns

/-- The texts that the listed patterns describe, pattern by pattern, but for the last
one: an extended expression has no `(?!`. -/
def dangerousPhrases : List (List (List String)) := [
  [["<!doctype"]],
  [["<!entity"]],
  [["system", "="]],
  [["file://"]],
  [["eval", "("]],
  [["exec", "("]],
  [["fork", "("]],
  [["__import__"]],
  [["subprocess."]],
  [["os.system"]],
  [["while", "(", "true", ")"]],
  [["while", "(", "1", ")"]],
  [["password", "="]],
  [["api_key"], ["api-key"], ["apikey"]],
  [["secret"]],
  [["aws_secret"]]]

def telemetryPattern : String := "beacon|tracker|analytics(?!_test)"

example : meaning telemetryPattern = none := by rfl

/-- The pattern describes the texts. -/
def Describes (p : DangerousPattern) (phrases : List (List String)) : Prop :=
  ∃ r, meaning p.pattern = some r ∧
    ∀ text, search r text = true ↔ ∃ ss ∈ phrases, Says ss text

theorem describes_phrase {p : DangerousPattern} {ss : List String}
    (h : meaning p.pattern = some (seq (phrase ss))) : Describes p [ss] :=
  ⟨_, h, fun text => by simp [search_phrase]⟩

/-- The set in the middle is a line that stands or lies, or is left out. -/
theorem describes_apiKey :
    Describes ⟨"api[_-]?key", "EMBEDDED_API_KEY"⟩ [["api_key"], ["api-key"], ["apikey"]] := by
  refine ⟨seq (word "api" ++ (oneOf [95, 95, 45, 45] + 1) :: word "key"), rfl, ?_⟩
  have hmem : ∀ v, v ∈ (seq (word "api" ++ (oneOf [95, 95, 45, 45] + 1) :: word "key")).matches' ↔
      ∃ ss ∈ [["api_key"], ["api-key"], ["apikey"]], Spoken ss v := by
    intro v
    have hmiddle : ∀ x, x ∈ (oneOf [95, 95, 45, 45] + 1).matches' ↔
        ∃ s ∈ ["_", "-", ""], Reads s x := by
      intro x
      have hline := reads_singleton (v := x) (s := "_") (c := '_') rfl
      have hdash := reads_singleton (v := x) (s := "-") (c := '-') rfl
      have hempty : Reads "" x ↔ x = [] := by simp [Reads]
      have hset : (∃ b ∈ [(95 : UInt8), 95, 45, 45], x = [b]) ↔
          (∃ b ∈ caseless '_', x = [b]) ∨ ∃ b ∈ caseless '-', x = [b] := by
        rw [show caseless '_' = [95, 95] from rfl, show caseless '-' = [45, 45] from rfl]
        simp
      rw [RegularExpression.matches'_add, Language.mem_add, mem_oneOf, hset, ← hline, ← hdash,
        RegularExpression.matches'_epsilon, Language.mem_one, ← hempty]
      simp [or_assoc]
    have hspoken : (∃ ss ∈ [["api_key"], ["api-key"], ["apikey"]], Spoken ss v) ↔
        ∃ s ∈ ["_", "-", ""], Reads ("api" ++ (s ++ "key")) v := by
      simp [Spoken]
    rw [mem_seq_append, hspoken]
    simp only [reads_append_iff]
    constructor
    · intro h
      obtain ⟨a, ha, b, hb, rfl⟩ := h
      rw [List.map_cons, List.prod_cons] at hb
      obtain ⟨x, hx, y, hy, rfl⟩ := Language.mem_mul.mp hb
      obtain ⟨s, hs, hx⟩ := (hmiddle x).mp hx
      exact ⟨s, hs, a, x ++ y, rfl, mem_word.mp ha, x, y, rfl, hx, mem_word.mp hy⟩
    · intro h
      obtain ⟨s, hs, a, _, rfl, ha, x, y, rfl, hx, hy⟩ := h
      refine ⟨a, mem_word.mpr ha, x ++ y, ?_, rfl⟩
      rw [List.map_cons, List.prod_cons]
      exact Language.mem_mul.mpr ⟨x, (hmiddle x).mpr ⟨s, hs, hx⟩, y, mem_word.mpr hy, rfl⟩
  intro text
  rw [search_iff]
  constructor
  · intro h
    obtain ⟨u, v, w, he, hv⟩ := h
    obtain ⟨ss, hs, hv⟩ := (hmem v).mp hv
    exact ⟨ss, hs, u, v, w, he, hv⟩
  · intro h
    obtain ⟨ss, hs, u, v, w, he, hv⟩ := h
    exact ⟨u, v, w, he, (hmem v).mpr ⟨ss, hs, hv⟩⟩

theorem describes_phrases (sss : List (List String)) (ps : List DangerousPattern)
    (h : ps.map (fun p => meaning p.pattern) = sss.map fun ss => some (seq (phrase ss))) :
    List.Forall₂ Describes ps (sss.map fun ss => [ss]) := by
  induction ps generalizing sss with
  | nil =>
    rw [List.map_nil, eq_comm, List.map_eq_nil_iff] at h
    subst h
    exact .nil
  | cons p ps ih =>
    cases sss with
    | nil => cases h
    | cons ss sss =>
      obtain ⟨hfirst, hrest⟩ := List.cons.inj h
      exact .cons (describes_phrase hfirst) (ih sss hrest)

theorem patterns_described :
    List.Forall₂ Describes (dangerousPatterns.take 16) dangerousPhrases := by
  have hfront : List.Forall₂ Describes (dangerousPatterns.take 13) (dangerousPhrases.take 13) :=
    describes_phrases (dangerousPhrases.take 13).flatten _ rfl
  have hback : List.Forall₂ Describes ((dangerousPatterns.drop 14).take 2)
      (dangerousPhrases.drop 14) :=
    describes_phrases (dangerousPhrases.drop 14).flatten _ rfl
  exact List.rel_append hfront (.cons describes_apiKey hback)

/-- The library compiles the patterns that are extended expressions, and finds what these
describe. The last pattern it may compile or refuse. -/
structure Documented (lib : RegexLibrary) : Prop where
  compiles : ∀ p ∈ dangerousPatterns.take 16, accepted lib p = true
  finds : ∀ p ∈ dangerousPatterns.take 16, ∀ r, meaning p.pattern = some r →
    ∀ text, lib.regexec p.pattern text = search r text

variable {lib : RegexLibrary} {earlier : List (Option (List UInt8))}

theorem dangerousPatterns_split : dangerousPatterns =
    dangerousPatterns.take 16 ++ [⟨telemetryPattern, "UNAUTHORIZED_TELEMETRY"⟩] := rfl

theorem exists_described_iff (hlib : Documented lib) (input : List UInt8) :
    (∃ p ∈ dangerousPatterns.take 16, matched lib input p = true) ↔
      ∃ phrases ∈ dangerousPhrases, ∃ ss ∈ phrases, Says ss input := by
  have hdescribed : ∀ ps phs, List.Forall₂ Describes ps phs → ps ⊆ dangerousPatterns.take 16 →
      ((∃ p ∈ ps, matched lib input p = true) ↔
        ∃ phrases ∈ phs, ∃ ss ∈ phrases, Says ss input) := by
    intro ps phs h hsub
    induction h with
    | nil => simp
    | cons hd _ ih =>
      obtain ⟨hfirst, hrest⟩ := List.cons_subset.mp hsub
      obtain ⟨r, hr, hiff⟩ := hd
      rw [List.exists_mem_cons_iff, List.exists_mem_cons_iff, ih hrest, matched,
        hlib.finds _ hfirst r hr, hiff]
  exact hdescribed _ _ patterns_described (List.Subset.refl _)

/-- The last pattern counts where the library has compiled it. -/
theorem matched_iff (hlib : Documented lib) (input : List UInt8) :
    (∃ p ∈ dangerousPatterns, accepted lib p = true ∧ matched lib input p = true) ↔
      (∃ phrases ∈ dangerousPhrases, ∃ ss ∈ phrases, Says ss input) ∨
        (lib.regcomp telemetryPattern = true ∧ lib.regexec telemetryPattern input = true) := by
  have hfront : (∃ p ∈ dangerousPatterns.take 16,
      accepted lib p = true ∧ matched lib input p = true) ↔
        ∃ p ∈ dangerousPatterns.take 16, matched lib input p = true :=
    exists_congr fun p => and_congr_right fun hp => and_iff_right (hlib.compiles p hp)
  rw [← exists_described_iff hlib, ← hfront, dangerousPatterns_split]
  simp only [List.mem_append, List.mem_singleton, or_and_right, exists_or, exists_eq_left]
  exact Iff.rfl

/-- The loop runs over what the library has compiled. -/
theorem take_accepted (hlib : Documented lib) :
    dangerousPatterns.take (dangerousPatterns.countP (accepted lib)) =
      dangerousPatterns.filter (accepted lib) := by
  have hlen : (dangerousPatterns.take 16).length = 16 := rfl
  have hfilter : (dangerousPatterns.take 16).filter (accepted lib) = dangerousPatterns.take 16 :=
    List.filter_eq_self.mpr hlib.compiles
  have hcount : (dangerousPatterns.take 16).countP (accepted lib) = 16 :=
    (List.countP_eq_length.mpr hlib.compiles).trans hlen
  rw [dangerousPatterns_split, List.countP_append, List.filter_append, hcount, hfilter]
  rw [List.countP_singleton, List.filter_singleton]
  by_cases h : accepted lib ⟨telemetryPattern, "UNAUTHORIZED_TELEMETRY"⟩ = true
  · rw [if_pos h, h, cond_true]
    exact List.take_of_length_le (by rw [List.length_append, hlen, List.length_singleton])
  · rw [if_neg h, Bool.eq_false_iff.mpr h, cond_false, List.append_nil]
    exact List.take_left' hlen

theorem detectIn_accepted {ps : List DangerousPattern} (input : List UInt8)
    (h : ∀ p ∈ ps, accepted lib p = true) : detectIn lib input ps =
      .ok ((ps.find? (matched lib input)).map DangerousPattern.reason) := by
  induction ps with
  | nil => rfl
  | cons p ps ih =>
    obtain ⟨hp, hps⟩ := List.forall_mem_cons.mp h
    rw [detectIn, if_pos hp, List.find?_cons]
    cases matched lib input p with
    | false => exact ih hps
    | true => rfl

/-- The parser rejects exactly the inputs in which a compiled pattern has a match. -/
theorem parser_rejects_iff (hlib : Documented lib) (input : List UInt8) :
    (∃ result, (parseInput lib (Machine.run (parseInput lib) .initial earlier)
        (some input)).1 = .ok result ∧ result.status = .rejected) ↔
      ∃ p ∈ dangerousPatterns, accepted lib p = true ∧ matched lib input p = true := by
  have haccepted : ∀ p ∈ dangerousPatterns.filter (accepted lib), accepted lib p = true :=
    fun p hp => (List.mem_filter.mp hp).2
  have hfound :
      ((dangerousPatterns.filter (accepted lib)).find? (matched lib input)).isSome = true ↔
        ∃ p ∈ dangerousPatterns, accepted lib p = true ∧ matched lib input p = true := by
    simp only [List.find?_isSome, List.mem_filter, and_assoc]
  rw [parseInput_run, take_accepted hlib, detectIn_accepted input haccepted, ← hfound]
  cases (dangerousPatterns.filter (accepted lib)).find? (matched lib input) with
  | none =>
    constructor
    · rintro ⟨result, hresult, hstatus⟩
      cases hresult
      cases hstatus
    · nofun
  | some p => exact ⟨fun _ => rfl, fun _ => ⟨_, rfl, rfl⟩⟩

end Patterns

/-- What the parser rejects the pipeline rejects, without an output. -/
def Covers (lib : RegexLibrary) (earlier : List (Option (List UInt8))) (input : List UInt8) :
    Prop :=
  (∃ result, (parseInput lib (Machine.run (parseInput lib) .initial earlier)
    (some input)).1 = .ok result ∧ result.status = .rejected) →
  (routingPipelineExecute (some input)).status = .rejected ∧
    (routingPipelineExecute (some input)).output = none

/-- The pipeline is as strict as the parser exactly on the inputs that hold one of its
nine texts in their very spelling, or nothing dangerous in any spelling. -/
theorem covers_iff (lib : RegexLibrary) (hlib : Documented lib)
    (earlier : List (Option (List UInt8))) (input : List UInt8) :
    Covers lib earlier input ↔
      (∃ d ∈ dangerous, CString.ascii d <:+: input) ∨
        ((∀ phrases ∈ dangerousPhrases, ∀ ss ∈ phrases, ¬ Says ss input) ∧
          ¬ (lib.regcomp telemetryPattern = true ∧
            lib.regexec telemetryPattern input = true)) := by
  rw [Covers, parser_rejects_iff hlib input, matched_iff hlib input]
  rcases execute_cases input with ⟨hd, he⟩ | ⟨hd, he⟩
  · simp only [hd, true_or, iff_true]
    intro _
    rw [he]
    exact ⟨rfl, rfl⟩
  · simp only [hd, false_or, he, reduceCtorEq, false_and, imp_false, not_or, not_exists, not_and,
      Bool.not_eq_true]

/-- A library that compiles what is an extended expression, and refuses the rest. -/
def plainLibrary : RegexLibrary where
  regcomp pattern := (meaning pattern).isSome
  regexec pattern text :=
    match meaning pattern with
    | some r => search r text
    | none => false

theorem plainLibrary_documented : Documented plainLibrary where
  compiles := by decide +kernel
  finds p _ r hr text := by simp [plainLibrary, hr]

theorem covers_iff_greeting : Documented plainLibrary ∧
    (Covers plainLibrary [] (CString.ascii "hello") ↔
      (∃ d ∈ dangerous, CString.ascii d <:+: CString.ascii "hello") ∨
        ((∀ phrases ∈ dangerousPhrases, ∀ ss ∈ phrases, ¬ Says ss (CString.ascii "hello")) ∧
          ¬ (plainLibrary.regcomp telemetryPattern = true ∧
            plainLibrary.regexec telemetryPattern (CString.ascii "hello") = true))) :=
  ⟨plainLibrary_documented, covers_iff _ plainLibrary_documented _ _⟩

/-- A blank in front of the parenthesis is enough to get past the pipeline. -/
theorem covers_not_always :
    ¬ ∀ lib, Documented lib → ∀ earlier input, Covers lib earlier input := by
  intro h
  have heval : Reads "eval" (CString.ascii "eval") := by decide +kernel
  have hparen : Reads "(" (CString.ascii "(") := by decide +kernel
  have hgap : ∀ b ∈ CString.ascii " ", b ∈ blanks := by decide +kernel
  have hspoken : Spoken ["eval", "("] (CString.ascii "eval (") :=
    spoken_cons.mpr ⟨CString.ascii "eval", CString.ascii " ", CString.ascii "(",
      by decide +kernel, heval, hgap, spoken_singleton.mpr hparen⟩
  have hsay : Says ["eval", "("] (CString.ascii "eval (x)") :=
    ⟨[], _, CString.ascii "x)", by simp [CString.ascii], hspoken⟩
  have hmatched := (matched_iff plainLibrary_documented (CString.ascii "eval (x)")).mpr
    (Or.inl ⟨[["eval", "("]], by decide, ["eval", "("], by decide, hsay⟩)
  have hcovers := h plainLibrary plainLibrary_documented [] (CString.ascii "eval (x)")
    ((parser_rejects_iff plainLibrary_documented _).mpr hmatched)
  rcases execute_cases (CString.ascii "eval (x)") with ⟨hd, -⟩ | ⟨-, he⟩
  · revert hd
    decide
  · rw [he] at hcovers
    cases hcovers.1

end HyperKitty.Pipeline
