import HyperKitty.Ere.Engine
import HyperKitty.Proofs.Hosts
import HyperKitty.Proofs.Receipts

namespace HyperKitty.Ere

open Search
open HyperKitty.Constraints (isWhitespace)

variable {isMatch : String → List Char → Bool} {t : Casing}
variable {cs ds line rest : List Char} {ls ms : List (List Char)} {pattern : String}

section Gates

/-- One of the patterns of the two gates that read line by line is found in the line. -/
def Matched (isMatch : String → List Char → Bool) (line : List Char) : Prop :=
  (∃ check ∈ secretChecks, isMatch check.1 line = true) ∨
    isComment line = false ∧ ∃ check ∈ evalChecks, isMatch check.1 line = true

/-- The text holds a loop that is endless by its very head. -/
def BareLoop (cs : List Char) : Prop :=
  contains cs "while(true)" = true ∨ contains cs "while (true)" = true ∨
    contains cs "for(;;)" = true ∨ contains cs "for (;;)" = true

def NoExit (block : List (List Char)) : Prop :=
  ∀ line ∈ block, contains line "break" = false ∧ contains line "return" = false

/-- A `loop {` stands in a line, and no way out in that line and the 49 behind it. -/
def Unbroken (ls : List (List Char)) : Prop :=
  ∃ front line rest, ls = front ++ line :: rest ∧ contains line "loop \x7b" = true ∧
    NoExit ((line :: rest).take 50)

/-- The same, with all of these lines there. -/
def UnbrokenWindow (ls : List (List Char)) : Prop :=
  ∃ front line rest, ls = front ++ line :: rest ∧ contains line "loop \x7b" = true ∧
    NoExit ((line :: rest).take 50) ∧ 50 ≤ (line :: rest).length

theorem lineFindings_eq_nil {checks : List (String × String)} {n : Nat} :
    lineFindings isMatch checks n line = [] ↔
      ¬ ∃ check ∈ checks, isMatch check.1 line = true := by
  simp [lineFindings]

/-- Numbered lines have no findings when each line by itself has none. -/
theorem numbered_eq_nil {f : List Char × Nat → List String} {P : List Char → Prop}
    (hf : ∀ line n, f (line, n) = [] ↔ ¬ P line) (n : Nat) :
    (ls.zipIdx n).flatMap f = [] ↔ ¬ ∃ line ∈ ls, P line := by
  induction ls generalizing n with
  | nil => simp
  | cons line ls ih =>
    rw [List.zipIdx_cons, List.flatMap_cons, List.append_eq_nil_iff, hf, ih]
    simp only [List.mem_cons, exists_eq_or_imp, not_or]

theorem checkSecrets_passed {artifact : String} : (checkSecrets isMatch artifact).1 = true ↔
    ¬ ∃ line ∈ lines artifact.toList, ∃ check ∈ secretChecks, isMatch check.1 line = true := by
  rw [checkSecrets, List.isEmpty_iff]
  exact numbered_eq_nil (fun line n => lineFindings_eq_nil) 1

theorem checkEval_passed {artifact : String} : (checkEval isMatch artifact).1 = true ↔
    ¬ ∃ line ∈ lines artifact.toList, isComment line = false ∧
      ∃ check ∈ evalChecks, isMatch check.1 line = true := by
  rw [checkEval, List.isEmpty_iff]
  refine numbered_eq_nil (fun line n => ?_) 1
  cases hc : isComment line with
  | true => simp [hc]
  | false => simpa [hc] using lineFindings_eq_nil (n := n)

theorem contains_block (pattern : String) (block : List (List Char)) (hn : '\n' ∉ pattern.toList)
    (hne : pattern.toList ≠ []) : contains ("\n".toList.intercalate block) pattern = false ↔
      ∀ line ∈ block, contains line pattern = false := by
  have hjoin := infix_intercalate block hn hne
  simp only [contains, decide_eq_false_iff_not]
  rw [show "\n".toList = ['\n'] from rfl, hjoin]
  simp

theorem loopFindings_eq_nil : loopFindings ls = [] ↔ ¬ Unbroken ls := by
  induction ls with
  | nil => simp [loopFindings, Unbroken]
  | cons line ls ih =>
    have hbreak := contains_block "break" ((line :: ls).take 50) (by decide) (by decide)
    have hreturn := contains_block "return" ((line :: ls).take 50) (by decide) (by decide)
    have hcons : Unbroken (line :: ls) ↔
        (contains line "loop \x7b" = true ∧ NoExit ((line :: ls).take 50)) ∨ Unbroken ls := by
      constructor
      · intro h
        obtain ⟨front, found, rest, heq, hfound, hexit⟩ := h
        cases front with
        | nil =>
          obtain ⟨rfl, rfl⟩ := List.cons.inj heq
          exact Or.inl ⟨hfound, hexit⟩
        | cons first front =>
          obtain ⟨-, rfl⟩ := List.cons.inj heq
          exact Or.inr ⟨front, found, rest, rfl, hfound, hexit⟩
      · intro h
        rcases h with ⟨hfound, hexit⟩ | ⟨front, found, rest, rfl, hfound, hexit⟩
        · exact ⟨[], line, ls, rfl, hfound, hexit⟩
        · exact ⟨line :: front, found, rest, rfl, hfound, hexit⟩
    have hexit : NoExit ((line :: ls).take 50) ↔
        (∀ l ∈ (line :: ls).take 50, contains l "break" = false) ∧
          ∀ l ∈ (line :: ls).take 50, contains l "return" = false := forall₂_and
    rw [loopFindings, hcons, hexit]
    simp only [Bool.and_eq_true, Bool.not_eq_true', hbreak, hreturn, and_assoc]
    split
    · next h => simp only [reduceCtorEq, iff_true_intro h, true_or, not_true]
    · next h => simp only [ih, h, false_or]

theorem checkLoops_passed {artifact : String} : (checkLoops artifact).1 = true ↔
    ¬ BareLoop artifact.toList ∧ ¬ Unbroken (lines artifact.toList) := by
  have hguard : (contains artifact.toList "loop \x7b" = true → ¬ Unbroken (lines artifact.toList)) ↔
      ¬ Unbroken (lines artifact.toList) := by
    refine ⟨fun h hu => ?_, fun h _ => h⟩
    obtain ⟨front, line, rest, heq, hline, -⟩ := id hu
    have hin : line <:+: artifact.toList := infix_of_mem_lines (by rw [heq]; simp)
    refine h ?_ hu
    simp only [contains, decide_eq_true_eq] at hline ⊢
    exact hline.trans hin
  rw [checkLoops, List.isEmpty_iff]
  simp only [List.append_eq_nil_iff, ite_eq_right_iff, loopFindings_eq_nil, hguard, BareLoop,
    Bool.or_eq_true, List.cons_ne_nil, imp_false, not_or, and_assoc]

variable {sha256 : List UInt8 → Hash} {artifactId artifact intent : String}

/-- The engine issues no receipt for the artifact. -/
def Rejected (sha256 : List UInt8 → Hash) (t : Casing) (isMatch : String → List Char → Bool)
    (artifactId artifact intent : String) : Prop :=
  ∃ e, runAll sha256 t isMatch artifactId artifact intent = .error e

/-- What the gates look for, in one place. -/
def Marked (t : Casing) (isMatch : String → List Char → Bool) (cs : List Char) : Prop :=
  (∃ line ∈ lines cs, Matched isMatch line) ∨ BareLoop cs ∨ Unbroken (lines cs) ∨
    OtherTelemetry t cs ∨ FirstUrlRefused cs

theorem rejected_iff_failed : Rejected sha256 t isMatch artifactId artifact intent ↔
    ¬ ((checkSecrets isMatch artifact).1 = true ∧ (checkEval isMatch artifact).1 = true ∧
      (checkLoops artifact).1 = true ∧ (checkTelemetry t artifact).1 = true) := by
  constructor
  · intro h hpass
    obtain ⟨e, he⟩ := h
    rw [runAll, computeP5_ok_iff.mpr ⟨hpass, rfl⟩] at he
    cases he
  · intro h
    exact ⟨.proofFailed, computeP5_failed h⟩

theorem rejected_iff :
    Rejected sha256 t isMatch artifactId artifact intent ↔ Marked t isMatch artifact.toList := by
  rw [rejected_iff_failed, checkSecrets_passed, checkEval_passed, checkLoops_passed,
    checkTelemetry_passed]
  simp only [Marked, Matched, and_or_left, exists_or, not_and_or, not_not, or_assoc]

end Gates

section Windows

theorem unbroken_append (h : Unbroken ms) : Unbroken (ls ++ ms) := by
  obtain ⟨front, line, rest, rfl, hline, hexit⟩ := h
  exact ⟨ls ++ front, line, rest, by rw [List.append_assoc], hline, hexit⟩

/-- A window that is there in full is the same whatever follows. -/
theorem unbroken_of_window (h : UnbrokenWindow ls) : Unbroken (ls ++ ms) := by
  obtain ⟨front, line, rest, rfl, hline, hexit, hfull⟩ := h
  refine ⟨front, line, rest ++ ms, by simp, hline, ?_⟩
  rwa [← List.cons_append, List.take_append_of_le_length hfull]

/-- A way out in the first line that follows leaves only the full windows. -/
theorem window_of_unbroken (hloop : contains line "loop \x7b" = false)
    (hbreak : contains line "break" = true) (h : Unbroken (ls ++ [line])) : UnbrokenWindow ls := by
  obtain ⟨front, head, rest, heq, hhead, hexit⟩ := h
  rcases List.eq_nil_or_concat rest with rfl | ⟨rest, last, rfl⟩
  · obtain ⟨-, hline⟩ := List.append_inj' heq rfl
    obtain ⟨rfl, -⟩ := List.cons.inj hline
    rw [hloop] at hhead
    cases hhead
  · rw [List.concat_eq_append, ← List.cons_append, ← List.append_assoc] at heq
    obtain ⟨hls, hline⟩ := List.append_inj' heq rfl
    obtain ⟨rfl, -⟩ := List.cons.inj hline
    rw [List.concat_eq_append, ← List.cons_append] at hexit
    by_cases hfull : 50 ≤ (head :: rest).length
    · rw [List.take_append_of_le_length hfull] at hexit
      exact ⟨front, head, rest, hls, hhead, hexit, hfull⟩
    · -- the way out is among the lines ahead
      have hall : ((head :: rest) ++ [line]).take 50 = (head :: rest) ++ [line] :=
        List.take_of_length_le (by simp at hfull ⊢; omega)
      rw [hall] at hexit
      have hno := (hexit line (by simp)).1
      rw [hbreak] at hno
      cases hno

end Windows

section Joined

theorem contains_newline (hn : '\n' ∉ pattern.toList) :
    contains (cs ++ '\n' :: ds) pattern = (contains cs pattern || contains ds pattern) := by
  simp only [contains, infix_append_cons hn, Bool.decide_or]

theorem contains_mono (h : cs <:+: ds) (hc : contains cs pattern = true) :
    contains ds pattern = true := by
  simp only [contains, decide_eq_true_eq] at hc ⊢
  exact hc.trans h

theorem bareLoop_mono (h : cs <:+: ds) : BareLoop cs → BareLoop ds :=
  Or.imp (contains_mono h) (Or.imp (contains_mono h) (Or.imp (contains_mono h) (contains_mono h)))

theorem otherTelemetry_mono (h : cs <:+: ds) (hlow : t.toLowercase cs <:+: t.toLowercase ds)
    (ho : OtherTelemetry t cs) : OtherTelemetry t ds := by
  rcases ho with hbeacon | ⟨pattern, hmem, hpattern⟩ | hpixel
  · exact Or.inl (contains_mono h hbeacon)
  · exact Or.inr (Or.inl ⟨pattern, hmem, contains_mono hlow hpattern⟩)
  · refine Or.inr (Or.inr ?_)
    simp only [trackingPixel, Bool.and_eq_true, Bool.or_eq_true] at hpixel ⊢
    obtain ⟨hsize, hword⟩ := hpixel
    exact ⟨hsize.imp (Or.imp (contains_mono h) (contains_mono h)) (contains_mono h),
      hword.imp (Or.imp (Or.imp (contains_mono h) (contains_mono h)) (contains_mono h))
        (contains_mono h)⟩

theorem infix_before : cs <:+: cs ++ '\n' :: ds := (List.prefix_append _ _).isInfix

theorem infix_behind : cs <:+: ds ++ '\n' :: cs :=
  ((List.suffix_cons _ _).trans (List.suffix_append _ _)).isInfix

end Joined

/-- The artifact is marked by something else than its URLs. -/
def Violates (t : Casing) (isMatch : String → List Char → Bool) (cs : List Char) : Prop :=
  (∃ line ∈ lines cs, Matched isMatch line) ∨ BareLoop cs ∨ Unbroken (lines cs) ∨
    OtherTelemetry t cs

/-- Something else than its URLs marks the artifact, with lines that have come to their end and
loops that have no way out in all the lines ahead. -/
def Persists (t : Casing) (isMatch : String → List Char → Bool) (cs : List Char) : Prop :=
  (∃ line ∈ lines (cs ++ ['\n']), Matched isMatch line) ∨ BareLoop cs ∨
    UnbrokenWindow (lines (cs ++ ['\n'])) ∨ OtherTelemetry t cs

theorem marked_behind (h : Violates t isMatch cs) : Marked t isMatch (ds ++ '\n' :: cs) := by
  rw [Marked, lines_append]
  rcases h with ⟨line, hline, hmatch⟩ | hbare | hloop | hother
  · exact Or.inl ⟨line, List.mem_append_right _ hline, hmatch⟩
  · exact Or.inr (Or.inl (bareLoop_mono infix_behind hbare))
  · exact Or.inr (Or.inr (Or.inl (unbroken_append hloop)))
  · refine Or.inr (Or.inr (Or.inr (Or.inl (otherTelemetry_mono infix_behind ?_ hother))))
    exact Casing.toLowercase_newline ▸ infix_behind

theorem marked_before (h : Persists t isMatch cs) : Marked t isMatch (cs ++ '\n' :: ds) := by
  rw [Marked, lines_append]
  rcases h with ⟨line, hline, hmatch⟩ | hbare | hloop | hother
  · exact Or.inl ⟨line, List.mem_append_left _ hline, hmatch⟩
  · exact Or.inr (Or.inl (bareLoop_mono infix_before hbare))
  · exact Or.inr (Or.inr (Or.inl (unbroken_of_window hloop)))
  · refine Or.inr (Or.inr (Or.inr (Or.inl (otherTelemetry_mono infix_before ?_ hother))))
    exact Casing.toLowercase_newline ▸ infix_before

section Decoy

/-- A harmless line that ends a loop and names an allowed host. -/
def decoy : List Char := "break http://github.com".toList

/-- The texts that the gates look for in an artifact as a whole. -/
def wholeTexts : List String :=
  ["while(true)", "while (true)", "for(;;)", "for (;;)", "sendBeacon", "1x1", "1\"", "1'", "gif",
    "pixel", "width", "height"] ++ telemetryPatterns

theorem wholeTexts_absent :
    ∀ pattern ∈ wholeTexts, '\n' ∉ pattern.toList ∧ contains decoy pattern = false := by
  decide +kernel

theorem decoy_exit : contains decoy "loop \x7b" = false ∧ contains decoy "break" = true := by
  decide +kernel

theorem toLowercase_decoy : t.toLowercase decoy = decoy := by
  have hascii : decoy.all (·.toNat ≤ 0x7F) = true := rfl
  have hlower : decoy.map Char.toLower = decoy := rfl
  rw [Casing.toLowercase_ascii (by simpa using hascii), hlower]

theorem contains_covered (cs : List Char) (pattern : String) (hp : pattern ∈ wholeTexts) :
    contains (cs ++ '\n' :: decoy) pattern = contains cs pattern := by
  obtain ⟨hnewline, habsent⟩ := wholeTexts_absent pattern hp
  rw [contains_newline hnewline, habsent, Bool.or_false]

theorem bareLoop_covered (h : BareLoop (cs ++ '\n' :: decoy)) : BareLoop cs := by
  have hc := contains_covered cs
  rwa [BareLoop, hc "while(true)" (by simp [wholeTexts]), hc "while (true)" (by simp [wholeTexts]),
    hc "for(;;)" (by simp [wholeTexts]), hc "for (;;)" (by simp [wholeTexts])] at h

theorem otherTelemetry_covered (h : OtherTelemetry t (cs ++ '\n' :: decoy)) :
    OtherTelemetry t cs := by
  have hc := contains_covered cs
  rcases h with hbeacon | ⟨pattern, hmem, hpattern⟩ | hpixel
  · exact Or.inl (by rwa [usesBeacon, hc _ (by simp [wholeTexts])] at hbeacon)
  · rw [Casing.toLowercase_newline, toLowercase_decoy,
      contains_covered _ _ (List.mem_append_right _ hmem)] at hpattern
    exact Or.inr (Or.inl ⟨pattern, hmem, hpattern⟩)
  · rw [trackingPixel, hc "1x1" (by simp [wholeTexts]), hc "1\"" (by simp [wholeTexts]),
      hc "1'" (by simp [wholeTexts]), hc "gif" (by simp [wholeTexts]),
      hc "pixel" (by simp [wholeTexts]), hc "width" (by simp [wholeTexts]),
      hc "height" (by simp [wholeTexts])] at hpixel
    exact Or.inr (Or.inr hpixel)

theorem findFrom_decoy :
    findFrom "http://".toList decoy = some "http://github.com".toList :=
  rfl

/-- Behind an artifact without `http://`, the decoy has the only URL looked at. -/
theorem firstUrl_decoy_behind (hhttp : ¬ "http://".toList <:+: cs) :
    ¬ FirstUrlRefused (cs ++ '\n' :: decoy) := by
  intro h
  obtain ⟨rest, hrest, hends, -⟩ := h
  have hopen : "http://github.com".toList.any endsUrl = false := rfl
  rw [firstUrl, findFrom_append_none (by decide) (findFrom_eq_none.mpr hhttp), findFrom_decoy,
    Option.some_or, Option.some.injEq] at hrest
  rw [← hrest, hopen] at hends
  cases hends

theorem lines_decoy_behind :
    lines (cs ++ '\n' :: decoy) = lines (cs ++ ['\n']) ++ [decoy] := by
  have hsingle : lines decoy = [decoy] := rfl
  rw [lines_append, hsingle]

variable (hquiet : ∀ check ∈ secretChecks ++ evalChecks, isMatch check.1 decoy = false)

include hquiet in
theorem not_matched_decoy : ¬ Matched isMatch decoy := by
  rintro (⟨check, hmem, h⟩ | ⟨-, check, hmem, h⟩)
  · rw [hquiet check (List.mem_append_left _ hmem)] at h
    cases h
  · rw [hquiet check (List.mem_append_right _ hmem)] at h
    cases h

include hquiet in
theorem persists_of_decoy (hhttp : ¬ "http://".toList <:+: cs)
    (h : Marked t isMatch (cs ++ '\n' :: decoy)) : Persists t isMatch cs := by
  rw [Marked, lines_decoy_behind] at h
  rcases h with ⟨line, hline, hmatch⟩ | hbare | hloop | hother | hurl
  · rcases List.mem_append.mp hline with hline | hline
    · exact Or.inl ⟨line, hline, hmatch⟩
    · rw [List.mem_singleton.mp hline] at hmatch
      exact absurd hmatch (not_matched_decoy hquiet)
  · exact Or.inr (Or.inl (bareLoop_covered hbare))
  · exact Or.inr (Or.inr (Or.inl (window_of_unbroken decoy_exit.1 decoy_exit.2 hloop)))
  · exact Or.inr (Or.inr (Or.inr (otherTelemetry_covered hother)))
  · exact absurd hurl (firstUrl_decoy_behind hhttp)

end Decoy

/-- What an artifact is rejected for, its URLs apart, code put before it cannot take away; and
code put behind it only where a loop looks ahead past its end. -/
theorem rejected_joined (sha256 : List UInt8 → Hash) (t : Casing)
    (isMatch : String → List Char → Bool)
    (hquiet : ∀ check ∈ secretChecks ++ evalChecks, isMatch check.1 decoy = false)
    (artifactId artifact intent : String) (h : Violates t isMatch artifact.toList) :
    (∀ more : String, Rejected sha256 t isMatch artifactId (more ++ "\n" ++ artifact) intent) ∧
      (Persists t isMatch artifact.toList →
        ∀ more : String, Rejected sha256 t isMatch artifactId (artifact ++ "\n" ++ more) intent) ∧
      (¬ "http://".toList <:+: artifact.toList →
        (∀ more : String,
          Rejected sha256 t isMatch artifactId (artifact ++ "\n" ++ more) intent) →
        Persists t isMatch artifact.toList) := by
  have hjoin : ∀ a b : String, (a ++ "\n" ++ b).toList = a.toList ++ '\n' :: b.toList := by
    simp
  simp only [rejected_iff, hjoin]
  refine ⟨fun more => marked_behind h, fun hp more => marked_before hp, fun hhttp hall => ?_⟩
  have hdecoy := hall (.ofList decoy)
  rw [String.toList_ofList] at hdecoy
  exact persists_of_decoy hquiet hhttp hdecoy

/-- The patterns match nothing in the artifact. -/
theorem rejected_joined_while :
    (∀ check ∈ secretChecks ++ evalChecks, (fun _ _ => false) check.1 decoy = false) ∧
      Violates .ascii (fun _ _ => false) "while(true)".toList ∧ ∀ more : String,
        Rejected Hash.mk .ascii (fun _ _ => false) "a" (more ++ "\n" ++ "while(true)") "i" := by
  have hbare : BareLoop "while(true)".toList := Or.inl (by decide +kernel)
  have hviolates : Violates .ascii (fun _ _ => false) "while(true)".toList := Or.inr (Or.inl hbare)
  exact ⟨fun _ _ => rfl, hviolates,
    (rejected_joined Hash.mk .ascii _ (fun _ _ => rfl) "a" "while(true)" "i" hviolates).1⟩

/-- A `break` in a line of its own gets an endless loop its receipt. -/
theorem rejected_joined_not_always : ¬ ∀ sha256 t isMatch,
    (∀ check ∈ secretChecks ++ evalChecks, isMatch check.1 decoy = false) →
      ∀ artifactId artifact intent, Rejected sha256 t isMatch artifactId artifact intent →
        ∀ more : String,
          Rejected sha256 t isMatch artifactId (artifact ++ "\n" ++ more) intent ∧
            Rejected sha256 t isMatch artifactId (more ++ "\n" ++ artifact) intent := by
  intro h
  have hrejected : Rejected Hash.mk .ascii (fun _ _ => false) "a" "loop \x7b" "i" :=
    rejected_iff_failed.mpr (by decide +kernel)
  have hmore := (h Hash.mk .ascii (fun _ _ => false) (fun _ _ => rfl) "a" "loop \x7b" "i"
    hrejected "break").1
  exact absurd hmore (rejected_iff_failed.not.mpr (by decide +kernel))

end HyperKitty.Ere
