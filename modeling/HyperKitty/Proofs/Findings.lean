import HyperKitty.Lib.Readable
import HyperKitty.Proofs.Laundering

namespace HyperKitty.Ere

open Search

variable {isMatch : String → List Char → Bool} {skip : List Char → Bool}
variable {checks : List (String × String)} {ls : List (List Char)} {line : List Char}
variable {m n : Nat} {what what' f : String}

/-- The text that a finding is reported with. -/
def findingText (n : Nat) (what : String) : String := s!"Line {n}: {what}"

/-- A finding tells its line and its check. -/
theorem findingText_inj (h : findingText m what = findingText n what') : m = n ∧ what = what' := by
  have htext : Nat.toDigits 10 m ++ (": ".toList ++ what.toList) =
      Nat.toDigits 10 n ++ (": ".toList ++ what'.toList) := by
    have h := congrArg String.toList h
    simpa [findingText, toString, Nat.repr] using h
  obtain ⟨hmn, hwhat⟩ := toDigits_readable (by simp) (by simp) htext
  exact ⟨hmn, String.toList_inj.mp (List.append_cancel_left hwhat)⟩

section Lines

theorem lineFindings_eq : lineFindings isMatch checks n line =
    ((checks.filter fun check => isMatch check.1 line).map Prod.snd).map (findingText n) := by
  rw [lineFindings, List.map_map]
  rfl

theorem mem_lineFindings : f ∈ lineFindings isMatch checks n line ↔
    ∃ pattern what, (pattern, what) ∈ checks ∧ isMatch pattern line = true ∧
      f = findingText n what := by
  rw [lineFindings_eq]
  simp only [List.map_map, List.mem_map, List.mem_filter, Function.comp_apply, Prod.exists,
    and_assoc, eq_comm]

/-- Checks that say different things find nothing twice in a line. -/
theorem nodup_lineFindings (hchecks : (checks.map Prod.snd).Nodup) :
    (lineFindings isMatch checks n line).Nodup := by
  rw [lineFindings_eq]
  have hsub : ((checks.filter fun check => isMatch check.1 line).map Prod.snd).Sublist
      (checks.map Prod.snd) := List.filter_sublist.map Prod.snd
  exact (hchecks.sublist hsub).map fun _ _ h => (findingText_inj h).2

end Lines

section Reports

/-- What a gate reports that skips some lines. -/
def report (isMatch : String → List Char → Bool) (skip : List Char → Bool)
    (checks : List (String × String)) (ls : List (List Char)) : List String :=
  (ls.zipIdx 1).flatMap fun entry =>
    if skip entry.1 then [] else lineFindings isMatch checks entry.2 entry.1

theorem checkSecrets_report (artifact : String) : (checkSecrets isMatch artifact).2 =
    report isMatch (fun _ => false) secretChecks (lines artifact.toList) := rfl

theorem checkEval_report (artifact : String) : (checkEval isMatch artifact).2 =
    report isMatch isComment evalChecks (lines artifact.toList) := rfl

/-- Line `n`, counted from one, is not skipped, and the check that says so finds its pattern. -/
def Hit (isMatch : String → List Char → Bool) (skip : List Char → Bool)
    (checks : List (String × String)) (ls : List (List Char)) (n : Nat) (what : String) : Prop :=
  ∃ line pattern, 1 ≤ n ∧ ls[n - 1]? = some line ∧ skip line = false ∧
    (pattern, what) ∈ checks ∧ isMatch pattern line = true

theorem mem_report : f ∈ report isMatch skip checks ls ↔
    ∃ n what, Hit isMatch skip checks ls n what ∧ f = findingText n what := by
  rw [report, List.mem_flatMap]
  constructor
  · rintro ⟨⟨line, n⟩, hentry, hf⟩
    obtain ⟨hn, hline⟩ := List.mem_zipIdx_iff_le_and_getElem?_sub.mp hentry
    split at hf
    · cases hf
    · next hskip =>
      obtain ⟨pattern, what, hcheck, hmatch, rfl⟩ := mem_lineFindings.mp hf
      exact ⟨n, what, ⟨line, pattern, hn, hline, Bool.eq_false_iff.mpr hskip, hcheck, hmatch⟩, rfl⟩
  · rintro ⟨n, what, ⟨line, pattern, hn, hline, hskip, hcheck, hmatch⟩, rfl⟩
    refine ⟨(line, n), List.mem_zipIdx_iff_le_and_getElem?_sub.mpr ⟨hn, hline⟩, ?_⟩
    rw [hskip]
    exact mem_lineFindings.mpr ⟨pattern, what, hcheck, hmatch, rfl⟩

theorem nodup_report (hchecks : (checks.map Prod.snd).Nodup) :
    (report isMatch skip checks ls).Nodup := by
  rw [report, List.nodup_flatMap]
  constructor
  · intro entry _
    split
    · exact List.nodup_nil
    · exact nodup_lineFindings hchecks
  · have hnumbers : ((ls.zipIdx 1).map Prod.snd).Nodup := by
      rw [List.zipIdx_map_snd]
      exact List.nodup_range'
    refine (List.pairwise_map.mp hnumbers).imp ?_
    intro a b hab f hfa hfb
    dsimp only at hfa hfb
    split at hfa
    · cases hfa
    · split at hfb
      · cases hfb
      · obtain ⟨-, _, -, -, rfl⟩ := mem_lineFindings.mp hfa
        obtain ⟨-, _, -, -, heq⟩ := mem_lineFindings.mp hfb
        exact hab (findingText_inj heq).1

/-- The findings are the hits, each once, and no finding can be read as another one. -/
structure Faithful (hit : Nat → String → Prop) (findings : List String) : Prop where
  hits : ∀ f ∈ findings, ∃ n what, hit n what ∧ f = s!"Line {n}: {what}"
  mem_iff : ∀ n what, s!"Line {n}: {what}" ∈ findings ↔ hit n what
  nodup : findings.Nodup

theorem report_faithful (hchecks : (checks.map Prod.snd).Nodup) :
    Faithful (Hit isMatch skip checks ls) (report isMatch skip checks ls) where
  hits _ hf := mem_report.mp hf
  mem_iff n what := by
    refine mem_report.trans ⟨?_, fun h => ⟨n, what, h, rfl⟩⟩
    rintro ⟨n', what', h, heq⟩
    obtain ⟨rfl, rfl⟩ := findingText_inj heq
    exact h
  nodup := nodup_report hchecks

end Reports

/-- Whatever the patterns match, the findings of the two gates that read line by line tell which
line has what in it, and tell it once; comment lines are not looked at for dynamic code. -/
theorem findings_faithful (isMatch : String → List Char → Bool) (artifact : String) :
    Faithful (Hit isMatch (fun _ => false) secretChecks (lines artifact.toList))
        (checkSecrets isMatch artifact).2 ∧
      Faithful (Hit isMatch isComment evalChecks (lines artifact.toList))
        (checkEval isMatch artifact).2 := by
  rw [checkSecrets_report, checkEval_report]
  exact ⟨report_faithful (by decide), report_faithful (by decide)⟩

end HyperKitty.Ere
