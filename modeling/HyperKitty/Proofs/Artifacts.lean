import HyperKitty.Formalization.History

namespace HyperKitty.Formalization

theorem Prover.tag_append_inj {p q : Prover} {x y : String} (h : p.tag ++ x = q.tag ++ y) :
    p = q ∧ x = y := by
  have ht := congrArg String.toList h
  cases p <;> cases q <;> simp [tag] at ht ⊢ <;> exact String.toList_inj.mp ht

namespace FormalizationMachine

def artifactIds (m : FormalizationMachine) (p : Prover) : List String :=
  (m.artifacts p).map ProverArtifact.artifactId

@[simp] theorem setArtifacts_self (m : FormalizationMachine) (as : List ProverArtifact)
    (p : Prover) : (m.setArtifacts as p).artifacts p = as := by
  cases p <;> rfl

@[simp] theorem setArtifacts_ne (m : FormalizationMachine) (as : List ProverArtifact)
    {p q : Prover} (h : q ≠ p) : (m.setArtifacts as p).artifacts q = m.artifacts q := by
  cases p <;> cases q <;> first | rfl | exact absurd rfl h

@[simp] theorem setArtifacts_correspondences (m : FormalizationMachine) (as : List ProverArtifact)
    (p : Prover) : (m.setArtifacts as p).correspondences = m.correspondences := by
  cases p <;> rfl

@[simp] theorem withType_artifactId (a : ProverArtifact) (type : String) (p : Prover) :
    (a.withType type p).artifactId = a.artifactId := by
  cases p <;> rfl

@[simp] theorem withType_status (a : ProverArtifact) (type : String) (p : Prover) :
    (a.withType type p).status = a.status := by
  cases p <;> rfl

@[simp] theorem validateCorrespondence_artifacts (m : FormalizationMachine) (invariantId : String)
    (p : Prover) : (m.validateCorrespondence invariantId).2.artifacts p = m.artifacts p := by
  simp only [validateCorrespondence]
  split
  · rfl
  · split <;> cases p <;> rfl

/-- A recording is refused and changes nothing, or updates one of the lists. -/
theorem recordStatus_cases (p : Prover) (m : FormalizationMachine) (artifactId : String)
    (status : ProverStatus) :
    (artifactId ∉ m.artifactIds p ∧
      recordStatus p m artifactId status = (.error .recordNotFound, m)) ∨
    ∃ as, Keyed.updateFirst ProverArtifact.artifactId artifactId
        (fun a => { a with status := status }) (m.artifacts p) = some as ∧
      recordStatus p m artifactId status = (.ok (), m.setArtifacts as p) := by
  rw [recordStatus]
  split
  · rename_i as h
    exact Or.inr ⟨as, h, rfl⟩
  · rename_i h
    exact Or.inl ⟨Keyed.updateFirst_eq_none.mp h, rfl⟩

/-- What a call does to the artifacts of a prover: it appends the one it emits,
it records a status, or it leaves them alone. -/
theorem step_artifacts (m : FormalizationMachine) (op : Op) (p : Prover) :
    (∃ invariantId a, op.emits p = some invariantId ∧ op.records m = none ∧
      a.artifactId = p.tag ++ invariantId ∧ a.status = .generatedUnverified ∧
      (m.step op).artifacts p = m.artifacts p ++ [a]) ∨
    (∃ artifactId status as, op.emits p = none ∧ op.records m = some ⟨p, artifactId, status⟩ ∧
      Keyed.updateFirst ProverArtifact.artifactId artifactId
        (fun a => { a with status := status }) (m.artifacts p) = some as ∧
      (m.step op).artifacts p = as) ∨
    (op.emits p = none ∧ (∀ r ∈ op.records m, r.prover ≠ p) ∧
      (m.step op).artifacts p = m.artifacts p) := by
  cases op with
  | emit q invariantId type sourceCode =>
    rw [step_emit]
    by_cases hq : p = q
    · subst hq
      refine Or.inl ⟨invariantId, _, if_pos rfl, rfl, ?_, ?_, setArtifacts_self _ _ _⟩
      · exact withType_artifactId _ _ _
      · exact withType_status _ _ _
    · exact Or.inr (Or.inr ⟨if_neg (Ne.symm hq), nofun, setArtifacts_ne _ _ hq⟩)
  | record q artifactId status =>
    rw [step_record]
    rcases recordStatus_cases q m artifactId status with ⟨_, h⟩ | ⟨as, hu, h⟩
    · refine Or.inr (Or.inr ⟨rfl, ?_, ?_⟩)
      · simp [Op.records, h]
      · rw [h]
    · by_cases hq : p = q
      · subst hq
        refine Or.inr (Or.inl ⟨artifactId, status, as, rfl, ?_, hu, ?_⟩)
        · simp [Op.records, h]
        · simp [h]
      · refine Or.inr (Or.inr ⟨rfl, ?_, ?_⟩)
        · simpa [Op.records, h] using Ne.symm hq
        · simp [h, hq]
  | validate invariantId =>
    exact Or.inr (Or.inr ⟨rfl, nofun, validateCorrespondence_artifacts m invariantId p⟩)
  | register | createHolLeanCorrespondence | createLeanAgdaCorrespondence | iterate =>
    refine Or.inr (Or.inr ⟨rfl, nofun, ?_⟩)
    cases p <;> rfl

theorem step_artifactIds (m : FormalizationMachine) (op : Op) (p : Prover) :
    (m.step op).artifactIds p = m.artifactIds p ++ (op.emits p).toList.map (p.tag ++ ·) := by
  rcases step_artifacts m op p with
    ⟨_, a, he, _, ha, _, hs⟩ | ⟨_, _, as, he, _, hu, hs⟩ | ⟨he, _, hs⟩
  · simp [artifactIds, hs, he, ha]
  · rw [artifactIds, hs, Keyed.updateFirst_map _ hu fun _ => rfl, he]
    simp [artifactIds]
  · simp [artifactIds, hs, he]

variable {start : FormalizationMachine}

/-- The artifacts' ids are those of the emitted invariants, in order. -/
theorem run_artifactIds (hs : start.artifactIds p = []) (ops : List Op) :
    (start.run ops).artifactIds p = (emitted p ops).map (p.tag ++ ·) := by
  induction ops using List.reverseRecOn with
  | nil => exact hs
  | append_singleton ops op ih =>
    rw [run_snoc, step_artifactIds, ih, emitted_snoc, List.map_append]

theorem run_artifactIds_nodup (hs : start.artifactIds p = []) {ops : List Op} :
    ((start.run ops).artifactIds p).Nodup ↔ (emitted p ops).Nodup := by
  rw [run_artifactIds hs]
  exact List.nodup_map_iff fun _ _ h => (Prover.tag_append_inj h).2

theorem new_artifacts (projectName organization formalizationOrder : String)
    (agdaIterationMultiplicity : UInt32) (p : Prover) :
    (new projectName organization formalizationOrder agdaIterationMultiplicity).artifacts p =
      [] := by
  cases p <;> rfl

theorem new_artifactIds (projectName organization formalizationOrder : String)
    (agdaIterationMultiplicity : UInt32) (p : Prover) :
    (new projectName organization formalizationOrder agdaIterationMultiplicity).artifactIds p =
      [] := by
  rw [artifactIds, new_artifacts, List.map_nil]

/-- What the recordings so far say of the artifacts of a machine. -/
structure Agrees (m : FormalizationMachine) (p : Prover) (rs : List Recording) : Prop where
  status : ∀ a ∈ m.artifacts p,
    a.status = (lastStatus p a.artifactId rs).getD .generatedUnverified
  known : ∀ artifactId ∈ recordedIds p rs, artifactId ∈ m.artifactIds p

namespace Agrees

variable {m m' : FormalizationMachine}

theorem of_artifacts (h : m.Agrees p rs) (hs : m'.artifacts p = m.artifacts p) :
    m'.Agrees p rs where
  status := hs ▸ h.status
  known := by
    rw [artifactIds, hs]
    exact h.known

/-- Nothing is recorded yet of a new artifact. -/
theorem emit (h : m.Agrees p rs) {a : ProverArtifact} (hs : m'.artifacts p = m.artifacts p ++ [a])
    (hst : a.status = .generatedUnverified) (hn : (m'.artifactIds p).Nodup) : m'.Agrees p rs := by
  have hids : m'.artifactIds p = m.artifactIds p ++ [a.artifactId] := by
    rw [artifactIds, hs, List.map_append]
    rfl
  have hfresh : a.artifactId ∉ m.artifactIds p := by
    rw [hids] at hn
    intro hmem
    exact List.disjoint_of_nodup_append hn hmem (List.mem_singleton_self _)
  refine ⟨?_, fun i hi => hids ▸ List.mem_append_left _ (h.known i hi)⟩
  rw [hs]
  intro a' ha'
  rcases List.mem_append.mp ha' with ha' | ha'
  · exact h.status a' ha'
  · rw [List.mem_singleton] at ha'
    subst ha'
    rw [lastStatus_eq_none (fun hi => hfresh (h.known _ hi)), hst]
    rfl

/-- A recording that is accepted is the last word on its artifact. -/
theorem record (h : m.Agrees p rs) {artifactId : String} {status : ProverStatus}
    (hu : Keyed.updateFirst ProverArtifact.artifactId artifactId
      (fun a => { a with status := status }) (m.artifacts p) = some (m'.artifacts p))
    (hn : (m.artifactIds p).Nodup) : m'.Agrees p (rs ++ [⟨p, artifactId, status⟩]) where
  status := by
    rw [Keyed.updateFirst_eq_map hn hu]
    intro a' ha'
    obtain ⟨a, ha, rfl⟩ := List.mem_map.mp ha'
    by_cases hi : a.artifactId = artifactId
    · simp [lastStatus_snoc, hi]
    · simp [lastStatus_snoc, hi, Ne.symm hi, h.status a ha]
  known := by
    intro i hi
    rw [artifactIds, Keyed.updateFirst_map _ hu fun _ => rfl]
    simp only [mem_recordedIds, List.mem_append, List.mem_singleton] at hi
    obtain ⟨r, hr | rfl, hp, rfl⟩ := hi
    · exact h.known _ (mem_recordedIds.mpr ⟨r, hr, hp, rfl⟩)
    · by_contra hmem
      rw [Keyed.updateFirst_eq_none.mpr hmem] at hu
      cases hu

/-- What is recorded of another prover says nothing of this one. -/
theorem snoc_of_ne (h : m.Agrees p rs) {r : Recording} (hne : r.prover ≠ p) :
    m.Agrees p (rs ++ [r]) where
  status := by simpa [lastStatus_snoc, hne] using h.status
  known := by
    intro i hi
    apply h.known i
    simpa [mem_recordedIds, or_and_right, exists_or, hne] using hi

theorem step (h : m.Agrees p rs) (op : Op) (hn : ((m.step op).artifactIds p).Nodup) :
    (m.step op).Agrees p (rs ++ (op.records m).toList) := by
  rcases step_artifacts m op p with
    ⟨id, a, he, hr, ha, hst, hs⟩ | ⟨artifactId, status, as, he, hr, hu, hs⟩ | ⟨he, hr, hs⟩
  · rw [hr, Option.toList_none, List.append_nil]
    exact h.emit hs hst hn
  · rw [step_artifactIds, he, Option.toList_none, List.map_nil, List.append_nil] at hn
    rw [hr, Option.toList_some]
    exact h.record (hs ▸ hu) hn
  · have hsame := h.of_artifacts hs
    cases hrec : op.records m with
    | none =>
      rw [Option.toList_none, List.append_nil]
      exact hsame
    | some r => exact hsame.snoc_of_ne (hr r hrec)

end Agrees

theorem Agrees.run (hs : start.artifacts p = []) (ops : List Op) (hn : (emitted p ops).Nodup) :
    (start.run ops).Agrees p (recordings start ops) := by
  have hids : start.artifactIds p = [] := by rw [artifactIds, hs, List.map_nil]
  induction ops using List.reverseRecOn with
  | nil => exact ⟨by simp [FormalizationMachine.run, hs], by simp [recordings, recordedIds]⟩
  | append_singleton ops op ih =>
    have hn' := (run_artifactIds_nodup hids).mpr hn
    rw [emitted_snoc] at hn
    rw [run_snoc] at hn' ⊢
    rw [recordings_snoc]
    exact (ih (List.Nodup.of_append_left hn)).step op hn'

/-- Artifacts are counted as verified once for each verified id. -/
theorem Agrees.count {m : FormalizationMachine} (h : m.Agrees p rs)
    (hn : (m.artifactIds p).Nodup) :
    verifiedCount (m.artifacts p) = (verifiedIds p rs).length := by
  have hcount : verifiedCount (m.artifacts p) =
      ((m.artifactIds p).filter fun i => lastStatus p i rs = some .verified).length := by
    rw [verifiedCount, artifactIds, List.filter_map, List.length_map,
      List.countP_eq_length_filter]
    apply congrArg List.length
    apply List.filter_congr
    intro a ha
    rw [h.status a ha]
    cases hl : lastStatus p a.artifactId rs <;> simp [hl]
  rw [hcount]
  refine List.Perm.length_eq ((List.perm_ext_iff_of_nodup (hn.filter _)
    (verifiedIds_nodup p rs)).mpr fun i => ?_)
  rw [List.mem_filter, mem_verifiedIds, decide_eq_true_eq]
  apply and_iff_right_of_imp
  intro hv
  apply h.known i
  by_contra hi
  rw [lastStatus_eq_none hi] at hv
  cases hv

end FormalizationMachine

/-- The count that the summary reports for a prover. -/
def FormalizationSummary.verified (s : FormalizationSummary) : Prover → Nat
  | .hol => s.holVerified
  | .lean => s.leanVerified
  | .agda => s.agdaVerified

namespace FormalizationMachine

variable {start : FormalizationMachine}

theorem summary_verified (m : FormalizationMachine) (p : Prover) :
    m.summary.verified p = verifiedCount (m.artifacts p) := by
  cases p <;> rfl

/-- After the run a status belongs to an id: ids are distinct, recording a status
sets it for all artifacts with the id and changes nothing else, and the summary
counts the ids that were last recorded as verified. -/
structure StatusUnambiguous (start : FormalizationMachine) (ops : List Op) : Prop where
  distinct : ∀ p, ((start.run ops).artifactIds p).Nodup
  recorded : ∀ p artifactId status m',
    recordStatus p (start.run ops) artifactId status = (.ok (), m') →
    m' = (start.run ops).setArtifacts (((start.run ops).artifacts p).map fun a =>
      if a.artifactId = artifactId then { a with status := status } else a) p
  counted : ∀ p, (start.run ops).summary.verified p = (verifiedIds p (recordings start ops)).length

/-- Statuses are unambiguous after exactly the runs that emit no two artifacts of
one prover for the same invariant. -/
theorem statusUnambiguous_iff (projectName organization formalizationOrder : String)
    (agdaIterationMultiplicity : UInt32) (ops : List Op) :
    StatusUnambiguous (new projectName organization formalizationOrder agdaIterationMultiplicity)
      ops ↔ ∀ p, (emitted p ops).Nodup := by
  have hids := new_artifactIds projectName organization formalizationOrder agdaIterationMultiplicity
  constructor
  · intro h p
    exact (run_artifactIds_nodup (hids p)).mp (h.distinct p)
  · intro h
    have hn : ∀ p, (((new projectName organization formalizationOrder
        agdaIterationMultiplicity).run ops).artifactIds p).Nodup :=
      fun p => (run_artifactIds_nodup (hids p)).mpr (h p)
    refine ⟨hn, fun p artifactId status m' hr => ?_, fun p => ?_⟩
    · rcases recordStatus_cases p _ artifactId status with ⟨_, he⟩ | ⟨as, hu, he⟩
      · rw [he] at hr
        cases hr
      · rw [he] at hr
        cases hr
        rw [Keyed.updateFirst_eq_map (hn p) hu]
    · rw [summary_verified]
      exact (Agrees.run (new_artifacts _ _ _ _ p) ops (h p)).count (hn p)

/-- The second artifact for an invariant has the id of the first, and no recording
reaches it. -/
theorem statusUnambiguous_fails_reemitted :
    let start := new "Test" "Test" "HOL_TO_LEAN_TO_AGDA" 20
    let ops : List Op := [.emit .hol "inv-001" "bool" "theorem test : True",
      .emit .hol "inv-001" "bool" "theorem test : True"]
    let m' := ((start.run ops).recordHolStatus "hol-inv-001" .verified).2
    ((start.run ops).recordHolStatus "hol-inv-001" .verified).1 = .ok () ∧
      m'.holArtifacts.map ProverArtifact.artifactId = ["hol-inv-001", "hol-inv-001"] ∧
      m'.holArtifacts.map ProverArtifact.status = [.verified, .generatedUnverified] ∧
      ¬ StatusUnambiguous start ops := by
  intro start ops m'
  refine ⟨by decide +kernel, by decide +kernel, by decide +kernel, fun h => ?_⟩
  exact absurd (h.distinct .hol) (by decide +kernel)

end FormalizationMachine

end HyperKitty.Formalization
