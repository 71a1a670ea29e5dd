import HyperKitty.Proofs.Artifacts

namespace HyperKitty.Formalization

namespace CorrespondenceObligation

/-- The obligation as it was created. -/
def unresolved (c : CorrespondenceObligation) : CorrespondenceObligation :=
  { c with status := .unresolved }

end CorrespondenceObligation

namespace FormalizationMachine

theorem unresolved_validated (invariantId : String) (c : CorrespondenceObligation) :
    (validated invariantId c).unresolved = c.unresolved := by
  unfold validated
  split <;> rfl

/-- There are obligations for the invariant and all of them are found to hold. -/
def Valid (m : FormalizationMachine) (invariantId : String) : Prop :=
  (∃ c ∈ m.correspondences, c.invariantId = invariantId) ∧
    ∀ c ∈ m.correspondences, c.invariantId = invariantId → m.artifactsExist c = true

theorem validate_of_valid {m : FormalizationMachine} (h : m.Valid invariantId) :
    m.validateCorrespondence invariantId =
      (.ok true, { m with correspondences := m.correspondences.map (validated invariantId) }) := by
  obtain ⟨⟨c, hc, hi⟩, hall⟩ := h
  have hne : (m.correspondences.filter (·.invariantId == invariantId)).isEmpty = false := by
    rw [List.isEmpty_eq_false_iff_exists_mem]
    exact ⟨c, List.mem_filter.mpr ⟨hc, by simpa using hi⟩⟩
  have hv : (m.correspondences.filter (·.invariantId == invariantId)).all m.artifactsExist =
      true := by
    rw [List.all_eq_true]
    intro d hd
    rw [List.mem_filter, beq_iff_eq] at hd
    exact hall d hd.1 hd.2
  simp [validateCorrespondence, hne, hv]

theorem validate_of_not_valid {m : FormalizationMachine} (h : ¬ m.Valid invariantId) :
    m.validateCorrespondence invariantId = (.ok false, m) := by
  simp only [validateCorrespondence]
  split
  · rfl
  · rename_i hne
    rw [List.isEmpty_iff, ← ne_eq] at hne
    obtain ⟨c, hc⟩ := List.exists_mem_of_ne_nil _ hne
    rw [List.mem_filter, beq_iff_eq] at hc
    split
    · rename_i hv
      rw [List.all_eq_true] at hv
      refine absurd ⟨⟨c, hc.1, hc.2⟩, fun d hd hi => hv d ?_⟩ h
      exact List.mem_filter.mpr ⟨hd, by simpa using hi⟩
    · rename_i hv
      rw [Bool.not_eq_true] at hv
      rw [hv]

theorem validate_cases (m : FormalizationMachine) (invariantId : String) :
    (m.validateCorrespondence invariantId).2.correspondences = m.correspondences ∨
      (m.validateCorrespondence invariantId).2.correspondences =
        m.correspondences.map (validated invariantId) := by
  by_cases h : m.Valid invariantId
  · exact Or.inr (by rw [validate_of_valid h])
  · exact Or.inl (by rw [validate_of_not_valid h])

/-- Up to their status, obligations are only ever added. -/
theorem step_correspondences (m : FormalizationMachine) (op : Op) :
    (m.step op).correspondences.map CorrespondenceObligation.unresolved =
      m.correspondences.map CorrespondenceObligation.unresolved ++ op.obliges.toList := by
  cases op with
  | createHolLeanCorrespondence => exact List.map_append
  | createLeanAgdaCorrespondence => exact List.map_append
  | validate invariantId =>
    simp only [step, Op.obliges, Option.toList_none, List.append_nil]
    rcases validate_cases m invariantId with h | h
    · rw [h]
    · rw [h, List.map_map]
      exact List.map_congr_left fun c _ => unresolved_validated invariantId c
  | record p artifactId status =>
    rcases recordStatus_cases p m artifactId status with ⟨_, h⟩ | ⟨as, _, h⟩
    · simp [step_record, Op.obliges, h]
    · simp [step_record, Op.obliges, h]
  | emit p => simp [step_emit, Op.obliges, emitArtifact]
  | register | iterate => exact (List.append_nil _).symm

variable {start : FormalizationMachine}

theorem run_correspondences (hs : start.correspondences = []) (ops : List Op) :
    (start.run ops).correspondences.map CorrespondenceObligation.unresolved = obliged ops := by
  induction ops using List.reverseRecOn with
  | nil => simp [run, hs, obliged]
  | append_singleton ops op ih => rw [run_snoc, step_correspondences, ih, obliged_snoc]

/-- Among the artifacts of the prover with this name there is one with this id. -/
def HasArtifact (m : FormalizationMachine) (prover artifactId : String) : Prop :=
  ∃ p : Prover, p.name = prover ∧ artifactId ∈ m.artifactIds p

/-- Obligations exist for the invariant, and for each of them both artifacts exist
where the obligation says. -/
def Corresponds (m : FormalizationMachine) (invariantId : String) : Prop :=
  (∃ c ∈ m.correspondences, c.invariantId = invariantId) ∧
    ∀ c ∈ m.correspondences, c.invariantId = invariantId →
      m.HasArtifact c.sourceProver c.sourceArtifactId ∧
        m.HasArtifact c.targetProver c.targetArtifactId

/-- Validation answers whether the correspondences hold, and marks exactly the
obligations of the invariant when they do. -/
structure Decides (m : FormalizationMachine) (invariantId : String) : Prop where
  result : (m.validateCorrespondence invariantId).1 = .ok true ↔ m.Corresponds invariantId
  marks : m.Corresponds invariantId → (m.validateCorrespondence invariantId).2 =
    { m with correspondences := m.correspondences.map (validated invariantId) }
  keeps : ¬ m.Corresponds invariantId → (m.validateCorrespondence invariantId).2 = m

theorem decides_iff {m : FormalizationMachine} :
    m.Decides invariantId ↔ (m.Valid invariantId ↔ m.Corresponds invariantId) := by
  have hresult : (m.validateCorrespondence invariantId).1 = .ok true ↔ m.Valid invariantId := by
    by_cases h : m.Valid invariantId
    · simp [validate_of_valid h, h]
    · simp [validate_of_not_valid h, h]
  constructor
  · intro h
    exact hresult.symm.trans h.result
  · intro h
    refine ⟨hresult.trans h, fun hc => ?_, fun hc => ?_⟩
    · rw [validate_of_valid (h.mpr hc)]
    · rw [validate_of_not_valid (mt h.mp hc)]

theorem any_artifactId {as : List ProverArtifact} {artifactId : String} :
    as.any (·.artifactId == artifactId) = true ↔ artifactId ∈ as.map ProverArtifact.artifactId := by
  simp [List.any_eq_true]

theorem artifactsExist_iff {m : FormalizationMachine} : m.artifactsExist c = true ↔
    c.sourceArtifactId ∈ m.artifactIds .hol ∧
      (c.targetArtifactId ∈ m.artifactIds .lean ∨ c.targetArtifactId ∈ m.artifactIds .agda) := by
  rw [artifactsExist, Bool.and_eq_true, Bool.or_eq_true, any_artifactId, any_artifactId,
    any_artifactId]
  rfl

/-- An artifact's id occurs in the list of its own prover only. -/
theorem mem_artifactIds_run (hs : ∀ p, start.artifactIds p = []) {ops : List Op} {p q : Prover} :
    p.tag ++ invariantId ∈ (start.run ops).artifactIds q ↔ p = q ∧ invariantId ∈ emitted p ops := by
  rw [run_artifactIds (hs q), List.mem_map]
  constructor
  · intro h
    obtain ⟨i, hi, he⟩ := h
    obtain ⟨rfl, rfl⟩ := Prover.tag_append_inj he
    exact ⟨rfl, hi⟩
  · intro h
    obtain ⟨rfl, hi⟩ := h
    exact ⟨invariantId, hi, rfl⟩

theorem hasArtifact_run (hs : ∀ p, start.artifactIds p = []) {ops : List Op} {p : Prover} :
    (start.run ops).HasArtifact p.name (p.tag ++ invariantId) ↔ invariantId ∈ emitted p ops := by
  constructor
  · intro h
    obtain ⟨q, _, hq⟩ := h
    exact ((mem_artifactIds_run hs).mp hq).2
  · intro h
    exact ⟨p, rfl, (mem_artifactIds_run hs).mpr ⟨rfl, h⟩⟩

theorem exists_obliged {ops : List Op} {invariantId : String} :
    (∃ c ∈ obliged ops, c.invariantId = invariantId) ↔
      .createHolLeanCorrespondence invariantId ∈ ops ∨
        .createLeanAgdaCorrespondence invariantId ∈ ops := by
  simp only [obliged, List.mem_filterMap]
  constructor
  · intro h
    obtain ⟨c, ⟨op, hop, hc⟩, rfl⟩ := h
    cases op <;> cases hc
    · exact Or.inl hop
    · exact Or.inr hop
  · intro h
    rcases h with hop | hop
    · exact ⟨_, ⟨_, hop, rfl⟩, rfl⟩
    · exact ⟨_, ⟨_, hop, rfl⟩, rfl⟩

/-- An invariant has obligations of two kinds at most, however often they were created. -/
theorem forall_obliged {ops : List Op} {invariantId : String}
    {P : CorrespondenceObligation → Prop} :
    (∀ c ∈ obliged ops, c.invariantId = invariantId → P c) ↔
      (.createHolLeanCorrespondence invariantId ∈ ops → P (holLeanObligation invariantId)) ∧
        (.createLeanAgdaCorrespondence invariantId ∈ ops → P (leanAgdaObligation invariantId)) := by
  simp only [obliged, List.mem_filterMap]
  constructor
  · intro h
    exact ⟨fun hop => h _ ⟨_, hop, rfl⟩ rfl, fun hop => h _ ⟨_, hop, rfl⟩ rfl⟩
  · intro h c hc hi
    obtain ⟨hl, la⟩ := h
    obtain ⟨op, hop, hc⟩ := hc
    subst hi
    cases op <;> cases hc
    · exact hl hop
    · exact la hop

section Run

variable (ho : start.correspondences = []) (ha : ∀ p, start.artifactIds p = []) {ops : List Op}
  {invariantId : String}

include ho

/-- The obligations after a run are those it created, in whatever status they are. -/
theorem obligations_run {P : CorrespondenceObligation → Prop} (hP : ∀ c, P c.unresolved ↔ P c) :
    ((∃ c ∈ (start.run ops).correspondences, c.invariantId = invariantId) ∧
      ∀ c ∈ (start.run ops).correspondences, c.invariantId = invariantId → P c) ↔
    (.createHolLeanCorrespondence invariantId ∈ ops ∨
        .createLeanAgdaCorrespondence invariantId ∈ ops) ∧
      (.createHolLeanCorrespondence invariantId ∈ ops → P (holLeanObligation invariantId)) ∧
      (.createLeanAgdaCorrespondence invariantId ∈ ops → P (leanAgdaObligation invariantId)) := by
  rw [← exists_obliged, ← forall_obliged, ← run_correspondences ho ops]
  apply and_congr
  · simp [CorrespondenceObligation.unresolved]
  · rw [List.forall_mem_map]
    exact forall₂_congr fun c _ => imp_congr_right fun _ => (hP c).symm

include ha

theorem valid_run : (start.run ops).Valid invariantId ↔
    .createHolLeanCorrespondence invariantId ∈ ops ∧ invariantId ∈ emitted .hol ops ∧
      invariantId ∈ emitted .lean ops ∧ .createLeanAgdaCorrespondence invariantId ∉ ops := by
  have hl : (start.run ops).artifactsExist (holLeanObligation invariantId) = true ↔
      invariantId ∈ emitted .hol ops ∧ invariantId ∈ emitted .lean ops := by
    rw [artifactsExist_iff]
    simp only [holLeanObligation, obligation, mem_artifactIds_run ha]
    simp
  have la : ¬ (start.run ops).artifactsExist (leanAgdaObligation invariantId) = true := by
    rw [artifactsExist_iff]
    simp only [leanAgdaObligation, obligation, mem_artifactIds_run ha]
    simp
  rw [Valid, obligations_run ho fun _ => Iff.rfl, hl]
  tauto

theorem corresponds_run : (start.run ops).Corresponds invariantId ↔
    (.createHolLeanCorrespondence invariantId ∈ ops ∨
        .createLeanAgdaCorrespondence invariantId ∈ ops) ∧
      (.createHolLeanCorrespondence invariantId ∈ ops →
        invariantId ∈ emitted .hol ops ∧ invariantId ∈ emitted .lean ops) ∧
      (.createLeanAgdaCorrespondence invariantId ∈ ops →
        invariantId ∈ emitted .lean ops ∧ invariantId ∈ emitted .agda ops) := by
  rw [Corresponds, obligations_run ho fun _ => Iff.rfl]
  simp only [holLeanObligation, leanAgdaObligation, obligation, hasArtifact_run ha]

end Run

/-- The run calls for a Lean to Agda correspondence of the invariant and has
emitted every artifact that its obligations need. -/
def Misjudged (ops : List Op) (invariantId : String) : Prop :=
  .createLeanAgdaCorrespondence invariantId ∈ ops ∧ invariantId ∈ emitted .lean ops ∧
    invariantId ∈ emitted .agda ops ∧
    (.createHolLeanCorrespondence invariantId ∈ ops → invariantId ∈ emitted .hol ops)

/-- After any run, validation decides the correspondences of an invariant unless
a Lean to Agda obligation is among those that hold: its source is looked up
among the HOL artifacts. -/
theorem decides_run_iff (projectName organization formalizationOrder : String)
    (agdaIterationMultiplicity : UInt32) (ops : List Op) (invariantId : String) :
    ((new projectName organization formalizationOrder agdaIterationMultiplicity).run ops).Decides
      invariantId ↔ ¬ Misjudged ops invariantId := by
  have ha := new_artifactIds projectName organization formalizationOrder agdaIterationMultiplicity
  rw [decides_iff, valid_run rfl ha, corresponds_run rfl ha, Misjudged]
  tauto

/-- All artifacts are there and both obligations are, yet validation fails. -/
theorem validate_fails_full_pipeline :
    let m := (new "Test" "Test" "HOL_TO_LEAN_TO_AGDA" 20).run
      [.emit .hol "inv-001" "bool" "theorem test : True",
        .emit .lean "inv-001" "Bool" "theorem test : True := by trivial",
        .emit .agda "inv-001" "Set" "test : Set\ntest = ⊤",
        .createHolLeanCorrespondence "inv-001", .createLeanAgdaCorrespondence "inv-001"]
    (m.validateCorrespondence "inv-001").1 = .ok false ∧ m.Corresponds "inv-001" ∧
      ¬ m.Decides "inv-001" := by
  intro m
  have hv : (m.validateCorrespondence "inv-001").1 = .ok false := by decide +kernel
  have hc : m.Corresponds "inv-001" := by
    apply (corresponds_run rfl (new_artifactIds _ _ _ _)).mpr
    simp [emitted, Op.emits]
  refine ⟨hv, hc, fun h => ?_⟩
  have hr := h.result.mpr hc
  rw [hv] at hr
  cases hr

end FormalizationMachine

end HyperKitty.Formalization
