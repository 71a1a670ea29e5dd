import HyperKitty.Kernel.Decide
import HyperKitty.Lib.Machine
import HyperKitty.Lib.Outcome

namespace HyperKitty.Kernel

open HyperKitty.Runtime (RouteDecision)

variable {K : Type} {d : RouteDecision K} {k : KernelState K}

@[simp] theorem validateHeader_iff : validateHeader d = true ↔ d.abiVersion = 1 := by
  by_cases h : d.abiVersion = 1
  · simp [validateHeader, routeDecisionAbiVersion, h]
  · simp [validateHeader, routeDecisionAbiVersion, h]

@[simp] theorem validateGlyphs_iff : validateGlyphs d = true ↔
    d.currentState ≤ 5 ∧ d.previousState ≤ 5 ∧ d.nextState ≤ 5 := by
  simp [validateGlyphs]

/-- Past the test of `accepted`, four flags matter, and only where it is 1. -/
theorem validateConsistency_iff (h : d.accepted ≠ 0) : validateConsistency d = true ↔
    (d.accepted = 1 →
      d.entropyOk ≠ 0 ∧ d.reconciliationOk ≠ 0 ∧ d.routeValid ≠ 0 ∧ d.proofOk ≠ 0) := by
  by_cases h1 : d.accepted = 1
  · simp [validateConsistency, h1]
  · simp [validateConsistency, h, h1]

theorem validateHeader_ok_iff : d.validateHeader = .ok () ↔ validateHeader d = true := by
  rw [validateHeader_iff, RouteDecision.validateHeader]
  by_cases h : d.abiVersion = 1
  · simp [RouteDecision.abiVersionCurrent, h]
  · simp [RouteDecision.abiVersionCurrent, h]

theorem validateGlyphs_ok_iff : d.validateGlyphs = .ok () ↔ validateGlyphs d = true := by
  unfold RouteDecision.validateGlyphs validateGlyphs
  repeat' split
  all_goals simp

variable [Field K] [LinearOrder K]

@[simp] theorem validateEntropy_iff : validateEntropy d = true ↔
    .finite 0 ≤ d.entropy ∧ d.entropy ≤ .finite 0.20 := by
  unfold validateEntropy
  by_cases h : .finite 0 ≤ d.entropy ∧ d.entropy ≤ .finite 0.20
  · obtain ⟨q, hq, _⟩ := F64.between_iff.mp h
    have hne : (d.entropy != d.entropy) = false := by simp [hq, bne]
    rw [if_neg (not_not.mpr h), hne]
    simp [h]
  · rw [if_pos h]
    simp [h]

/-- The record passes the first three gates. -/
def WellFormed (d : RouteDecision K) : Prop :=
  validateHeader d = true ∧ validateGlyphs d = true ∧ validateEntropy d = true

/-- The record passes every gate. -/
def Passes (d : RouteDecision K) : Prop :=
  WellFormed d ∧ d.accepted ≠ 0 ∧ validateConsistency d = true

/-- A record either passes every gate and is committed, or it is rejected by one. -/
theorem kernelDecide_cases (k : KernelState K) (d : RouteDecision K) :
    (Passes d ∧ kernelDecide k (some d) = (⟨0, none, d.traceId⟩, commitState k d)) ∨
      (¬ Passes d ∧ ∃ status gate, status < 0 ∧
        kernelDecide k (some d) = rejectAt k status gate d.traceId) := by
  unfold Passes WellFormed kernelDecide
  by_cases hheader : validateHeader d = true
  · by_cases hglyphs : validateGlyphs d = true
    · by_cases hentropy : validateEntropy d = true
      · by_cases haccepted : d.accepted = 0
        · exact Or.inr ⟨by simp [haccepted], -4, .validity, by decide,
            by simp [hheader, hglyphs, hentropy, haccepted]⟩
        · by_cases hconsistency : validateConsistency d = true
          · exact Or.inl ⟨⟨⟨hheader, hglyphs, hentropy⟩, haccepted, hconsistency⟩,
              by simp [hheader, hglyphs, hentropy, haccepted, hconsistency]⟩
          · exact Or.inr ⟨by simp [hconsistency], -5, .consistency, by decide,
              by simp [hheader, hglyphs, hentropy, haccepted, hconsistency]⟩
      · exact Or.inr ⟨by simp [hentropy], -3, .entropy, by decide,
          by simp [hheader, hglyphs, hentropy]⟩
    · exact Or.inr ⟨by simp [hglyphs], -2, .glyphs, by decide, by simp [hheader, hglyphs]⟩
  · exact Or.inr ⟨by simp [hheader], -1, .header, by decide, by simp [hheader]⟩

theorem status_eq_zero_iff : (kernelDecide k (some d)).1.status = 0 ↔ Passes d := by
  rcases kernelDecide_cases k d with ⟨hp, he⟩ | ⟨hp, status, gate, hneg, he⟩
  · rw [he]
    exact iff_of_true rfl hp
  · rw [he]
    exact iff_of_false (by simpa [rejectAt] using Int.ne_of_lt hneg) hp

/-- What a committed record is supposed to be. -/
structure Sound (d : RouteDecision K) : Prop where
  abiVersion : d.abiVersion = 1
  currentState : d.currentState ≤ 5
  previousState : d.previousState ≤ 5
  nextState : d.nextState ≤ 5
  entropy : ∃ q, d.entropy = .finite q ∧ 0 ≤ q ∧ q ≤ 0.20
  accepted : d.accepted = 1
  failedGate : d.failedGate = 0
  entropyOk : d.entropyOk ≠ 0
  reconciliationOk : d.reconciliationOk ≠ 0
  routeValid : d.routeValid ≠ 0
  invariantPreserved : d.invariantPreserved ≠ 0
  proofOk : d.proofOk ≠ 0

/-- The flags leave the gates nothing to miss: the record is not accepted, or it
is accepted with exactly 1, and then a flag that is looked at is off or the two
fields that are not looked at are as they should be. -/
def FlagsSuffice (d : RouteDecision K) : Prop :=
  d.accepted = 0 ∨ d.accepted = 1 ∧ (d.entropyOk = 0 ∨ d.reconciliationOk = 0 ∨
    d.routeValid = 0 ∨ d.proofOk = 0 ∨ d.failedGate = 0 ∧ d.invariantPreserved ≠ 0)

/-- The kernel commits no unsound record exactly where the first three gates
reject it or its flags suffice: any other value of `accepted` skips the last gate,
which never looks at `failed_gate` and `invariant_preserved` of an accepted record. -/
theorem kernelDecide_sound_iff (k : KernelState K) (d : RouteDecision K) :
    ((kernelDecide k (some d)).1.status = 0 → Sound d) ↔ ¬ WellFormed d ∨ FlagsSuffice d := by
  rw [status_eq_zero_iff]
  constructor
  · intro h
    by_cases hw : WellFormed d
    · right
      by_cases h0 : d.accepted = 0
      · exact Or.inl h0
      · by_cases hc : validateConsistency d = true
        · have hs := h ⟨hw, h0, hc⟩
          exact Or.inr ⟨hs.accepted, by simp [hs.failedGate, hs.invariantPreserved]⟩
        · rw [validateConsistency_iff h0, Classical.not_imp] at hc
          refine Or.inr ⟨hc.1, ?_⟩
          tauto
    · exact Or.inl hw
  · intro h hp
    obtain ⟨hw, h0, hc⟩ := hp
    have hflags : FlagsSuffice d := h.resolve_left (not_not.mpr hw)
    obtain ⟨h1, hflags⟩ := hflags.resolve_left h0
    obtain ⟨he, hr, hv, hpr⟩ := (validateConsistency_iff h0).mp hc h1
    have hrest : d.failedGate = 0 ∧ d.invariantPreserved ≠ 0 := by tauto
    obtain ⟨hheader, hglyphs, hentropy⟩ := hw
    obtain ⟨hcurrent, hprevious, hnext⟩ := validateGlyphs_iff.mp hglyphs
    exact {
      abiVersion := validateHeader_iff.mp hheader
      currentState := hcurrent
      previousState := hprevious
      nextState := hnext
      entropy := F64.between_iff.mp (validateEntropy_iff.mp hentropy)
      accepted := h1
      failedGate := hrest.1
      entropyOk := he
      reconciliationOk := hr
      routeValid := hv
      invariantPreserved := hrest.2
      proofOk := hpr }

/-- A record that is accepted with 2 and fails everything else. -/
def forgedDecision : RouteDecision ℚ where
  abiVersion := 1
  currentState := 0
  previousState := 1
  nextState := 2
  padding0 := 0
  accepted := 2
  failedGate := 4
  entropy := .finite 0
  entropyOk := 0
  padding1 := 0
  reconciliationOk := 0
  routeValid := 0
  invariantPreserved := 0
  traceId := 42
  proofOk := 0
  padding2 := 0

theorem kernelDecide_commits_forged :
    (kernelDecide initial (some forgedDecision)).1.status = 0 ∧
      (kernelDecide initial (some forgedDecision)).2.committedState = 2 ∧
      ¬ Sound forgedDecision := by
  refine ⟨by decide +kernel, by decide +kernel, ?_⟩
  intro h
  exact absurd h.accepted (by decide)

variable [ToString K]

theorem validateEntropy_ok_iff : d.validateEntropy = .ok () ↔ validateEntropy d = true := by
  rw [validateEntropy_iff, ← F64.isFinite_between_iff]
  unfold RouteDecision.validateEntropy maxEntropy
  repeat' split
  all_goals simp_all

/-- The test of the flags that `validate_all` ends with. -/
theorem validateAll_ok_iff : d.validateAll = .ok () ↔
    WellFormed d ∧ (d.accepted = 1 →
      d.entropyOk ≠ 0 ∧ d.reconciliationOk ≠ 0 ∧ d.routeValid ≠ 0 ∧ d.proofOk ≠ 0) := by
  unfold RouteDecision.validateAll WellFormed
  rw [Exec.seq_ok, Exec.seq_ok, Exec.seq_ok, validateHeader_ok_iff, validateGlyphs_ok_iff,
    validateEntropy_ok_iff, and_assoc, and_assoc]
  repeat' split
  all_goals simp_all

/-- The two sides of the boundary agree: the kernel commits exactly the accepted
records that the sender's own validation passes. -/
theorem kernelDecide_validateAll_iff (k : KernelState K) (d : RouteDecision K) :
    (kernelDecide k (some d)).1.status = 0 ↔ d.validateAll = .ok () ∧ d.accepted ≠ 0 := by
  rw [status_eq_zero_iff, validateAll_ok_iff, Passes]
  constructor
  · intro h
    obtain ⟨hw, h0, hc⟩ := h
    exact ⟨⟨hw, (validateConsistency_iff h0).mp hc⟩, h0⟩
  · intro h
    obtain ⟨⟨hw, hc⟩, h0⟩ := h
    exact ⟨hw, h0, (validateConsistency_iff h0).mpr hc⟩

end HyperKitty.Kernel
