import HyperKitty.Routing.Tensor

namespace HyperKitty.Routing

variable {rt : RoutingTensor} {w : Witness} {maxSteps : Int}

/-- The witness of a token after some uses. -/
def witnessAfter (rt : RoutingTensor) (w : Witness) (n : Nat) : Witness :=
  (qraEvolveWitness · rt)^[n] w

theorem witnessAfter_succ (n : Nat) :
    witnessAfter rt w (n + 1) = qraEvolveWitness (witnessAfter rt w n) rt :=
  Function.iterate_succ_apply' _ n w

/-- The token is used up after `n` uses, of which there are at most `maxSteps`. -/
def UsedUp (rt : RoutingTensor) (w : Witness) (maxSteps n : Int) : Prop :=
  1 ≤ n ∧ n ≤ maxSteps ∧ qraIsAbsorbed (witnessAfter rt w n.toNat) = true

theorem usedUp_iff {n : Int} : UsedUp rt w maxSteps n ↔
    FirstHit.Stops (qraEvolveWitness · rt) (fun _ w => qraIsAbsorbed w) w maxSteps (n - 1) := by
  unfold UsedUp FirstHit.Stops FirstHit.Hits
  constructor
  · intro ⟨h1, hle, h⟩
    have hn : n.toNat = (n - 1).toNat + 1 := by omega
    rw [hn] at h
    exact ⟨by omega, by omega, h⟩
  · intro ⟨h0, hlt, h⟩
    have hn : n.toNat = (n - 1).toNat + 1 := by omega
    refine ⟨by omega, by omega, ?_⟩
    rw [hn]
    exact h

/-- The lifetime is one less than the least number of uses, or there is none. -/
theorem qraTokenLifetime_cases (rt : RoutingTensor) (w : Witness) (maxSteps : Int) :
    (qraIsFixed w = true ∧ qraTokenLifetime w maxSteps (some rt) = -1) ∨
    (qraIsFixed w = false ∧ (∀ n, ¬ UsedUp rt w maxSteps n) ∧
      qraTokenLifetime w maxSteps (some rt) = -1) ∨
    (qraIsFixed w = false ∧
      IsLeast {n | UsedUp rt w maxSteps n} (qraTokenLifetime w maxSteps (some rt) + 1)) := by
  unfold qraTokenLifetime
  cases hf : qraIsFixed w with
  | true => exact .inl ⟨rfl, rfl⟩
  | false =>
    right
    dsimp only
    rw [if_neg Bool.false_ne_true]
    rcases FirstHit.run_cases (qraEvolveWitness · rt) (fun _ w => qraIsAbsorbed w) maxSteps w with
      ⟨hno, he⟩ | ⟨hstop, hleast⟩
    · left
      refine ⟨rfl, ?_, he⟩
      intro n hn
      exact hno _ (usedUp_iff.mp hn)
    · right
      refine ⟨rfl, usedUp_iff.mpr (by rwa [add_sub_cancel_right]), ?_⟩
      intro n hn
      have hle := hleast (usedUp_iff.mp hn)
      omega

section Absorbed

variable (homega : ∀ j, rt.Q 3 j = glyphOme)
include homega

theorem qraStep_omega {previous : Int} : qraStep glyphOme previous rt = glyphOme := by
  unfold qraStep
  split
  · rfl
  · exact homega _

theorem absorbed_evolve (h : qraIsAbsorbed w = true) :
    qraIsAbsorbed (qraEvolveWitness w rt) = true := by
  simp only [qraIsAbsorbed, Bool.and_eq_true, beq_iff_eq] at h
  obtain ⟨⟨h0, h1⟩, h2⟩ := h
  simp [qraIsAbsorbed, qraEvolveWitness, h0, h1, h2, qraStep_omega homega]

theorem absorbed_after {n : Nat} (h : qraIsAbsorbed (witnessAfter rt w n) = true) (k : Nat) :
    qraIsAbsorbed (witnessAfter rt w (n + k)) = true := by
  induction k with
  | zero => exact h
  | succ k ih =>
    rw [← Nat.add_assoc, witnessAfter_succ]
    exact absorbed_evolve homega ih

end Absorbed

/-- The lifetime is the number of uses after which the token is used up, for good. -/
structure CountsUses (rt : RoutingTensor) (w : Witness) (maxSteps : Int) : Prop where
  least : qraIsFixed w = false → (∃ n, UsedUp rt w maxSteps n) →
    IsLeast {n | UsedUp rt w maxSteps n} (qraTokenLifetime w maxSteps (some rt))
  endless : qraTokenLifetime w maxSteps (some rt) = -1 ↔
    qraIsFixed w = true ∨ ¬ ∃ n, UsedUp rt w maxSteps n
  stays : (∀ j, rt.Q 3 j = glyphOme) → ∀ n, qraIsAbsorbed (witnessAfter rt w n) = true →
    ∀ k, qraIsAbsorbed (witnessAfter rt w (n + k)) = true

/-- The count is right exactly where there is nothing to count. -/
theorem countsUses_iff (rt : RoutingTensor) (w : Witness) (maxSteps : Int) :
    CountsUses rt w maxSteps ↔ qraIsFixed w = true ∨ ∀ n, ¬ UsedUp rt w maxSteps n := by
  have hstays : (∀ j, rt.Q 3 j = glyphOme) → ∀ n,
      qraIsAbsorbed (witnessAfter rt w n) = true →
      ∀ k, qraIsAbsorbed (witnessAfter rt w (n + k)) = true :=
    fun homega _ h k => absorbed_after homega h k
  rcases qraTokenLifetime_cases rt w maxSteps with ⟨hf, he⟩ | ⟨hf, hno, he⟩ | ⟨hf, hn⟩
  · refine ⟨fun _ => .inl hf, fun _ => ⟨?_, ?_, hstays⟩⟩
    · intro hf'
      rw [hf] at hf'
      cases hf'
    · exact ⟨fun _ => .inl hf, fun _ => he⟩
  · refine ⟨fun _ => .inr hno, fun _ => ⟨?_, ?_, hstays⟩⟩
    · intro _ ⟨n, hn⟩
      exact absurd hn (hno n)
    · exact ⟨fun _ => .inr fun ⟨n, hn⟩ => hno n hn, fun _ => he⟩
  · constructor
    · intro h
      have hl := h.least hf ⟨_, hn.1⟩
      have hle := hn.2 hl.1
      omega
    · intro h
      rcases h with h | h
      · rw [hf] at h
        cases h
      · exact absurd hn.1 (h _)

/-- With the tensor that is set up three deltas are used up after one use, which is counted
as none. -/
theorem deltas_miscounted : ¬ CountsUses .alloc ⟨glyphDel, glyphDel, glyphDel⟩ 10 := by
  intro h
  have hu : UsedUp .alloc ⟨glyphDel, glyphDel, glyphDel⟩ 10 1 := by
    refine ⟨by norm_num, by norm_num, ?_⟩
    decide +kernel
  have hzero : qraTokenLifetime ⟨glyphDel, glyphDel, glyphDel⟩ 10 (some .alloc) = 0 := by
    decide +kernel
  have hl := (h.least rfl ⟨1, hu⟩).1.1
  rw [hzero] at hl
  omega

end HyperKitty.Routing
