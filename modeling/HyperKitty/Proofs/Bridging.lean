import HyperKitty.Proofs.Deciding
import HyperKitty.Proofs.Reconciling

namespace HyperKitty.Kernel

open HyperKitty.Runtime ReconciliationProtocol

variable {K : Type} [Field K] [LinearOrder K]

/-- The record carries each state as the byte of its glyph. -/
theorem nextState_fromReconciliation {d : ReconciliationDecision K} {next : Glyph}
    (h : d.nextState = some next) :
    (RouteDecision.fromReconciliation d).nextState = next.toByte := by
  simp [RouteDecision.fromReconciliation, RouteDecision.new, h]

theorem committedState_of_status {k : KernelState K} {r : RouteDecision K}
    (h : (kernelDecide k (some r)).1.status = 0) :
    (kernelDecide k (some r)).2.committedState = r.nextState := by
  rcases kernelDecide_cases k r with ⟨_, he⟩ | ⟨hp, _⟩
  · rw [he]
    rfl
  · exact absurd (status_eq_zero_iff.mp h) hp

/-- The record of the decision passes its own validation, and the kernel commits
it to the glyph that the decision leads to. -/
def Committable [ToString K] (k : KernelState K) (d : ReconciliationDecision K) : Prop :=
  let r := RouteDecision.fromReconciliation d
  r.validateAll = .ok () ∧ (kernelDecide k (some r)).1.status = 0 ∧
    Glyph.byIndex (kernelDecide k (some r)).2.committedState.toNat = d.nextState

theorem not_committable [ToString K] {k : KernelState K} {d : ReconciliationDecision K}
    {next : Glyph} (hd : d.nextState = some next) : ¬ Committable k d := by
  intro h
  obtain ⟨_, hstatus, hstate⟩ := h
  rw [committedState_of_status hstatus, nextState_fromReconciliation hd, hd] at hstate
  exact next.byIndex_toByte_ne hstate

/-- No accepted decision is committable, so they all are exactly where none is
accepted: the record has the bytes of the glyphs where the kernel takes indices. -/
theorem accepted_committable_iff [ToString K] (p : ReconciliationProtocol K) (k : KernelState K)
    (current previous : Glyph) (proofExists invariantOk : Bool) (traceId : UInt64) :
    (∀ d, (p.reconcile current previous proofExists invariantOk).1 = .ok d →
      d.accepted = true → Committable k { d with traceId := traceId }) ↔
    p.predicate.entropyThreshold < .finite 0 ∨ proofExists = false ∨ invariantOk = false := by
  rcases reconcile_cases p current previous proofExists invariantOk with
    ⟨ha, he⟩ | ⟨ha, gate, he⟩
  · rw [he]
    refine iff_of_false ?_ ?_
    · intro h
      exact not_committable rfl (h _ rfl rfl)
    · obtain ⟨ht, hproof, hinvariant⟩ := ha
      simp [ht, hproof, hinvariant]
  · rw [he]
    refine iff_of_true ?_ ?_
    · intro d hd haccepted
      cases hd
      cases haccepted
    · unfold Accepts at ha
      rw [← Bool.not_eq_true, ← Bool.not_eq_true]
      tauto

/-- What the protocol makes of a step from Pi after Gamma. -/
def toDelta : ReconciliationDecision ℚ :=
  .accept .pi .gamma .delta (.finite 0) .accept

/-- The decision leads to Delta, and the kernel commits it as Lambda. -/
theorem delta_committed_as_lambda :
    ((new .pi : ReconciliationProtocol ℚ).reconcile .pi .gamma true true).1 = .ok toDelta ∧
      toDelta.accepted = true ∧
      (kernelDecide initial (some (.fromReconciliation toDelta))).1.status = 0 ∧
      Glyph.byIndex (kernelDecide initial
        (some (.fromReconciliation toDelta))).2.committedState.toNat = some .lambda ∧
      ¬ Committable initial { toDelta with traceId := 0 } := by
  refine ⟨?_, rfl, by decide +kernel, by decide +kernel, not_committable rfl⟩
  rw [reconcile_accepts (accepts_new .pi)]
  rfl

end HyperKitty.Kernel
