import HyperKitty.Kernel.Boundary
import HyperKitty.Proofs.Bridging

namespace HyperKitty.Kernel

open HyperKitty.Runtime ReconciliationProtocol Routing Machine

variable {K : Type} {d : ReconciliationDecision K} {k : KernelState K}

/-- The decision is accepted, and the bytes of its three glyphs pass for indices. -/
def Understood (d : ReconciliationDecision K) : Prop :=
  d.accepted = true ∧ (d.currentState = .pi ∧ d.previousState = .pi ∨
    d.currentState = .pi ∧ d.previousState = .gamma ∨
    d.currentState = .gamma ∧ d.previousState = .pi)

theorem bytes_le_iff (current previous : Glyph) :
    (current.toByte ≤ 5 ∧ previous.toByte ≤ 5 ∧ (nextGlyph current previous).toByte ≤ 5 ↔
      current = .pi ∧ previous = .pi ∨ current = .pi ∧ previous = .gamma ∨
        current = .gamma ∧ previous = .pi) := by
  cases current <;> cases previous <;> decide

theorem nextGlyph_of_understood {current previous : Glyph}
    (h : current = .pi ∧ previous = .pi ∨ current = .pi ∧ previous = .gamma ∨
      current = .gamma ∧ previous = .pi) : nextGlyph current previous = .delta := by
  rcases h with ⟨rfl, rfl⟩ | ⟨rfl, rfl⟩ | ⟨rfl, rfl⟩ <;> rfl

theorem flag_ne_zero_iff {b : Bool} : flag b ≠ 0 ↔ b = true := by
  cases b <;> decide

variable [Field K] [LinearOrder K]

/-- The decision is one that the protocol makes, whatever its trace. -/
inductive Made : ReconciliationDecision K → Prop
  | accept (current previous : Glyph) (traceId : UInt64) :
    Made { ReconciliationDecision.accept current previous (nextGlyph current previous)
      (.finite 0) .accept with traceId }
  | reject (current previous : Glyph) (gate : ValidityGate) (traceId : UInt64) :
    Made { ReconciliationDecision.reject current previous (.finite 0)
      (.reject gate (.finite 0)) gate with traceId }

theorem made_of_reconcile {p : ReconciliationProtocol K} {current previous : Glyph}
    {proofExists invariantOk : Bool}
    (h : (p.reconcile current previous proofExists invariantOk).1 = .ok d) : Made d := by
  rcases reconcile_cases p current previous proofExists invariantOk with
    ⟨_, he⟩ | ⟨_, gate, he⟩
  · rw [he] at h
    cases h
    exact .accept current previous 0
  · rw [he] at h
    cases h
    exact .reject current previous gate 0

omit [LinearOrder K] in
theorem Made.traced (h : Made d) (traceId : UInt64) : Made { d with traceId } := by
  cases h with
  | accept current previous => exact .accept current previous traceId
  | reject current previous gate => exact .reject current previous gate traceId

theorem kernelDecide_of_not_glyphs {r : RouteDecision K} (hheader : validateHeader r = true)
    (hglyphs : ¬ validateGlyphs r = true) :
    kernelDecide k (some r) = rejectAt k (-2) .glyphs r.traceId := by
  simp [kernelDecide, hheader, hglyphs]

/-- Past the header, all that the kernel ever objects to in a decision of the protocol is the
bytes of its glyphs. -/
theorem kernelDecide_made [IsStrictOrderedRing K] (h : Made d) (k : KernelState K) :
    (Understood d ∧ (RouteDecision.fromReconciliation d).nextState = Glyph.delta.toByte ∧
        (RouteDecision.fromReconciliation d).entropy = .finite 0 ∧
        kernelDecide k (some (.fromReconciliation d)) =
          (⟨0, none, d.traceId⟩, commitState k (.fromReconciliation d))) ∨
      (¬ Understood d ∧
        kernelDecide k (some (.fromReconciliation d)) = rejectAt k (-2) .glyphs d.traceId) := by
  have hzero : (.finite 0 : F64 K) ≤ maxEntropy := F64.finite_le_finite.mpr (by norm_num)
  cases h with
  | accept current previous traceId =>
    by_cases hu : current = .pi ∧ previous = .pi ∨ current = .pi ∧ previous = .gamma ∨
        current = .gamma ∧ previous = .pi
    · have hnext := nextGlyph_of_understood hu
      refine .inl ⟨⟨rfl, hu⟩, ?_, rfl, ?_⟩
      · rw [nextState_fromReconciliation rfl, hnext]
      · rcases kernelDecide_cases k (.fromReconciliation _) with ⟨-, he⟩ | ⟨hp, -⟩
        · exact he
        · refine absurd ⟨⟨rfl, validateGlyphs_iff.mpr ((bytes_le_iff _ _).mpr hu),
            validateEntropy_iff.mpr ⟨F64.finite_le_finite.mpr le_rfl, hzero⟩⟩, ?_, ?_⟩ hp
          · exact flag_ne_zero_iff.mpr rfl
          · refine (validateConsistency_iff (flag_ne_zero_iff.mpr rfl)).mpr fun _ => ?_
            exact ⟨flag_ne_zero_iff.mpr (decide_eq_true hzero), flag_ne_zero_iff.mpr rfl,
              flag_ne_zero_iff.mpr rfl, flag_ne_zero_iff.mpr rfl⟩
    · refine .inr ⟨fun h => hu h.2, kernelDecide_of_not_glyphs rfl ?_⟩
      rw [validateGlyphs_iff]
      exact fun h => hu ((bytes_le_iff _ _).mp h)
  | reject current previous gate traceId =>
    refine .inr ⟨fun h => Bool.false_ne_true h.1, kernelDecide_of_not_glyphs rfl ?_⟩
    rw [validateGlyphs_iff]
    rintro ⟨-, -, h⟩
    exact absurd h (by change ¬ Glyph.lambda.toByte ≤ 5; decide)

/-- A reply of the kernel, with the decision that it is about. -/
def Reply.verdict : Reply K → Option (ReconciliationDecision K × KernelResult)
  | .judged d result => some (d, result)
  | _ => none

namespace Boundary

/-- The decisions that the kernel was asked about, with what it answered. -/
def verdicts (l : List (Request × Reply K)) : List (ReconciliationDecision K × KernelResult) :=
  l.filterMap fun e => e.2.verdict

/-- How many of the decisions the kernel took. -/
def taken (l : List (Request × Reply K)) : Nat :=
  (verdicts l).countP fun v => v.2.status = 0

/-- How many it turned away. -/
def refused (l : List (Request × Reply K)) : Nat :=
  (verdicts l).countP fun v => v.2.status ≠ 0

/-- What the kernel holds after a history, and why. -/
structure Accounted (l : List (Request × Reply K)) (kernel : KernelState K) : Prop where
  verdict : ∀ v ∈ verdicts l, Understood v.1 ∧ v.2 = ⟨0, none, v.1.traceId⟩ ∨
    ¬ Understood v.1 ∧ v.2 = ⟨-2, some .glyphs, v.1.traceId⟩
  committedState : kernel.committedState = if taken l = 0 then 0xFF else Glyph.delta.toByte
  committedAt : kernel.committedAt = .ofNat (taken l)
  acceptanceCount : kernel.acceptanceCount = .ofNat (taken l)
  rejectionCount : kernel.rejectionCount = .ofNat (refused l)
  lastEntropy : kernel.lastEntropy = .finite 0

/-- A step asks the kernel about a decision that was given, or leaves it as it is and gives at
most a decision of the protocol. -/
theorem step_cases (s : Boundary K) (r : Request) :
    (∃ d ∈ s.given, ∃ traceId,
      step s r = (
        .judged { d with traceId }
          (kernelDecide s.kernel (some (.fromReconciliation { d with traceId }))).1,
        { s with kernel :=
          (kernelDecide s.kernel (some (.fromReconciliation { d with traceId }))).2 })) ∨
      ((step s r).2.kernel = s.kernel ∧ (step s r).1.verdict = none ∧
        ∀ d ∈ (step s r).2.given, d ∈ s.given ∨ Made d) := by
  cases r with
  | reconcile current previous proofExists invariantOk =>
    right
    cases hrec : s.protocol.reconcile current previous proofExists invariantOk with
    | mk result p =>
      cases result with
      | error e =>
        simp only [step, hrec]
        exact ⟨trivial, rfl, fun d hd => .inl hd⟩
      | ok d =>
        have hmade : Made d := made_of_reconcile (by rw [hrec])
        simp only [step, hrec]
        refine ⟨trivial, rfl, fun d' hd' => ?_⟩
        rcases List.mem_append.mp hd' with hd' | hd'
        · exact .inl hd'
        · rw [List.mem_singleton.mp hd']
          exact .inr hmade
  | commit i =>
    right
    cases hd : s.given[i]? with
    | none =>
      simp only [step, hd]
      exact ⟨trivial, rfl, fun d hd => .inl hd⟩
    | some d =>
      simp only [step, hd]
      exact ⟨trivial, rfl, fun d hd => .inl hd⟩
  | forward i traceId =>
    cases hd : s.given[i]? with
    | none =>
      right
      simp only [step, hd]
      exact ⟨trivial, rfl, fun d hd => .inl hd⟩
    | some d =>
      left
      refine ⟨d, List.mem_of_getElem? hd, traceId, ?_⟩
      simp only [step, hd]

omit [Field K] [LinearOrder K] in
theorem verdicts_snoc (l : List (Request × Reply K)) (r : Request) (reply : Reply K) :
    verdicts (l ++ [(r, reply)]) = verdicts l ++ reply.verdict.toList := by
  rw [verdicts, List.filterMap_append]
  cases reply <;> rfl

omit [LinearOrder K] in
theorem Accounted.other {l : List (Request × Reply K)} {reply : Reply K} (h : Accounted l k)
    (r : Request) (hr : reply.verdict = none) : Accounted (l ++ [(r, reply)]) k := by
  have hv : verdicts (l ++ [(r, reply)]) = verdicts l := by
    rw [verdicts_snoc, hr, Option.toList_none, List.append_nil]
  have ht : taken (l ++ [(r, reply)]) = taken l := by rw [taken, taken, hv]
  have hf : refused (l ++ [(r, reply)]) = refused l := by rw [refused, refused, hv]
  exact ⟨hv ▸ h.verdict, ht ▸ h.committedState, ht ▸ h.committedAt, ht ▸ h.acceptanceCount,
    hf ▸ h.rejectionCount, h.lastEntropy⟩

omit [Field K] [LinearOrder K] in
theorem forall_verdicts_snoc {l : List (Request × Reply K)} {r : Request} {result : KernelResult}
    {P : ReconciliationDecision K × KernelResult → Prop} (h : ∀ v ∈ verdicts l, P v)
    (hd : P (d, result)) : ∀ v ∈ verdicts (l ++ [(r, .judged d result)]), P v := by
  rw [verdicts_snoc, List.forall_mem_append]
  exact ⟨h, by simpa [Reply.verdict] using hd⟩

/-- A decision that the kernel understands takes it to the byte of Delta. -/
theorem Accounted.judged [IsStrictOrderedRing K] {l : List (Request × Reply K)}
    (h : Accounted l k) (r : Request) (hd : Made d) :
    Accounted (l ++ [(r, .judged d (kernelDecide k (some (.fromReconciliation d))).1)])
      (kernelDecide k (some (.fromReconciliation d))).2 := by
  rcases kernelDecide_made hd k with ⟨hu, hnext, hentropy, he⟩ | ⟨hu, he⟩
  · rw [he]
    have ht : taken (l ++ [(r, .judged d ⟨0, none, d.traceId⟩)]) = taken l + 1 := by
      simp [taken, verdicts_snoc, Reply.verdict]
    have hf : refused (l ++ [(r, .judged d ⟨0, none, d.traceId⟩)]) = refused l := by
      simp [refused, verdicts_snoc, Reply.verdict]
    refine ⟨forall_verdicts_snoc h.verdict (.inl ⟨hu, rfl⟩), ?_, ?_, ?_, ?_, hentropy⟩
    · rw [ht, if_neg (Nat.succ_ne_zero _), ← hnext]
      rfl
    · rw [ht, commitState, h.committedAt, UInt64.ofNat_add]
      rfl
    · rw [ht, commitState, h.acceptanceCount, UInt64.ofNat_add]
      rfl
    · rw [hf, commitState, h.rejectionCount]
  · rw [he, rejectAt]
    have ht : taken (l ++ [(r, .judged d ⟨-2, some .glyphs, d.traceId⟩)]) = taken l := by
      simp [taken, verdicts_snoc, Reply.verdict]
    have hf : refused (l ++ [(r, .judged d ⟨-2, some .glyphs, d.traceId⟩)]) = refused l + 1 := by
      simp [refused, verdicts_snoc, Reply.verdict]
    refine ⟨forall_verdicts_snoc h.verdict (.inr ⟨hu, rfl⟩), ht ▸ h.committedState,
      ht ▸ h.committedAt, ht ▸ h.acceptanceCount, ?_, h.lastEntropy⟩
    rw [hf, h.rejectionCount, UInt64.ofNat_add]
    rfl

/-- In every interleaving, the kernel takes exactly the decisions that lead from Pi and Gamma to
Delta, of all that are forwarded to it, and comes to hold the index of Lambda: it is never told
of the absorber. -/
theorem forwarding_accounted [IsStrictOrderedRing K] (g : Glyph) (requests : List Request) :
    Accounted (log step (new g : Boundary K) requests) (run step (new g) requests).kernel := by
  refine (run_rule (R := fun l (s : Boundary K) => (∀ d ∈ s.given, Made d) ∧ Accounted l s.kernel)
    (s := new g) ?_ ?_ requests).2
  · exact ⟨List.forall_mem_nil _, List.forall_mem_nil _, rfl, rfl, rfl, rfl, rfl⟩
  · intro l s r h
    obtain ⟨hmade, haccounted⟩ := h
    rcases step_cases s r with ⟨d, hd, traceId, he⟩ | ⟨hkernel, hreply, hgiven⟩
    · rw [he]
      exact ⟨hmade, haccounted.judged r ((hmade d hd).traced traceId)⟩
    · rw [hkernel]
      refine ⟨fun d hd => ?_, haccounted.other r hreply⟩
      rcases hgiven d hd with hd | hd
      · exact hmade d hd
      · exact hd

theorem forwarding_accounted_twice :
    Accounted
      (log step (new .pi : Boundary ℚ) [.reconcile .pi .gamma true true, .forward 0 7, .forward 0 8])
      (run step (new .pi)
        [.reconcile .pi .gamma true true, .forward 0 7, .forward 0 8]).kernel :=
  forwarding_accounted .pi _

end Boundary

end HyperKitty.Kernel
