import HyperKitty.Proofs.Masks
import HyperKitty.Proofs.Screening

namespace HyperKitty.Pipeline

open Nand

section Filter

/-- Expert `i` is in the mask. -/
def Active (mask : UInt32) (i : Nat) : Prop := Has mask.toBitVec i

variable {mask filtered : UInt32} {i j k : Nat}

theorem bit_toBitVec (h : i < 32) : (bit i).toBitVec = 1#32 <<< i := by
  have hbits : ∀ i < 32, (bit i).toBitVec = 1#32 <<< i := by decide +kernel
  exact hbits i h

theorem active_iff_and (h : i < 32) : mask &&& bit i ≠ 0 ↔ Active mask i := by
  rw [Active, Has, ← Nand.active_iff h, ← bit_toBitVec h, ← UInt32.toBitVec_and, ne_eq,
    ← UInt32.toBitVec_inj]
  rfl

theorem active_clear (h : j < 32) (k : Nat) :
    Active (mask &&& ~~~ bit j) k ↔ Active mask k ∧ k ≠ j := by
  rw [Active, UInt32.toBitVec_and, UInt32.toBitVec_not, bit_toBitVec h, has_clear h]
  rfl

/-- One step of the inner loop. -/
theorem active_suppressOne (h : j < 32) (i k : Nat) :
    Active (if filtered &&& bit j = 0 then filtered
      else if i % 3 = j % 3 then filtered &&& ~~~ bit j
      else filtered) k ↔ Active filtered k ∧ ¬ (k = j ∧ i % 3 = k % 3) := by
  by_cases ha : filtered &&& bit j = 0
  · have hj : ¬ Active filtered j := fun hj => (active_iff_and h).mpr hj ha
    rw [if_pos ha]
    grind
  · rw [if_neg ha]
    by_cases hc : i % 3 = j % 3
    · rw [if_pos hc, active_clear h]
      grind
    · rw [if_neg hc]
      grind

theorem active_innerLoop (js : List Nat) (hj : ∀ j ∈ js, j < 32) (filtered : UInt32) (i k : Nat) :
    Active (js.foldl (fun filtered j =>
      if filtered &&& bit j = 0 then filtered
      else if i % 3 = j % 3 then filtered &&& ~~~ bit j
      else filtered) filtered) k ↔ Active filtered k ∧ ¬ (k ∈ js ∧ i % 3 = k % 3) := by
  induction js generalizing filtered with
  | nil => simp
  | cons j js ih =>
    rw [List.forall_mem_cons] at hj
    rw [List.foldl_cons, ih hj.2, active_suppressOne hj.1]
    grind

theorem active_suppress (h : i < 32) (k : Nat) : Active (suppress filtered i) k ↔
    Active filtered k ∧ ¬ (Active filtered i ∧ i < k ∧ i % 3 = k % 3) := by
  unfold suppress
  by_cases ha : filtered &&& bit i = 0
  · have hi : ¬ Active filtered i := fun hi => (active_iff_and h).mpr hi ha
    rw [if_pos ha]
    grind
  · have hi : Active filtered i := (active_iff_and h).mp ha
    have hk : Active filtered k → (k ∈ List.range' (i + 1) (32 - (i + 1)) ↔ i < k) := by
      intro hk
      have hlt := hk.lt
      rw [List.mem_range'_1]
      omega
    rw [if_neg ha, active_innerLoop _ (by grind)]
    grind

/-- The outer loop leaves of each class the lowest active expert among those it has come to. -/
theorem active_outerLoop {n : Nat} (hn : n ≤ 32) (mask : UInt32) (k : Nat) :
    Active ((List.range n).foldl suppress mask) k ↔
      Active mask k ∧ ∀ i < n, Active mask i → i < k → i % 3 ≠ k % 3 := by
  induction n generalizing k with
  | zero => simp
  | succ n ih =>
    have ih' := ih (by omega)
    rw [List.range_succ, List.foldl_append, List.foldl_cons, List.foldl_nil,
      active_suppress (by omega), ih', ih']
    constructor
    · intro h
      obtain ⟨⟨hk, hlow⟩, hn⟩ := h
      refine ⟨hk, fun i hi hm hik hc => ?_⟩
      rcases Nat.lt_succ_iff_lt_or_eq.mp hi with hi | rfl
      · exact hlow i hi hm hik hc
      · -- an expert that is suppressed itself has a lower one of the same class
        refine hn ⟨⟨hm, fun i' hi' hm' _ hc' => ?_⟩, hik, hc⟩
        exact hlow i' hi' hm' (by omega) (hc'.trans hc)
    · intro h
      obtain ⟨hk, hlow⟩ := h
      refine ⟨⟨hk, fun i hi => hlow i (by omega)⟩, fun hn => ?_⟩
      exact hlow n (by omega) hn.1.1 hn.2.1 hn.2.2

/-- Of each class of active experts exactly the lowest one is kept. -/
structure OnePerClass (mask kept : UInt32) : Prop where
  lowest : ∀ k, Active kept k ↔ Active mask k ∧ ∀ i < k, Active mask i → i % 3 ≠ k % 3
  conflict_free : ∀ i j, Active kept i → Active kept j → i % 3 = j % 3 → i = j
  blocked : ∀ j, Active mask j → ∃ i ≤ j, Active kept i ∧ i % 3 = j % 3

theorem onePerClass_foldl (mask : UInt32) :
    OnePerClass mask ((List.range 32).foldl suppress mask) := by
  have hlowest : ∀ k, Active ((List.range 32).foldl suppress mask) k ↔
      Active mask k ∧ ∀ i < k, Active mask i → i % 3 ≠ k % 3 := by
    intro k
    rw [active_outerLoop le_rfl]
    constructor
    · intro h
      exact ⟨h.1, fun i hi hm => h.2 i hm.lt hm hi⟩
    · intro h
      exact ⟨h.1, fun i _ hm hi => h.2 i hi hm⟩
  refine ⟨hlowest, fun i j hi hj hc => ?_, fun j hj => ?_⟩
  · rw [hlowest] at hi hj
    rcases lt_trichotomy i j with h | h | h
    · exact absurd hc (hj.2 i h hi.1)
    · exact h
    · exact absurd hc.symm (hi.2 j h hj.1)
  · induction j using Nat.strong_induction_on with
    | _ j ih =>
      by_cases hk : Active ((List.range 32).foldl suppress mask) j
      · exact ⟨j, le_rfl, hk, rfl⟩
      · rw [hlowest, not_and] at hk
        have hlower := hk hj
        push Not at hlower
        obtain ⟨i, hij, hi, hc⟩ := hlower
        obtain ⟨m, hm, hkept, hc'⟩ := ih i hij hi
        exact ⟨m, by omega, hkept, hc'.trans hc⟩

theorem eq_of_active {x y : UInt32} (h : ∀ i, Active x i ↔ Active y i) : x = y :=
  UInt32.toBitVec_inj.mp (eq_of_has h)

/-- What is kept is kept again. -/
theorem OnePerClass.stable {mask kept : UInt32} (h : OnePerClass mask kept) :
    (List.range 32).foldl suppress kept = kept := by
  apply eq_of_active
  intro k
  rw [(onePerClass_foldl kept).lowest]
  constructor
  · exact fun hk => hk.1
  · intro hk
    refine ⟨hk, fun i hi hm hc => ?_⟩
    exact absurd (h.conflict_free i k hm hk hc) (Nat.ne_of_lt hi)

/-- There are three classes. -/
theorem OnePerClass.popcount_le {mask kept : UInt32} (h : OnePerClass mask kept) :
    popcount kept ≤ 3 := by
  let kept' := (List.range 32).filter fun i => decide (kept &&& bit i ≠ 0)
  have hactive : ∀ i ∈ kept', Active kept i := by
    intro i hi
    obtain ⟨hlt, hi⟩ := List.mem_filter.mp hi
    exact (active_iff_and (List.mem_range.mp hlt)).mp (of_decide_eq_true hi)
  have hnodup : (kept'.map (· % 3)).Nodup :=
    (List.nodup_range.filter _).map_on fun i hi j hj hc =>
      h.conflict_free i j (hactive i hi) (hactive j hj) hc
  have hsub : kept'.map (· % 3) ⊆ List.range 3 := by
    intro c hc
    obtain ⟨i, -, rfl⟩ := List.mem_map.mp hc
    exact List.mem_range.mpr (Nat.mod_lt i (by decide))
  have hlen := hnodup.length_le_of_subset hsub
  rw [List.length_map, List.length_range] at hlen
  rw [popcount, List.countP_eq_length_filter]
  exact hlen

/-- The eighth stage keeps a maximal set of experts without conflicts, whatever the mask. -/
theorem stage8Nand_keeps (ps : PipelineState) : ∃ kept,
    stage8Nand { ps with valid := true } = (true, { ps with valid := true, expertMask := kept }) ∧
      OnePerClass ps.expertMask kept ∧ popcount kept ≤ 3 ∧
      stage8Nand { ps with valid := true, expertMask := kept } =
        (true, { ps with valid := true, expertMask := kept }) := by
  have hkept := onePerClass_foldl ps.expertMask
  refine ⟨_, rfl, hkept, hkept.popcount_le, ?_⟩
  simp only [stage8Nand, if_true, hkept.stable]

end Filter

section Receipts

/-- What the pipeline looks at in its input. -/
inductive Verdict where
  | null | dangerous | plain
  deriving DecidableEq

def verdict : Option (List UInt8) → Verdict
  | none => .null
  | some input => if ∃ d ∈ dangerous, CString.ascii d <:+: input then .dangerous else .plain

/-- The receipt of every input that gets through. -/
def acceptance : PipelineReceipt where
  status := .ok
  error := none
  output := some (CString.ascii "[ROUTING_OUTPUT: 3_experts_executed]")
  expertMask := 7
  entropy := 0
  wormHash := wormHash (outputHash (CString.ascii "[ROUTING_OUTPUT: 3_experts_executed]"))

/-- Of all experts, the filter leaves the first three. -/
theorem suppress_all : (List.range 32).foldl suppress 0xFFFFFFFF = 7 := by decide +kernel

theorem dispatch_three (ps : PipelineState) (hv : ps.valid = true) (hm : ps.expertMask = 7) :
    stage9Dispatch ps = (true, { ps with
      output := some (CString.ascii "[ROUTING_OUTPUT: 3_experts_executed]") }) := by
  have htext : Buffer.cString (CString.snprintf (List.replicate 256 0)
      (CString.ascii "[ROUTING_OUTPUT: " ++ CString.decimal (popcount 7) ++
        CString.ascii "_experts_executed]")).2 =
      CString.ascii "[ROUTING_OUTPUT: 3_experts_executed]" := by decide +kernel
  rw [stage9Dispatch, if_pos hv, hm]
  dsimp only
  rw [htext]

/-- Past the parser, no stage reads the input. -/
theorem execute_of_plain {input : List UInt8}
    (h : ¬ ∃ d ∈ dangerous, CString.ascii d <:+: input) :
    routingPipelineExecute (some input) = acceptance := by
  have hany : ¬ (dangerous.any fun d =>
      decide (CString.ascii d <:+: (PipelineState.alloc input).input)) = true := by
    simp only [List.any_eq_true, decide_eq_true_eq]
    exact h
  have hparser : stage1Parser (.alloc input) = (true, .alloc input) := if_neg hany
  have hexec : execute (.alloc input) = (true, { PipelineState.alloc input with
      expertMask := 7
      output := some (CString.ascii "[ROUTING_OUTPUT: 3_experts_executed]") }) := by
    have htail : execute (.alloc input) =
        stages.tail.foldl (fun s stage => (s.1 && (stage s.2).1, (stage s.2).2))
          (stage1Parser (.alloc input)) := rfl
    rw [htail, hparser]
    simp only [stages, List.tail_cons, List.foldl_cons, List.foldl_nil, stage2Ast, stage3Graph,
      stage4Jordan, stage5Jacobian, stage6Constraints, stage7Activation, stage8Nand, stub,
      PipelineState.alloc, if_true, suppress_all, Bool.and_true, dispatch_three, stage10Merge,
      Option.getD_some]
  rw [routingPipelineExecute, hexec]
  rfl

theorem execute_of_dangerous {input : List UInt8}
    (h : ∃ d ∈ dangerous, CString.ascii d <:+: input) :
    routingPipelineExecute (some input) = .failed .rejected "stage_failed" := by
  rcases execute_cases input with ⟨-, he⟩ | ⟨hno, -⟩
  · exact he
  · exact absurd h hno

def Verdict.receipt : Verdict → PipelineReceipt
  | null => .failed .error "null_input"
  | dangerous => .failed .rejected "stage_failed"
  | plain => acceptance

theorem execute_eq_receipt (x : Option (List UInt8)) :
    routingPipelineExecute x = (verdict x).receipt := by
  cases x with
  | none => rfl
  | some input =>
    by_cases h : ∃ d ∈ dangerous, CString.ascii d <:+: input
    · have hv : verdict (some input) = .dangerous := if_pos h
      rw [execute_of_dangerous h, hv]
      rfl
    · have hv : verdict (some input) = .plain := if_neg h
      rw [execute_of_plain h, hv]
      rfl

theorem Verdict.receipt_inj {v w : Verdict} : v.receipt = w.receipt ↔ v = w := by
  constructor
  · intro h
    have hstatus := congrArg PipelineReceipt.status h
    cases v <;> cases w <;> first | rfl | cases hstatus
  · exact congrArg Verdict.receipt

/-- A receipt says whether there was an input and whether it was dangerous, and nothing else: what
gets through is served by the experts 0, 1 and 2, under one hash. -/
theorem sealed_eq_iff :
    (∀ x y, routingPipelineExecute x = routingPipelineExecute y ↔ verdict x = verdict y) ∧
      ∃ hash, ∀ x, verdict x = .plain → (routingPipelineExecute x).status = .ok ∧
        (routingPipelineExecute x).expertMask = 0b111 ∧
        (routingPipelineExecute x).wormHash = hash := by
  constructor
  · intro x y
    rw [execute_eq_receipt, execute_eq_receipt, Verdict.receipt_inj]
  · refine ⟨acceptance.wormHash, fun x hx => ?_⟩
    rw [execute_eq_receipt, hx]
    exact ⟨rfl, rfl, rfl⟩

end Receipts

end HyperKitty.Pipeline
