import HyperKitty.Routing.Dispatch

namespace HyperKitty.Routing

open Exec Isomorphism Keyed

namespace Dispatcher

variable {K : Type} {fmt : Formats K} {b : Build} {t : Target} {d : Dispatcher t}
variable {node : RoutingNode K} {nodes : List (RoutingNode K)} {results : Results}
variable {message : String}

/-- The results of the executions, in their order, when `count` have gone before. -/
def executions (fmt : Formats K) (count : Nat) : List (RoutingNode K) → List Dispatched
  | [] => []
  | node :: nodes => ⟨node.id, batchText fmt (count + 1) node⟩ :: executions fmt (count + 1) nodes

theorem ids_of_executions (fmt : Formats K) (count : Nat) (nodes : List (RoutingNode K)) :
    (executions fmt count nodes).map Sigma.fst = nodes.map RoutingNode.id := by
  induction nodes generalizing count with
  | nil => rfl
  | cons node nodes ih => rw [executions, List.map_cons, List.map_cons, ih]

theorem executions_eq_nil {count : Nat} : executions fmt count nodes = [] ↔ nodes = [] := by
  cases nodes <;> simp [executions]

theorem increment_ok (h : d.executionCount.val + 1 < 2 ^ t.width) :
    d.increment b = .ok ⟨⟨d.executionCount.val + 1, h⟩⟩ := dif_pos h

/-- With overflow checks the counter is exact. -/
theorem increment_debug :
    Ensures (d.increment .debug) fun d' => d'.executionCount.val = d.executionCount + 1 := by
  intro d' h
  by_cases hroom : d.executionCount.val + 1 < 2 ^ t.width
  · rw [increment_ok hroom] at h
    cases h
    rfl
  · rw [increment, dif_neg hroom] at h
    cases h

theorem increment_release (d : Dispatcher t) : ∃ d', d.increment .release = .ok d' := by
  by_cases hroom : d.executionCount.val + 1 < 2 ^ t.width
  · exact ⟨_, increment_ok hroom⟩
  · exact ⟨_, dif_neg hroom⟩

variable [Field K] [LinearOrder K]

/-- The nodes of a batch that are executed. -/
def executed (nodes : List (RoutingNode K)) : List (RoutingNode K) :=
  nodes.filter RoutingNode.isValid

/-- The counter has room for the batch. -/
def Room (d : Dispatcher t) (nodes : List (RoutingNode K)) : Prop :=
  d.executionCount.val + (executed nodes).length < 2 ^ t.width

/-- A batch that succeeds counts every execution and has the result of each; one that fails counts
nothing. -/
def Lossless (b : Build) (fmt : Formats K) (d : Dispatcher t) (nodes : List (RoutingNode K))
    (message : String) : Prop :=
  Ensures (d.dispatchBatch b fmt nodes message) fun (r, d') =>
    match r with
    | .ok results =>
      d'.executionCount.val = d.executionCount.val + (executed nodes).length ∧
        results.entries.Perm (executions fmt d.executionCount.val (executed nodes))
    | .error _ => d'.executionCount = d.executionCount

theorem executed_cons_of_valid (h : node.isValid = true) :
    executed (node :: nodes) = node :: executed nodes := List.filter_cons_of_pos h

theorem executed_cons_of_not_valid (h : ¬ node.isValid = true) :
    executed (node :: nodes) = executed nodes := List.filter_cons_of_neg h

theorem foldlM_cons_of_not_valid (h : ¬ node.isValid = true) (s : Dispatcher t × Results) :
    (node :: nodes).foldlM (batchOne b fmt) s = nodes.foldlM (batchOne b fmt) s := by
  rw [List.foldlM_cons, batchOne, if_neg h, ok_bind]

theorem foldlM_cons_of_valid (h : node.isValid = true) (d : Dispatcher t) (results : Results) :
    (node :: nodes).foldlM (batchOne b fmt) (d, results) = (do
      let d ← d.increment b
      nodes.foldlM (batchOne b fmt)
        (d, results.insert node.id (batchText fmt d.executionCount.val node))) := by
  rw [List.foldlM_cons, batchOne, if_pos h]
  cases d.increment b <;> rfl

/-- While the counter has room, the loop records one execution after another. -/
theorem foldlM_of_room (b : Build) (fmt : Formats K) (h : Room d nodes) (results : Results) :
    ∃ d' : Dispatcher t, d'.executionCount.val = d.executionCount.val + (executed nodes).length ∧
      nodes.foldlM (batchOne b fmt) (d, results) =
        .ok (d', insertAll results (executions fmt d.executionCount.val (executed nodes))) := by
  unfold Room at h
  induction nodes generalizing d results with
  | nil => exact ⟨d, rfl, rfl⟩
  | cons node nodes ih =>
    by_cases hv : node.isValid = true
    · rw [executed_cons_of_valid hv, List.length_cons] at h ⊢
      have hnext : d.executionCount.val + 1 < 2 ^ t.width := by omega
      have hrest : d.executionCount.val + 1 + (executed nodes).length < 2 ^ t.width := by omega
      obtain ⟨d', hcount, hloop⟩ := ih (d := ⟨⟨d.executionCount.val + 1, hnext⟩⟩) hrest
        (results.insert node.id (batchText fmt (d.executionCount.val + 1) node))
      refine ⟨d', ?_, ?_⟩
      · rw [hcount]
        exact Nat.add_right_comm _ 1 _
      · rw [foldlM_cons_of_valid hv, increment_ok hnext]
        exact hloop
    · rw [executed_cons_of_not_valid hv] at h ⊢
      rw [foldlM_cons_of_not_valid hv]
      exact ih h results

/-- With overflow checks the counter is exact after the loop. -/
theorem foldlM_debug (results : Results) :
    Ensures (nodes.foldlM (batchOne .debug fmt) (d, results)) fun s =>
      s.1.executionCount.val = d.executionCount.val + (executed nodes).length := by
  induction nodes generalizing d results with
  | nil => exact ensures_pure rfl
  | cons node nodes ih =>
    by_cases hv : node.isValid = true
    · rw [executed_cons_of_valid hv, foldlM_cons_of_valid hv, List.length_cons]
      refine increment_debug.bind fun d' hd' => ?_
      intro s hs
      rw [ih _ s hs, hd']
      omega
    · rw [executed_cons_of_not_valid hv, foldlM_cons_of_not_valid hv]
      exact ih results

/-- Without them the loop always ends, and keeps what it has recorded. -/
theorem foldlM_release (fmt : Formats K) (nodes : List (RoutingNode K)) (d : Dispatcher t)
    (results : Results) :
    ∃ s : Dispatcher t × Results, nodes.foldlM (batchOne .release fmt) (d, results) = .ok s ∧
      ∀ id, id ∈ results ∨ id ∈ (executed nodes).map RoutingNode.id → id ∈ s.2 := by
  induction nodes generalizing d results with
  | nil => exact ⟨(d, results), rfl, by simp [executed]⟩
  | cons node nodes ih =>
    by_cases hv : node.isValid = true
    · obtain ⟨d', hd'⟩ := increment_release d
      obtain ⟨s, hs, hkeep⟩ := ih d'
        (results.insert node.id (batchText fmt d'.executionCount.val node))
      refine ⟨s, ?_, ?_⟩
      · rw [foldlM_cons_of_valid hv, hd']
        exact hs
      · intro id hid
        apply hkeep
        rw [executed_cons_of_valid hv, List.map_cons, List.mem_cons] at hid
        rw [AList.mem_insert]
        tauto
    · rw [executed_cons_of_not_valid hv, foldlM_cons_of_not_valid hv]
      exact ih d results

theorem dispatchBatch_of_empty (h : message = "") :
    ∃ e, d.dispatchBatch b fmt nodes message = .ok (.error e, d) := by
  subst h
  cases nodes with
  | nil => exact ⟨.noValidRoutes, rfl⟩
  | cons node nodes => exact ⟨.parseError "empty_message", rfl⟩

theorem dispatchBatch_of_nonempty (hn : nodes ≠ []) (hm : message ≠ "") :
    d.dispatchBatch b fmt nodes message = (do
      let (d, results) ← nodes.foldlM (batchOne b fmt) (d, ∅)
      if results.entries.isEmpty then pure (.error .noValidRoutes, d)
      else pure (.ok results, d)) := by
  have hn' : ¬ nodes.isEmpty = true := by simpa using hn
  have hm' : ¬ message.isEmpty = true := by simpa using hm
  rw [dispatchBatch, if_neg hn', if_neg hm']

/-- Without a valid node nothing is executed. -/
theorem dispatchBatch_of_none (h : executed nodes = []) :
    ∃ e, d.dispatchBatch b fmt nodes message = .ok (.error e, d) := by
  by_cases hm : message = ""
  · exact dispatchBatch_of_empty hm
  · by_cases hn : nodes = []
    · subst hn
      exact ⟨.noValidRoutes, rfl⟩
    · have hroom : Room d nodes := by
        rw [Room, h]
        exact d.executionCount.isLt
      obtain ⟨d', hcount, hloop⟩ := foldlM_of_room b fmt hroom ∅
      rw [h] at hcount hloop
      have hd : d' = d := congrArg mk (Fin.ext hcount)
      rw [dispatchBatch_of_nonempty hn hm, hloop, hd]
      exact ⟨.noValidRoutes, rfl⟩

theorem dispatchBatch_of_room (b : Build) (fmt : Formats K) (h : Room d nodes) (hm : message ≠ "")
    (hn : executed nodes ≠ []) :
    ∃ d' : Dispatcher t, d'.executionCount.val = d.executionCount.val + (executed nodes).length ∧
      d.dispatchBatch b fmt nodes message =
        .ok (.ok (insertAll ∅ (executions fmt d.executionCount.val (executed nodes))), d') := by
  have hne : nodes ≠ [] := by
    rintro rfl
    exact hn rfl
  obtain ⟨d', hcount, hloop⟩ := foldlM_of_room b fmt h ∅
  refine ⟨d', hcount, ?_⟩
  rw [dispatchBatch_of_nonempty hne hm, hloop, ok_bind]
  apply if_neg
  rwa [List.isEmpty_iff, insertAll_empty_eq_nil, executions_eq_nil]

/-- A released build ends a batch that the counter has no room for, with a wrapped count. -/
theorem dispatchBatch_release (fmt : Formats K) (d : Dispatcher t) (hm : message ≠ "")
    (hn : executed nodes ≠ []) :
    ∃ results d', d.dispatchBatch .release fmt nodes message = .ok (.ok results, d') := by
  have hne : nodes ≠ [] := by
    rintro rfl
    exact hn rfl
  obtain ⟨⟨d', results⟩, hloop, hkeep⟩ := foldlM_release fmt nodes d ∅
  refine ⟨results, d', ?_⟩
  rw [dispatchBatch_of_nonempty hne hm, hloop, ok_bind]
  apply if_neg
  obtain ⟨node, hnode⟩ := List.exists_mem_of_ne_nil _ hn
  have hid : node.id ∈ results := hkeep _ (.inr (List.mem_map_of_mem hnode))
  rw [List.isEmpty_iff]
  intro hnil
  rw [AList.mem_keys, AList.keys, hnil] at hid
  cases hid

/-- With overflow checks a batch that the counter has no room for does not come back. -/
theorem room_of_dispatchBatch_debug {r : Except Error Results × Dispatcher t} (hm : message ≠ "")
    (hn : nodes ≠ []) (h : d.dispatchBatch .debug fmt nodes message = .ok r) : Room d nodes := by
  rw [dispatchBatch_of_nonempty hn hm] at h
  obtain ⟨s, hs, -⟩ := (bind_ok _ _ _).mp h
  rw [Room, ← foldlM_debug ∅ s hs]
  exact s.1.executionCount.isLt

theorem lossless_of_error (h : ∃ e, d.dispatchBatch b fmt nodes message = .ok (.error e, d)) :
    Lossless b fmt d nodes message := by
  obtain ⟨e, he⟩ := h
  rw [Lossless, he]
  exact ensures_pure rfl

/-- A repeated id loses the result of an execution that is counted. -/
theorem lossless_iff_of_room (hm : message ≠ "") (h : Room d nodes) :
    Lossless b fmt d nodes message ↔ ((executed nodes).map RoutingNode.id).Nodup := by
  by_cases hn : executed nodes = []
  · exact iff_of_true (lossless_of_error (dispatchBatch_of_none hn)) (by simp [hn])
  · obtain ⟨d', hcount, hbatch⟩ := dispatchBatch_of_room b fmt h hm hn
    rw [Lossless, hbatch, ← ids_of_executions fmt d.executionCount.val, ← insertAll_empty_perm]
    constructor
    · intro hl
      exact (hl _ rfl).2
    · intro hp
      exact ensures_pure ⟨hcount, hp⟩

theorem lossless_iff_of_overflow (hm : message ≠ "") (h : ¬ Room d nodes) :
    Lossless b fmt d nodes message ↔ b = .debug := by
  have hn : executed nodes ≠ [] := by
    intro hn
    apply h
    rw [Room, hn]
    exact d.executionCount.isLt
  cases b with
  | debug =>
    refine iff_of_true ?_ rfl
    intro r hr
    have hne : nodes ≠ [] := by
      rintro rfl
      exact hn rfl
    exact absurd (room_of_dispatchBatch_debug hm hne hr) h
  | release =>
    refine iff_of_false ?_ nofun
    intro hl
    obtain ⟨results, d', hbatch⟩ := dispatchBatch_release fmt d hm hn
    obtain ⟨hcount, -⟩ := hl _ hbatch
    apply h
    rw [Room, ← hcount]
    exact d'.executionCount.isLt

/-- A batch is lossless exactly when its executed nodes have distinct ids and are counted without
an overflow, or nothing is counted. -/
theorem dispatchBatch_lossless_iff (b : Build) (fmt : Formats K) (d : Dispatcher t)
    (nodes : List (RoutingNode K)) (message : String) :
    Lossless b fmt d nodes message ↔
      message = "" ∨ (Room d nodes ∧ ((executed nodes).map RoutingNode.id).Nodup) ∨
        (¬ Room d nodes ∧ b = .debug) := by
  by_cases hm : message = ""
  · exact iff_of_true (lossless_of_error (dispatchBatch_of_empty hm)) (.inl hm)
  · by_cases hroom : Room d nodes
    · simp [lossless_iff_of_room hm hroom, hm, hroom]
    · simp [lossless_iff_of_overflow hm hroom, hm, hroom]

/-- Two experts with one id: both are counted, and the results have the second one only. -/
theorem not_lossless_of_twins : ¬ ∀ (t : Target) (b : Build) (fmt : Formats ℚ) (d : Dispatcher t)
    (nodes : List (RoutingNode ℚ)) (message : String), Lossless b fmt d nodes message := by
  intro h
  let d : Dispatcher .bits64 := ⟨⟨0, by decide⟩⟩
  let fmt : Formats ℚ := ⟨id, fun _ _ => "0.5000", fun _ => "0.5", id⟩
  let nodes : List (RoutingNode ℚ) := [.new 7 "a" (.finite (1 / 2)), .new 7 "b" (.finite (1 / 2))]
  have hexec : executed nodes = nodes := by
    apply List.filter_eq_self.mpr
    simp [nodes, RoutingNode.isValid, RoutingNode.new]
  have hroom : Room d nodes := by
    rw [Room, hexec]
    decide
  have hids := (lossless_iff_of_room (by simp) hroom).mp (h .bits64 .debug fmt d nodes "go")
  rw [hexec] at hids
  simp [nodes, RoutingNode.new] at hids

end Dispatcher
end HyperKitty.Routing
