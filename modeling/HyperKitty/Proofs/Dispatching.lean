import HyperKitty.Lib.Keyed
import HyperKitty.Lib.Readable
import HyperKitty.Routing.Pipeline

namespace HyperKitty.Routing

theorem isEmpty_map_range {α : Type} {m : Nat} (f : Nat → α) (hm : 0 < m) :
    ¬ ((List.range m).map f).isEmpty = true := by
  simp
  omega

theorem mapIdx_range {α β : Type} (m : Nat) (g : Nat → α) (f : Nat → α → β) :
    ((List.range m).map g).mapIdx f = (List.range m).map fun i => f i (g i) := by
  apply List.ext_getElem
  · simp
  · intro i h₁ h₂
    simp

theorem filter_range_min (n : Nat) :
    (List.range (min n 5)).filter (fun i => decide (i < 3)) = List.range (min n 3) := by
  rcases Nat.lt_or_ge n 5 with h | h
  · interval_cases n <;> rfl
  · rw [Nat.min_eq_right h, Nat.min_eq_right (by omega)]
    rfl

section Stages

variable {K : Type} {fmt : Formats K} {input : String} {state : PipelineState K}

namespace RoutingPipeline

theorem stageConstraintEval_of_some (ht : state.tokens ≠ []) (ha : state.ast.isSome = true)
    (hg : state.graph.isSome = true) (hj : state.jordan.isSome = true) :
    stageConstraintEval state = .ok { state with constraintsValid := true } := by
  have he : state.tokens.isEmpty = false := List.isEmpty_eq_false_iff.mpr ht
  simp [stageConstraintEval, he, ha, hg, hj]

theorem stageSparseActivation_of_tokens (ht : state.tokens ≠ []) :
    stageSparseActivation state = .ok { state with
      activationSet := (List.range (min state.tokens.length 5)).map fun i =>
        .ofNat i * 1000 + .ofNat state.tokens.length } := by
  have hn := List.length_pos_iff.mpr ht
  exact if_neg (isEmpty_map_range _ (by omega))

end RoutingPipeline

/-- What is recorded for a node. -/
def outcome (fmt : Formats K) (input : String) (node : RoutingNode K) : String :=
  match node.execute fmt input with
  | .ok result => result
  | .error e => "error: " ++ e.display

def entry (fmt : Formats K) (input : String) (node : RoutingNode K) : Dispatched :=
  ⟨node.id, outcome fmt input node⟩

theorem dispatchOne_eq (results : AList fun _ : UInt64 => String) (node : RoutingNode K) :
    RoutingPipeline.dispatchOne fmt input results node =
      results.insert node.id (outcome fmt input node) := by
  rw [RoutingPipeline.dispatchOne, outcome]
  cases node.execute fmt input <;> rfl

theorem foldl_dispatchOne (ns : List (RoutingNode K)) (results : AList fun _ : UInt64 => String) :
    ns.foldl (RoutingPipeline.dispatchOne fmt input) results =
      Keyed.insertAll results (ns.map (entry fmt input)) := by
  rw [Keyed.insertAll, List.foldl_map]
  congr 1
  funext results node
  exact dispatchOne_eq results node

/-- Under distinct ids every node is recorded once. -/
theorem entries_foldl_dispatchOne {ns : List (RoutingNode K)} (hn : (ns.map RoutingNode.id).Nodup) :
    (ns.foldl (RoutingPipeline.dispatchOne fmt input) ∅).entries.Perm
      (ns.map (entry fmt input)) := by
  rw [foldl_dispatchOne, Keyed.insertAll_empty_perm, List.map_map]
  exact hn

end Stages

variable {K : Type} [Field K] [LinearOrder K] {fmt : Formats K} {input : String} {n i : Nat}

/-- The node of the expert `i` for an input of `n` tokens. -/
def node (K : Type) [Field K] [LinearOrder K] (n i : Nat) : RoutingNode K :=
  RoutingNode.new (.ofNat i * 1000 + .ofNat n) ("route_" ++ toString i)
    (.finite (1 / ((i : K) + 1)))

/-- The nodes that are dispatched to. -/
def nodes (K : Type) [Field K] [LinearOrder K] (n : Nat) : List (RoutingNode K) :=
  (List.range (min n 3)).map (node K n)

namespace RoutingPipeline

variable {state : PipelineState K}

theorem upToFilter_of_nil (h : splitWhitespace input = []) :
    upToFilter fmt input = .error (.parseError "empty_token_stream") := by
  simp [upToFilter, stageRegexParser, h]
  rfl

theorem stageRoutingNodes_of_activation (hn : 0 < n)
    (h : state.activationSet = (List.range (min n 5)).map fun i => .ofNat i * 1000 + .ofNat n) :
    stageRoutingNodes state =
      .ok { state with routingNodes := (List.range (min n 5)).map (node K n) } := by
  rw [stageRoutingNodes, h, mapIdx_range]
  exact if_neg (isEmpty_map_range _ (by omega))

end RoutingPipeline

theorem nodup_ids (n : Nat) : ((nodes K n).map RoutingNode.id).Nodup := by
  rw [nodes, List.map_map]
  apply List.Nodup.map_on _ List.nodup_range
  intro i hi j hj h
  have hi : i < 3 := by
    rw [List.mem_range] at hi
    omega
  have hj : j < 3 := by
    rw [List.mem_range] at hj
    omega
  have h : (.ofNat i * 1000 : UInt64) = .ofNat j * 1000 := add_right_cancel h
  interval_cases i <;> interval_cases j
  all_goals first
    | rfl
    | exact absurd h (by decide)

section Weights

variable [IsStrictOrderedRing K]

/-- Three experts are heavy enough. -/
theorem weight_gt_iff (i : Nat) : (F64.finite (0.3 : K) < (node K n i).weight) ↔ i < 3 := by
  have hpos : (0 : K) < (i : K) + 1 := Nat.cast_add_one_pos i
  have hlt : (0.3 : K) < 1 / ((i : K) + 1) ↔ ((3 * (i + 1) : Nat) : K) < (10 : Nat) := by
    rw [lt_div_iff₀ hpos]
    push_cast
    constructor
    · intro h
      linarith
    · intro h
      linarith
  rw [node, RoutingNode.new, F64.finite_lt_finite, hlt, Nat.cast_lt]
  omega

theorem enabled_node (i : Nat) : (node K n i).enabled = true := by
  have hpos : (0 : K) < (i : K) + 1 := Nat.cast_add_one_pos i
  exact decide_eq_true (F64.finite_lt_finite.mpr (one_div_pos.mpr hpos))

namespace RoutingPipeline

variable {state : PipelineState K}

theorem stageNandFilter_of_nodes (hn : 0 < n)
    (h : state.routingNodes = (List.range (min n 5)).map (node K n)) :
    stageNandFilter state = .ok { state with filteredNodes := nodes K n } := by
  have hf : state.routingNodes.filter (fun node => .finite 0.3 < node.weight) = nodes K n := by
    rw [h, List.filter_map, nodes, ← filter_range_min]
    congr 1
    exact List.filter_congr fun i _ => decide_eq_decide.mpr (weight_gt_iff i)
  rw [stageNandFilter, hf]
  exact if_neg (isEmpty_map_range _ (by omega))

/-- With a token the stages up to the filter admit the first nodes, at most three. -/
theorem upToFilter_of_ne_nil (fmt : Formats K) (h : splitWhitespace input ≠ []) :
    ∃ state, upToFilter fmt input = .ok state ∧ state.input = input ∧ state.dispatchResults = ∅ ∧
      state.filteredNodes = nodes K (splitWhitespace input).length := by
  have hn : 0 < (splitWhitespace input).length := List.length_pos_iff.mpr h
  have hparse : stageRegexParser (K := K) { input } =
      .ok { input, tokens := splitWhitespace input } := if_neg (by simpa using h)
  rw [upToFilter, hparse]
  simp only [stageAstBuilder, stageSymbolicGraph, stageJordanTransformer, stageJacobianLens, bind,
    Except.bind]
  rw [stageConstraintEval_of_some h rfl rfl rfl]
  simp only
  rw [stageSparseActivation_of_tokens h]
  simp only
  rw [stageRoutingNodes_of_activation hn rfl]
  simp only
  rw [stageNandFilter_of_nodes hn rfl]
  exact ⟨_, rfl, rfl, rfl, rfl⟩

end RoutingPipeline

end Weights

/-- A result in the output. -/
def line (e : Dispatched) : String := "[" ++ toString e.1 ++ "]: " ++ e.2

/-- The output for the results in some order. -/
def merged (input : String) (es : List Dispatched) : String :=
  "routed(input: '" ++ input ++ "', stages: " ++
    toString RoutingPipeline.new.stages.length ++ ", results: " ++
      " | ".intercalate (es.map line) ++ ")"

theorem toList_line (e : Dispatched) :
    ∃ cs, (line e).toList = '[' :: (Nat.toDigits 10 e.1.toNat ++ ']' :: cs) := by
  refine ⟨": ".toList ++ e.2.toList, ?_⟩
  simp [line, toString, Nat.repr]

/-- The output tells which id comes first. -/
theorem merged_head {e e' : Dispatched} {es es' : List Dispatched}
    (h : merged input (e :: es) = merged input (e' :: es')) : e.1 = e'.1 := by
  have h := (String.append_right_inj _).mp ((String.append_left_inj _).mp h)
  have h := congrArg String.toList h
  rw [String.toList_intercalate, String.toList_intercalate, List.map_map, List.map_map,
    intercalate_cons_eq_flatMap, intercalate_cons_eq_flatMap] at h
  obtain ⟨cs, hcs⟩ := toList_line e
  obtain ⟨cs', hcs'⟩ := toList_line e'
  rw [Function.comp_apply, Function.comp_apply, hcs, hcs', List.cons_append, List.cons_append,
    List.append_assoc, List.append_assoc] at h
  have hstop : ∀ xs : List Char, ∀ c ∈ (']' :: xs).head?, c.isDigit = false := by
    intro xs c hc
    cases hc
    rfl
  obtain ⟨hid, -⟩ := toDigits_readable (hstop _) (hstop _) (List.cons.inj h).2
  exact UInt64.toNat_inj.mp hid

/-- Of two results or more the first and the last have different ids. -/
theorem reverse_head {es : List Dispatched} (hn : (es.map Sigma.fst).Nodup) (hl : 2 ≤ es.length) :
    ∃ e e' xs ys, es = e :: xs ∧ es.reverse = e' :: ys ∧ e.1 ≠ e'.1 := by
  cases es with
  | nil => simp at hl
  | cons e es =>
    rcases List.eq_nil_or_concat' es with rfl | ⟨xs, e', rfl⟩
    · simp at hl
    · refine ⟨e, e', xs ++ [e'], xs.reverse ++ [e], rfl, by simp, ?_⟩
      intro he
      rw [List.map_cons, List.nodup_cons] at hn
      apply hn.1
      rw [he]
      exact List.mem_map_of_mem (by simp)

open RoutingPipeline

/-- The result does not depend on how the map is visited. The nodes have their results in the
output in their own order, and an input without tokens is rejected. -/
structure Determined (fmt : Formats K) (input : String) : Prop where
  same : ∀ t₁ t₂, process fmt t₁ .new input = process fmt t₂ .new input
  dispatched : splitWhitespace input ≠ [] → ∃ state, upToFilter fmt input = .ok state ∧
    state.filteredNodes.length = min (splitWhitespace input).length 3 ∧
    (state.filteredNodes.map RoutingNode.id).Nodup ∧
    (∀ node ∈ state.filteredNodes, node.execute fmt input = .ok (outcome fmt input node)) ∧
    ∀ t, process fmt t .new input =
      .ok (merged input (state.filteredNodes.map (entry fmt input)))
  rejected : splitWhitespace input = [] → ∀ t, ∃ e, process fmt t .new input = .error e

theorem process_of_nil (h : splitWhitespace input = []) (t : Traversal Dispatched) :
    process fmt t .new input = .error (.parseError "empty_token_stream") := by
  rw [process, upToFilter_of_nil h]
  rfl

theorem length_nodes (n : Nat) : (nodes K n).length = min n 3 := by
  rw [nodes, List.length_map, List.length_range]

variable [IsStrictOrderedRing K]

theorem execute_of_mem_nodes {node : RoutingNode K} (h : node ∈ nodes K n) :
    node.execute fmt input = .ok (outcome fmt input node) := by
  obtain ⟨i, -, rfl⟩ := List.mem_map.mp h
  simp [outcome, RoutingNode.execute, enabled_node]

/-- The stages before the merge do not depend on any order. -/
theorem process_of_ne_nil (fmt : Formats K) (h : splitWhitespace input ≠ []) :
    ∃ state es, upToFilter fmt input = .ok state ∧
      state.filteredNodes = nodes K (splitWhitespace input).length ∧
      es.Perm (state.filteredNodes.map (entry fmt input)) ∧
      ∀ t, process fmt t .new input = .ok (merged input (t.order es)) := by
  obtain ⟨state, hfilter, hinput, hempty, hnodes⟩ := upToFilter_of_ne_nil fmt h
  have hn := List.length_pos_iff.mpr h
  let results := state.filteredNodes.foldl (dispatchOne fmt input) ∅
  have hperm : results.entries.Perm (state.filteredNodes.map (entry fmt input)) := by
    apply entries_foldl_dispatchOne
    rw [hnodes]
    apply nodup_ids
  refine ⟨state, results.entries, hfilter, hnodes, hperm, ?_⟩
  intro t
  have hne : ¬ results.entries.isEmpty = true := by
    rw [List.isEmpty_iff_length_eq_zero, hperm.length_eq, List.length_map, hnodes, length_nodes]
    omega
  have hdispatch : stageAgentDispatch fmt state =
      .ok { state with dispatchResults := results } := by
    rw [stageAgentDispatch, hinput, hempty]
    exact if_neg hne
  rw [process, hfilter]
  change (do
    let state ← stageAgentDispatch fmt state
    let state ← stageMergeOutput state t .new
    pure state.mergedOutput) = _
  rw [hdispatch]
  subst hinput
  rfl

/-- Two results or more can be merged in two ways. -/
theorem not_same (fmt : Formats K) (h : 2 ≤ (splitWhitespace input).length) :
    process fmt .forward .new input ≠ process fmt .backward .new input := by
  have hne : splitWhitespace input ≠ [] := List.ne_nil_of_length_pos (by omega)
  obtain ⟨state, es, hfilter, hnodes, hperm, hprocess⟩ := process_of_ne_nil fmt hne
  have hlen : 2 ≤ es.length := by
    rw [hperm.length_eq, List.length_map, hnodes, length_nodes]
    omega
  have hids : (es.map Sigma.fst).Nodup := by
    have hp := hperm.map Sigma.fst
    rw [hnodes, List.map_map] at hp
    exact hp.nodup_iff.mpr (nodup_ids _)
  intro hsame
  rw [hprocess, hprocess, Except.ok.injEq] at hsame
  obtain ⟨e, e', xs, ys, hxs, hys, hid⟩ := reverse_head hids hlen
  have hm : merged input (e :: xs) = merged input (e' :: ys) := by
    rw [← hxs, ← hys]
    exact hsame
  exact hid (merged_head hm)

/-- One result is merged in one way. -/
theorem process_of_length_le (fmt : Formats K) (h : splitWhitespace input ≠ [])
    (hn : (splitWhitespace input).length ≤ 1) :
    ∃ state, upToFilter fmt input = .ok state ∧
      state.filteredNodes = nodes K (splitWhitespace input).length ∧
      ∀ t, process fmt t .new input =
        .ok (merged input (state.filteredNodes.map (entry fmt input))) := by
  obtain ⟨state, es, hfilter, hnodes, hperm, hprocess⟩ := process_of_ne_nil fmt h
  refine ⟨state, hfilter, hnodes, ?_⟩
  have hlen : (state.filteredNodes.map (entry fmt input)).length ≤ 1 := by
    rw [List.length_map, hnodes, length_nodes]
    omega
  have hes : es = state.filteredNodes.map (entry fmt input) :=
    Traversal.eq_of_perm hperm hlen
  intro t
  rw [hprocess, t.order_of_length_le (hes ▸ hlen), hes]

/-- The output is a function of the input exactly for inputs of at most one token. -/
theorem determined_iff_length_le (fmt : Formats K) (input : String) :
    Determined fmt input ↔ (splitWhitespace input).length ≤ 1 := by
  constructor
  · intro h
    by_contra hn
    apply not_same fmt (Nat.lt_of_not_le hn)
    apply h.same
  · intro hn
    constructor
    · intro t₁ t₂
      by_cases h : splitWhitespace input = []
      · rw [process_of_nil h, process_of_nil h]
      · obtain ⟨state, -, -, hprocess⟩ := process_of_length_le fmt h hn
        rw [hprocess, hprocess]
    · intro h
      obtain ⟨state, hfilter, hnodes, hprocess⟩ := process_of_length_le fmt h hn
      refine ⟨state, hfilter, ?_, ?_, ?_, hprocess⟩
      · rw [hnodes, length_nodes]
      · rw [hnodes]
        apply nodup_ids
      · intro node hnode
        rw [hnodes] at hnode
        exact execute_of_mem_nodes hnode
    · intro h t
      exact ⟨_, process_of_nil h t⟩

/-- Formats that show nothing. -/
def blank : Formats ℚ := ⟨id, fun _ _ => "", fun _ => "", id⟩

theorem determined_iff_length_le_one : Determined blank "a" ↔ (splitWhitespace "a").length ≤ 1 :=
  determined_iff_length_le blank "a"

/-- The results of two tokens come in any order. -/
theorem not_determined_two : ¬ Determined blank "a b" := by
  intro h
  have hlen : 2 ≤ (splitWhitespace "a b").length := by decide +kernel
  apply not_same blank hlen
  apply h.same

end HyperKitty.Routing
