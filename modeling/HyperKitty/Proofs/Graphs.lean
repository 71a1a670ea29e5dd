import HyperKitty.Proofs.Weights

namespace HyperKitty.Ast

open Exec Forest

section Flattening

variable {h : Heap} {p : Ptr} {node : ASTNode} {f : Forest Ptr} {n : Nat}

/-- One turn of the loop of `countNodes`. -/
def addCount (h : Heap) (n : Nat) (count : Nat) (child : Ptr) : Exec Unit Nat := do
  let k ← countNodes h n (some child)
  pure (count + k)

theorem countNodes_node (hp : h[p]? = some node) :
    countNodes h (n + 1) (some p) = node.children.foldlM (addCount h n) 1 := by
  rw [countNodes, deref_ok hp, ok_bind]
  rfl

theorem addCount_children (hf : Holds h f) (hn : f.height ≤ n) (count : Nat) :
    f.roots.foldlM (addCount h n) count = .ok (count + f.preorder.length) := by
  induction f generalizing n count with
  | nil => rfl
  | cons c children siblings ihc ihs =>
    obtain ⟨⟨cnode, hc, hroots⟩, hchildren, hsiblings⟩ := hf
    rw [height] at hn
    obtain ⟨m, rfl⟩ : ∃ m, n = m + 1 := ⟨n - 1, by omega⟩
    have hcount : addCount h (m + 1) count c = .ok (count + (1 + children.preorder.length)) := by
      rw [addCount, countNodes_node hc, hroots, ihc hchildren (by omega), ok_bind, pure_eq]
    rw [roots, List.foldlM_cons, hcount, ok_bind, ihs hsiblings (by omega), preorder,
      List.length_cons, List.length_append]
    congr 1
    omega

/-- The array after the nodes of `done` have been written, with `k` cells still free. -/
def filledTo (done : List Ptr) (k : Nat) : List (Option Ptr) × Nat :=
  (done.map some ++ List.replicate k none, done.length)

theorem flattenTree_node (hp : h[p]? = some node) (done : List Ptr) (k : Nat) :
    flattenTree h (n + 1) (some p) (filledTo done (k + 1)) =
      node.children.foldlM (fun s child => flattenTree h n (some child) s)
        (filledTo (done ++ [p]) k) := by
  have hlt : done.length <
      (done.map some ++ List.replicate (k + 1) (none : Option Ptr)).length := by
    simp
  have hset : (done.map some ++ List.replicate (k + 1) (none : Option Ptr)).set done.length
      (some p) = (done ++ [p]).map some ++ List.replicate k none := by
    rw [List.set_append_right _ _ (by simp)]
    simp [List.replicate_succ]
  rw [filledTo, flattenTree, if_pos hlt, deref_ok hp, ok_bind, hset, filledTo, List.length_append,
    List.length_singleton]

theorem flattenTree_children (hf : Holds h f) (hn : f.height ≤ n) (done : List Ptr) (k : Nat) :
    f.roots.foldlM (fun s child => flattenTree h n (some child) s)
        (filledTo done (f.preorder.length + k)) =
      .ok (filledTo (done ++ f.preorder) k) := by
  induction f generalizing n done k with
  | nil => simp [roots, preorder]
  | cons c children siblings ihc ihs =>
    obtain ⟨⟨cnode, hc, hroots⟩, hchildren, hsiblings⟩ := hf
    rw [height] at hn
    obtain ⟨m, rfl⟩ : ∃ m, n = m + 1 := ⟨n - 1, by omega⟩
    have hlen : (cons c children siblings).preorder.length + k =
        children.preorder.length + (siblings.preorder.length + k) + 1 := by
      rw [preorder, List.length_cons, List.length_append]
      omega
    rw [roots, List.foldlM_cons, hlen, flattenTree_node hc, hroots, ihc hchildren (by omega),
      ok_bind, ihs hsiblings (by omega), preorder]
    simp

theorem TreeAt.countNodes_ok {root : Ptr} {children : Forest Ptr} (ht : TreeAt h root children)
    (hn : (cons root children nil).height ≤ n) :
    countNodes h n (some root) = .ok (cons root children nil).preorder.length := by
  obtain ⟨⟨node, hroot, hroots⟩, hchildren, -⟩ := ht.holds
  rw [height] at hn
  obtain ⟨m, rfl⟩ : ∃ m, n = m + 1 := ⟨n - 1, by omega⟩
  rw [countNodes_node hroot, hroots, addCount_children hchildren (by omega)]
  simp [preorder, Nat.add_comm]

theorem TreeAt.flattenTree_ok {root : Ptr} {children : Forest Ptr} (ht : TreeAt h root children)
    (hn : (cons root children nil).height ≤ n) :
    flattenTree h n (some root)
        (List.replicate (cons root children nil).preorder.length none, 0) =
      .ok (filledTo (cons root children nil).preorder 0) := by
  obtain ⟨⟨node, hroot, hroots⟩, hchildren, -⟩ := ht.holds
  rw [height] at hn
  obtain ⟨m, rfl⟩ : ∃ m, n = m + 1 := ⟨n - 1, by omega⟩
  have hstart : (List.replicate (cons root children nil).preorder.length (none : Option Ptr), 0) =
      filledTo [] (children.preorder.length + 1) := by
    simp [filledTo, preorder]
  have hrest := flattenTree_children (n := m) hchildren (by omega) [root] 0
  rw [Nat.add_zero] at hrest
  rw [hstart, flattenTree_node hroot, hroots, List.nil_append, hrest]
  simp [preorder]

end Flattening

section Matrix

variable {h : Heap} {order : List Ptr} {i : Nat} {p : Ptr} {node : ASTNode}

/-- What the matrix has to hold for two nodes. -/
def adjacency (h : Heap) (p q : Ptr) : ℚ :=
  match h[p]? with
  | some node => if q ∈ node.children then edgeWeight (structuralAt h p) (structuralAt h q) else 0
  | none => 0

/-- The child is found at its own place in the flattened tree. -/
theorem findIdx?_child {c : Ptr} (hc : c ∈ order) :
    (order.map some).findIdx? (· == some c) = some (order.idxOf c) := by
  rw [List.findIdx?_map, List.findIdx?_eq_some_iff_findIdx_eq]
  have hp : ((fun x : Option Ptr => x == some c) ∘ some) = (· == c) := by
    funext x
    simp
  rw [hp]
  exact ⟨List.idxOf_lt_length_of_mem hc, rfl⟩

/-- Writing the cell of one node in a row that is given by the nodes. -/
theorem set_idxOf (hd : order.Nodup) (c : Ptr) (g : Ptr → ℚ) (w : ℚ) :
    (order.map g).set (order.idxOf c) w = order.map fun q => if q = c then w else g q := by
  apply List.ext_getElem
  · simp
  · intro j hj hj'
    have hlt : j < order.length := by simpa using hj'
    rw [List.getElem_set, List.getElem_map, List.getElem_map]
    by_cases hjc : order[j] = c
    · rw [if_pos hjc, if_pos (hjc ▸ hd.idxOf_getElem j hlt)]
    · rw [if_neg hjc, if_neg]
      intro he
      subst he
      exact hjc (List.getElem_idxOf hlt)

variable (hs : Sound h) (hget : ∀ q ∈ order, ∃ node, h[q]? = some node)

include hs hget

theorem fillCell_ok {c : Ptr} (hp : p ∈ order) (hc : c ∈ order) (adj : List (List ℚ)) :
    fillCell h (order.map some) i p adj c =
      .ok (adj.modify i (·.set (order.idxOf c) (edgeWeight (structuralAt h p)
        (structuralAt h c)))) := by
  obtain ⟨pnode, hpn⟩ := hget p hp
  obtain ⟨cnode, hcn⟩ := hget c hc
  rw [fillCell, findIdx?_child hc]
  simp only [getEdgeWeight_ok hs hpn hcn, ok_bind, structuralAt_eq hpn, structuralAt_eq hcn]
  rfl

variable (hd : order.Nodup)

include hd

/-- The children of a node fill their cells of its row. -/
theorem fillCells_ok (hp : p ∈ order) {cs : List Ptr} (hcs : ∀ c ∈ cs, c ∈ order)
    (adj : List (List ℚ)) (g : Ptr → ℚ) (hrow : adj[i]? = some (order.map g)) :
    cs.foldlM (fillCell h (order.map some) i p) adj =
      .ok (adj.set i (order.map fun q =>
        if q ∈ cs then edgeWeight (structuralAt h p) (structuralAt h q) else g q)) := by
  induction cs generalizing adj g with
  | nil =>
    obtain ⟨hi, he⟩ := List.getElem?_eq_some_iff.mp hrow
    simp [← he]
  | cons c cs ih =>
    have hc := hcs c (by simp)
    obtain ⟨hi, he⟩ := List.getElem?_eq_some_iff.mp hrow
    have hmodify : adj.modify i (·.set (order.idxOf c) (edgeWeight (structuralAt h p)
        (structuralAt h c))) = adj.set i (order.map fun q =>
          if q = c then edgeWeight (structuralAt h p) (structuralAt h q) else g q) := by
      rw [List.modify_eq_set_get _ hi]
      simp only [List.get_eq_getElem, he, set_idxOf hd]
      congr 1
      apply List.map_congr_left
      intro q _
      split
      · rename_i hqc
        rw [hqc]
      · rfl
    rw [List.foldlM_cons, fillCell_ok hs hget hp hc, ok_bind, hmodify,
      ih (fun c hc => hcs c (by simp [hc])) _ _ (List.getElem?_set_self hi), List.set_set]
    congr 3
    funext q
    by_cases hq : q = c <;> by_cases hm : q ∈ cs <;> simp [hq, hm]

/-- The rows of the first `k` nodes stand, and the others are still zero. -/
def rowsTo (h : Heap) (order : List Ptr) (k : Nat) : ASTGraph where
  adj := order.mapIdx fun i p => if i < k then order.map (adjacency h p) else order.map fun _ => 0
  dim := order.length
  nodeLabels := (order.take k).mapIdx fun i p =>
    nodeLabel ((h[p]?.map ASTNode.type).getD .unknown) i

theorem fillRow_ok (hchildren : ∀ q ∈ order, ∀ node, h[q]? = some node →
    ∀ c ∈ node.children, c ∈ order) (hi : i < order.length) :
    fillRow h (order.map some) (rowsTo h order i) i = .ok (rowsTo h order (i + 1)) := by
  have hp : order[i] ∈ order := List.getElem_mem hi
  obtain ⟨node, hn⟩ := hget _ hp
  have hflat : (order.map some)[i]? = some (some order[i]) := by simp [hi]
  have hrow : (rowsTo h order i).adj[i]? = some (order.map fun _ => (0 : ℚ)) := by
    simp [rowsTo, hi]
  have hcells := fillCells_ok hs hget hd hp (hchildren _ hp node hn) _ _ hrow
  have hset : (rowsTo h order i).adj.set i (order.map fun q => if q ∈ node.children then
      edgeWeight (structuralAt h order[i]) (structuralAt h q) else 0) =
        (rowsTo h order (i + 1)).adj := by
    apply List.ext_getElem
    · simp [rowsTo]
    · intro j hj hj'
      rw [List.getElem_set]
      by_cases hij : i = j
      · subst hij
        rw [if_pos rfl]
        simp [rowsTo, adjacency, hn]
      · rw [if_neg hij]
        have hiff : j < i ↔ j < i + 1 := by omega
        simp [rowsTo, hiff]
  have htake : order.take (i + 1) = order.take i ++ [order[i]] := by simp
  rw [fillRow, hflat]
  simp only [deref_ok hn, ok_bind, hcells, hset, pure_eq]
  congr 1
  simp only [rowsTo, htake, List.mapIdx_append, List.mapIdx_cons, List.mapIdx_nil, hn,
    List.length_take, Nat.min_eq_left hi.le, Option.map_some, Option.getD_some, Nat.zero_add]

end Matrix

section Graph

variable {h : Heap} {root p q : Ptr} {children : Forest Ptr} {node : ASTNode} {n : Nat}

theorem TreeAt.children_mem (ht : TreeAt h root children)
    (hp : p ∈ (cons root children nil).preorder)
    (hn : h[p]? = some node) (hq : q ∈ node.children) : q ∈ (cons root children nil).preorder :=
  (mem_of_mem_edges ((ht.holds.mem_edges hn).mpr ⟨hp, hq⟩)).2

/-- The whole matrix, in the order in which the tree is walked. -/
theorem TreeAt.toGraph_ok (hs : Sound h) (ht : TreeAt h root children)
    (hn : (cons root children nil).height ≤ n) :
    toGraph h n (some root) = .ok (rowsTo h (cons root children nil).preorder
      (cons root children nil).preorder.length) := by
  rw [toGraph, ht.countNodes_ok hn, ok_bind, ht.flattenTree_ok hn, ok_bind]
  generalize horder : (cons root children nil).preorder = order
  have hstart : ({ adj := List.replicate order.length (List.replicate order.length 0)
                   dim := order.length
                   nodeLabels := [] } : ASTGraph) = rowsTo h order 0 := by
    have hzero : List.replicate order.length (List.replicate order.length (0 : ℚ)) =
        order.mapIdx fun _ _ => order.map fun _ => 0 := by
      apply List.ext_getElem <;> simp
    simp only [rowsTo, hzero, Nat.not_lt_zero, if_false, List.take_zero, List.mapIdx_nil]
  have hrows : ∀ k ≤ order.length,
      (List.range k).foldlM (fillRow h (order.map some)) (rowsTo h order 0) =
        .ok (rowsTo h order k) := by
    intro k hk
    induction k with
    | zero => rfl
    | succ k ih =>
      rw [List.range_succ, List.foldlM_append, ih (by omega), ok_bind, List.foldlM_cons,
        fillRow_ok hs (fun q hq => ht.holds.get (horder ▸ hq)) (horder ▸ ht.distinct) _ (by omega)]
      · rfl
      · intro q hq node hqn c hc
        exact horder ▸ ht.children_mem (horder ▸ hq) hqn hc
  simp only [filledTo, List.replicate_zero, List.append_nil]
  rw [hstart]
  exact hrows _ (Nat.le_refl _)

/-- A cell of the matrix; there is nothing outside of it. -/
def ASTGraph.entry (graph : ASTGraph) (i j : Nat) : ℚ := ((graph.adj[i]?.getD [])[j]?).getD 0

theorem entry_rowsTo {order : List Ptr} {i j : Nat} (hi : order[i]? = some p)
    (hj : order[j]? = some q) : (rowsTo h order order.length).entry i j = adjacency h p q := by
  obtain ⟨hlt, rfl⟩ := List.getElem?_eq_some_iff.mp hi
  simp [ASTGraph.entry, rowsTo, hj, hlt]

/-- The nodes of a cell that is not zero. -/
theorem exists_of_entry {order : List Ptr} {i j : Nat}
    (he : (rowsTo h order order.length).entry i j ≠ 0) :
    ∃ p q, order[i]? = some p ∧ order[j]? = some q ∧ adjacency h p q ≠ 0 := by
  cases hi : order[i]? with
  | none => simp [ASTGraph.entry, rowsTo, hi] at he
  | some p =>
    cases hj : order[j]? with
    | none =>
      obtain ⟨hlt, -⟩ := List.getElem?_eq_some_iff.mp hi
      simp [ASTGraph.entry, rowsTo, hj, hlt] at he
    | some q =>
      rw [entry_rowsTo hi hj] at he
      exact ⟨p, q, rfl, rfl, he⟩

theorem TreeAt.edge_of_adjacency (ht : TreeAt h root children)
    (hp : p ∈ (cons root children nil).preorder) (he : adjacency h p q ≠ 0) :
    (p, q) ∈ (cons root children nil).edges := by
  unfold adjacency at he
  split at he
  · rename_i node hn
    refine (ht.holds.mem_edges hn).mpr ⟨hp, ?_⟩
    by_contra hq
    exact he (if_neg hq)
  · exact absurd rfl he

/-- What a node of a tree leads to is a tree. -/
theorem Holds.exists_subtree {f : Forest Ptr} (hf : Holds h f) (hp : p ∈ f.preorder) :
    ∃ below, Holds h (cons p below nil) ∧ (cons p below nil).height ≤ f.height ∧
      (cons p below nil).preorder.Sublist f.preorder := by
  induction f with
  | nil => cases hp
  | cons r children siblings ihc ihs =>
    obtain ⟨hr, hc, hs⟩ := hf
    rw [preorder, List.mem_cons, List.mem_append] at hp
    rcases hp with rfl | hp | hp
    · refine ⟨children, ⟨hr, hc, trivial⟩, ?_, ?_⟩
      · simp [height]
      · simp [preorder]
    · obtain ⟨below, hb, hh, hsub⟩ := ihc hc hp
      refine ⟨below, hb, hh.trans ?_, ?_⟩
      · rw [height]
        omega
      · exact (hsub.trans (List.sublist_append_left _ _)).cons r
    · obtain ⟨below, hb, hh, hsub⟩ := ihs hs hp
      refine ⟨below, hb, hh.trans ?_, ?_⟩
      · rw [height]
        omega
      · exact (hsub.trans (List.sublist_append_right _ _)).cons r

theorem TreeAt.subtree (ht : TreeAt h root children)
    (hp : p ∈ (cons root children nil).preorder) :
    ∃ below, TreeAt h p below ∧ (cons p below nil).height ≤ (cons root children nil).height := by
  obtain ⟨below, hb, hh, hsub⟩ := ht.holds.exists_subtree hp
  exact ⟨below, ⟨hb, ht.distinct.sublist hsub⟩, hh⟩

/-- The weight that the recursion computes for a node. -/
noncomputable def authority (h : Heap) (p : Ptr) : ℚ := Set.ncard {q | Authority h p q}

theorem TreeAt.computeWeight_node (hs : Sound h) (ht : TreeAt h root children)
    (hn : (cons root children nil).height ≤ n) (hp : p ∈ (cons root children nil).preorder) :
    computeWeight h n (some p) = .ok (authority h p) := by
  obtain ⟨below, hb, hh⟩ := ht.subtree hp
  exact hb.computeWeight_ok hs (hh.trans hn)

/-- The loop over the children sums up their weights. -/
theorem addWeight_sum {cs : List Ptr} (hs : Sound h) (hp : h[p]? = some node)
    (hcs : ∀ c ∈ cs, (∃ cnode, h[c]? = some cnode) ∧
      computeWeight h n (some c) = .ok (authority h c)) (total : ℚ) :
    cs.foldlM (addWeight h n p) total = .ok (total +
      (cs.map fun c => edgeWeight (structuralAt h p) (structuralAt h c) * authority h c).sum) := by
  induction cs generalizing total with
  | nil => simp
  | cons c cs ih =>
    obtain ⟨⟨cnode, hc⟩, hw⟩ := hcs c (by simp)
    have hturn : addWeight h n p total c = .ok (total +
        edgeWeight (structuralAt h p) (structuralAt h c) * authority h c) := by
      rw [addWeight, getEdgeWeight_ok hs hp hc, ok_bind, hw, ok_bind, pure_eq,
        structuralAt_eq hp, structuralAt_eq hc]
    rw [List.foldlM_cons, hturn, ok_bind, ih fun c hc => hcs c (by simp [hc]), List.map_cons,
      List.sum_cons, add_assoc]

/-- Over all nodes, only the children of `p` contribute. -/
theorem sum_adjacency {order : List Ptr} (hd : order.Nodup) (hp : h[p]? = some node)
    (hc : ∀ c ∈ node.children, c ∈ order) (hcd : node.children.Nodup) (g : Ptr → ℚ) :
    (order.map fun q => adjacency h p q * g q).sum =
      (node.children.map fun c =>
        edgeWeight (structuralAt h p) (structuralAt h c) * g c).sum := by
  have hsub : node.children.toFinset ⊆ order.toFinset := by
    intro c hmem
    exact List.mem_toFinset.mpr (hc c (List.mem_toFinset.mp hmem))
  rw [← List.sum_toFinset _ hd, ← List.sum_toFinset _ hcd]
  symm
  apply Finset.sum_subset_zero_on_sdiff hsub
  · intro q hq
    have hnot : q ∉ node.children := by simpa using (Finset.mem_sdiff.mp hq).2
    simp [adjacency, hp, hnot]
  · intro q hq
    simp [adjacency, hp, List.mem_toFinset.mp hq]

/-- The weight of a node is its own and that of its children along their edges. -/
theorem TreeAt.authority_eq (hs : Sound h) (ht : TreeAt h root children)
    (hp : p ∈ (cons root children nil).preorder) (hn : h[p]? = some node) :
    authority h p = node.weight +
      (((cons root children nil).preorder).map fun q => adjacency h p q * authority h q).sum := by
  obtain ⟨below, hb, hh⟩ := ht.subtree hp
  obtain ⟨⟨node', hn', hroots⟩, hbelow, -⟩ := hb.holds
  obtain rfl : node = node' := Option.some.inj (hn.symm.trans hn')
  have hpre : node.children.Sublist below.preorder := hroots ▸ roots_sublist below
  have hbd : below.preorder.Nodup :=
    hb.distinct.sublist (List.sublist_append_left below.preorder [] |>.cons p)
  have hcd : node.children.Nodup := hbd.sublist hpre
  have hweight := hb.computeWeight_ok hs (n := below.height + 1) (by simp [height])
  have hcs : ∀ c ∈ node.children, (∃ cnode, h[c]? = some cnode) ∧
      computeWeight h below.height (some c) = .ok (authority h c) := by
    intro c hc
    have hmem : c ∈ below.preorder := hpre.subset hc
    obtain ⟨sub, hsub, hle, hsl⟩ := hbelow.exists_subtree hmem
    exact ⟨hbelow.get hmem, TreeAt.computeWeight_ok hs ⟨hsub, hbd.sublist hsl⟩ hle⟩
  rw [Ast.computeWeight_node hn, addWeight_sum hs hn hcs, Except.ok.injEq] at hweight
  rw [sum_adjacency ht.distinct hn (fun c hc => ht.children_mem hp hn hc) hcd, authority, ← hweight]

def ChildOf (h : Heap) (p q : Ptr) : Prop := ∃ node, h[p]? = some node ∧ q ∈ node.children

/-- The graph has the edges of the tree, whose nodes are numbered as they are walked. -/
structure Faithful (h : Heap) (fuel : Nat) (root : Ptr) (order : List Ptr) (graph : ASTGraph) :
    Prop where
  dim : graph.dim = order.length
  root_first : order[0]? = some root
  label : ∀ i p node, order[i]? = some p → h[p]? = some node →
    graph.nodeLabels[i]? = some (nodeLabel node.type i)
  structural : ∀ i j p q, order[i]? = some p → order[j]? = some q →
    (graph.entry i j = 1 ↔ ChildOf h p q ∧ structuralAt h p = true ∧ structuralAt h q = true)
  muted : ∀ i j p q, order[i]? = some p → order[j]? = some q →
    (graph.entry i j = 1 / 10 ↔
      ChildOf h p q ∧ structuralAt h p = true ∧ structuralAt h q = false)
  absent : ∀ i j, graph.entry i j = 1 ∨ graph.entry i j = 1 / 10 ∨ graph.entry i j = 0
  upper : ∀ i j, graph.entry i j ≠ 0 → i < j
  column : ∀ i i' j, graph.entry i j ≠ 0 → graph.entry i' j ≠ 0 → i = i'
  weight : ∃ w : Nat → ℚ, ∀ i p node, order[i]? = some p → h[p]? = some node →
    computeWeight h fuel (some p) = .ok (w i) ∧
      w i = node.weight + ∑ j ∈ Finset.range graph.dim, graph.entry i j * w j

theorem adjacency_cases (h : Heap) (p q : Ptr) :
    (adjacency h p q = 1 ∧ ChildOf h p q ∧ structuralAt h p = true ∧ structuralAt h q = true) ∨
    (adjacency h p q = 1 / 10 ∧ ChildOf h p q ∧ structuralAt h p = true ∧
      structuralAt h q = false) ∨
    (adjacency h p q = 0 ∧ ¬ (ChildOf h p q ∧ structuralAt h p = true)) := by
  cases hp : h[p]? with
  | none => exact Or.inr (Or.inr ⟨by simp [adjacency, hp], by simp [ChildOf, hp]⟩)
  | some node =>
    have hchild : ChildOf h p q ↔ q ∈ node.children := by simp [ChildOf, hp]
    rw [hchild]
    simp only [adjacency, hp]
    by_cases hq : q ∈ node.children <;> cases structuralAt h p <;> cases structuralAt h q <;>
      simp [hq, edgeWeight]

theorem adjacency_eq_one_iff : adjacency h p q = 1 ↔
    ChildOf h p q ∧ structuralAt h p = true ∧ structuralAt h q = true := by
  rcases adjacency_cases h p q with ⟨he, hc⟩ | ⟨he, hc⟩ | ⟨he, hc⟩
  · simp [he, hc]
  · norm_num [he, hc]
  · rw [he]
    constructor
    · intro h0
      norm_num at h0
    · intro h1
      exact absurd ⟨h1.1, h1.2.1⟩ hc

theorem adjacency_eq_muted_iff : adjacency h p q = 1 / 10 ↔
    ChildOf h p q ∧ structuralAt h p = true ∧ structuralAt h q = false := by
  rcases adjacency_cases h p q with ⟨he, hc⟩ | ⟨he, hc⟩ | ⟨he, hc⟩
  · norm_num [he, hc]
  · simp [he, hc]
  · rw [he]
    constructor
    · intro h0
      norm_num at h0
    · intro h1
      exact absurd ⟨h1.1, h1.2.1⟩ hc

theorem entry_cases {order : List Ptr} {i j : Nat} :
    (rowsTo h order order.length).entry i j = 1 ∨
      (rowsTo h order order.length).entry i j = 1 / 10 ∨
      (rowsTo h order order.length).entry i j = 0 := by
  by_cases he : (rowsTo h order order.length).entry i j = 0
  · exact Or.inr (Or.inr he)
  · obtain ⟨p, q, hi, hj, -⟩ := exists_of_entry he
    rw [entry_rowsTo hi hj]
    rcases adjacency_cases h p q with ⟨h, -⟩ | ⟨h, -⟩ | ⟨h, -⟩
    · exact Or.inl h
    · exact Or.inr (Or.inl h)
    · exact Or.inr (Or.inr h)

/-- A row of the matrix, weighted with what its columns stand for. -/
theorem sum_entries {order : List Ptr} {i : Nat} (hi : order[i]? = some p) (g : Ptr → ℚ) :
    ∑ j ∈ Finset.range order.length, (rowsTo h order order.length).entry i j *
        (order[j]?.map g).getD 0 =
      (order.map fun q => adjacency h p q * g q).sum := by
  rw [Finset.sum_range, ← Fin.sum_univ_fun_getElem]
  apply Finset.sum_congr rfl
  intro j _
  have hj : order[j.1]? = some order[j.1] := List.getElem?_eq_getElem j.2
  rw [entry_rowsTo hi hj, hj]
  rfl

end Graph

/-- The graph of a tree carries its edges, and no others. -/
theorem toGraph_faithful (ops : List Op) (root : Ptr) (children : Forest Ptr)
    (ht : TreeAt (build ops) root children) (fuel : Nat)
    (hfuel : (cons root children nil).height ≤ fuel) :
    ∃ graph, toGraph (build ops) fuel (some root) = .ok graph ∧
      Faithful (build ops) fuel root (cons root children nil).preorder graph := by
  have hs := build_sound ops
  refine ⟨_, ht.toGraph_ok hs hfuel, ?_⟩
  generalize horder : (cons root children nil).preorder = order
  have hd : order.Nodup := horder ▸ ht.distinct
  have hmem : ∀ {i : Nat} {p : Ptr}, order[i]? = some p →
      p ∈ (cons root children nil).preorder := by
    intro i p hi
    exact horder ▸ List.mem_of_getElem? hi
  have hedge : ∀ {i j : Nat}, (rowsTo (build ops) order order.length).entry i j ≠ 0 →
      ∃ p q, order[i]? = some p ∧ order[j]? = some q ∧ (p, q) ∈ (cons root children nil).edges := by
    intro i j he
    obtain ⟨p, q, hi, hj, he⟩ := exists_of_entry he
    exact ⟨p, q, hi, hj, ht.edge_of_adjacency (hmem hi) he⟩
  refine
    { dim := rfl
      root_first := by simp [← horder, preorder]
      label := ?_
      structural := ?_
      muted := ?_
      absent := ?_
      upper := ?_
      column := ?_
      weight := ?_ }
  · intro i p node hi hn
    simp [rowsTo, hi, hn]
  · intro i j p q hi hj
    rw [entry_rowsTo hi hj]
    exact adjacency_eq_one_iff
  · intro i j p q hi hj
    rw [entry_rowsTo hi hj]
    exact adjacency_eq_muted_iff
  · exact fun i j => entry_cases
  · intro i j he
    obtain ⟨p, q, hi, hj, hpq⟩ := hedge he
    exact lt_of_mem_edges ht.distinct hpq (horder.symm ▸ hi) (horder.symm ▸ hj)
  · intro i i' j he he'
    obtain ⟨p, q, hi, hj, hpq⟩ := hedge he
    obtain ⟨p', q', hi', hj', hpq'⟩ := hedge he'
    obtain rfl : q = q' := Option.some.inj (hj.symm.trans hj')
    obtain rfl := parent_unique ht.distinct hpq hpq'
    exact (List.getElem?_inj (List.getElem?_eq_some_iff.mp hi).1 hd).mp (hi.trans hi'.symm)
  · refine ⟨fun i => (order[i]?.map (authority (build ops))).getD 0, ?_⟩
    intro i p node hi hn
    have hhere : (order[i]?.map (authority (build ops))).getD 0 = authority (build ops) p := by
      simp [hi]
    constructor
    · exact (ht.computeWeight_node hs hfuel (hmem hi)).trans (congrArg _ hhere.symm)
    · calc (order[i]?.map (authority (build ops))).getD 0 = authority (build ops) p := hhere
        _ = node.weight + (order.map fun q =>
            adjacency (build ops) p q * authority (build ops) q).sum := by
          rw [ht.authority_eq hs (hmem hi) hn, horder]
        _ = node.weight + ∑ j ∈ Finset.range order.length,
            (rowsTo (build ops) order order.length).entry i j *
              (order[j]?.map (authority (build ops))).getD 0 := by
          rw [sum_entries hi]

/-- A route below a program, with a literal in front of it. -/
theorem toGraph_faithful_route :
    ∃ children, TreeAt (build [.alloc .program none, .alloc .route none,
        .alloc .literalStr (some [65]), .addChild (some 0) (some 2),
        .addChild (some 0) (some 1)]) 0 children ∧
      ∃ graph, toGraph (build [.alloc .program none, .alloc .route none,
          .alloc .literalStr (some [65]), .addChild (some 0) (some 2),
          .addChild (some 0) (some 1)]) 2 (some 0) = .ok graph ∧
        Faithful (build [.alloc .program none, .alloc .route none,
          .alloc .literalStr (some [65]), .addChild (some 0) (some 2),
          .addChild (some 0) (some 1)]) 2 0 (cons 0 children nil).preorder graph := by
  have ht : TreeAt (build [.alloc .program none, .alloc .route none,
      .alloc .literalStr (some [65]), .addChild (some 0) (some 2),
      .addChild (some 0) (some 1)]) 0 (.cons 2 .nil (.cons 1 .nil .nil)) :=
    ⟨⟨⟨_, rfl, rfl⟩, ⟨⟨_, rfl, rfl⟩, trivial, ⟨_, rfl, rfl⟩, trivial, trivial⟩, trivial⟩, by decide⟩
  exact ⟨_, ht, toGraph_faithful _ 0 _ ht 2 (by decide)⟩

end HyperKitty.Ast
