import HyperKitty.Ast.Inverted
import HyperKitty.Lib.Forest

namespace HyperKitty.Ast

open Exec Forest

def structuralAt (h : Heap) (p : Ptr) : Bool :=
  match h[p]? with
  | some node => node.type.structural
  | none => false

/-- What the pointers lead to is the forest. -/
def Holds (h : Heap) : Forest Ptr → Prop
  | .nil => True
  | .cons p children siblings =>
    (∃ node, h[p]? = some node ∧ node.children = children.roots) ∧ Holds h children ∧
      Holds h siblings

/-- The nodes below the root form a tree, and each of them occurs in it once. -/
structure TreeAt (h : Heap) (root : Ptr) (children : Forest Ptr) : Prop where
  holds : Holds h (.cons root children .nil)
  distinct : (Forest.cons root children .nil).preorder.Nodup

/-- What the calls that build trees keep: weights are those of the types, and
payload has payload below it. -/
def Sound (h : Heap) : Prop :=
  ∀ (p : Ptr) (node : ASTNode), h[p]? = some node →
    node.weight = getNodeWeight node.type ∧ node.children.length ≤ maxChildren ∧
      ∀ c ∈ node.children, c < h.length ∧
        (node.type.structural = false → structuralAt h c = false)

/-- The structural nodes that are reached from the root through such nodes only. -/
inductive Authority (h : Heap) (root : Ptr) : Ptr → Prop
  | root (hs : structuralAt h root = true) : Authority h root root
  | child {p c : Ptr} {node : ASTNode} (ha : Authority h root p) (hp : h[p]? = some node)
      (hc : c ∈ node.children) (hs : structuralAt h c = true) : Authority h root c

/-- The nodes of a forest with all that is stored in them. -/
def contents (h : Heap) (f : Forest Ptr) : Forest (Option ASTNode) := f.map fun p => h[p]?

def structuralNode (node : Option ASTNode) : Bool :=
  match node with
  | some node => node.type.structural
  | none => false

theorem getNodeWeight_eq (t : NodeType) : getNodeWeight t = if t.structural then 1 else 0 := by
  cases t <;> rfl

theorem structuralAt_eq {h : Heap} {p : Ptr} {node : ASTNode} (hp : h[p]? = some node) :
    structuralAt h p = node.type.structural := by
  simp [structuralAt, hp]

theorem deref_ok {h : Heap} {p : Ptr} {node : ASTNode} (hp : h[p]? = some node) :
    deref h p = .ok node := by
  simp [deref, hp]

theorem deref_eq_ok {h : Heap} {p : Ptr} {node : ASTNode} (hd : deref h p = .ok node) :
    h[p]? = some node := by
  unfold deref at hd
  split at hd
  · rename_i hp
    cases hd
    exact hp
  · cases hd

section Building

variable {h h' : Heap} {p : Ptr} {node : ASTNode}

/-- A call that adds a child has passed the guard. -/
theorem addChild_linked {parent child : Option Ptr} {status : HkStatus}
    (hc : addChild h parent child = .ok (status, h')) :
    h' = h ∨ ∃ p c np nc, parent = some p ∧ child = some c ∧ h[p]? = some np ∧ h[c]? = some nc ∧
      ¬ (np.weight = 0 ∧ nc.weight = 1) ∧ np.children.length < maxChildren ∧
      h' = (h.modify p fun node => { node with children := node.children ++ [c] }).modify c
        fun node => { node with parentIdx := np.children.length } := by
  rcases parent with _ | p
  · cases hc
    exact Or.inl rfl
  rcases child with _ | c
  · cases hc
    exact Or.inl rfl
  obtain ⟨np, hp, hc⟩ := (bind_ok _ _ _).mp hc
  obtain ⟨nc, hn, hc⟩ := (bind_ok _ _ _).mp hc
  split at hc
  · cases hc
    exact Or.inl rfl
  · rename_i hguard
    split at hc
    · cases hc
      exact Or.inl rfl
    · rename_i hfull
      cases hc
      exact Or.inr ⟨p, c, np, nc, rfl, rfl, deref_eq_ok hp, deref_eq_ok hn, hguard, by omega, rfl⟩

/-- Linking changes the children of one node and the index kept in another. -/
theorem getElem?_linked {p c q : Ptr} {i : Int}
    (hq : ((h.modify p fun node => { node with children := node.children ++ [c] }).modify c
      fun node => { node with parentIdx := i })[q]? = some node) :
    ∃ old, h[q]? = some old ∧ node.type = old.type ∧ node.weight = old.weight ∧
      node.children = if p = q then old.children ++ [c] else old.children := by
  rw [List.getElem?_modify, List.getElem?_modify] at hq
  cases hold : h[q]? with
  | none => simp [hold] at hq
  | some old =>
    refine ⟨old, rfl, ?_⟩
    rw [hold, Option.map_eq_map, Option.map_eq_map, Option.map_some, Option.map_some,
      Option.some.injEq] at hq
    subst hq
    by_cases hp : p = q <;> by_cases hc : c = q <;> simp [hp, hc]

theorem Sound.alloc (hs : Sound h) (t : NodeType) (label : Option (List UInt8)) :
    Sound (nodeAlloc h t label).2 := by
  intro q node hq
  have hold : ∀ c < h.length, structuralAt (nodeAlloc h t label).2 c = structuralAt h c := by
    intro c hc
    simp [structuralAt, nodeAlloc, List.getElem?_append_left hc]
  rcases Nat.lt_or_ge q h.length with hlt | hge
  · rw [nodeAlloc, List.getElem?_append_left hlt] at hq
    obtain ⟨hw, hn, hc⟩ := hs q node hq
    refine ⟨hw, hn, fun c hmem => ?_⟩
    obtain ⟨hlt, hpay⟩ := hc c hmem
    rw [hold c hlt]
    exact ⟨Nat.lt_of_lt_of_le hlt (by simp [nodeAlloc]), hpay⟩
  · rw [nodeAlloc, List.getElem?_append_right hge, List.getElem?_singleton] at hq
    split at hq
    · cases hq
      exact ⟨rfl, Nat.zero_le _, nofun⟩
    · cases hq

theorem structuralAt_linked {p c q : Ptr} {i : Int} :
    structuralAt ((h.modify p fun node => { node with children := node.children ++ [c] }).modify c
      fun node => { node with parentIdx := i }) q = structuralAt h q := by
  simp only [structuralAt, List.getElem?_modify]
  cases h[q]? with
  | none => rfl
  | some old => by_cases hp : p = q <;> by_cases hc : c = q <;> simp [hp, hc]

theorem Sound.addChild {parent child : Option Ptr} {status : HkStatus} (hs : Sound h)
    (hc : addChild h parent child = .ok (status, h')) : Sound h' := by
  rcases addChild_linked hc with rfl | ⟨p, c, np, nc, -, -, hp, hn, hguard, hfull, rfl⟩
  · exact hs
  intro q node hq
  obtain ⟨old, hold, htype, hweight, hchildren⟩ := getElem?_linked hq
  obtain ⟨hw, hlen, hbelow⟩ := hs q old hold
  rw [hweight, htype, hchildren]
  refine ⟨hw, ?_, ?_⟩
  · split
    · rename_i he
      subst he
      obtain rfl : np = old := Option.some.inj (hp.symm.trans hold)
      rw [List.length_append, List.length_singleton]
      omega
    · exact hlen
  · intro d hd
    rw [List.length_modify, List.length_modify, structuralAt_linked]
    by_cases hpq : p = q
    · subst hpq
      obtain rfl : np = old := Option.some.inj (hp.symm.trans hold)
      rw [if_pos rfl, List.mem_append, List.mem_singleton] at hd
      rcases hd with hd | rfl
      · exact hbelow d hd
      · refine ⟨(List.getElem?_eq_some_iff.mp hn).1, fun hpay => ?_⟩
        have hzero : np.weight = 0 := by simp [hw, getNodeWeight_eq, hpay]
        have hone : nc.weight ≠ 1 := fun h1 => hguard ⟨hzero, h1⟩
        rw [(hs d nc hn).1, getNodeWeight_eq] at hone
        rw [structuralAt_eq hn]
        simpa using hone
    · rw [if_neg hpq] at hd
      exact hbelow d hd

theorem Sound.step (hs : Sound h) (op : Op) : Sound (step h op) := by
  cases op with
  | alloc t label => exact hs.alloc t label
  | addChild parent child =>
    rw [Ast.step]
    split
    · rename_i hc
      exact hs.addChild hc
    · exact hs

/-- Every heap that the calls build is sound. -/
theorem build_sound (ops : List Op) : Sound (build ops) := by
  have hrun : ∀ h, Sound h → Sound (ops.foldl Ast.step h) := by
    induction ops with
    | nil => exact fun _ hs => hs
    | cons op ops ih => exact fun h hs => ih _ (hs.step op)
  exact hrun [] (by intro p node hp; simp at hp)

end Building

section Reading

variable {h : Heap} {root p q : Ptr} {node : ASTNode} {f children : Forest Ptr} {n : Nat}

theorem Holds.get (hf : Holds h f) (hp : p ∈ f.preorder) : ∃ node, h[p]? = some node := by
  induction f with
  | nil => cases hp
  | cons r children siblings ihc ihs =>
    obtain ⟨⟨node, hr, -⟩, hc, hs⟩ := hf
    rw [preorder, List.mem_cons, List.mem_append] at hp
    rcases hp with rfl | hp | hp
    · exact ⟨node, hr⟩
    · exact ihc hc hp
    · exact ihs hs hp

/-- The edges of the forest are the links of the heap. -/
theorem Holds.mem_edges (hf : Holds h f) (hn : h[p]? = some node) :
    (p, q) ∈ f.edges ↔ p ∈ f.preorder ∧ q ∈ node.children := by
  induction f with
  | nil => simp [edges, preorder]
  | cons r children siblings ihc ihs =>
    obtain ⟨⟨rnode, hr, hroots⟩, hc, hs⟩ := hf
    have hroot : (∃ c, c ∈ children.roots ∧ (r, c) = (p, q)) ↔ p = r ∧ q ∈ node.children := by
      constructor
      · intro he
        obtain ⟨c, hcr, he⟩ := he
        obtain ⟨rfl, rfl⟩ := Prod.mk.inj he
        obtain rfl : node = rnode := Option.some.inj (hn.symm.trans hr)
        exact ⟨rfl, hroots ▸ hcr⟩
      · intro he
        obtain ⟨rfl, hq⟩ := he
        obtain rfl : node = rnode := Option.some.inj (hn.symm.trans hr)
        exact ⟨q, hroots ▸ hq, rfl⟩
    rw [edges, preorder, List.mem_append, List.mem_append, List.mem_map, hroot, ihc hc, ihs hs,
      List.mem_cons, List.mem_append]
    tauto

theorem TreeAt.authority_iff_led (ht : TreeAt h root children) :
    Authority h root q ↔ Led (structuralAt h) (.cons root children .nil) q := by
  constructor
  · intro ha
    induction ha with
    | root hs => exact .root (by simp [roots]) hs
    | child _ hp hc hs ih =>
      have hmem := (kept_sublist _).subset ((mem_kept_iff ht.distinct).mpr ih)
      exact ih.child ((ht.holds.mem_edges hp).mpr ⟨hmem, hc⟩) hs
  · intro hl
    induction hl with
    | root hr hs =>
      obtain rfl : _ = root := by simpa [roots] using hr
      exact .root hs
    | child _ he hs ih =>
      obtain ⟨node, hp⟩ := ht.holds.get (mem_of_mem_edges he).1
      exact ih.child hp ((ht.holds.mem_edges hp).mp he).2 hs

theorem TreeAt.ncard_authority (ht : TreeAt h root children) :
    Set.ncard {p | Authority h root p} =
      ((Forest.cons root children .nil).kept (structuralAt h)).length := by
  rw [length_kept_eq_ncard ht.distinct]
  simp only [ht.authority_iff_led]

/-- The weight of an edge, as the comments of the source describe it. -/
def edgeWeight (source target : Bool) : ℚ :=
  if source then (if target then 1 else 1 / 10) else 0

theorem getEdgeWeight_ok (hs : Sound h) (hp : h[p]? = some node) {target : ASTNode}
    (hq : h[q]? = some target) :
    getEdgeWeight h (some p) (some q) =
      .ok (edgeWeight node.type.structural target.type.structural) := by
  have hw := (hs p node hp).1
  have hw' := (hs q target hq).1
  rw [getNodeWeight_eq] at hw hw'
  rw [getEdgeWeight, deref_ok hp, deref_ok hq, ok_bind, ok_bind, hw, hw']
  cases node.type.structural <;> cases target.type.structural <;> simp [edgeWeight]

/-- One turn of the loop over the children of `p`. -/
def addWeight (h : Heap) (n : Nat) (p : Ptr) (total : ℚ) (child : Ptr) : Exec Unit ℚ := do
  let edgeWeight ← getEdgeWeight h (some p) (some child)
  let childWeight ← computeWeight h n (some child)
  pure (total + edgeWeight * childWeight)

theorem computeWeight_node (hp : h[p]? = some node) :
    computeWeight h (n + 1) (some p) = node.children.foldlM (addWeight h n p) node.weight := by
  rw [computeWeight, deref_ok hp, ok_bind]
  rfl

/-- Each child adds what it keeps if its parent is structural: payload keeps nothing
to be muted. -/
theorem addWeight_children (hs : Sound h) (hf : Holds h f) (hn : f.height ≤ n)
    (hp : h[p]? = some node) (total : ℚ) :
    f.roots.foldlM (addWeight h n p) total =
      .ok (total + if node.type.structural then ((f.kept (structuralAt h)).length : ℚ) else 0) := by
  induction f generalizing n p node total with
  | nil => simp [roots, kept]
  | cons c children siblings ihc ihs =>
    obtain ⟨⟨cnode, hc, hroots⟩, hchildren, hsiblings⟩ := hf
    rw [height] at hn
    obtain ⟨m, rfl⟩ : ∃ m, n = m + 1 := ⟨n - 1, by omega⟩
    have hweight : computeWeight h (m + 1) (some c) = .ok (if cnode.type.structural then
        1 + ((children.kept (structuralAt h)).length : ℚ) else 0) := by
      rw [computeWeight_node hc, hroots, ihc hchildren (by omega) hc, (hs c cnode hc).1,
        getNodeWeight_eq]
      split <;> simp
    have hturn : addWeight h (m + 1) p total c = .ok (total +
        edgeWeight node.type.structural cnode.type.structural * (if cnode.type.structural then
          1 + ((children.kept (structuralAt h)).length : ℚ) else 0)) := by
      rw [addWeight, getEdgeWeight_ok hs hp hc, ok_bind, hweight, ok_bind, pure_eq]
    rw [roots, List.foldlM_cons, hturn, ok_bind, ihs hsiblings (by omega) hp, kept,
      structuralAt_eq hc]
    cases node.type.structural <;> cases cnode.type.structural <;>
      simp [edgeWeight, add_assoc, add_comm]

theorem TreeAt.computeWeight_ok (hs : Sound h) (ht : TreeAt h root children)
    (hn : (Forest.cons root children .nil).height ≤ n) :
    computeWeight h n (some root) = .ok (Set.ncard {p | Authority h root p} : ℚ) := by
  obtain ⟨⟨node, hroot, hroots⟩, hchildren, -⟩ := ht.holds
  rw [height] at hn
  obtain ⟨m, rfl⟩ : ∃ m, n = m + 1 := ⟨n - 1, by omega⟩
  rw [computeWeight_node hroot, hroots, addWeight_children hs hchildren (by omega) hroot,
    (hs root node hroot).1, getNodeWeight_eq, ht.ncard_authority, kept, structuralAt_eq hroot]
  cases node.type.structural <;> simp [kept, add_comm]

end Reading

/-- The weight of a tree is the number of structural nodes that structural nodes
lead to. It is the same in every tree that differs in payload or in the order of children. -/
theorem computeWeight_noninterference (ops : List Op) (root : Ptr) (children : Forest Ptr)
    (ht : TreeAt (build ops) root children) :
    (∀ fuel, (Forest.cons root children .nil).height ≤ fuel →
      computeWeight (build ops) fuel (some root) =
        .ok (Set.ncard {p | Authority (build ops) root p} : ℚ)) ∧
    (structuralAt (build ops) root = false → Set.ncard {p | Authority (build ops) root p} = 0) ∧
    ∀ (ops' : List Op) (root' : Ptr) (children' : Forest Ptr),
      TreeAt (build ops') root' children' →
      Alike structuralNode (contents (build ops) (.cons root children .nil))
        (contents (build ops') (.cons root' children' .nil)) →
      ∀ fuel fuel', (Forest.cons root children .nil).height ≤ fuel →
        (Forest.cons root' children' .nil).height ≤ fuel' →
        computeWeight (build ops) fuel (some root) =
          computeWeight (build ops') fuel' (some root') := by
  have hcontents : ∀ h f, ((contents h f).kept structuralNode).length =
      (f.kept (structuralAt h)).length := by
    intro h f
    rw [contents, kept_map, List.length_map]
    rfl
  refine ⟨fun fuel hn => ht.computeWeight_ok (build_sound ops) hn, ?_, ?_⟩
  · intro hp
    rw [ht.ncard_authority, kept, hp]
    rfl
  · intro ops' root' children' ht' halike fuel fuel' hn hn'
    have hlen := halike.kept_length
    rw [hcontents, hcontents] at hlen
    rw [ht.computeWeight_ok (build_sound ops) hn, ht'.computeWeight_ok (build_sound ops') hn',
      ht.ncard_authority, ht'.ncard_authority, hlen]

/-- A program with a route and a literal, and the program with the route alone. -/
theorem computeWeight_noninterference_literal :
    ∃ children children' : Forest Ptr,
      TreeAt (build [.alloc .program none, .alloc .route none, .alloc .literalStr (some [65]),
        .addChild (some 0) (some 2), .addChild (some 0) (some 1)]) 0 children ∧
      TreeAt (build [.alloc .program none, .alloc .route none,
        .addChild (some 0) (some 1)]) 0 children' ∧
      computeWeight (build [.alloc .program none, .alloc .route none,
        .alloc .literalStr (some [65]), .addChild (some 0) (some 2),
        .addChild (some 0) (some 1)]) 2 (some 0) =
      computeWeight (build [.alloc .program none, .alloc .route none,
        .addChild (some 0) (some 1)]) 2 (some 0) := by
  have ht : TreeAt (build [.alloc .program none, .alloc .route none,
      .alloc .literalStr (some [65]), .addChild (some 0) (some 2),
      .addChild (some 0) (some 1)]) 0 (.cons 2 .nil (.cons 1 .nil .nil)) :=
    ⟨⟨⟨_, rfl, rfl⟩, ⟨⟨_, rfl, rfl⟩, trivial, ⟨_, rfl, rfl⟩, trivial, trivial⟩, trivial⟩, by decide⟩
  have ht' : TreeAt (build [.alloc .program none, .alloc .route none,
      .addChild (some 0) (some 1)]) 0 (.cons 1 .nil .nil) :=
    ⟨⟨⟨_, rfl, rfl⟩, ⟨⟨_, rfl, rfl⟩, trivial, trivial⟩, trivial⟩, by decide⟩
  refine ⟨_, _, ht, ht', ?_⟩
  refine (computeWeight_noninterference _ 0 _ ht).2.2 _ 0 _ ht' ?_ 2 2 (by decide) (by decide)
  exact .cons rfl rfl ((Alike.drop rfl _ _).trans (.cons rfl rfl .nil .nil)) .nil

end HyperKitty.Ast
