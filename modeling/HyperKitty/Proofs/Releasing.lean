import HyperKitty.Ast.Memory
import HyperKitty.Proofs.Weights

namespace HyperKitty.Ast

open Exec Forest

variable {h : Heap} {freed freed' : List Ptr} {p : Ptr} {node : ASTNode} {n : Nat}

theorem load_eq_ok : load h freed p = .ok node ↔ p ∉ freed ∧ h[p]? = some node := by
  unfold load
  split
  · rename_i hp
    simp [hp]
  · rename_i hp
    exact ⟨fun hd => ⟨hp, deref_eq_ok hd⟩, fun hn => deref_ok hn.2⟩

theorem release_eq_ok : release h freed p = .ok freed' ↔
    (p ∉ freed ∧ ∃ node, h[p]? = some node) ∧ freed' = freed ++ [p] := by
  simp only [release, bind_ok, load_eq_ok, pure_eq, Except.ok.injEq]
  constructor
  · rintro ⟨node, ⟨hp, hn⟩, rfl⟩
    exact ⟨⟨hp, node, hn⟩, rfl⟩
  · rintro ⟨⟨hp, node, hn⟩, rfl⟩
    exact ⟨node, ⟨hp, hn⟩, rfl⟩

/-- One pass of the loop over the children of `p`. -/
def freeChild (h : Heap) (n : Nat) (p : Ptr) (freed : List Ptr) (child : Ptr) :
    Exec Unit (List Ptr) := do
  let _ ← load h freed p
  nodeFree h n freed (some child)

theorem nodeFree_eq_ok : nodeFree h (n + 1) freed (some p) = .ok freed' ↔
    ∃ node, p ∉ freed ∧ h[p]? = some node ∧ ∃ freed₁,
      node.children.foldlM (freeChild h n p) freed = .ok freed₁ ∧ p ∉ freed₁ ∧
        freed' = freed₁ ++ [p] := by
  rw [nodeFree]
  simp only [bind_ok, load_eq_ok, release_eq_ok]
  constructor
  · rintro ⟨node, ⟨hp, hn⟩, freed₁, hloop, ⟨hp₁, -⟩, rfl⟩
    exact ⟨node, hp, hn, freed₁, hloop, hp₁, rfl⟩
  · rintro ⟨node, hp, hn, freed₁, hloop, hp₁, rfl⟩
    exact ⟨node, ⟨hp, hn⟩, freed₁, hloop, ⟨hp₁, node, hn⟩, rfl⟩

/-- The pointers lead to the forest, and freeing it took exactly its nodes. -/
structure Took (h : Heap) (f : Forest Ptr) (freed freed' : List Ptr) : Prop where
  holds : Holds h f
  order : freed' = freed ++ f.postorder
  distinct : freed.Nodup → freed'.Nodup

/-- A loop over children that ends well has freed a forest with these roots, if every
tree that it frees is one. -/
theorem took_of_children
    (ih : ∀ {freed freed' : List Ptr} {c : Ptr}, nodeFree h n freed (some c) = .ok freed' →
      ∃ children, Took h (.cons c children .nil) freed freed')
    {cs : List Ptr} (hloop : cs.foldlM (freeChild h n p) freed = .ok freed') :
    ∃ f : Forest Ptr, f.roots = cs ∧ Took h f freed freed' := by
  induction cs generalizing freed with
  | nil =>
    cases hloop
    exact ⟨.nil, rfl, trivial, (List.append_nil _).symm, id⟩
  | cons c cs ihc =>
    rw [List.foldlM_cons, bind_ok] at hloop
    obtain ⟨freed₁, hchild, hrest⟩ := hloop
    obtain ⟨-, -, hchild⟩ := (bind_ok _ _ _).mp hchild
    obtain ⟨children, hc⟩ := ih hchild
    obtain ⟨siblings, hroots, hs⟩ := ihc hrest
    refine ⟨.cons c children siblings, by rw [roots, hroots], ⟨hc.holds.1, hc.holds.2.1, hs.holds⟩,
      ?_, fun hd => hs.distinct (hc.distinct hd)⟩
    rw [hs.order, hc.order]
    simp [postorder]

/-- What is freed without a fault was a tree, and none of its nodes was freed before. -/
theorem took_of_nodeFree (hf : nodeFree h n freed (some p) = .ok freed') :
    ∃ children, Took h (.cons p children .nil) freed freed' := by
  induction n generalizing freed freed' p with
  | zero => cases hf
  | succ n ih =>
    obtain ⟨node, hp, hn, freed₁, hloop, hp₁, rfl⟩ := nodeFree_eq_ok.mp hf
    obtain ⟨children, hroots, hc⟩ := took_of_children ih hloop
    refine ⟨children, ⟨⟨node, hn, hroots.symm⟩, hc.holds, trivial⟩, ?_, fun hd => ?_⟩
    · rw [hc.order]
      simp [postorder]
    · exact (List.nodup_append.mpr ⟨hc.distinct hd, List.nodup_singleton p, fun a ha b hb => by
        rw [List.mem_singleton.mp hb]
        exact ne_of_mem_of_not_mem ha hp₁⟩)

/-- What is freed with a node and what is left behind it are what was to be freed. -/
theorem freed_perm (freed : List Ptr) (c : Ptr) (children : Forest Ptr) (rest : List Ptr) :
    (freed ++ children.postorder ++ [c] ++ rest).Perm
      (freed ++ c :: (children.preorder ++ rest)) := by
  rw [List.append_assoc, List.append_assoc, List.singleton_append]
  exact (List.perm_middle.trans
    (((postorder_perm_preorder children).append_right rest).cons c)).append_left freed

/-- Nodes that are neither freed nor met twice are freed in postorder. -/
theorem freeChildren_ok {f : Forest Ptr} (hf : Holds h f) (hn : f.height ≤ n)
    (hd : (freed ++ f.preorder).Nodup) (hp : h[p]? = some node) (hfresh : p ∉ freed ++ f.preorder) :
    f.roots.foldlM (freeChild h n p) freed = .ok (freed ++ f.postorder) := by
  induction f generalizing n p node freed with
  | nil =>
    rw [roots, postorder, List.append_nil]
    rfl
  | cons c children siblings ihc ihs =>
    obtain ⟨⟨cnode, hc, hroots⟩, hchildren, hsiblings⟩ := hf
    rw [height] at hn
    obtain ⟨m, rfl⟩ : ∃ m, n = m + 1 := ⟨n - 1, by omega⟩
    have hperm := freed_perm freed c children siblings.preorder
    have hd₁ := hperm.nodup_iff.mpr hd
    have hfresh₁ : p ∉ freed ++ children.postorder ++ [c] ++ siblings.preorder :=
      fun hmem => hfresh (hperm.subset hmem)
    have hbelow : (freed ++ c :: children.preorder).Nodup :=
      hd.sublist ((List.sublist_append_left _ _).cons_cons c |>.append_left freed)
    obtain ⟨hcfresh, hdc⟩ := List.nodup_cons.mp (List.perm_middle.nodup_iff.mp hbelow)
    have hchild : nodeFree h (m + 1) freed (some c) =
        .ok (freed ++ children.postorder ++ [c]) := by
      refine nodeFree_eq_ok.mpr ⟨cnode, fun hmem => hcfresh (List.mem_append_left _ hmem), hc, _,
        hroots ▸ ihc hchildren (by omega) hdc hc hcfresh, fun hmem => hcfresh ?_, rfl⟩
      exact ((postorder_perm_preorder children).append_left freed).subset hmem
    have hpass : freeChild h (m + 1) p freed c = .ok (freed ++ children.postorder ++ [c]) := by
      have hload : load h freed p = .ok node :=
        load_eq_ok.mpr ⟨fun hmem => hfresh (List.mem_append_left _ hmem), hp⟩
      rw [freeChild, hload, ok_bind, hchild]
    rw [roots, List.foldlM_cons, hpass, ok_bind, ihs hsiblings (by omega) hd₁ hp hfresh₁]
    simp [postorder]

/-- Freeing ends without a fault exactly where the nodes below the root are a tree, and then it
has freed each of them once, behind its children, and nothing else. -/
theorem nodeFree_ok_iff (h : Heap) (root : Ptr) (freed : List Ptr) :
    (∃ fuel, nodeFree h fuel [] (some root) = .ok freed) ↔ ∃ children, TreeAt h root children ∧
      freed = (Forest.cons root children .nil).postorder := by
  constructor
  · rintro ⟨fuel, hf⟩
    obtain ⟨children, htook⟩ := took_of_nodeFree hf
    have horder := htook.order
    rw [List.nil_append] at horder
    refine ⟨children, ⟨htook.holds, ?_⟩, horder⟩
    rw [← (postorder_perm_preorder _).nodup_iff, ← horder]
    exact htook.distinct List.nodup_nil
  · rintro ⟨children, ht, rfl⟩
    obtain ⟨⟨node, hroot, hroots⟩, hchildren, -⟩ := ht.holds
    have hd := ht.distinct
    rw [preorder, preorder, List.append_nil] at hd
    obtain ⟨hfresh, hd⟩ := List.nodup_cons.mp hd
    refine ⟨children.height + 1, nodeFree_eq_ok.mpr ⟨node, List.not_mem_nil, hroot, _,
      hroots ▸ freeChildren_ok hchildren le_rfl hd hroot hfresh, fun hmem => hfresh ?_, rfl⟩⟩
    exact (postorder_perm_preorder children).subset hmem

end HyperKitty.Ast
