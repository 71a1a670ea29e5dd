import Mathlib

inductive Forest (α : Type*) where
  | nil
  | cons (a : α) (children siblings : Forest α)
  deriving DecidableEq

namespace Forest

variable {α β : Type*} {a b : α} {f g : Forest α}

def roots : Forest α → List α
  | nil => []
  | cons a _ siblings => a :: siblings.roots

/-- Every node in front of its children, and these in front of its siblings. -/
def preorder : Forest α → List α
  | nil => []
  | cons a children siblings => a :: (children.preorder ++ siblings.preorder)

/-- Every node behind its children, and these in front of its siblings. -/
def postorder : Forest α → List α
  | nil => []
  | cons a children siblings => children.postorder ++ a :: siblings.postorder

/-- The pairs of a node and a child of it. -/
def edges : Forest α → List (α × α)
  | nil => []
  | cons a children siblings =>
    children.roots.map (Prod.mk a) ++ (children.edges ++ siblings.edges)

def height : Forest α → Nat
  | nil => 0
  | cons _ children siblings => max (children.height + 1) siblings.height

def map (f : α → β) : Forest α → Forest β
  | nil => nil
  | cons a children siblings => cons (f a) (children.map f) (siblings.map f)

theorem roots_sublist (f : Forest α) : f.roots.Sublist f.preorder := by
  induction f with
  | nil => exact List.Sublist.slnil
  | cons a children siblings _ ih =>
    exact (ih.trans (List.sublist_append_right _ _)).cons_cons a

theorem postorder_perm_preorder (f : Forest α) : f.postorder.Perm f.preorder := by
  induction f with
  | nil => exact List.Perm.nil
  | cons a children siblings ihc ihs =>
    rw [postorder, preorder]
    exact List.perm_middle.trans ((ihc.append ihs).cons a)

/-- Every node is a root or the child of one node, each time it occurs. -/
theorem roots_edges_perm (f : Forest α) :
    (f.roots ++ f.edges.map Prod.snd).Perm f.preorder := by
  induction f with
  | nil => exact List.Perm.refl _
  | cons a children siblings ihc ihs =>
    have hmap : (children.roots.map (Prod.mk a)).map Prod.snd = children.roots := by
      simp [Function.comp_def]
    rw [roots, edges, preorder, List.map_append, List.map_append, hmap, List.cons_append]
    have hswap : (siblings.roots ++ (children.roots ++ (children.edges.map Prod.snd ++
        siblings.edges.map Prod.snd))).Perm ((children.roots ++ children.edges.map Prod.snd) ++
        (siblings.edges.map Prod.snd ++ siblings.roots)) :=
      List.perm_append_comm.trans (.of_eq (by simp))
    exact (hswap.trans (ihc.append (List.perm_append_comm.trans ihs))).cons a

/-- A parent stands in front of its children. -/
theorem sublist_of_mem_edges (h : (a, b) ∈ f.edges) : [a, b].Sublist f.preorder := by
  induction f with
  | nil => cases h
  | cons r children siblings ihc ihs =>
    rw [edges, List.mem_append, List.mem_append, List.mem_map] at h
    rcases h with ⟨c, hc, he⟩ | h | h
    · obtain ⟨rfl, rfl⟩ := Prod.mk.inj he
      have hmem : c ∈ children.preorder ++ siblings.preorder :=
        List.mem_append_left _ ((roots_sublist children).subset hc)
      exact (List.singleton_sublist.mpr hmem).cons_cons r
    · exact ((ihc h).trans (List.sublist_append_left _ _)).cons r
    · exact ((ihs h).trans (List.sublist_append_right _ _)).cons r

theorem mem_of_mem_edges (h : (a, b) ∈ f.edges) : a ∈ f.preorder ∧ b ∈ f.preorder := by
  have hs := (sublist_of_mem_edges h).subset
  exact ⟨hs (by simp), hs (by simp)⟩

/-- In a forest without repetitions a node has at most one parent. -/
theorem parent_unique {a' : α} (hd : f.preorder.Nodup) (h : (a, b) ∈ f.edges)
    (h' : (a', b) ∈ f.edges) : a = a' := by
  have hn : (f.edges.map Prod.snd).Nodup :=
    ((roots_edges_perm f).nodup_iff.mpr hd).of_append_right
  exact congrArg Prod.fst (List.inj_on_of_nodup_map hn h h' rfl)

/-- The indices of a parent and a child come in that order. -/
theorem lt_of_mem_edges (hd : f.preorder.Nodup) (h : (a, b) ∈ f.edges) {i j : Nat}
    (hi : f.preorder[i]? = some a) (hj : f.preorder[j]? = some b) : i < j := by
  obtain ⟨front, back, he, ha, hb⟩ := List.cons_sublist_iff.mp (sublist_of_mem_edges h)
  rw [List.singleton_sublist] at hb
  rw [he] at hd hi hj
  have hdisj := (List.nodup_append.mp hd).2.2
  have hfront : i < front.length := by
    by_contra hle
    rw [List.getElem?_append_right (by omega)] at hi
    exact hdisj a ha a (List.mem_of_getElem? hi) rfl
  have hback : front.length ≤ j := by
    by_contra hlt
    rw [List.getElem?_append_left (by omega)] at hj
    exact hdisj b (List.mem_of_getElem? hj) b hb rfl
  omega

section Kept

variable (s : α → Bool)

/-- What is reached from the roots without leaving `s`. -/
def kept : Forest α → List α
  | nil => []
  | cons a children siblings => (if s a then a :: children.kept else []) ++ siblings.kept

/-- The nodes that a path inside `s` leads to from a root. -/
inductive Led (f : Forest α) : α → Prop
  | root {a : α} (h : a ∈ f.roots) (hs : s a = true) : Led f a
  | child {a b : α} (h : Led f a) (he : (a, b) ∈ f.edges) (hs : s b = true) : Led f b

/-- The forests agree but for the order of siblings, the names of the nodes in `s`,
and all trees whose root is outside of `s`. -/
inductive Alike : Forest α → Forest α → Prop
  | nil : Alike nil nil
  | cons {a b : α} {children children' siblings siblings' : Forest α}
      (ha : s a = true) (hb : s b = true) (hc : Alike children children')
      (hs : Alike siblings siblings') :
      Alike (cons a children siblings) (cons b children' siblings')
  | drop {a : α} (ha : s a = false) (children siblings : Forest α) :
      Alike (cons a children siblings) siblings
  | swap (a b : α) (children children' siblings : Forest α) :
      Alike (cons a children (cons b children' siblings))
        (cons b children' (cons a children siblings))
  | symm {f g : Forest α} (h : Alike f g) : Alike g f
  | trans {f g k : Forest α} (h : Alike f g) (h' : Alike g k) : Alike f k

variable {s}

theorem Alike.refl (f : Forest α) : Alike s f f := by
  induction f with
  | nil => exact .nil
  | cons a children siblings ihc ihs =>
    cases ha : s a with
    | false => exact (Alike.drop ha children siblings).trans (Alike.drop ha children siblings).symm
    | true => exact .cons ha ha ihc ihs

theorem kept_sublist (f : Forest α) : (f.kept s).Sublist f.preorder := by
  induction f with
  | nil => exact List.Sublist.slnil
  | cons a children siblings ihc ihs =>
    rw [kept, preorder]
    split
    · exact (ihc.append ihs).cons_cons a
    · exact (ihs.trans (List.sublist_append_right _ _)).cons a

theorem kept_map (e : β → α) (f : Forest β) : (f.map e).kept s = (f.kept (s ∘ e)).map e := by
  induction f with
  | nil => rfl
  | cons a children siblings ihc ihs =>
    rw [map, kept, kept, ihc, ihs, List.map_append, Function.comp_apply]
    split <;> rfl

theorem Alike.kept_length (h : Alike s f g) : (f.kept s).length = (g.kept s).length := by
  induction h with
  | nil => rfl
  | cons ha hb _ _ ihc ihs => simp [kept, ha, hb, ihc, ihs]
  | drop ha children siblings => simp [kept, ha]
  | swap a b children children' siblings =>
    simp only [kept, List.length_append]
    omega
  | symm _ ih => exact ih.symm
  | trans _ _ ih ih' => exact ih.trans ih'

theorem mem_kept_of_root (h : a ∈ f.roots) (hs : s a = true) : a ∈ f.kept s := by
  induction f with
  | nil => cases h
  | cons r children siblings _ ih =>
    rw [kept, List.mem_append]
    rcases List.mem_cons.mp h with rfl | h
    · exact Or.inl (by simp [hs])
    · exact Or.inr (ih h)

/-- Without repetitions, what is kept is closed under the steps inside `s`. -/
theorem mem_kept_of_edge (hd : f.preorder.Nodup) (ha : a ∈ f.kept s) (he : (a, b) ∈ f.edges)
    (hs : s b = true) : b ∈ f.kept s := by
  induction f with
  | nil => cases he
  | cons r children siblings ihc ihs =>
    rw [preorder, List.nodup_cons, List.nodup_append] at hd
    obtain ⟨hr, hdc, hds, hdisj⟩ := hd
    rw [List.mem_append, not_or] at hr
    have hkc := (kept_sublist (s := s) children).subset
    have hks := (kept_sublist (s := s) siblings).subset
    rw [edges, List.mem_append, List.mem_append, List.mem_map] at he
    rw [kept, List.mem_append] at ha ⊢
    cases hsr : s r with
    | false =>
      have ha : a ∈ siblings.kept s := by simpa [hsr] using ha
      rcases he with ⟨c, hc, he⟩ | he | he
      · exact absurd (hks ha) ((Prod.mk.inj he).1 ▸ hr.2)
      · exact absurd rfl (hdisj a (mem_of_mem_edges he).1 a (hks ha))
      · exact Or.inr (ihs hds ha he)
    | true =>
      have ha : (a = r ∨ a ∈ children.kept s) ∨ a ∈ siblings.kept s := by simpa [hsr] using ha
      rw [if_pos rfl]
      rcases he with ⟨c, hc, he⟩ | he | he
      · obtain ⟨rfl, rfl⟩ := Prod.mk.inj he
        exact Or.inl (List.mem_cons_of_mem _ (mem_kept_of_root hc hs))
      · have hac := (mem_of_mem_edges he).1
        rcases ha with (rfl | ha) | ha
        · exact absurd hac hr.1
        · exact Or.inl (List.mem_cons_of_mem _ (ihc hdc ha he))
        · exact absurd rfl (hdisj a hac a (hks ha))
      · have has := (mem_of_mem_edges he).1
        rcases ha with (rfl | ha) | ha
        · exact absurd has hr.2
        · exact absurd rfl (hdisj a (hkc ha) a has)
        · exact Or.inr (ihs hds ha he)

/-- A larger forest has the paths of a part of it. -/
theorem Led.mono (hr : ∀ x ∈ f.roots, s x = true → Led s g x)
    (he : ∀ p ∈ f.edges, p ∈ g.edges) (h : Led s f a) : Led s g a := by
  induction h with
  | root h hs => exact hr _ h hs
  | child _ h hs ih => exact ih.child (he _ h) hs

theorem led_of_mem_kept (h : a ∈ f.kept s) : Led s f a := by
  induction f with
  | nil => cases h
  | cons r children siblings ihc ihs =>
    rw [kept, List.mem_append] at h
    rcases h with h | h
    · split at h
      · rename_i hs
        have hroot : Led s (cons r children siblings) r := .root (by simp [roots]) hs
        rcases List.mem_cons.mp h with rfl | h
        · exact hroot
        · refine (ihc h).mono (fun x hx hsx => hroot.child ?_ hsx) fun p hp => ?_
          · simp [edges, hx]
          · simp [edges, hp]
      · cases h
    · refine (ihs h).mono (fun x hx hsx => .root ?_ hsx) fun p hp => ?_
      · simp [roots, hx]
      · simp [edges, hp]

theorem mem_kept_iff (hd : f.preorder.Nodup) : a ∈ f.kept s ↔ Led s f a := by
  constructor
  · exact led_of_mem_kept
  · intro h
    induction h with
    | root h hs => exact mem_kept_of_root h hs
    | child _ he hs ih => exact mem_kept_of_edge hd ih he hs

theorem length_kept_eq_ncard (hd : f.preorder.Nodup) :
    (f.kept s).length = Set.ncard {x | Led s f x} := by
  classical
  have hset : {x | Led s f x} = ((f.kept s).toFinset : Set α) := by
    ext x
    simp [mem_kept_iff hd]
  rw [hset, Set.ncard_coe_finset, List.toFinset_card_of_nodup (hd.sublist (kept_sublist f))]

end Kept

end Forest
