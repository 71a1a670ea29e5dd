import HyperKitty.Validation.Graph

namespace HyperKitty.Validation

variable {nodes : List AstNode} {edges : List (Nat × Nat)}

def Structural (nodes : List AstNode) (i : Nat) : Prop :=
  ∃ n, nodes[i]? = some n ∧ n.nodeType.isStructural = true

def Payload (nodes : List AstNode) (i : Nat) : Prop :=
  ∃ n, nodes[i]? = some n ∧ n.nodeType.isPayload = true

theorem payload_iff {i : Nat} : Payload nodes i ↔ i < nodes.length ∧ ¬ Structural nodes i := by
  unfold Payload Structural NodeType.isPayload
  by_cases h : i < nodes.length
  · rw [List.getElem?_eq_getElem h]
    simp [h]
  · simp [h]

/-- An index of the edge is out of range, or it goes from payload to structure. -/
def Bad (nodes : List AstNode) (e : Nat × Nat) : Prop :=
  nodes.length ≤ e.1 ∨ nodes.length ≤ e.2 ∨ (Payload nodes e.1 ∧ Structural nodes e.2)

theorem validate_cons (nodes : List AstNode) (edges : List (Nat × Nat)) (e : Nat × Nat) :
    (Bad nodes e ∧ ∃ err, validate nodes (e :: edges) = .error err) ∨
      (¬ Bad nodes e ∧ validate nodes (e :: edges) = validate nodes edges) := by
  obtain ⟨i, j⟩ := e
  by_cases hi : i < nodes.length
  · by_cases hj : j < nodes.length
    · have gi := List.getElem?_eq_getElem hi
      have gj := List.getElem?_eq_getElem hj
      have hd : hasDangerousPattern nodes[i] nodes[j] = true ↔ Bad nodes (i, j) := by
        simp [Bad, Payload, Structural, hasDangerousPattern, hi, hj, not_le.mpr hi, not_le.mpr hj]
      rw [validate, gi, gj]
      by_cases hb : Bad nodes (i, j)
      · left
        refine ⟨hb, _, if_pos (hd.mpr hb)⟩
      · right
        exact ⟨hb, if_neg (fun h => hb (hd.mp h))⟩
    · left
      refine ⟨.inr (.inl (not_lt.mp hj)), .invalidAST "Edge index out of bounds", ?_⟩
      rw [validate, List.getElem?_eq_none (not_lt.mp hj)]
      split
      · contradiction
      · rfl
  · left
    refine ⟨.inl (not_lt.mp hi), .invalidAST "Edge index out of bounds", ?_⟩
    rw [validate, List.getElem?_eq_none (not_lt.mp hi)]

/-- Validation passes exactly where no edge is bad. -/
theorem validate_ok_iff : validate nodes edges = .ok () ↔ ∀ e ∈ edges, ¬ Bad nodes e := by
  induction edges with
  | nil => simp [validate]
  | cons e edges ih =>
    rw [List.forall_mem_cons]
    rcases validate_cons nodes edges e with ⟨hb, err, he⟩ | ⟨hb, he⟩
    · rw [he]
      simp [hb]
    · rw [he, ih]
      simp [hb]

theorem validate_error_iff :
    (∃ err, validate nodes edges = .error err) ↔ ∃ e ∈ edges, Bad nodes e := by
  have hok : validate nodes edges = .ok () ↔ _ := validate_ok_iff
  cases h : validate nodes edges with
  | ok u =>
    have hn := hok.mp h
    simp only [reduceCtorEq, exists_false, false_iff]
    intro ⟨e, he, hb⟩
    exact hn e he hb
  | error err =>
    simp only [Except.error.injEq, exists_eq', true_iff]
    by_contra hno
    have hv := hok.mpr fun e he hb => hno ⟨e, he, hb⟩
    rw [h] at hv
    cases hv

/-- Where no edge is bad, every edge out of a payload node leads to a payload node. -/
theorem payload_step {i j : Nat} (hv : ∀ e ∈ edges, ¬ Bad nodes e) (he : (i, j) ∈ edges)
    (hp : Payload nodes i) : Payload nodes j := by
  have hb := hv (i, j) he
  unfold Bad at hb
  push Not at hb
  exact payload_iff.mpr ⟨hb.2.1, hb.2.2 hp⟩

theorem payload_of_reachable {i j : Nat} (hv : ∀ e ∈ edges, ¬ Bad nodes e)
    (hp : Payload nodes i) (h : Relation.ReflTransGen (fun i j => (i, j) ∈ edges) i j) :
    Payload nodes j := by
  induction h with
  | refl => exact hp
  | tail _ he ih => exact payload_step hv he ih

/-- The nodes that an edge joins. -/
def Joins (nodes : List AstNode) (e : Nat × Nat) (src dst : AstNode) : Prop :=
  nodes[e.1]? = some src ∧ nodes[e.2]? = some dst

/-- A validated graph gives payload no authority and mutes the edges that lead to data. -/
structure KeepsApart (nodes : List AstNode) (edges : List (Nat × Nat)) : Prop where
  contained : validate nodes edges = .ok () → ∀ i j, Payload nodes i →
    Relation.ReflTransGen (fun i j => (i, j) ∈ edges) i j → ¬ Structural nodes j
  powerless : validate nodes edges = .ok () → ∀ e ∈ edges, ∀ src dst, Joins nodes e src dst →
    src.nodeType.isPayload = true → edgeWeight src dst = 0
  muted : validate nodes edges = .ok () → ∀ e ∈ edges, ∀ src dst, Joins nodes e src dst →
    src.nodeType.isStructural = true → dst.nodeType.isPayload = true →
    edgeWeight src dst = 1/10 ∧
    ∀ e' ∈ edges, ∀ src' dst', Joins nodes e' src' dst' → src'.nodeType.isStructural = true →
      dst'.nodeType.isStructural = true → edgeWeight src dst < edgeWeight src' dst'
  rejects : (∃ err, validate nodes edges = .error err) ↔ ∃ e ∈ edges, Bad nodes e

theorem edgeWeight_of_payload {src dst : AstNode} (h : src.nodeType.isPayload = true) :
    edgeWeight src dst = 0 := by
  unfold edgeWeight
  rw [h]
  cases dst.nodeType.isStructural <;> rfl

/-- The two arms for structural sources are the wrong way round. -/
theorem edgeWeight_of_structural {src dst : AstNode} (h : src.nodeType.isStructural = true) :
    edgeWeight src dst = if dst.nodeType.isPayload then 1/2 else 1/10 := by
  unfold edgeWeight NodeType.isPayload
  rw [h]
  cases dst.nodeType.isStructural <;> rfl

/-- An edge from a structural to a payload node. -/
def FeedsData (nodes : List AstNode) (e : Nat × Nat) : Prop :=
  Structural nodes e.1 ∧ Payload nodes e.2

/-- The weights keep data muted exactly where nothing is joined to data, or nothing validated. -/
theorem keepsApart_iff (nodes : List AstNode) (edges : List (Nat × Nat)) :
    KeepsApart nodes edges ↔ (∃ e ∈ edges, Bad nodes e) ∨ ∀ e ∈ edges, ¬ FeedsData nodes e := by
  constructor
  · intro h
    by_contra hno
    push Not at hno
    obtain ⟨hgood, e, he, ⟨src, hs, hstr⟩, dst, hd, hpay⟩ := hno
    have hw := (h.muted (validate_ok_iff.mpr hgood) e he src dst ⟨hs, hd⟩ hstr hpay).1
    rw [edgeWeight_of_structural hstr, if_pos hpay] at hw
    norm_num at hw
  · intro h
    have hno : validate nodes edges = .ok () → ∀ e ∈ edges, ¬ FeedsData nodes e := by
      intro hv
      refine h.resolve_left ?_
      intro ⟨e, he, hb⟩
      exact validate_ok_iff.mp hv e he hb
    refine ⟨?_, ?_, ?_, validate_error_iff⟩
    · intro hv i j hp hr
      exact (payload_iff.mp (payload_of_reachable (validate_ok_iff.mp hv) hp hr)).2
    · intro _ e _ src dst _ hp
      exact edgeWeight_of_payload hp
    · intro hv e he src dst hj hs hp
      exact absurd ⟨⟨src, hj.1, hs⟩, dst, hj.2, hp⟩ (hno hv e he)

/-- A route that is joined to a word has the routing weight, not the muted one. -/
theorem intent_to_word_not_muted :
    ¬ KeepsApart [.new .intent "route", .new .word "hello"] [(0, 1)] := by
  intro h
  have hv : validate [.new .intent "route", .new .word "hello"] [(0, 1)] = .ok () := rfl
  have hw := (h.muted hv (0, 1) (by simp) _ _ ⟨rfl, rfl⟩ rfl rfl).1
  revert hw
  decide +kernel

end HyperKitty.Validation
