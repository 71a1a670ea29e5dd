import HyperKitty.Continuity.Environment
import HyperKitty.Graph.Adjacency
import HyperKitty.Lib.Overwrite

namespace HyperKitty.Continuity.EnvironmentBitmask

open Overwrite

theorem getLsbD_one_shift {i : Nat} (h : i < 64) (k : Nat) :
    (1#64 <<< i).getLsbD k = decide (k = i) := by
  rw [BitVec.getLsbD_shiftLeft, BitVec.getLsbD_one]
  grind

theorem toNat_lt {position : UInt8} (h : position < 64) : position.toNat < 64 :=
  UInt8.lt_iff_toNat_lt.mp h

theorem getBit_eq {position : UInt8} (h : position < 64) (self : EnvironmentBitmask) :
    self.getBit position = self.mask.getLsbD position.toNat := by
  have hlt := toNat_lt h
  rw [getBit, if_pos h, Bool.eq_iff_iff, bne_iff_ne, ne_eq]
  constructor
  · intro hne
    by_contra hb
    apply hne
    apply BitVec.eq_of_getLsbD_eq
    intro k _
    rw [BitVec.getLsbD_and, getLsbD_one_shift hlt]
    grind
  · intro hb he
    have hk := congrArg (BitVec.getLsbD · position.toNat) he
    simp [getLsbD_one_shift hlt, hb] at hk

theorem getLsbD_setBit {position : UInt8} (h : position < 64) (self : EnvironmentBitmask)
    (value : Bool) (k : Nat) (hk : k < 64) : (self.setBit position value).mask.getLsbD k =
      if k = position.toNat then value else self.mask.getLsbD k := by
  have hlt := toNat_lt h
  cases value with
  | true =>
    rw [setBit, if_pos h, if_pos rfl, BitVec.getLsbD_or, getLsbD_one_shift hlt]
    split <;> simp [*]
  | false =>
    rw [setBit, if_pos h, if_neg Bool.false_ne_true, BitVec.getLsbD_and, BitVec.getLsbD_not,
      getLsbD_one_shift hlt]
    split <;> simp [*]

theorem lawful : Lawful (fun _ => True) getBit setBit fun position => position < 64 where
  keeps := fun _ _ _ _ => trivial
  hit := fun self position value _ h => by
    rw [getBit_eq h, getLsbD_setBit h _ _ _ (toNat_lt h), if_pos rfl]
  other := fun self position value position' _ hne => by
    by_cases h' : position' < 64
    · by_cases h : position < 64
      · have hne' : position'.toNat ≠ position.toNat := fun he => hne (UInt8.toNat_inj.mp he)
        rw [getBit_eq h', getBit_eq h', getLsbD_setBit h _ _ _ (toNat_lt h'), if_neg hne']
      · rw [setBit, if_neg h]
    · rw [getBit, getBit, if_neg h', if_neg h']
  lost := fun self position value _ h => by rw [setBit, if_neg h]

/-- A bit is as it was last set, and was never set before that. The positions from 64 on are
never set. -/
theorem getBit_putAll (writes : List (UInt8 × Bool)) (position : UInt8) :
    (putAll setBit new writes).getBit position =
      (decide (position < 64) && (lastWrite position writes).getD false) := by
  by_cases h : position < 64
  · have hnew : new.getBit position = false := by
      rw [getBit_eq h, new]
      exact BitVec.getLsbD_zero
    rw [lawful.get_putAll trivial h, hnew, decide_eq_true h, Bool.true_and]
  · rw [lawful.get_putAll_lost trivial h, getBit, if_neg h, decide_eq_false h, Bool.false_and]

end HyperKitty.Continuity.EnvironmentBitmask

namespace HyperKitty.Graph

open Exec Overwrite

variable {K : Type} [Field K] {adj : AdjacencyMatrix K} {i j : Nat}

namespace AdjacencyMatrix

/-- The weight of an edge between nodes; between others it is zero. -/
def weight (adj : AdjacencyMatrix K) (e : Nat × Nat) : K :=
  (adj.matrix[e.1]?.bind fun row => row[e.2]?).getD 0

/-- One call of `set_edge`. -/
def write (adj : AdjacencyMatrix K) (e : Nat × Nat) (w : K) : AdjacencyMatrix K :=
  adj.setEdge e.1 e.2 w

abbrev Inside (size : Nat) (e : Nat × Nat) : Prop := e.1 < size ∧ e.2 < size

omit [Field K] in
theorem exists_row (adj : AdjacencyMatrix K) (h : i < adj.size) :
    ∃ row, adj.matrix[i]? = some row ∧ row.length = adj.size := by
  rw [← adj.rows] at h
  exact ⟨_, List.getElem?_eq_getElem h, adj.columns _ (List.getElem_mem h)⟩

theorem entry_eq (h : Inside adj.size (i, j)) :
    entry adj.matrix i j = .ok (adj.weight (i, j)) := by
  obtain ⟨row, hrow, hlen⟩ := adj.exists_row h.1
  have hj : j < row.length := hlen.symm ▸ h.2
  simp [entry, weight, hrow, List.getElem?_eq_getElem hj]

theorem getEdge_eq (adj : AdjacencyMatrix K) (i j : Nat) :
    adj.getEdge i j = .ok (if Inside adj.size (i, j) then adj.weight (i, j) else 0) := by
  unfold getEdge
  split
  · rename_i h
    exact entry_eq h
  · rfl

omit [Field K] in
@[simp] theorem size_write (adj : AdjacencyMatrix K) (e : Nat × Nat) (w : K) :
    (adj.write e w).size = adj.size := by
  unfold write setEdge
  split <;> rfl

theorem weight_write (adj : AdjacencyMatrix K) (e : Nat × Nat) (w : K) (e' : Nat × Nat) :
    (adj.write e w).weight e' =
      if e' = e ∧ Inside adj.size e then w else adj.weight e' := by
  by_cases he : Inside adj.size e
  · obtain ⟨row, hrow, hlen⟩ := adj.exists_row he.1
    have hj : e.2 < row.length := hlen.symm ▸ he.2
    rw [write, setEdge, if_pos he, weight, weight, List.getElem?_modify]
    by_cases hsource : e.1 = e'.1
    · rw [← hsource, hrow]
      by_cases htarget : e.2 = e'.2
      · have heq : e' = e := Prod.ext hsource.symm htarget.symm
        simp [heq, he, hj]
      · have hne : e' ≠ e := fun h => htarget (by rw [h])
        simp [hne, List.getElem?_set_ne htarget]
    · have hne : e' ≠ e := fun h => hsource (by rw [h])
      simp [hne, hsource]
  · rw [write, setEdge, if_neg he, if_neg fun h => he h.2]

theorem lawful (size : Nat) :
    Lawful (fun adj => adj.size = size) weight (write (K := K)) (Inside size) where
  keeps := fun adj e w h => (size_write adj e w).trans h
  hit := fun adj e w h he => by rw [weight_write, if_pos ⟨rfl, h ▸ he⟩]
  other := fun adj e w e' _ hne => by rw [weight_write, if_neg fun h => hne h.1]
  lost := fun adj e w h he => by rw [weight_write, if_neg fun h' => he (h ▸ h'.2)]

theorem weight_new (size : Nat) (e : Nat × Nat) : (new size : AdjacencyMatrix K).weight e = 0 := by
  unfold weight new
  simp only [List.getElem?_replicate]
  split
  · rw [Option.bind_some, List.getElem?_replicate]
    split <;> rfl
  · rfl

/-- The graph that the calls of `set_edge` leave of one without edges. -/
def build (size : Nat) (writes : List ((Nat × Nat) × K)) : AdjacencyMatrix K :=
  putAll write (new size) writes

/-- The weight that an edge was given last. -/
def lastWeight (writes : List ((Nat × Nat) × K)) (i j : Nat) : K := (lastWrite (i, j) writes).getD 0

variable {size : Nat} {writes : List ((Nat × Nat) × K)}

theorem size_build : (build size writes).size = size := (lawful size).putAll_keeps rfl writes

theorem weight_build (h : Inside size (i, j)) :
    (build size writes).weight (i, j) = lastWeight writes i j := by
  rw [build, (lawful size).get_putAll rfl h, weight_new]
  rfl

/-- The rows are the weights given last. -/
theorem matrix_build : (build size writes).matrix =
    (List.range size).map fun i => (List.range size).map (lastWeight writes i) := by
  have hsize : (build size writes).size = size := size_build
  apply List.ext_getElem
  · rw [(build size writes).rows, hsize, List.length_map, List.length_range]
  · intro i hi hi'
    have hrow := (build size writes).columns _ (List.getElem_mem hi)
    have hlt : i < size := by rwa [(build size writes).rows, hsize] at hi
    rw [hsize] at hrow
    rw [List.getElem_map, List.getElem_range]
    apply List.ext_getElem
    · rw [hrow, List.length_map, List.length_range]
    · intro j hj hj'
      have hinside : Inside size (i, j) := ⟨hlt, hrow ▸ hj⟩
      rw [List.getElem_map, List.getElem_range, ← weight_build hinside, weight]
      simp [List.getElem?_eq_getElem hi, List.getElem?_eq_getElem hj]

theorem mapM_entry_build {node : Nat} (hnode : node < size) :
    (List.range size).mapM (fun i => entry (build size writes).matrix i node) =
      .ok ((List.range size).map fun i => lastWeight writes i node) := by
  apply mapM_ok
  intro i hi
  have hinside : Inside size (i, node) := ⟨List.mem_range.mp hi, hnode⟩
  rw [← weight_build hinside]
  apply entry_eq
  rwa [size_build]

end AdjacencyMatrix

open AdjacencyMatrix

variable [LinearOrder K]

theorem reachable_map {size j : Nat} (rows : List (Nat → K)) (hj : j < size) :
    reachable j (rows.map fun row => (List.range size).map row) =
      .ok (rows.any fun row => decide (threshold < row j)) := by
  induction rows with
  | nil => rfl
  | cons row rows ih =>
    rw [List.map_cons, reachable, List.getElem?_map, List.getElem?_range hj, Option.map_some,
      List.any_cons]
    dsimp only
    split
    · rename_i h
      rw [decide_eq_true h, Bool.true_or]
      rfl
    · rename_i h
      rw [decide_eq_false h, Bool.false_or, ih]

/-- A column of the rows is searched to its end unless it has an entry above the threshold. -/
theorem reachable_rows {size j : Nat} (row : Nat → Nat → K) (hj : j < size) :
    reachable j ((List.range size).map fun i => (List.range size).map (row i)) =
      .ok (!decide (∀ i < size, row i j ≤ threshold)) := by
  have hreach := reachable_map ((List.range size).map row) hj
  rw [List.map_map] at hreach
  refine hreach.trans (congrArg _ ?_)
  rw [Bool.eq_iff_iff]
  simp

/-- The loops that collect the nodes with a property. -/
theorem foldl_collect {α β : Type} (f : α → β) (q : α → Prop) [DecidablePred q] (xs : List α)
    (found : List β) : xs.foldl (fun found x => if q x then found ++ [f x] else found) found =
      found ++ (xs.filter fun x => decide (q x)).map f := by
  induction xs generalizing found with
  | nil => simp
  | cons x xs ih =>
    rw [List.foldl_cons, ih, List.filter_cons]
    by_cases hx : q x
    · simp [hx]
    · simp [hx]

/-- After any calls of `set_edge` every question about the graph is answered from the weights
that were given last: to edges of its nodes, since others are not kept. -/
theorem build_reports (size : Nat) (writes : List ((Nat × Nat) × K)) :
    (∀ i j, (build size writes).getEdge i j =
      .ok (if Inside size (i, j) then lastWeight writes i j else 0)) ∧
    (∀ i, (build size writes).computeOutDegree i =
      .ok (if i < size then ∑ j ∈ Finset.range size, lastWeight writes i j else 0)) ∧
    (∀ j, (build size writes).computeInDegree j =
      .ok (if j < size then ∑ i ∈ Finset.range size, lastWeight writes i j else 0)) ∧
    (isStronglyConnected (build size writes) = true ↔
      ∃ i < size, ∃ j < size, 0 < lastWeight writes i j) ∧
    findDeadPaths (build size writes).matrix = (List.range size).filter (fun i =>
      decide (∑ j ∈ Finset.range size, lastWeight writes i j < threshold)) ∧
    findUnreachableNodes (build size writes).matrix = .ok ((List.range size).filter fun j =>
      decide (∀ i < size, lastWeight writes i j ≤ threshold)) := by
  have hsize : (build size writes).size = size := size_build
  refine ⟨?_, ?_, ?_, ?_, ?_, ?_⟩
  · intro i j
    rw [getEdge_eq, hsize]
    split
    · rename_i h
      rw [weight_build h]
    · rfl
  · intro i
    unfold computeOutDegree
    rw [hsize, matrix_build]
    by_cases hi : i < size
    · rw [if_neg (Nat.not_le.mpr hi), if_pos hi, List.getElem?_map, List.getElem?_range hi]
      rfl
    · rw [if_pos (Nat.not_lt.mp hi), if_neg hi]
      rfl
  · intro j
    unfold computeInDegree
    rw [hsize]
    by_cases hj : j < size
    · rw [if_neg (Nat.not_le.mpr hj), if_pos hj, (build size writes).rows, hsize,
        mapM_entry_build hj]
      rfl
    · rw [if_pos (Nat.not_lt.mp hj), if_neg hj]
      rfl
  · rw [isStronglyConnected, matrix_build]
    simp
  · have hrows : ((List.range size).map fun i => (List.range size).map (lastWeight writes i)).zipIdx =
        (List.range size).map fun i => ((List.range size).map (lastWeight writes i), i) :=
      List.ext_getElem (by simp) (by simp)
    rw [findDeadPaths, matrix_build, foldl_collect, hrows, List.filter_map, List.map_map,
      List.nil_append]
    exact List.map_id _
  · have hpass : ∀ j ∈ List.range size, ∀ found : List Nat, (do
        if ← reachable j ((List.range size).map fun i =>
          (List.range size).map (lastWeight writes i)) then pure found
        else pure (found ++ [j]) : Exec Unit (List Nat)) =
          .ok (if ∀ i < size, lastWeight writes i j ≤ threshold then found ++ [j] else found) := by
      intro j hj found
      rw [reachable_rows _ (List.mem_range.mp hj), ok_bind]
      by_cases h : ∀ i < size, lastWeight writes i j ≤ threshold
      · rw [decide_eq_true h, if_pos h]
        rfl
      · rw [decide_eq_false h, if_neg h]
        rfl
    rw [findUnreachableNodes, matrix_build, List.length_map, List.length_range, foldlM_ok hpass,
      foldl_collect, List.nil_append, List.map_id']

end HyperKitty.Graph
