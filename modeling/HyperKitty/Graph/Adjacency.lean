import HyperKitty.Lib.Exec

namespace HyperKitty.Graph

open Exec

/-- A row for every node, with an entry for every node. -/
structure AdjacencyMatrix (K : Type) where
  size : Nat
  matrix : List (List K)
  rows : matrix.length = size
  columns : ∀ row ∈ matrix, row.length = size

variable {K : Type} [Field K]

namespace AdjacencyMatrix

def new (size : Nat) : AdjacencyMatrix K where
  size := size
  matrix := List.replicate size (List.replicate size 0)
  rows := List.length_replicate
  columns := fun row hrow => by rw [List.eq_of_mem_replicate hrow, List.length_replicate]

omit [Field K] in
/-- Setting one entry leaves the rows as long as they are. -/
theorem columns_modify {matrix : List (List K)} {size : Nat}
    (h : ∀ row ∈ matrix, row.length = size) (source target : Nat) (weight : K) :
    ∀ row ∈ matrix.modify source (·.set target weight), row.length = size := by
  intro row hrow
  obtain ⟨i, hi⟩ := List.mem_iff_getElem?.mp hrow
  rw [List.getElem?_modify] at hi
  obtain ⟨old, hold, rfl⟩ := Option.map_eq_some_iff.mp hi
  have hlen := h old (List.mem_of_getElem? hold)
  by_cases hs : source = i
  · rw [if_pos hs, List.length_set, hlen]
  · rw [if_neg hs, hlen]

def setEdge (self : AdjacencyMatrix K) (source target : Nat) (weight : K) : AdjacencyMatrix K :=
  if source < self.size ∧ target < self.size then
    { self with
      matrix := self.matrix.modify source (·.set target weight)
      rows := (List.length_modify _ _ _).trans self.rows
      columns := columns_modify self.columns source target weight }
  else self

/-- The entry of a matrix, where there is none a panic. -/
def entry (matrix : List (List K)) (i j : Nat) : Exec Unit K :=
  match matrix[i]? with
  | some row =>
    match row[j]? with
    | some x => pure x
    | none => .error .panic
  | none => .error .panic

def getEdge (self : AdjacencyMatrix K) (source target : Nat) : Exec Unit K :=
  if source < self.size ∧ target < self.size then entry self.matrix source target else pure 0

def computeOutDegree (self : AdjacencyMatrix K) (node : Nat) : Exec Unit K :=
  if node ≥ self.size then pure 0
  else
    match self.matrix[node]? with
    | some row => pure row.sum
    | none => .error .panic

def computeInDegree (self : AdjacencyMatrix K) (node : Nat) : Exec Unit K :=
  if node ≥ self.size then pure 0
  else do
    let column ← (List.range self.matrix.length).mapM fun i => entry self.matrix i node
    pure column.sum

end AdjacencyMatrix

open AdjacencyMatrix

variable [LinearOrder K]

/-- What the source calls strongly connected has an edge. -/
def isStronglyConnected (adj : AdjacencyMatrix K) : Bool :=
  adj.matrix.any fun row => row.any fun w => 0 < w

def threshold : K := 1e-10

def findDeadPaths (matrix : List (List K)) : List Nat :=
  matrix.zipIdx.foldl (fun dead r => if r.1.sum < threshold then dead ++ [r.2] else dead) []

/-- Whether the loop over the rows finds an entry of column `i` above the threshold. -/
def reachable (i : Nat) : List (List K) → Exec Unit Bool
  | [] => pure false
  | row :: rows =>
    match row[i]? with
    | some x => if threshold < x then pure true else reachable i rows
    | none => .error .panic

def findUnreachableNodes (matrix : List (List K)) : Exec Unit (List Nat) :=
  (List.range matrix.length).foldlM (fun unreachable i => do
    if ← reachable i matrix then pure unreachable else pure (unreachable ++ [i])) []

end HyperKitty.Graph
