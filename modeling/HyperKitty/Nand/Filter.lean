import HyperKitty.Lib.Keyed
import HyperKitty.Lib.Knockout
import HyperKitty.Nand.Conflicts

namespace HyperKitty.Nand

open ConflictRegistry

/-- An expert activation with its routing weight. The filter only compares weights, so they
may come from any linear order. -/
structure ExpertActivation (K : Type*) where
  id : ExpertId
  weight : K
deriving DecidableEq, Repr

variable {K : Type*} [LinearOrder K] [Zero K]

/-- Routing weight must be above zero to be considered active. -/
def ExpertActivation.Active (a : ExpertActivation K) : Prop := 0 < a.weight

instance instDecidableActive : DecidablePred (ExpertActivation.Active (K := K)) := fun a =>
  inferInstanceAs (Decidable (0 < a.weight))

/-- The weight of the first activation with this id. -/
def weightOf (active : List (ExpertActivation K)) (id : ExpertId) : K :=
  ((active.find? (·.id == id)).map (·.weight)).getD 0

/-- Suppress the argmin; of equal weights the one of the lower id. -/
def argmin (weight : ExpertId → K) (p : ExpertId × ExpertId) : ExpertId :=
  if weight p.1 < weight p.2 then p.1 else if weight p.2 < weight p.1 then p.2 else p.1

/-- Resolve one conflict: skip if either is already suppressed. -/
def resolve (active : List (ExpertActivation K)) (suppressed : Finset ExpertId)
    (p : ExpertId × ExpertId) : Finset ExpertId :=
  if p.1 ∈ suppressed ∨ p.2 ∈ suppressed then suppressed
  else insert (argmin (weightOf active) p) suppressed

/-- Only active experts, sorted by id for deterministic processing. -/
def activeById (activations : List (ExpertActivation K)) : List (ExpertActivation K) :=
  (activations.filter (·.Active)).insertionSort (·.id ≤ ·.id)

/-- Who is suppressed once each conflict is resolved in turn. -/
def suppressed (r : ConflictRegistry) (activations : List (ExpertActivation K)) :
    Finset ExpertId :=
  let active := activeById activations
  (r.findConflicts (active.map (·.id))).foldl (resolve active) ∅

/-- Non-suppressed activations in original order. -/
def filter (r : ConflictRegistry) (activations : List (ExpertActivation K)) :
    List (ExpertActivation K) :=
  if activations.isEmpty then []
  else
    (activations.filter fun a => a.Active ∧ a.id ∉ suppressed r activations).map fun a =>
      ⟨a.id, a.weight⟩

variable {r : ConflictRegistry} {activations : List (ExpertActivation K)}

/-- Suppression is a knockout among the experts, by weight and then by id. -/
def byWeight (weight : ExpertId → K) : Knockout ExpertId where
  loser := argmin weight
  one_of_two := by
    intro p
    unfold argmin
    grind

omit [Zero K] in
theorem byWeight_congr {w w' : ExpertId → K} {p : ExpertId × ExpertId}
    (h1 : w p.1 = w' p.1) (h2 : w p.2 = w' p.2) :
    (byWeight w).loser p = (byWeight w').loser p := by
  change argmin w p = argmin w' p
  unfold argmin
  rw [h1, h2]

/-- The ids of the active experts. -/
def activeIds (activations : List (ExpertActivation K)) : List ExpertId :=
  (activations.filter (·.Active)).map (·.id)

theorem mem_activeIds {id : ExpertId} :
    id ∈ activeIds activations ↔ ∃ a ∈ activations, a.Active ∧ a.id = id := by
  simp [activeIds, and_assoc]

/-- The weight with which an id competes: that of its first active activation. -/
def firstWeight (activations : List (ExpertActivation K)) : ExpertId → K :=
  weightOf (activations.filter (·.Active))

theorem weightOf_activeById (activations : List (ExpertActivation K)) :
    weightOf (activeById activations) = firstWeight activations := by
  funext id
  unfold firstWeight weightOf activeById
  rw [Keyed.find_insertionSort]
  intro a b ha hb
  exact ((eq_of_beq ha).trans (eq_of_beq hb).symm).le

/-- The conflicts between the active ids, in the order in which they are resolved. -/
def conflictsAmong (r : ConflictRegistry) (activations : List (ExpertActivation K)) :
    List (ExpertId × ExpertId) := r.findConflicts (activeIds activations)

/-- The ids that are out once the conflicts are resolved with the given weights. -/
def knockedOut (r : ConflictRegistry) (activations : List (ExpertActivation K))
    (weight : ExpertId → K) : Finset ExpertId :=
  (byWeight weight).run ∅ (conflictsAmong r activations)

theorem resolve_eq_bout (active : List (ExpertActivation K)) :
    resolve active = (byWeight (weightOf active)).bout := rfl

theorem suppressed_eq_knockedOut (r : ConflictRegistry) (activations : List (ExpertActivation K)) :
    suppressed r activations = knockedOut r activations (firstWeight activations) := by
  have hids : r.findConflicts ((activeById activations).map (·.id)) =
      conflictsAmong r activations := by
    apply r.findConflicts_congr
    intro id
    exact ((List.perm_insertionSort _ _).map _).mem_iff
  rw [knockedOut, ← hids, ← weightOf_activeById]
  dsimp only [suppressed]
  rw [resolve_eq_bout]
  rfl

theorem filter_eq (r : ConflictRegistry) (activations : List (ExpertActivation K)) :
    filter r activations =
      activations.filter fun a => a.Active ∧ a.id ∉ suppressed r activations := by
  unfold filter
  split
  · rename_i h
    rw [List.isEmpty_iff.mp h]
    rfl
  · exact List.map_id' _

theorem mem_filter {a : ExpertActivation K} :
    a ∈ filter r activations ↔
      a ∈ activations ∧ a.Active ∧ a.id ∉ suppressed r activations := by
  rw [filter_eq, List.mem_filter, decide_eq_true_iff]

end HyperKitty.Nand
