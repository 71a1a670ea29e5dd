import Mathlib

namespace HyperKitty.Nand

/-- Expert identifier: a 64-bit tag. -/
structure ExpertId where
  id : UInt64
deriving DecidableEq, Repr

namespace ExpertId

theorem toNat_injective : Function.Injective fun a : ExpertId => a.id.toNat := by
  intro a b h
  exact congrArg mk (UInt64.toNat_inj.mp h)

instance instLinearOrder : LinearOrder ExpertId :=
  LinearOrder.lift' (fun a : ExpertId => a.id.toNat) toNat_injective

end ExpertId

/-- Pairs are compared by their first expert, then by their second. -/
def pairLt (p q : ExpertId × ExpertId) : Prop := p.1 < q.1 ∨ p.1 = q.1 ∧ p.2 < q.2

def pairLe (p q : ExpertId × ExpertId) : Prop := p.1 < q.1 ∨ p.1 = q.1 ∧ p.2 ≤ q.2

instance instDecidablePairLe : DecidableRel pairLe := fun p q =>
  inferInstanceAs (Decidable (p.1 < q.1 ∨ p.1 = q.1 ∧ p.2 ≤ q.2))

instance instTotalPairLe : Std.Total pairLe := ⟨by
  intro p q
  unfold pairLe
  grind⟩

instance instTransPairLe : IsTrans _ pairLe := ⟨by
  intro p q r
  unfold pairLe
  grind⟩

instance instAntisymmPairLe : Std.Antisymm pairLe := ⟨by
  intro p q
  unfold pairLe
  grind⟩

instance instAntisymmPairLt : Std.Antisymm pairLt := ⟨by
  intro p q
  unfold pairLt
  grind⟩

instance instIrreflPairLt : Std.Irrefl pairLt := ⟨by
  intro p
  unfold pairLt
  grind⟩

theorem pairLt_of_le_of_ne {p q : ExpertId × ExpertId} (h : pairLe p q) (hn : p ≠ q) :
    pairLt p q := by
  rcases h with h | ⟨h1, h2⟩
  · exact .inl h
  · exact .inr ⟨h1, lt_of_le_of_ne h2 fun he => hn (Prod.ext h1 he)⟩

/-- Registry of pairwise conflicts, stored as canonical pairs. -/
@[ext] structure ConflictRegistry where
  conflicts : Finset (ExpertId × ExpertId)
  ordered : ∀ p ∈ conflicts, p.1 < p.2
deriving DecidableEq

namespace ConflictRegistry

/-- Create an empty conflict registry. -/
def new : ConflictRegistry := ⟨∅, by simp⟩

/-- Canonicalize a pair so (min, max) is always stored. -/
def canonical (a b : ExpertId) : ExpertId × ExpertId := if a ≤ b then (a, b) else (b, a)

theorem canonical_of_lt {a b : ExpertId} (h : a < b) : canonical a b = (a, b) :=
  if_pos h.le

theorem canonical_comm (a b : ExpertId) : canonical a b = canonical b a := by
  unfold canonical
  grind

theorem canonical_lt {a b : ExpertId} (h : a ≠ b) :
    (canonical a b).1 < (canonical a b).2 := by
  unfold canonical
  split
  · exact lt_of_le_of_ne ‹_› h
  · exact not_le.mp ‹_›

/-- Declaring a conflict with oneself is a no-op. -/
def registerConflict (r : ConflictRegistry) (a b : ExpertId) : ConflictRegistry :=
  if h : a = b then r
  else
    { conflicts := insert (canonical a b) r.conflicts
      ordered := by
        intro p hp
        rcases Finset.mem_insert.mp hp with rfl | hp
        · exact canonical_lt h
        · exact r.ordered p hp }

/-- Check whether two experts are in conflict. -/
def areConflicting (r : ConflictRegistry) (a b : ExpertId) : Bool :=
  if a = b then false else decide (canonical a b ∈ r.conflicts)

/-- The conflicting pairs of `experts[i]` and `experts[j]` for `i < j`, as they are pushed. -/
def conflictingPairs (r : ConflictRegistry) : List ExpertId → List (ExpertId × ExpertId)
  | [] => []
  | a :: experts =>
    ((experts.filter (r.areConflicting a)).map (canonical a)) ++ r.conflictingPairs experts

/-- Find all conflicting pairs within a set of experts, sorted and without repetition. -/
def findConflicts (r : ConflictRegistry) (experts : List ExpertId) : List (ExpertId × ExpertId) :=
  ((r.conflictingPairs experts).insertionSort pairLe).destutter (· ≠ ·)

variable {r : ConflictRegistry} {a b : ExpertId}

theorem areConflicting_iff :
    r.areConflicting a b = true ↔ canonical a b ∈ r.conflicts := by
  unfold areConflicting
  split
  · rename_i h
    subst h
    simp only [Bool.false_eq_true, false_iff]
    intro hm
    have hlt := r.ordered _ hm
    simp [canonical] at hlt
  · exact decide_eq_true_iff

theorem areConflicting_comm (r : ConflictRegistry) (a b : ExpertId) :
    r.areConflicting a b = r.areConflicting b a := by
  rw [Bool.eq_iff_iff, areConflicting_iff, areConflicting_iff, canonical_comm]

theorem ne_of_conflicting (h : r.areConflicting a b = true) : a ≠ b := by
  intro he
  simp [areConflicting, he] at h

theorem mem_registerConflict {p : ExpertId × ExpertId} :
    p ∈ (r.registerConflict a b).conflicts ↔ p ∈ r.conflicts ∨ a ≠ b ∧ p = canonical a b := by
  unfold registerConflict
  split
  · simp [*]
  · rw [Finset.mem_insert, or_comm]
    simp [*]

theorem canonical_of_mem {p : ExpertId × ExpertId} (hp : p ∈ r.conflicts) :
    canonical p.1 p.2 = p := canonical_of_lt (r.ordered p hp)

theorem areConflicting_of_mem {p : ExpertId × ExpertId} (hp : p ∈ r.conflicts) :
    r.areConflicting p.1 p.2 = true := by
  rw [areConflicting_iff, canonical_of_mem hp]
  exact hp

theorem mem_conflictingPairs {experts : List ExpertId} {p : ExpertId × ExpertId} :
    p ∈ r.conflictingPairs experts ↔ p ∈ r.conflicts ∧ p.1 ∈ experts ∧ p.2 ∈ experts := by
  induction experts with
  | nil => simp [conflictingPairs]
  | cons a experts ih =>
    rw [conflictingPairs, List.mem_append, ih, List.mem_map]
    constructor
    · intro h
      rcases h with ⟨b, hb, rfl⟩ | ⟨hp, h1, h2⟩
      · obtain ⟨hm, hc⟩ := List.mem_filter.mp hb
        refine ⟨areConflicting_iff.mp hc, ?_⟩
        unfold canonical
        split
        · exact ⟨List.mem_cons_self, List.mem_cons_of_mem _ hm⟩
        · exact ⟨List.mem_cons_of_mem _ hm, List.mem_cons_self⟩
      · exact ⟨hp, List.mem_cons_of_mem _ h1, List.mem_cons_of_mem _ h2⟩
    · intro ⟨hp, h1, h2⟩
      have hcon := areConflicting_of_mem hp
      rcases List.mem_cons.mp h1 with rfl | m1
      · rcases List.mem_cons.mp h2 with he | m2
        · exact absurd he.symm (r.ordered p hp).ne
        · exact .inl ⟨p.2, List.mem_filter.mpr ⟨m2, hcon⟩, canonical_of_mem hp⟩
      · rcases List.mem_cons.mp h2 with rfl | m2
        · rw [areConflicting_comm] at hcon
          refine .inl ⟨p.1, List.mem_filter.mpr ⟨m1, hcon⟩, ?_⟩
          rw [canonical_comm, canonical_of_mem hp]
        · exact .inr ⟨hp, m1, m2⟩

theorem findConflicts_eq_dedup (r : ConflictRegistry) (experts : List ExpertId) :
    r.findConflicts experts = ((r.conflictingPairs experts).insertionSort pairLe).dedup :=
  (List.pairwise_insertionSort pairLe _).destutter_eq_dedup

@[simp] theorem mem_findConflicts {experts : List ExpertId} {p : ExpertId × ExpertId} :
    p ∈ r.findConflicts experts ↔ p ∈ r.conflicts ∧ p.1 ∈ experts ∧ p.2 ∈ experts := by
  rw [findConflicts_eq_dedup, List.mem_dedup, List.mem_insertionSort, mem_conflictingPairs]

theorem findConflicts_sorted (r : ConflictRegistry) (experts : List ExpertId) :
    (r.findConflicts experts).Pairwise pairLt := by
  rw [findConflicts_eq_dedup]
  have hle := (List.pairwise_insertionSort pairLe (r.conflictingPairs experts)).sublist
    (List.dedup_sublist _)
  exact (hle.and (List.nodup_dedup _)).imp fun h => pairLt_of_le_of_ne h.1 h.2

/-- Only which experts there are matters, not their order or how often they occur. -/
theorem findConflicts_congr (r : ConflictRegistry) {xs ys : List ExpertId}
    (h : ∀ a, a ∈ xs ↔ a ∈ ys) : r.findConflicts xs = r.findConflicts ys := by
  apply (r.findConflicts_sorted xs).eq_of_mem_iff (r.findConflicts_sorted ys)
  intro p
  rw [mem_findConflicts, mem_findConflicts, h, h]

end ConflictRegistry
end HyperKitty.Nand
