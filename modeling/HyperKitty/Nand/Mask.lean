import Mathlib

namespace HyperKitty.Nand

/-- Resolves the pair of the active expert `i` and the expert `j` above it. Bit `i` of the mask is
expert `i`. -/
def resolvePair (activeExperts : BitVec 32) (i : Nat) (result : BitVec 32) (j : Nat) : BitVec 32 :=
  if activeExperts &&& (1#32 <<< j) = 0#32 then result
  else
    let conflict := (i % 2) ^^^ (j % 2)
    if conflict ≠ 0 then result &&& ~~~(1#32 <<< j) else result

/-- Both loops ask the mask they were given, not the result, who is active. -/
def hkNandFilter (activeExperts : BitVec 32) : BitVec 32 :=
  (List.range 32).foldl
    (fun result i =>
      if activeExperts &&& (1#32 <<< i) = 0#32 then result
      else (List.range' (i + 1) (32 - (i + 1))).foldl (resolvePair activeExperts i) result)
    activeExperts

/-- The passes of the loop from the given state on, with the number of passes made. -/
def cascade (current : BitVec 32) (iterations : Nat) : BitVec 32 × Nat :=
  let next := hkNandFilter current
  if next ≠ current ∧ iterations + 1 < 10 then cascade next (iterations + 1)
  else (next, iterations + 1)
termination_by 10 - iterations

def hkNandFilterCascading (activeExperts : BitVec 32) : BitVec 32 := (cascade activeExperts 0).1

variable {mask : BitVec 32}

theorem getLsbD_one_shift {i : Nat} (h : i < 32) (k : Nat) :
    (1#32 <<< i).getLsbD k = decide (k = i) := by
  rw [BitVec.getLsbD_shiftLeft, BitVec.getLsbD_one]
  grind

theorem active_iff {i : Nat} (h : i < 32) :
    ¬ mask &&& (1#32 <<< i) = 0#32 ↔ mask.getLsbD i = true := by
  constructor
  · intro hne
    by_contra hb
    apply hne
    apply BitVec.eq_of_getLsbD_eq
    intro k _
    rw [BitVec.getLsbD_and, getLsbD_one_shift h]
    grind
  · intro hb he
    have hk := congrArg (BitVec.getLsbD · i) he
    simp [getLsbD_one_shift h, hb] at hk

theorem conflict_ne_zero_iff (i j : Nat) : (i % 2) ^^^ (j % 2) ≠ 0 ↔ i % 2 ≠ j % 2 := by
  rw [Ne, Nat.xor_eq_zero_iff]

end HyperKitty.Nand
