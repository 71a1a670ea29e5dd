import HyperKitty.Nand.Mask

namespace HyperKitty.Nand

variable {mask : BitVec 32}

/-- Expert `i` is in the mask. -/
def Has (mask : BitVec 32) (i : Nat) : Prop := mask.getLsbD i = true

theorem Has.lt {i : Nat} (h : Has mask i) : i < 32 := BitVec.lt_of_getLsbD h

theorem eq_of_has {x y : BitVec 32} (h : ∀ i, Has x i ↔ Has y i) : x = y := by
  apply BitVec.eq_of_getLsbD_eq
  intro i _
  rw [Bool.eq_iff_iff]
  exact h i

theorem has_clear {j : Nat} (hj : j < 32) (k : Nat) :
    Has (mask &&& ~~~(1#32 <<< j)) k ↔ Has mask k ∧ k ≠ j := by
  unfold Has
  rw [BitVec.getLsbD_and, BitVec.getLsbD_not, getLsbD_one_shift hj]
  constructor
  · intro h
    have h' : mask.getLsbD k = true ∧ k < 32 ∧ ¬ k = j := by simpa using h
    exact ⟨h'.1, h'.2.2⟩
  · intro ⟨h, hk⟩
    simp [h, hk, BitVec.lt_of_getLsbD h]

theorem has_resolvePair (result : BitVec 32) (i : Nat) {j : Nat} (hj : j < 32) (k : Nat) :
    Has (resolvePair mask i result j) k ↔
      Has result k ∧ ¬ (k = j ∧ Has mask k ∧ i % 2 ≠ k % 2) := by
  unfold resolvePair
  by_cases ha : mask &&& (1#32 <<< j) = 0#32
  · rw [if_pos ha]
    have hn : ¬ Has mask j := fun h => (active_iff hj).mpr h ha
    grind
  · rw [if_neg ha]
    have hm : Has mask j := (active_iff hj).mp ha
    by_cases hc : i % 2 = j % 2
    · rw [if_neg (fun h => (conflict_ne_zero_iff i j).mp h hc)]
      grind
    · rw [if_pos ((conflict_ne_zero_iff i j).mpr hc), has_clear hj]
      grind

/-- What the inner loop has cleared once it has seen the experts of a list. -/
theorem has_foldl_resolvePair (i : Nat) (js : List Nat) (hj : ∀ j ∈ js, j < 32)
    (result : BitVec 32) (k : Nat) :
    Has (js.foldl (resolvePair mask i) result) k ↔
      Has result k ∧ ¬ (k ∈ js ∧ Has mask k ∧ i % 2 ≠ k % 2) := by
  induction js generalizing result with
  | nil => simp
  | cons j js ih =>
    rw [List.foldl_cons, ih fun j hm => hj j (List.mem_cons_of_mem _ hm),
      has_resolvePair _ _ (hj j List.mem_cons_self)]
    grind

theorem has_innerLoop (result : BitVec 32) (i k : Nat) :
    Has ((List.range' (i + 1) (32 - (i + 1))).foldl (resolvePair mask i) result) k ↔
      Has result k ∧ ¬ (i < k ∧ Has mask k ∧ i % 2 ≠ k % 2) := by
  rw [has_foldl_resolvePair _ _ (by grind)]
  have hk : Has mask k → (k ∈ List.range' (i + 1) (32 - (i + 1)) ↔ i < k) := by
    intro h
    have hlt := h.lt
    rw [List.mem_range'_1]
    omega
  grind

/-- What the outer loop has cleared once it has seen the experts of a list. -/
theorem has_outerLoop (is : List Nat) (hi : ∀ i ∈ is, i < 32) (result : BitVec 32)
    (k : Nat) :
    Has (is.foldl (fun result i =>
      if mask &&& (1#32 <<< i) = 0#32 then result
      else (List.range' (i + 1) (32 - (i + 1))).foldl (resolvePair mask i) result) result) k ↔
      Has result k ∧ ¬ (Has mask k ∧ ∃ i ∈ is, Has mask i ∧ i < k ∧ i % 2 ≠ k % 2) := by
  induction is generalizing result with
  | nil => simp
  | cons i is ih =>
    have hlt := hi i List.mem_cons_self
    rw [List.foldl_cons, ih fun j hj => hi j (List.mem_cons_of_mem _ hj)]
    split
    · rename_i ha
      have hn : ¬ Has mask i := fun h => (active_iff hlt).mpr h ha
      grind
    · rename_i ha
      have hm : Has mask i := (active_iff hlt).mp ha
      rw [has_innerLoop]
      grind

/-- An expert stays when no active expert of the other parity stands below it, suppressed or not. -/
theorem has_hkNandFilter {k : Nat} :
    Has (hkNandFilter mask) k ↔ Has mask k ∧ ∀ i < k, Has mask i → i % 2 = k % 2 := by
  unfold hkNandFilter
  rw [has_outerLoop _ (by grind)]
  constructor
  · intro ⟨hk, hn⟩
    refine ⟨hk, ?_⟩
    intro i hi hm
    by_contra hne
    exact hn ⟨hk, i, List.mem_range.mpr hm.lt, hm, hi, hne⟩
  · intro ⟨hk, h⟩
    refine ⟨hk, ?_⟩
    intro ⟨_, i, _, hm, hi, hne⟩
    exact hne (h i hi hm)

theorem hkNandFilter_parity {i j : Nat} (hi : Has (hkNandFilter mask) i)
    (hj : Has (hkNandFilter mask) j) : i % 2 = j % 2 := by
  rw [has_hkNandFilter] at hi hj
  rcases lt_trichotomy i j with h | rfl | h
  · exact hj.2 i h hi.1
  · rfl
  · exact (hi.2 j h hj.1).symm

theorem hkNandFilter_idem (mask : BitVec 32) :
    hkNandFilter (hkNandFilter mask) = hkNandFilter mask := by
  apply eq_of_has
  intro k
  rw [has_hkNandFilter]
  constructor
  · intro h
    exact h.1
  · intro h
    exact ⟨h, fun i _ hi => hkNandFilter_parity hi h⟩

/-- The second pass changes nothing, so that the loop is left there at the latest. -/
theorem cascade_eq (mask : BitVec 32) :
    cascade mask 0 = (hkNandFilter mask, if hkNandFilter mask = mask then 1 else 2) := by
  rw [cascade]
  split
  · rename_i h
    rw [cascade, if_neg (by simp [hkNandFilter_idem]), hkNandFilter_idem, if_neg h.1]
  · rename_i h
    have he : hkNandFilter mask = mask := by
      by_contra hn
      exact h ⟨hn, by omega⟩
    simp [he]

/-- The filter keeps a maximal conflict-free set. -/
structure KeepsMaximal (mask : BitVec 32) : Prop where
  subset : ∀ i, Has (hkNandFilter mask) i → Has mask i
  conflict_free : ∀ i j, Has (hkNandFilter mask) i → Has (hkNandFilter mask) j → i % 2 = j % 2
  blocked : ∀ j, Has mask j → ¬ Has (hkNandFilter mask) j →
    ∃ i, Has (hkNandFilter mask) i ∧ i % 2 ≠ j % 2
  stable : hkNandFilter (hkNandFilterCascading mask) = hkNandFilterCascading mask
  before_cap : (cascade mask 0).2 < 10

/-- The parity of the active experts turns more than once as the index rises. -/
def Alternates (mask : BitVec 32) : Prop :=
  ∃ h i j, Has mask h ∧ Has mask i ∧ Has mask j ∧ h < i ∧ i < j ∧ h % 2 ≠ i % 2 ∧ i % 2 ≠ j % 2

theorem cascading_stable (mask : BitVec 32) :
    hkNandFilter (hkNandFilterCascading mask) = hkNandFilterCascading mask := by
  rw [hkNandFilterCascading, cascade_eq]
  exact hkNandFilter_idem mask

theorem exists_lowest {k : Nat} (h : Has mask k) :
    ∃ m ≤ k, Has mask m ∧ Has (hkNandFilter mask) m := by
  classical
  have hex : ∃ i, Has mask i := ⟨k, h⟩
  refine ⟨Nat.find hex, Nat.find_min' hex h, Nat.find_spec hex, ?_⟩
  rw [has_hkNandFilter]
  refine ⟨Nat.find_spec hex, ?_⟩
  intro i hi hm
  exact absurd hm (Nat.find_min hex hi)

/-- A suppressed expert of the lowest expert's parity is in conflict with nobody who is left. -/
theorem unblocked {m j : Nat} (hm : Has (hkNandFilter mask) m) (he : m % 2 = j % 2) :
    ¬ ∃ i, Has (hkNandFilter mask) i ∧ i % 2 ≠ j % 2 := by
  intro ⟨i, hi, hne⟩
  exact hne ((hkNandFilter_parity hi hm).trans he)

theorem suppressed_of_below {i j : Nat} (hi : Has mask i) (hij : i < j) (hne : i % 2 ≠ j % 2) :
    ¬ Has (hkNandFilter mask) j := by
  rw [has_hkNandFilter]
  intro ⟨_, h⟩
  exact hne (h i hij hi)

theorem blocked_of_not_alternates (hn : ¬ Alternates mask) {j : Nat} (hj : Has mask j)
    (hs : ¬ Has (hkNandFilter mask) j) : ∃ i, Has (hkNandFilter mask) i ∧ i % 2 ≠ j % 2 := by
  rw [has_hkNandFilter] at hs
  have hex : ∃ i < j, Has mask i ∧ i % 2 ≠ j % 2 := by
    by_contra hno
    apply hs
    refine ⟨hj, ?_⟩
    intro i hij hi
    by_contra hne
    exact hno ⟨i, hij, hi, hne⟩
  obtain ⟨i, hij, hi, hne⟩ := hex
  obtain ⟨m, hmi, hm, hkept⟩ := exists_lowest hi
  by_cases he : m % 2 = j % 2
  · have hne' : m % 2 ≠ i % 2 := fun h => hne (h.symm.trans he)
    have hlt : m < i := lt_of_le_of_ne hmi fun h => hne' (h ▸ rfl)
    exact absurd ⟨m, i, j, hm, hi, hj, hlt, hij, hne', hne⟩ hn
  · exact ⟨m, hkept, he⟩

/-- The set kept is maximal exactly when the parity turns at most once. -/
theorem keepsMaximal_iff (mask : BitVec 32) : KeepsMaximal mask ↔ ¬ Alternates mask := by
  constructor
  · intro hk ⟨h, i, j, hh, hi, hj, hhi, hij, hne, hne'⟩
    obtain ⟨m, _, _, hm⟩ := exists_lowest hh
    -- one of the two upper experts has the parity of the lowest expert, and both are suppressed
    by_cases he : m % 2 = j % 2
    · exact unblocked hm he (hk.blocked j hj (suppressed_of_below hi hij hne'))
    · have he' : m % 2 = i % 2 := by omega
      exact unblocked hm he' (hk.blocked i hi (suppressed_of_below hh hhi hne))
  · intro hn
    refine ⟨fun i hi => (has_hkNandFilter.mp hi).1, fun i j hi hj => hkNandFilter_parity hi hj,
      fun j hj hs => blocked_of_not_alternates hn hj hs, cascading_stable mask, ?_⟩
    rw [cascade_eq]
    split
    · norm_num
    · norm_num

/-- Of the experts `0`, `1` and `2` only `0` is left, although `2` is in conflict with `1` only. -/
theorem three_in_a_row : ¬ KeepsMaximal 0b111#32 := by
  intro h
  have he : hkNandFilter 0b111#32 = 1#32 := by decide +kernel
  obtain ⟨i, hi, hne⟩ := h.blocked 2 rfl (by rw [he]; exact Bool.false_ne_true)
  rw [he, Has, BitVec.getLsbD_one] at hi
  simp at hi
  omega

end HyperKitty.Nand
