import Mathlib

namespace Scan

variable {K : Type*} {m n : Nat}

section Lists

variable {α β : Type*}

theorem exists_ofFn {xs : List α} (h : xs.length = n) : ∃ f : Fin n → α, xs = List.ofFn f := by
  subst h
  exact ⟨xs.get, (List.ofFn_get xs).symm⟩

/-- Rows of one length are those of a function of two indices. -/
theorem exists_ofFn_rows {rows : List (List α)} (h : ∀ row ∈ rows, row.length = n) :
    ∃ f : Fin rows.length → Fin n → α, rows = List.ofFn fun i => List.ofFn (f i) := by
  have hrow : ∀ i, ∃ g : Fin n → α, rows.get i = List.ofFn g :=
    fun i => exists_ofFn (h _ (List.get_mem rows i))
  choose f hf using hrow
  exact ⟨f, by rw [← funext hf, List.ofFn_get]⟩

theorem zip_ofFn (f : Fin n → α) (g : Fin n → β) :
    (List.ofFn f).zip (List.ofFn g) = List.ofFn fun k => (f k, g k) := by
  apply List.ext_getElem
  · simp
  · intro k h₁ h₂
    simp

end Lists

section Sums

variable [AddCommMonoid K]

/-- The loop that adds the numbers to what is there. -/
def sumFrom (start : K) (f : Fin n → K) : K :=
  (List.finRange n).foldl (fun sum k => sum + f k) start

/-- Two nested loops that add to one sum. -/
def doubleSum (f : Fin m → Fin n → K) : K :=
  (List.finRange m).foldl (fun sum i => sumFrom sum (f i)) 0

theorem foldl_add {ι : Type*} (l : List ι) (f : ι → K) (start : K) :
    l.foldl (fun sum k => sum + f k) start = start + (l.map f).sum := by
  induction l generalizing start with
  | nil => simp
  | cons k l ih => rw [List.foldl_cons, ih, List.map_cons, List.sum_cons, add_assoc]

theorem sumFrom_eq (start : K) (f : Fin n → K) : sumFrom start f = start + ∑ k, f k := by
  rw [sumFrom, foldl_add, Fin.sum_univ_def]

theorem doubleSum_eq (f : Fin m → Fin n → K) : doubleSum f = ∑ i, ∑ j, f i j := by
  simp only [doubleSum, sumFrom_eq]
  rw [foldl_add, zero_add, Fin.sum_univ_def]

end Sums

section Maxima

variable [LinearOrder K] {ι : Type*}

/-- A loop that takes over some of the numbers is below a bound where they are. -/
theorem foldl_le_iff {step : K → ι → K} {p : ι → Prop} {f : ι → K} {b : K}
    (hstep : ∀ best i, step best i ≤ b ↔ best ≤ b ∧ (p i → f i ≤ b)) (l : List ι) (start : K) :
    l.foldl step start ≤ b ↔ start ≤ b ∧ ∀ i ∈ l, p i → f i ≤ b := by
  induction l generalizing start with
  | nil => simp
  | cons i l ih => rw [List.foldl_cons, ih, hstep, List.forall_mem_cons, and_assoc]

omit [LinearOrder K] in
theorem foldl_attained {step : K → ι → K} {p : ι → Prop} {f : ι → K}
    (hstep : ∀ best i, step best i = best ∨ (p i ∧ step best i = f i)) (l : List ι) (start : K) :
    l.foldl step start = start ∨ ∃ i, p i ∧ l.foldl step start = f i := by
  induction l generalizing start with
  | nil => exact .inl rfl
  | cons i l ih =>
    rw [List.foldl_cons]
    rcases ih (step start i) with h | ⟨j, hp, h⟩
    · rw [h]
      rcases hstep start i with hs | ⟨hp, hs⟩
      · exact .inl hs
      · exact .inr ⟨i, hp, hs⟩
    · exact .inr ⟨j, hp, h⟩

variable [Zero K] {b top : K}

/-- The largest of the numbers that are above zero. -/
def largest (f : Fin n → K) : K :=
  (List.finRange n).foldl (fun best i => if best < f i then f i else best) 0

/-- The largest of the numbers above zero and below a bound. -/
def largestBelow (top : K) (f : Fin n → K) : K :=
  (List.finRange n).foldl (fun best i => if f i < top ∧ best < f i then f i else best) 0

theorem largest_le_iff {f : Fin n → K} : largest f ≤ b ↔ 0 ≤ b ∧ ∀ i, f i ≤ b := by
  unfold largest
  rw [foldl_le_iff (p := fun _ => True) (f := f)]
  · simp
  · intro best i
    split
    · grind
    · grind

theorem largestBelow_le_iff {f : Fin n → K} :
    largestBelow top f ≤ b ↔ 0 ≤ b ∧ ∀ i, f i < top → f i ≤ b := by
  unfold largestBelow
  rw [foldl_le_iff (p := fun i => f i < top) (f := f)]
  · simp
  · intro best i
    split
    · grind
    · grind

theorem le_largest (f : Fin n → K) (i : Fin n) : f i ≤ largest f := (largest_le_iff.mp le_rfl).2 i

theorem largest_attained (f : Fin n → K) : largest f = 0 ∨ ∃ i, largest f = f i := by
  have hstep : ∀ best i, (if best < f i then f i else best) = best ∨
      (True ∧ (if best < f i then f i else best) = f i) := by
    intro best i
    split
    · exact .inr ⟨trivial, rfl⟩
    · exact .inl rfl
  rcases foldl_attained hstep (List.finRange n) 0 with h | ⟨i, _, h⟩
  · exact .inl h
  · exact .inr ⟨i, h⟩

theorem largestBelow_attained (top : K) (f : Fin n → K) :
    largestBelow top f = 0 ∨ ∃ i, f i < top ∧ largestBelow top f = f i :=
  foldl_attained (p := fun i => f i < top) (by grind) (List.finRange n) 0

/-- Of numbers none of which is below zero the largest is found. -/
theorem largest_eq_of_greatest {f : Fin n → K} {i : Fin n} (h0 : 0 ≤ f i) (h : ∀ j, f j ≤ f i) :
    largest f = f i :=
  (largest_le_iff.mpr ⟨h0, h⟩).antisymm (le_largest f i)

theorem largestBelow_eq_of_greatest {f : Fin n → K} {i : Fin n} (h0 : 0 ≤ f i) (hi : f i < top)
    (h : ∀ j, f j < top → f j ≤ f i) : largestBelow top f = f i :=
  (largestBelow_le_iff.mpr ⟨h0, h⟩).antisymm ((largestBelow_le_iff.mp le_rfl).2 i hi)

theorem largestBelow_eq_zero {f : Fin n → K} (h : ∀ j, f j ≤ 0) : largestBelow top f = 0 :=
  (largestBelow_le_iff.mpr ⟨le_rfl, fun j _ => h j⟩).antisymm (largestBelow_le_iff.mp le_rfl).1

/-- The largest of some numbers, none of which is below zero, reaches what one of them does. -/
theorem le_largest_iff {f : Fin (n + 1) → K} (h0 : ∀ i, 0 ≤ f i) :
    b ≤ largest f ↔ ∃ i, b ≤ f i := by
  constructor
  · intro h
    rcases largest_attained f with hz | ⟨i, hi⟩
    · exact ⟨0, (h.trans hz.le).trans (h0 0)⟩
    · exact ⟨i, h.trans hi.le⟩
  · intro ⟨i, hi⟩
    exact hi.trans (le_largest f i)

end Maxima

end Scan
