import Mathlib

/-- The digest that a record carries and the digest it is carried by. -/
structure Linking (ρ δ : Type*) where
  previous : ρ → δ
  digest : ρ → δ

namespace Linking

variable {ρ δ β : Type*} (L : Linking ρ δ)

/-- Every record carries the digest of the one before it, and the first one `d`. -/
def Linked : δ → List ρ → Prop
  | _, [] => True
  | d, r :: rs => L.previous r = d ∧ Linked (L.digest r) rs

/-- The digest that the next record has to carry. -/
def tip (d : δ) (rs : List ρ) : δ := (rs.getLast?.map L.digest).getD d

variable {L} {d e : δ} {rs ss : List ρ} {r : ρ}

theorem tip_cons : L.tip d (r :: rs) = L.tip (L.digest r) rs := by
  cases h : rs.getLast? <;> simp [tip, List.getLast?_cons, h]

theorem tip_snoc : L.tip d (rs ++ [r]) = L.digest r := by
  simp [tip]

/-- A record may be added exactly when it carries the digest of the last one. -/
theorem linked_snoc : L.Linked d (rs ++ [r]) ↔ L.Linked d rs ∧ L.previous r = L.tip d rs := by
  induction rs generalizing d with
  | nil => simp [Linked, tip]
  | cons s rs ih => rw [List.cons_append, Linked, ih, Linked, tip_cons, and_assoc]

theorem Linked.head (h : L.Linked d rs) : ∀ r ∈ rs.head?, L.previous r = d := by
  cases rs with
  | nil => nofun
  | cons s rs =>
    intro r hr
    cases hr
    exact h.1

theorem Linked.getElem (h : L.Linked d rs) (i : Nat) (hi : i + 1 < rs.length) :
    L.previous rs[i + 1] = L.digest rs[i] := by
  induction rs generalizing d i with
  | nil => simp at hi
  | cons s rs ih =>
    cases i with
    | zero =>
      cases rs with
      | nil => simp at hi
      | cons t rs => exact h.2.1
    | succ i => exact ih h.2 i (by simpa using hi)

/-- A record carries the digest that the records before it end with. -/
theorem Linked.previous_eq (h : L.Linked d rs) (i : Nat) (hi : i < rs.length) :
    L.previous rs[i] = L.tip d (rs.take i) := by
  induction rs generalizing d i with
  | nil => simp at hi
  | cons s rs ih =>
    cases i with
    | zero => exact h.1
    | succ i =>
      rw [List.take_succ_cons, tip_cons]
      exact ih h.2 i (by simpa using hi)

/-- Two records of a chain can change places only if they carry and have the
same digests. -/
theorem Linked.swap {i j : Nat} (hij : i < j) (hj : j < rs.length) (h : L.Linked d rs)
    (hs : L.Linked d ((rs.set i rs[j]).set j rs[i])) :
    L.previous rs[i] = L.previous rs[j] ∧ L.digest rs[i] = L.digest rs[j] := by
  have hprevious : L.previous rs[i] = L.previous rs[j] := by
    have e := hs.previous_eq i (by simp; omega)
    rw [List.getElem_set_ne (by omega), List.getElem_set_self, List.take_set_of_le (by omega),
      List.take_set_of_le (Nat.le_refl i)] at e
    rw [e]
    exact h.previous_eq i (by omega)
  have hnext := h.getElem i (by omega)
  have hnext' := hs.getElem i (by simp; omega)
  rw [List.getElem_set_ne (i := j) (j := i) (by omega), List.getElem_set_self] at hnext'
  refine ⟨hprevious, ?_⟩
  by_cases hlast : j = i + 1
  · subst hlast
    rw [List.getElem_set_self] at hnext'
    rw [← hnext, ← hprevious, hnext']
  · rw [List.getElem_set_ne (by omega), List.getElem_set_ne (by omega)] at hnext'
    rw [← hnext, hnext']

/-- Two chains of one length that end alike are alike throughout, if what a
record shows fixes the digest it carries and no two records that show different
things have one digest. -/
theorem Linked.agree {view : ρ → β} (hview : ∀ r s, view r = view s → L.previous r = L.previous s)
    (hdigest : ∀ r ∈ rs, ∀ s ∈ ss, L.digest r = L.digest s → view r = view s)
    (hr : L.Linked d rs) (hs : L.Linked e ss) (hlen : rs.length = ss.length)
    (hlast : rs.getLast?.map view = ss.getLast?.map view) : rs.map view = ss.map view := by
  induction rs using List.reverseRecOn generalizing ss with
  | nil =>
    rw [List.length_nil] at hlen
    rw [List.length_eq_zero_iff.mp hlen.symm]
  | append_singleton xs x ih =>
    rcases List.eq_nil_or_concat' ss with rfl | ⟨ys, y, rfl⟩
    · simp at hlen
    · rw [linked_snoc] at hr hs
      have hxy : view x = view y := by simpa using hlast
      have htip : L.tip d xs = L.tip e ys := by
        rw [← hr.2, ← hs.2]
        exact hview x y hxy
      have hl : xs.length = ys.length := by simpa using hlen
      have hlast' : xs.getLast?.map view = ys.getLast?.map view := by
        rcases List.eq_nil_or_concat' xs with rfl | ⟨xs, a, rfl⟩
        · rw [List.length_nil] at hl
          rw [List.length_eq_zero_iff.mp hl.symm]
        · rcases List.eq_nil_or_concat' ys with rfl | ⟨ys, b, rfl⟩
          · simp at hl
          · rw [tip_snoc, tip_snoc] at htip
            simpa using hdigest a (by simp) b (by simp) htip
      have hmap := ih (fun r hr s hs => hdigest r (by simp [hr]) s (by simp [hs])) hr.1 hs.1 hl
        hlast'
      rw [List.map_append, List.map_append, hmap, List.map_singleton, List.map_singleton, hxy]

end Linking
