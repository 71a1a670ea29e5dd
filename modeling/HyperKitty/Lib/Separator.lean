import Mathlib

namespace Separator

variable {α : Type*} (c : α)

/-- The double of `c` stands somewhere in the text. -/
def Doubled (xs : List α) : Prop := [c, c] <:+: xs

instance [DecidableEq α] (xs : List α) : Decidable (Doubled c xs) :=
  inferInstanceAs (Decidable ([c, c] <:+: xs))

def join (u v w : List α) : List α := u ++ c :: c :: (v ++ c :: c :: w)

/-- The joints are the only doubles that can separate three texts. -/
def Separated (u v w : List α) : Prop :=
  ¬ Doubled c (u ++ [c]) ∧ (v = [] ∨ ¬ Doubled c (c :: (v ++ [c]))) ∧ ¬ Doubled c (c :: w)

instance [DecidableEq α] (u v w : List α) : Decidable (Separated c u v w) :=
  inferInstanceAs (Decidable (_ ∧ _ ∧ _))

variable {c} {u u' v v' w w' x : List α}

theorem doubled_middle (x y : List α) : Doubled c (x ++ c :: c :: y) := ⟨x, y, by simp⟩

theorem Doubled.cons {a : α} (h : Doubled c x) : Doubled c (a :: x) := List.infix_cons h

/-- A text that cannot reach into the joint behind it is cut there first. -/
theorem first_cut (hu : ¬ Doubled c (u ++ [c])) (h : u ++ c :: c :: w = u' ++ c :: c :: w') :
    ∃ x, u' = u ++ x ∧ c :: c :: w = x ++ c :: c :: w' := by
  rcases List.append_eq_append_iff.mp h with ⟨x, hx, hw⟩ | ⟨x, hx, hw⟩
  · exact ⟨x, hx, hw⟩
  · rcases x with _ | ⟨a, _ | ⟨b, x⟩⟩
    · exact ⟨[], by simpa using hx.symm, by simpa using hw.symm⟩
    · rw [List.cons_append, List.cons.injEq] at hw
      subst hx
      rw [← hw.1] at hu
      exact absurd (by simpa using doubled_middle (c := c) u' []) hu
    · rw [List.cons_append, List.cons_append, List.cons.injEq, List.cons.injEq] at hw
      subst hx
      rw [← hw.1, ← hw.2.1] at hu
      exact absurd (by simpa using doubled_middle (c := c) u' (x ++ [c])) hu

/-- Behind the first joint, nothing but the second one is a double. -/
theorem no_further_cut (hw : ¬ Doubled c (c :: w)) (h : c :: c :: w = x ++ c :: c :: w') :
    x = [] ∧ w = w' := by
  cases x with
  | nil => simpa using h
  | cons a x =>
    rw [List.cons_append, List.cons.injEq] at h
    exact absurd (h.2 ▸ doubled_middle x w') hw

theorem second_cut (hv : v = [] ∨ ¬ Doubled c (c :: (v ++ [c]))) (hw : ¬ Doubled c (c :: w))
    (h : v ++ c :: c :: w = v' ++ c :: c :: w') : v = v' ∧ w = w' := by
  have hcut : ∃ x, v' = v ++ x ∧ c :: c :: w = x ++ c :: c :: w' := by
    rcases hv with rfl | hv
    · exact ⟨v', rfl, h⟩
    · exact first_cut (fun hd => hv hd.cons) h
  obtain ⟨x, rfl, hx⟩ := hcut
  obtain ⟨rfl, rfl⟩ := no_further_cut hw hx
  exact ⟨(List.append_nil v).symm, rfl⟩

/-- The first joint cannot be passed over. -/
theorem not_passed {y z : List α} (hv : v = [] ∨ ¬ Doubled c (c :: (v ++ [c])))
    (hw : ¬ Doubled c (c :: w)) (h : c :: (v ++ c :: c :: w) = y ++ c :: c :: z)
    (hz : Doubled c z) : False := by
  obtain ⟨s, t, rfl⟩ := hz
  have hcut : ∃ x, c :: c :: w = x ++ c :: c :: (s ++ [c, c] ++ t) ∨
      c :: c :: c :: w = x ++ c :: c :: (s ++ [c, c] ++ t) := by
    rcases hv with rfl | hv
    · exact ⟨y, Or.inr h⟩
    · obtain ⟨x, -, hx⟩ := first_cut (u := c :: v) hv h
      exact ⟨x, Or.inl hx⟩
  have htail : ∀ x, c :: c :: w ≠ x ++ c :: c :: (s ++ [c, c] ++ t) := by
    intro x hx
    obtain ⟨-, rfl⟩ := no_further_cut hw hx
    exact hw (by simpa using doubled_middle (c := c) (c :: s) t)
  obtain ⟨x, hx | hx⟩ := hcut
  · exact htail x hx
  · cases x with
    | nil =>
      rw [List.nil_append, List.cons.injEq, List.cons.injEq] at hx
      exact hw (hx.2.2 ▸ by simpa using doubled_middle (c := c) s t)
    | cons a x =>
      rw [List.cons_append, List.cons.injEq] at hx
      exact htail x hx.2

theorem Separated.unique (h : Separated c u v w) (he : join c u v w = join c u' v' w') :
    u = u' ∧ v = v' ∧ w = w' := by
  obtain ⟨hu, hv, hw⟩ := h
  obtain ⟨x, rfl, hx⟩ := first_cut hu he
  cases x with
  | nil =>
    rw [List.nil_append, List.cons.injEq, List.cons.injEq] at hx
    obtain ⟨rfl, rfl⟩ := second_cut hv hw hx.2.2
    exact ⟨(List.append_nil u).symm, rfl, rfl⟩
  | cons a x =>
    rw [List.cons_append, List.cons.injEq] at hx
    exact (not_passed hv hw hx.2 (doubled_middle v' w')).elim

theorem exists_of_doubled_left (h : Doubled c (u ++ [c])) :
    ∃ u' v', join c u' v' w = join c u v w ∧ u' ≠ u := by
  obtain ⟨x, y, hxy⟩ := h
  refine ⟨x, y ++ c :: v, ?_, ?_⟩
  · calc join c x (y ++ c :: v) w = (x ++ [c, c] ++ y) ++ c :: (v ++ c :: c :: w) := by simp [join]
      _ = join c u v w := by
        rw [hxy]
        simp [join]
  · intro he
    have hlen := congrArg List.length hxy
    simp only [List.length_append, List.length_cons, List.length_nil, he] at hlen
    omega

theorem exists_of_doubled_middle (hv : v ≠ []) (h : Doubled c (c :: (v ++ [c]))) :
    ∃ u' v' w', join c u' v' w' = join c u v w ∧ ¬ (u' = u ∧ v' = v ∧ w' = w) := by
  obtain ⟨x, y, hxy⟩ := h
  rcases List.eq_nil_or_concat y with rfl | ⟨y, a, rfl⟩
  · -- the double ends `v`, and the second joint can start one character earlier
    cases x with
    | nil => exact absurd (by simpa using hxy) hv
    | cons a x =>
      have hx : v = x ++ [c] := by
        have h : x ++ [c, c] = v ++ [c] := by simpa using (List.cons.inj hxy).2
        rw [show x ++ [c, c] = (x ++ [c]) ++ [c] by simp] at h
        exact (List.append_cancel_right h).symm
      subst hx
      exact ⟨u, x, c :: w, by simp [join], by simp⟩
  · have ha : a = c := by
      have h : (x ++ [c, c] ++ y) ++ [a] = (c :: v) ++ [c] := by simpa using hxy
      simpa using (List.append_inj' h rfl).2
    subst ha
    refine ⟨u ++ a :: x, y, w, ?_, by simp⟩
    calc join a (u ++ a :: x) y w = u ++ a :: (x ++ [a, a] ++ (y ++ [a])) ++ a :: w := by
          simp [join]
      _ = join a u v w := by
        rw [← List.concat_eq_append, hxy]
        simp [join]

theorem exists_of_doubled_right (h : Doubled c (c :: w)) :
    ∃ v' w', join c u v' w' = join c u v w ∧ v' ≠ v := by
  obtain ⟨x, y, hxy⟩ := h
  refine ⟨v ++ c :: x, y, ?_, by simp⟩
  calc join c u (v ++ c :: x) y = u ++ c :: c :: (v ++ c :: (x ++ [c, c] ++ y)) := by simp [join]
    _ = join c u v w := by
      rw [hxy]
      simp [join]

/-- Joined texts can be told apart exactly when the joints are their only doubles. -/
theorem separated_iff : Separated c u v w ↔
    ∀ u' v' w', join c u' v' w' = join c u v w → u' = u ∧ v' = v ∧ w' = w := by
  constructor
  · intro h u' v' w' he
    obtain ⟨rfl, rfl, rfl⟩ := h.unique he.symm
    exact ⟨rfl, rfl, rfl⟩
  · intro h
    refine ⟨?_, ?_, ?_⟩
    · intro hd
      obtain ⟨u', v', he, hne⟩ := exists_of_doubled_left (v := v) (w := w) hd
      exact hne (h _ _ _ he).1
    · by_contra hd
      rw [not_or, not_not] at hd
      obtain ⟨u', v', w', he, hne⟩ := exists_of_doubled_middle (u := u) (w := w) hd.1 hd.2
      exact hne (h _ _ _ he)
    · intro hd
      obtain ⟨v', w', he, hne⟩ := exists_of_doubled_right (u := u) (v := v) hd
      exact hne (h _ _ _ he).2.1

end Separator
