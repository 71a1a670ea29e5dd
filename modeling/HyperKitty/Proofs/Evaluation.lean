import HyperKitty.Constraints.Ast
import Mathlib

namespace HyperKitty.Constraints

namespace Requirement

theorem evaluate_mono (hle : ∀ name, b.holds name = true → b'.holds name = true)
    (req : Requirement) (h : req.evaluate b = true) : req.evaluate b' = true := by
  cases req with
  | predicate x => exact hle x h
  | check x =>
    by_cases htrue : x = "always_true"
    · simp [evaluate, htrue]
    · by_cases hfalse : x = "always_false"
      · simp [evaluate, hfalse] at h
      · simp only [evaluate, htrue, hfalse, if_false] at h ⊢
        exact hle x h

theorem evaluate_congr (req : Requirement) (h : b.holds req.name = b'.holds req.name) :
    req.evaluate b = req.evaluate b' := by
  cases req with
  | predicate x => exact h
  | check x =>
    have hx : b.holds x = b'.holds x := h
    simp only [evaluate, hx]

end Requirement

namespace Constraint

/-- The loop stops at the first requirement that fails, but which one it is
does not matter. -/
theorem evaluateLoop_eq_true :
    evaluateLoop b action reqs = true ↔
      action = .accept ∨ ∀ req ∈ reqs, req.evaluate b = true := by
  induction reqs with
  | nil => simp [evaluateLoop]
  | cons req rest ih =>
    rw [evaluateLoop]
    split
    · rename_i hf
      simp only [Bool.not_eq_true'] at hf
      simp [hf]
    · rename_i hf
      simp only [Bool.not_eq_true, Bool.not_eq_false'] at hf
      simp [ih, hf]

theorem evaluate_eq_true {c : Constraint} :
    c.evaluate b = true ↔ c.otherwise = .accept ∨ ∀ req ∈ c.requires, req.evaluate b = true :=
  evaluateLoop_eq_true

theorem evaluate_mono (hle : ∀ name, b.holds name = true → b'.holds name = true)
    (c : Constraint) (h : c.evaluate b = true) : c.evaluate b' = true := by
  rw [evaluate_eq_true] at h ⊢
  exact h.imp_right fun h req hr => req.evaluate_mono hle (h req hr)

theorem evaluate_congr (c : Constraint)
    (h : ∀ req ∈ c.requires, b.holds req.name = b'.holds req.name) :
    c.evaluate b = c.evaluate b' := by
  rw [Bool.eq_iff_iff, evaluate_eq_true, evaluate_eq_true]
  refine or_congr_right (forall₂_congr fun req hr => ?_)
  rw [req.evaluate_congr (h req hr)]

/-- `c` asks for at least what `c'` asks for. -/
def Covers (c c' : Constraint) : Prop := c.otherwise = c'.otherwise ∧ c'.requires ⊆ c.requires

theorem Covers.refl (c : Constraint) : c.Covers c := ⟨rfl, List.Subset.refl _⟩

theorem Covers.evaluate (hc : Covers c c') (h : c.evaluate b = true) : c'.evaluate b = true := by
  rw [evaluate_eq_true] at h ⊢
  rw [← hc.1]
  exact h.imp_right fun h req hr => h req (hc.2 hr)

end Constraint

namespace ConstraintProgram

theorem evaluate_eq_true {p : ConstraintProgram} :
    p.evaluate b = true ↔ ∀ c ∈ p.constraints, c.evaluate b = true := List.all_eq_true

def mentions (p : ConstraintProgram) : List String :=
  p.constraints.flatMap fun c => c.requires.map Requirement.name

theorem evaluate_congr (p : ConstraintProgram)
    (h : ∀ name ∈ p.mentions, b.holds name = b'.holds name) : p.evaluate b = p.evaluate b' := by
  rw [Bool.eq_iff_iff, evaluate_eq_true, evaluate_eq_true]
  apply forall₂_congr
  intro c hc
  rw [c.evaluate_congr fun req hr => h req.name ?_]
  exact List.mem_flatMap.mpr ⟨c, hc, List.mem_map_of_mem hr⟩

/-- Every constraint of `p'` is covered by one of `p`. -/
def Covers (p p' : ConstraintProgram) : Prop :=
  ∀ c' ∈ p'.constraints, ∃ c ∈ p.constraints, c.Covers c'

theorem Covers.evaluate (hp : Covers p p') (h : p.evaluate b = true) : p'.evaluate b = true := by
  rw [evaluate_eq_true] at h ⊢
  intro c' hc'
  obtain ⟨c, hc, hcov⟩ := hp c' hc'
  exact hcov.evaluate (h c hc)

theorem Covers.of_subset (h : p'.constraints ⊆ p.constraints) : Covers p p' :=
  fun c hc => ⟨c, h hc, .refl c⟩

theorem Covers.of_replace (hc : c.Covers c') : Covers ⟨pre ++ c :: post⟩ ⟨pre ++ c' :: post⟩ := by
  intro d hd
  simp only [List.mem_append, List.mem_cons] at hd
  rcases hd with hd | rfl | hd
  · exact ⟨d, by simp [hd], .refl d⟩
  · exact ⟨c, by simp, hc⟩
  · exact ⟨d, by simp [hd], .refl d⟩

/-- One way of listing the same constraints and requirements differently. -/
inductive Rearranges : ConstraintProgram → ConstraintProgram → Prop
  | constraints (h : cs.Perm cs') : Rearranges ⟨cs⟩ ⟨cs'⟩
  | requirements (h : reqs.Perm reqs') :
      Rearranges ⟨pre ++ ⟨name, param, reqs, action⟩ :: post⟩
        ⟨pre ++ ⟨name, param, reqs', action⟩ :: post⟩
  | duplicateConstraint : Rearranges ⟨pre ++ c :: post⟩ ⟨pre ++ c :: c :: post⟩
  | duplicateRequirement :
      Rearranges ⟨pre ++ ⟨name, param, before ++ req :: after, action⟩ :: post⟩
        ⟨pre ++ ⟨name, param, before ++ req :: req :: after, action⟩ :: post⟩

theorem Rearranges.covers (h : Rearranges p p') : p.Covers p' ∧ p'.Covers p := by
  cases h with
  | constraints h => exact ⟨.of_subset h.symm.subset, .of_subset h.subset⟩
  | requirements h => exact ⟨.of_replace ⟨rfl, h.symm.subset⟩, .of_replace ⟨rfl, h.subset⟩⟩
  | duplicateConstraint =>
    exact ⟨.of_subset fun d hd => by simpa using hd, .of_subset fun d hd => by simpa using hd⟩
  | duplicateRequirement =>
    exact ⟨.of_replace ⟨rfl, fun r hr => by simpa using hr⟩,
      .of_replace ⟨rfl, fun r hr => by simpa using hr⟩⟩

theorem Rearranges.evaluate (h : Rearranges p p') : p'.evaluate b = p.evaluate b :=
  Bool.eq_iff_iff.mpr ⟨h.covers.2.evaluate, h.covers.1.evaluate⟩

/-- Evaluation is monotone in the bindings, the same however the program is
rearranged, and the same whatever the bindings say of names it does not mention. -/
theorem evaluate_monotone_order_free (p : ConstraintProgram) (b b' : Bindings) :
    ((∀ name, b.holds name = true → b'.holds name = true) →
      p.evaluate b = true → p.evaluate b' = true) ∧
    (∀ p', Relation.ReflTransGen Rearranges p p' → p'.evaluate b = p.evaluate b) ∧
    ((∀ name ∈ p.mentions, b.holds name = b'.holds name) → p.evaluate b = p.evaluate b') := by
  refine ⟨?_, ?_, p.evaluate_congr⟩
  · intro hle h
    rw [evaluate_eq_true] at h ⊢
    intro c hc
    exact c.evaluate_mono hle (h c hc)
  · intro p' h
    induction h with
    | refl => rfl
    | tail _ hs ih => rw [hs.evaluate, ih]

end ConstraintProgram

end HyperKitty.Constraints
