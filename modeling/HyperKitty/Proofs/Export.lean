import HyperKitty.Formalization.Machine
import HyperKitty.Proofs.Evaluation

namespace HyperKitty.Formalization

open Constraints

theorem check_inj {id other : String} (h : s!"check_{id}" = s!"check_{other}") : id = other := by
  have ht : toString id = toString other := by simpa using h
  exact ht

theorem holds_iff {b : Bindings} : b.holds x = true ↔ b x = some true := by
  unfold Bindings.holds
  cases b x <;> simp

namespace FormalizationMachine

theorem toConstraintProgram_eq (t : Traversal) (m : FormalizationMachine) :
    m.toConstraintProgram t =
      .ok ⟨(t.order m.registry.invariants.entries).map fun e => exportConstraint e.1 e.2⟩ := by
  have hfold : ∀ (es : List (Sigma fun _ : String => Invariant)) (p : ConstraintProgram),
      es.foldl (fun program e => program.addConstraint (exportConstraint e.1 e.2)) p =
        ⟨p.constraints ++ es.map fun e => exportConstraint e.1 e.2⟩ := by
    intro es
    induction es with
    | nil => simp
    | cons e es ih => intro p; rw [List.foldl_cons, ih]; simp [ConstraintProgram.addConstraint]
  rw [toConstraintProgram, hfold]
  rfl

/-- Only a negative invariant makes its constraint depend on the check. -/
theorem exportConstraint_evaluate {id : String} {inv : Invariant} :
    (exportConstraint id inv).evaluate b = true ↔
      (inv.polarity = .negative → b s!"check_{id}" = some true) := by
  rw [Constraint.evaluate_eq_true, ← holds_iff]
  cases h : inv.polarity <;>
    simp [exportConstraint, Constraint.new, Constraint.addRequirement, Requirement.evaluate, h]

theorem export_evaluate {t : Traversal} {m : FormalizationMachine}
    (h : m.toConstraintProgram t = .ok program) : program.evaluate b = true ↔
      ∀ id inv, m.registry.getInvariant id = some inv → inv.polarity = .negative →
        b s!"check_{id}" = some true := by
  rw [toConstraintProgram_eq, Except.ok.injEq] at h
  subst h
  rw [ConstraintProgram.evaluate_eq_true, List.forall_mem_map]
  constructor
  · intro h id inv hinv
    exact exportConstraint_evaluate.mp (h ⟨id, inv⟩ ((InvariantRegistry.mem_traversal t).mpr hinv))
  · intro h e he
    obtain ⟨id, inv⟩ := e
    exact exportConstraint_evaluate.mpr (h id inv ((InvariantRegistry.mem_traversal t).mp he))

/-- Whatever order the registry is exported in, the program holds only where the
check of every invariant with a polarity is bound to true. -/
def RejectsUnverified (m : FormalizationMachine) : Prop :=
  ∀ (t : Traversal) (b : Bindings) (program : ConstraintProgram),
    m.toConstraintProgram t = .ok program → program.evaluate b = true →
    ∀ id inv, m.registry.getInvariant id = some inv → inv.polarity ≠ .neutral →
      b s!"check_{id}" = some true

/-- The exported program rejects what is not verified exactly when no invariant
in the registry is positive. -/
theorem rejectsUnverified_iff (m : FormalizationMachine) : m.RejectsUnverified ↔
    ∀ id inv, m.registry.getInvariant id = some inv → inv.polarity ≠ .positive := by
  constructor
  · intro hm id inv hinv hpos
    let b : Bindings := fun x => if x = s!"check_{id}" then none else some true
    have heval : ∀ other inv', m.registry.getInvariant other = some inv' →
        inv'.polarity = .negative → b s!"check_{other}" = some true := by
      intro other inv' hinv' hneg
      have hne : s!"check_{other}" ≠ s!"check_{id}" := by
        intro he
        cases check_inj he
        cases hinv.symm.trans hinv'
        cases hpos.symm.trans hneg
      exact if_neg hne
    have ht := toConstraintProgram_eq ⟨fun es => es, fun es => .refl es⟩ m
    have hb := hm _ b _ ht ((export_evaluate ht).mpr heval) id inv hinv (by rw [hpos]; nofun)
    simp [b] at hb
  · intro hm t b program ht heval id inv hinv hpol
    apply (export_evaluate ht).mp heval id inv hinv
    cases hp : inv.polarity with
    | positive => exact absurd hp (hm id inv hinv)
    | negative => rfl
    | neutral => exact absurd hp hpol

/-- A positive invariant is accepted although nothing is bound. -/
theorem export_accepts_unbound_positive :
    let inv : Invariant :=
      ⟨"inv-001", .booleanAlgebra, .positive, "x ∧ y", "require(x ∧ y)", "SPECIFIED"⟩
    let m := (new "Test" "Test" "HOL_TO_LEAN_TO_AGDA" 20).run [.register inv]
    m.registry.getInvariant "inv-001" = some inv ∧
      (∀ t, ∃ program, m.toConstraintProgram t = .ok program ∧
        program.evaluate (fun _ => none) = true) ∧
      ¬ m.RejectsUnverified := by
  intro inv m
  have hinv : m.registry.getInvariant "inv-001" = some inv := AList.lookup_insert _
  have heval : ∀ t, ∃ program, m.toConstraintProgram t = .ok program ∧
      program.evaluate (fun _ => none) = true := by
    intro t
    refine ⟨_, toConstraintProgram_eq t m, (export_evaluate (toConstraintProgram_eq t m)).mpr ?_⟩
    intro id inv' hinv' hneg
    by_cases hid : id = "inv-001"
    · subst hid
      cases hinv.symm.trans hinv'
      cases hneg
    · have hnone : m.registry.getInvariant id = none := AList.lookup_insert_ne hid
      cases hnone.symm.trans hinv'
  refine ⟨hinv, heval, fun h => ?_⟩
  obtain ⟨program, hp, he⟩ := heval ⟨fun es => es, fun es => .refl es⟩
  have hb := h _ _ program hp he "inv-001" inv hinv nofun
  cases hb

end FormalizationMachine

end HyperKitty.Formalization
