import HyperKitty.Gate.Context

namespace HyperKitty.Gate

open F64

variable {K : Type*} [Field K] [LinearOrder K]
variable {ctx : Context K}

/-- Two numbers stand at one place of the two arrays. -/
def Paired (ctx : Context K) (x y : F64 K) : Prop :=
  ∃ current next i, ctx.invariant.current = some current ∧ ctx.invariant.next = some next ∧
    x = current i ∧ y = next i

def HasArrays (ctx : Context K) : Prop :=
  ctx.invariant.current.isSome = true ∧ ctx.invariant.next.isSome = true

/-- The two sides of the balance are exact and closer than the tolerance. -/
def Balanced (ctx : Context K) : Prop :=
  Apart (· < balanceTolerance) (ctx.ledger.asset + ctx.ledger.equity)
    (ctx.ledger.liability + ctx.ledger.revenue)

/-- What a message has to satisfy in order to propagate. -/
structure Admissible (ctx : Context K) : Prop where
  balanced : Balanced ctx
  arrays : HasArrays ctx
  preserved : ∀ x y, Paired ctx x y → Apart (· ≤ invariantTolerance) x y
  entropy : finite 0 ≤ ctx.entropy ∧ ctx.entropy ≤ finite entropyThreshold
  proven : ctx.proof.valid ≠ 0

theorem checkAccountingBalance_iff :
    checkAccountingBalance ctx.ledger = true ↔ Balanced ctx := by
  rw [checkAccountingBalance, decide_eq_true_iff]
  exact fabs_sub_lt_iff

/-- A pair without a distance passes the check. -/
theorem checkInvariantPreserved_iff :
    checkInvariantPreserved ctx.invariant = true ↔ HasArrays ctx ∧
      ∀ x y, Paired ctx x y → Incomparable x y ∨ Apart (· ≤ invariantTolerance) x y := by
  unfold checkInvariantPreserved HasArrays Paired
  cases hc : ctx.invariant.current with
  | none => simp
  | some current =>
    cases hn : ctx.invariant.next with
    | none => simp
    | some next =>
      simp only [List.all_eq_true, List.mem_finRange, true_implies, Bool.not_eq_true',
        decide_eq_false_iff_not, not_lt_fabs_sub_iff, Option.isSome_some, and_self, true_and]
      constructor
      · rintro h x y ⟨_, _, i, hc', hn', rfl, rfl⟩
        cases hc'
        cases hn'
        exact h i
      · intro h i
        exact h _ _ ⟨current, next, i, rfl, rfl, rfl, rfl⟩

theorem constraintCheckAll_iff : constraintCheckAll (some ctx) = 1 ↔
    Balanced ctx ∧ HasArrays ctx ∧
      (∀ x y, Paired ctx x y → Incomparable x y ∨ Apart (· ≤ invariantTolerance) x y) ∧
      ctx.entropy ≤ finite entropyThreshold ∧ ctx.proof.valid ≠ 0 := by
  have hone (b : Bool) : (if b then (1 : Int) else 0) = 1 ↔ b = true := by
    cases b with
    | false => simp
    | true => simp
  rw [constraintCheckAll, hone]
  simp only [Bool.and_eq_true, checkAccountingBalance_iff, checkInvariantPreserved_iff,
    checkEntropyBound, checkProofExists, decide_eq_true_iff, bne_iff_ne]
  simp only [and_assoc]

/-- The gate lets nothing through but what is admissible. -/
def FailClosed (ctx : Context K) : Prop :=
  constraintCheckAll (some ctx) = 1 → Admissible ctx

/-- A pair of the invariant has no distance, or the entropy is below zero. -/
def Slips (ctx : Context K) : Prop :=
  (∃ x y, Paired ctx x y ∧ Incomparable x y) ∨ ctx.entropy < finite 0

/-- Something else keeps the message back. -/
inductive Blocked (ctx : Context K) : Prop
  | unbalanced : ¬ Balanced ctx → Blocked ctx
  | missing : ¬ HasArrays ctx → Blocked ctx
  | drifted {x y : F64 K} : Paired ctx x y → ¬ Incomparable x y →
      ¬ Apart (· ≤ invariantTolerance) x y → Blocked ctx
  | uncertain : ¬ ctx.entropy ≤ finite entropyThreshold → Blocked ctx
  | unproven : ctx.proof.valid = 0 → Blocked ctx

theorem not_blocked_iff : ¬ Blocked ctx ↔ constraintCheckAll (some ctx) = 1 := by
  rw [constraintCheckAll_iff]
  constructor
  · intro h
    refine ⟨?_, ?_, ?_, ?_, fun he => h (.unproven he)⟩
    · by_contra hn
      exact h (.unbalanced hn)
    · by_contra hn
      exact h (.missing hn)
    · intro x y hp
      by_contra hn
      rw [not_or] at hn
      exact h (.drifted hp hn.1 hn.2)
    · by_contra hn
      exact h (.uncertain hn)
  · intro ⟨hb, ha, hi, he, hp⟩ h
    cases h with
    | unbalanced hn => exact hn hb
    | missing hn => exact hn ha
    | drifted hpair hn hn' => exact (hi _ _ hpair).elim hn hn'
    | uncertain hn => exact hn he
    | unproven hn => exact hp hn

theorem not_apart_of_incomparable {x y : F64 K} {P : K → Prop} (h : Incomparable x y) :
    ¬ Apart P x y := by
  apply not_apart_of_infinite
  rcases h with rfl | rfl | ⟨n, rfl, _⟩
  · exact .inl rfl
  · exact .inr rfl
  · exact .inl rfl

theorem nonneg_iff {x : F64 K} {b : K} (h : x ≤ finite b) :
    finite 0 ≤ x ∧ x ≤ finite b ↔ ¬ x < finite 0 := by
  rw [between_iff, lt_finite_iff]
  rcases le_finite_iff.mp h with rfl | ⟨a, rfl, hle⟩
  · simp
  · simp [hle]

/-- The gate is closed exactly where what slips through it is kept back by something else. -/
theorem failClosed_iff (ctx : Context K) : FailClosed ctx ↔ (Slips ctx → Blocked ctx) := by
  constructor
  · intro h hs
    by_contra hb
    have ha := h (not_blocked_iff.mp hb)
    rcases hs with ⟨x, y, hp, hi⟩ | he
    · exact not_apart_of_incomparable hi (ha.preserved x y hp)
    · exact (nonneg_iff ha.entropy.2).mp ha.entropy he
  · intro h hone
    have hns : ¬ Slips ctx := fun hs => not_blocked_iff.mpr hone (h hs)
    obtain ⟨hb, ha, hi, he, hp⟩ := constraintCheckAll_iff.mp hone
    refine ⟨hb, ha, ?_, (nonneg_iff he).mpr fun hlt => hns (.inr hlt), hp⟩
    intro x y hpair
    exact (hi x y hpair).resolve_left fun hinc => hns (.inl ⟨x, y, hpair, hinc⟩)

/-- A proven message in balance whose only invariant is not a number any more. -/
def lostInvariant : Context ℚ where
  ledger := ⟨finite 1, finite 1, finite 2, finite 0⟩
  invariant := { dimension := 1, current := some fun _ => finite 1, next := some fun _ => nan }
  entropy := finite 0
  proof := ⟨1⟩

theorem lostInvariant_passes : ¬ FailClosed lostInvariant := by
  intro h
  have hone : constraintCheckAll (some lostInvariant) = 1 := by decide +kernel
  have hp : Paired lostInvariant (finite 1) nan :=
    ⟨_, _, (0 : Fin 1), rfl, rfl, rfl, rfl⟩
  obtain ⟨a, b, _, hb, _⟩ := (h hone).preserved _ _ hp
  cases hb

end HyperKitty.Gate
