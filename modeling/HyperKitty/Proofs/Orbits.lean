import HyperKitty.Jordan.Convergence
import HyperKitty.Proofs.Densities

namespace HyperKitty.Jordan

open DensityMatrix Exec

/-- The distance of the entry `k` from the next one. -/
def StepDistance (iterations : List (DensityMatrix ℝ)) (k : Nat) (d : ℝ) : Prop :=
  ∃ a b, iterations[k]? = some a ∧ iterations[k + 1]? = some b ∧
    a.distanceTo Real.sqrt b = .ok d

def ShortStep (tolerance : ℝ) (iterations : List (DensityMatrix ℝ)) (k : Nat) : Prop :=
  ∃ d < tolerance, StepDistance iterations k d

/-- The trace is the orbit of `rho` up to its first short step, or for all rounds. -/
structure Genuine (rho u : DensityMatrix ℝ) (maxIters : Nat) (tolerance : ℝ)
    (trace : ConvergenceTrace ℝ) : Prop where
  first : trace.iterations[0]? = some rho
  next : ∀ k a b, trace.iterations[k]? = some a → trace.iterations[k + 1]? = some b →
    a.evolve u = .ok b
  converged : trace.converged = true ↔ ∃ k < maxIters, ShortStep tolerance trace.iterations k
  stopped : trace.converged = true → ∃ k, trace.iterations.length = k + 2 ∧
    ShortStep tolerance trace.iterations k ∧ ∀ j < k, ¬ ShortStep tolerance trace.iterations j
  exhausted : trace.converged = false → trace.iterations.length = maxIters + 1
  unmeasured : maxIters = 0 → trace.finalDistance = .infinite false
  last : 0 < maxIters → ∃ k d, trace.iterations.length = k + 2 ∧
    StepDistance trace.iterations k d ∧ trace.finalDistance = .finite d

/-- The trace after `n` rounds without a short step, at the matrix `current`. -/
structure Running (rho u : DensityMatrix ℝ) (tolerance : ℝ) (n : Nat) (current : DensityMatrix ℝ)
    (trace : ConvergenceTrace ℝ) : Prop where
  length : trace.iterations.length = n + 1
  first : trace.iterations[0]? = some rho
  next : ∀ k a b, trace.iterations[k]? = some a → trace.iterations[k + 1]? = some b →
    a.evolve u = .ok b
  current : trace.iterations[n]? = some current
  long : ∀ k, ¬ ShortStep tolerance trace.iterations k
  converged : trace.converged = false
  unmeasured : n = 0 → trace.finalDistance = .infinite false
  last : 0 < n → ∃ k d, trace.iterations.length = k + 2 ∧
    StepDistance trace.iterations k d ∧ trace.finalDistance = .finite d

variable {rho u current rhoNext : DensityMatrix ℝ} {tolerance distance : ℝ} {n rounds : Nat}
variable {trace : ConvergenceTrace ℝ} {iterations : List (DensityMatrix ℝ)}

/-- Two neighbours in the longer list are neighbours in the shorter one, or are the last two. -/
theorem neighbours_append (hlen : iterations.length = n + 1) (hcur : iterations[n]? = some current)
    {k : Nat} {a b : DensityMatrix ℝ} :
    (iterations ++ [rhoNext])[k]? = some a ∧ (iterations ++ [rhoNext])[k + 1]? = some b ↔
      (iterations[k]? = some a ∧ iterations[k + 1]? = some b) ∨
        (k = n ∧ a = current ∧ b = rhoNext) := by
  rcases Nat.lt_trichotomy k n with h | h | h
  · rw [List.getElem?_append_left (by omega), List.getElem?_append_left (by omega)]
    simp [h.ne]
  · subst h
    have hnone : iterations[k + 1]? = none := List.getElem?_eq_none (by omega)
    rw [List.getElem?_append_left (by omega), hcur, ← hlen, List.getElem?_concat_length, hlen,
      hnone]
    simp [eq_comm]
  · have hnone : iterations[k + 1]? = none := List.getElem?_eq_none (by omega)
    have hnone' : (iterations ++ [rhoNext])[k + 1]? = none :=
      List.getElem?_eq_none (by simp; omega)
    rw [hnone, hnone']
    simp [h.ne']

theorem stepDistance_append (hlen : iterations.length = n + 1)
    (hcur : iterations[n]? = some current) {k : Nat} {d : ℝ} :
    StepDistance (iterations ++ [rhoNext]) k d ↔
      StepDistance iterations k d ∨ (k = n ∧ current.distanceTo Real.sqrt rhoNext = .ok d) := by
  constructor
  · rintro ⟨a, b, ha, hb, hd⟩
    rcases (neighbours_append hlen hcur).mp ⟨ha, hb⟩ with ⟨ha, hb⟩ | ⟨hk, rfl, rfl⟩
    · exact .inl ⟨a, b, ha, hb, hd⟩
    · exact .inr ⟨hk, hd⟩
  · rintro (⟨a, b, ha, hb, hd⟩ | ⟨hk, hd⟩)
    · obtain ⟨ha, hb⟩ := (neighbours_append hlen hcur).mpr (.inl ⟨ha, hb⟩)
      exact ⟨a, b, ha, hb, hd⟩
    · obtain ⟨ha, hb⟩ := (neighbours_append hlen hcur).mpr (.inr ⟨hk, rfl, rfl⟩)
      exact ⟨_, _, ha, hb, hd⟩

theorem Running.start (rho u : DensityMatrix ℝ) (tolerance : ℝ) :
    Running rho u tolerance 0 rho ⟨[rho], false, .infinite false⟩ where
  length := rfl
  first := rfl
  next := by
    intro k a b _ hb
    cases hb
  current := rfl
  long := by
    rintro k ⟨d, _, a, b, _, hb, _⟩
    cases hb
  converged := rfl
  unmeasured := fun _ => rfl
  last := nofun

namespace Running

variable (h : Running rho u tolerance n current trace)
include h

/-- What a round adds to the trace. -/
theorem next_append (hnext : current.evolve u = .ok rhoNext) (k : Nat) (a b : DensityMatrix ℝ)
    (ha : (trace.iterations ++ [rhoNext])[k]? = some a)
    (hb : (trace.iterations ++ [rhoNext])[k + 1]? = some b) : a.evolve u = .ok b := by
  rcases (neighbours_append h.length h.current).mp ⟨ha, hb⟩ with ⟨ha, hb⟩ | ⟨-, rfl, rfl⟩
  · exact h.next k a b ha hb
  · exact hnext

theorem first_append (rhoNext : DensityMatrix ℝ) :
    (trace.iterations ++ [rhoNext])[0]? = some rho := by
  rw [List.getElem?_append_left (by rw [h.length]; omega)]
  exact h.first

theorem last_append (hd : current.distanceTo Real.sqrt rhoNext = .ok distance) :
    StepDistance (trace.iterations ++ [rhoNext]) n distance :=
  (stepDistance_append h.length h.current).mpr (.inr ⟨rfl, hd⟩)

theorem long_append {k : Nat} (hk : k ≠ n) :
    ¬ ShortStep tolerance (trace.iterations ++ [rhoNext]) k := by
  rintro ⟨d, hd, hstep⟩
  rcases (stepDistance_append h.length h.current).mp hstep with hstep | ⟨hn, -⟩
  · exact h.long k ⟨d, hd, hstep⟩
  · exact hk hn

/-- A round with a long step goes on. -/
theorem step (hnext : current.evolve u = .ok rhoNext)
    (hd : current.distanceTo Real.sqrt rhoNext = .ok distance) (hlong : ¬ distance < tolerance) :
    Running rho u tolerance (n + 1) rhoNext
      ⟨trace.iterations ++ [rhoNext], trace.converged, .finite distance⟩ where
  length := by simp [h.length]
  first := h.first_append rhoNext
  next := h.next_append hnext
  current := by rw [← h.length, List.getElem?_concat_length]
  long := by
    intro k
    by_cases hk : k = n
    · rintro ⟨d, hlt, hstep⟩
      rcases (stepDistance_append h.length h.current).mp hstep with hstep | ⟨-, hd'⟩
      · exact h.long k ⟨d, hlt, hstep⟩
      · rw [hd] at hd'
        cases hd'
        exact hlong hlt
    · exact h.long_append hk
  converged := h.converged
  unmeasured := nofun
  last := fun _ => ⟨n, distance, by simp [h.length], h.last_append hd, rfl⟩

/-- A round with a short step ends the trace. -/
theorem stop (hnext : current.evolve u = .ok rhoNext)
    (hd : current.distanceTo Real.sqrt rhoNext = .ok distance) (hshort : distance < tolerance)
    {maxIters : Nat} (hn : n < maxIters) :
    Genuine rho u maxIters tolerance ⟨trace.iterations ++ [rhoNext], true, .finite distance⟩ where
  first := h.first_append rhoNext
  next := h.next_append hnext
  converged := iff_of_true rfl ⟨n, hn, distance, hshort, h.last_append hd⟩
  stopped := fun _ => ⟨n, by simp [h.length], ⟨distance, hshort, h.last_append hd⟩,
    fun j hj => h.long_append hj.ne⟩
  exhausted := nofun
  unmeasured := by omega
  last := fun _ => ⟨n, distance, by simp [h.length], h.last_append hd, rfl⟩

theorem genuine : Genuine rho u n tolerance trace where
  first := h.first
  next := h.next
  converged := by
    rw [h.converged]
    simp [h.long]
  stopped := by
    rw [h.converged]
    nofun
  exhausted := fun _ => h.length
  unmeasured := h.unmeasured
  last := h.last

theorem convergeLoop_genuine {maxIters : Nat} (hmax : n + rounds = maxIters) :
    Ensures (convergeLoop Real.sqrt u tolerance rounds current trace)
      (Genuine rho u maxIters tolerance) := by
  induction rounds generalizing n current trace with
  | zero =>
    subst hmax
    exact ensures_pure h.genuine
  | succ rounds ih =>
    intro final hfinal
    obtain ⟨rhoNext, hnext, hfinal⟩ := (bind_ok _ _ _).mp hfinal
    obtain ⟨distance, hd, hfinal⟩ := (bind_ok _ _ _).mp hfinal
    split at hfinal
    · rename_i hshort
      cases hfinal
      exact h.stop hnext hd hshort (by omega)
    · rename_i hlong
      exact ih (h.step hnext hd hlong) (by omega) final hfinal

end Running

/-- Whatever the matrices are, a trace that comes back is genuine. -/
theorem converge_genuine (rho u : DensityMatrix ℝ) (maxIters : Nat) (tolerance : ℝ) :
    Ensures (converge Real.sqrt rho u maxIters tolerance) (Genuine rho u maxIters tolerance) :=
  (Running.start rho u tolerance).convergeLoop_genuine (Nat.zero_add maxIters)

section Matrices

variable {size k : Nat} {a b : Matrix (Fin size) (Fin size) ℝ} {maxIters : Nat} {d : ℝ}

theorem convergeLoop_returns (b : Matrix (Fin size) (Fin size) ℝ) (tolerance : ℝ) (rounds : Nat)
    (a : Matrix (Fin size) (Fin size) ℝ) (trace : ConvergenceTrace ℝ) :
    ∃ final, convergeLoop Real.sqrt (ofMatrix b) tolerance rounds (ofMatrix a) trace =
      .ok final := by
  induction rounds generalizing a trace with
  | zero => exact ⟨trace, rfl⟩
  | succ rounds ih =>
    rw [convergeLoop, evolve_ofMatrix, ok_bind, distanceTo_ofMatrix, ok_bind]
    split
    · exact ⟨_, rfl⟩
    · exact ih _ _

theorem converge_returns (a b : Matrix (Fin size) (Fin size) ℝ) (maxIters : Nat) (tolerance : ℝ) :
    ∃ trace, converge Real.sqrt (ofMatrix a) (ofMatrix b) maxIters tolerance = .ok trace :=
  convergeLoop_returns b tolerance maxIters a _

/-- The square of the length of the `k`-th step. -/
noncomputable def stepEnergy (b a : Matrix (Fin size) (Fin size) ℝ) (k : Nat) : ℝ :=
  energyForm size ((evolved b)^[k + 1] a - (evolved b)^[k] a)

theorem stepEnergy_antitone (hb : b * b.transpose = 1) (a : Matrix (Fin size) (Fin size) ℝ) :
    Antitone (stepEnergy b a) := by
  have hanti := (averaged_conjugation hb).steps_antitone a
  rwa [← evolved_eq] at hanti

theorem exists_stepEnergy_lt (hb : b * b.transpose = 1) (a : Matrix (Fin size) (Fin size) ℝ)
    {ε : ℝ} (hε : 0 < ε) : ∃ k, stepEnergy b a k < ε := by
  have hstep := (averaged_conjugation hb).exists_short_step a hε
  rwa [← evolved_eq] at hstep

namespace Genuine

variable (h : Genuine (ofMatrix a) (ofMatrix b) maxIters tolerance trace)
include h

theorem entry {m : DensityMatrix ℝ} (hm : trace.iterations[k]? = some m) :
    m = ofMatrix ((evolved b)^[k] a) := by
  induction k generalizing m with
  | zero =>
    rw [h.first] at hm
    exact (Option.some.inj hm).symm
  | succ k ih =>
    have hlt : k + 1 < trace.iterations.length := (List.getElem?_eq_some_iff.mp hm).1
    have hprev : trace.iterations[k]? = some trace.iterations[k] := List.getElem?_eq_getElem _
    have hnext := h.next k _ m hprev hm
    rw [ih hprev, evolve_ofMatrix, ← Function.iterate_succ_apply' (evolved b)] at hnext
    exact (Except.ok.inj hnext).symm

theorem stepDistance_eq (hd : StepDistance trace.iterations k d) : d = √(stepEnergy b a k) := by
  obtain ⟨x, y, hx, hy, hd⟩ := hd
  rw [h.entry hx, h.entry hy, distanceTo_ofMatrix, ← energyForm_apply, QuadraticMap.map_sub] at hd
  exact (Except.ok.inj hd).symm

theorem exists_stepDistance (hk : k + 1 < trace.iterations.length) :
    StepDistance trace.iterations k √(stepEnergy b a k) := by
  have hx : trace.iterations[k]? = some trace.iterations[k] := List.getElem?_eq_getElem _
  have hy : trace.iterations[k + 1]? = some trace.iterations[k + 1] := List.getElem?_eq_getElem _
  refine ⟨_, _, hx, hy, ?_⟩
  rw [h.entry hx, h.entry hy, distanceTo_ofMatrix, ← energyForm_apply, QuadraticMap.map_sub]
  rfl

end Genuine

/-- A bound on the rounds under which the trace converges. -/
theorem exists_converged (hb : b * b.transpose = 1) (a : Matrix (Fin size) (Fin size) ℝ)
    (ht : 0 < tolerance) : ∃ maxIters trace,
      converge Real.sqrt (ofMatrix a) (ofMatrix b) maxIters tolerance = .ok trace ∧
        trace.converged = true := by
  obtain ⟨k, hk⟩ := exists_stepEnergy_lt hb a (pow_pos ht 2)
  obtain ⟨trace, htrace⟩ := converge_returns a b (k + 1) tolerance
  have hg := converge_genuine _ _ _ _ trace htrace
  refine ⟨k + 1, trace, htrace, ?_⟩
  by_contra hnot
  have hlen := hg.exhausted (Bool.eq_false_of_not_eq_true hnot)
  have hshort : √(stepEnergy b a k) < tolerance := (Real.sqrt_lt' ht).mpr hk
  exact hnot (hg.converged.mpr
    ⟨k, Nat.lt_succ_self k, _, hshort, hg.exists_stepDistance (by omega)⟩)

end Matrices

/-- A trace is the genuine orbit, stopped at its first short step. Under an orthogonal matrix its
steps never grow, and for a positive tolerance it converges. -/
theorem converge_trace (rho u : DensityMatrix ℝ) (tolerance : ℝ) :
    (∀ maxIters, Ensures (converge Real.sqrt rho u maxIters tolerance)
      (Genuine rho u maxIters tolerance)) ∧
    ∀ n, IsSquare n rho → IsSquare n u →
      (∀ maxIters, ∃ trace, converge Real.sqrt rho u maxIters tolerance = .ok trace) ∧
      (IsOrthogonal u →
        (∀ maxIters, Ensures (converge Real.sqrt rho u maxIters tolerance) fun trace =>
          ∀ k d d', StepDistance trace.iterations k d → StepDistance trace.iterations (k + 1) d' →
            d' ≤ d) ∧
        (0 < tolerance → ∃ maxIters trace,
          converge Real.sqrt rho u maxIters tolerance = .ok trace ∧ trace.converged = true)) := by
  refine ⟨fun maxIters => converge_genuine rho u maxIters tolerance, ?_⟩
  intro n hrho hu
  obtain ⟨a, rfl⟩ := exists_ofMatrix hrho
  obtain ⟨b, rfl⟩ := exists_ofMatrix hu
  refine ⟨fun maxIters => converge_returns a b maxIters tolerance, ?_⟩
  intro ho
  have hb := (isOrthogonal_ofMatrix b).mp ho
  refine ⟨?_, exists_converged hb a⟩
  intro maxIters trace htrace k d d' hd hd'
  have hg := converge_genuine _ _ _ _ trace htrace
  rw [hg.stepDistance_eq hd, hg.stepDistance_eq hd']
  exact Real.sqrt_le_sqrt (stepEnergy_antitone hb a (Nat.le_succ k))

theorem converge_trace_quarterTurn :
    ∃ maxIters trace, converge Real.sqrt (ofMatrix !![1, 2; 3, 4]) (ofMatrix quarterTurn)
      maxIters 1 = .ok trace ∧ trace.converged = true :=
  (((converge_trace (ofMatrix !![1, 2; 3, 4]) (ofMatrix quarterTurn) 1).2 2 (isSquare_ofMatrix _)
    (isSquare_ofMatrix _)).2 ((isOrthogonal_ofMatrix _).mpr quarterTurn_orthogonal)).2 one_pos

end HyperKitty.Jordan
