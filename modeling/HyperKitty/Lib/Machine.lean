import Mathlib

namespace Machine

variable {σ ι ω : Type*} (step : σ → ι → ω × σ)

/-- The state after the inputs. -/
def run (s : σ) (inputs : List ι) : σ := inputs.foldl (fun s i => (step s i).2) s

/-- The inputs with the answers they got. -/
def log (s : σ) : List ι → List (ι × ω)
  | [] => []
  | i :: is => (i, (step s i).1) :: log (step s i).2 is

variable {step}

@[simp] theorem run_nil (s : σ) : run step s [] = s := rfl

@[simp] theorem log_nil (s : σ) : log step s [] = [] := rfl

theorem run_snoc (s : σ) (is : List ι) (i : ι) :
    run step s (is ++ [i]) = (step (run step s is) i).2 := by
  simp [run]

theorem log_append (s : σ) (is js : List ι) :
    log step s (is ++ js) = log step s is ++ log step (run step s is) js := by
  induction is generalizing s with
  | nil => rfl
  | cons i is ih =>
    rw [List.cons_append, log, ih, log, List.cons_append]
    rfl

theorem log_snoc (s : σ) (is : List ι) (i : ι) :
    log step s (is ++ [i]) = log step s is ++ [(i, (step (run step s is) i).1)] :=
  log_append s is [i]

@[simp] theorem log_inputs (s : σ) (is : List ι) : (log step s is).map Prod.fst = is := by
  induction is generalizing s with
  | nil => rfl
  | cons i is ih => rw [log, List.map_cons, ih]

@[simp] theorem log_length (s : σ) (is : List ι) : (log step s is).length = is.length := by
  rw [← List.length_map (f := Prod.fst), log_inputs]

/-- What every step answers is what is found in a log. -/
theorem forall_mem_log {P : ι × ω → Prop} (hP : ∀ s i, P (i, (step s i).1)) {s : σ} {is : List ι} :
    ∀ e ∈ log step s is, P e := by
  induction is generalizing s with
  | nil => nofun
  | cons i is ih =>
    rw [log, List.forall_mem_cons]
    exact ⟨hP s i, ih⟩

/-- The rule for what relates every history to the state it ends in. -/
theorem run_rule {R : List (ι × ω) → σ → Prop} {s : σ} (h0 : R [] s)
    (hstep : ∀ l s i, R l s → R (l ++ [(i, (step s i).1)]) (step s i).2) (is : List ι) :
    R (log step s is) (run step s is) := by
  induction is using List.reverseRecOn with
  | nil => exact h0
  | append_singleton is i ih =>
    rw [log_snoc, run_snoc]
    exact hstep _ _ i ih

/-- `P` holds of every input with the inputs before it. -/
def Throughout (P : List ι → ι → Prop) (is : List ι) : Prop :=
  ∀ js i, js ++ [i] <+: is → P js i

variable {P : List ι → ι → Prop} {is : List ι} {i : ι}

@[simp] theorem throughout_nil : Throughout P [] := by
  intro js i h
  simp at h

theorem throughout_snoc : Throughout P (is ++ [i]) ↔ Throughout P is ∧ P is i := by
  constructor
  · intro h
    exact ⟨fun js j hj => h js j (hj.trans (List.prefix_append is [i])),
      h is i (List.prefix_refl _)⟩
  · intro h js j hj
    rcases List.prefix_concat_iff.mp hj with he | hj
    · obtain ⟨rfl, hi⟩ := List.append_inj' he rfl
      cases hi
      exact h.2
    · exact h.1 js j hj

theorem Throughout.of_prefix {js : List ι} (h : Throughout P is) (hj : js <+: is) :
    Throughout P js :=
  fun ks i hk => h ks i (hk.trans hj)

theorem Throughout.of_mem (h : Throughout P is) (hi : i ∈ is) : ∃ js, P js i := by
  obtain ⟨js, ks, rfl⟩ := List.append_of_mem hi
  exact ⟨js, h js i ⟨ks, by simp⟩⟩

end Machine
