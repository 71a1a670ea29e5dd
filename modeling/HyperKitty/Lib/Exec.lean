import Mathlib

namespace Exec

universe u v w

/-- How imperative code ends when it does not return a value: it reports an
error, it panics, or the bound on its loops runs out first. -/
inductive Fault (ε : Type u) where
  | error (e : ε)
  | panic
  | outOfFuel
  deriving DecidableEq, Repr

end Exec

/-- The result of running code whose own errors are values of `ε`. -/
abbrev Exec (ε : Type u) (α : Type v) : Type (max u v) := Except (Exec.Fault ε) α

namespace Exec

variable {ε : Type u} {α β σ : Type v}

/-- Report an error of the program, as opposed to a panic of the language. -/
def fail (e : ε) : Exec ε α := .error (.error e)

@[simp] theorem pure_eq (a : α) : (pure a : Exec ε α) = .ok a := rfl

@[simp] theorem ok_bind (a : α) (f : α → Exec ε β) : (Except.ok a >>= f : Exec ε β) = f a := rfl

@[simp] theorem error_bind (e : Fault ε) (f : α → Exec ε β) :
    (Except.error e >>= f : Exec ε β) = .error e := rfl

@[simp] theorem fail_bind (e : ε) (f : α → Exec ε β) :
    ((fail e : Exec ε α) >>= f) = fail e := rfl

/-- A sequence succeeds exactly when both of its parts do. -/
theorem bind_ok (x : Exec ε α) (f : α → Exec ε β) (b : β) :
    (x >>= f) = .ok b ↔ ∃ a, x = .ok a ∧ f a = .ok b := by
  cases x <;> simp

/-- One check after another passes exactly when both of them do. -/
theorem seq_ok {α : Type} (x : Except ε Unit) (y : Except ε α) (a : α) :
    (x >>= fun _ => y) = .ok a ↔ x = .ok () ∧ y = .ok a := by
  cases x <;> simp [bind, Except.bind]

/-- Code that succeeds on every entry of a list succeeds on the list. -/
theorem mapM_ok {ι : Type w} {xs : List ι} {f : ι → Exec ε β} {g : ι → β}
    (h : ∀ x ∈ xs, f x = .ok (g x)) : xs.mapM f = .ok (xs.map g) := by
  induction xs with
  | nil => rfl
  | cons x xs ih =>
    rw [List.mapM_cons, h x List.mem_cons_self, ok_bind,
      ih fun y hy => h y (List.mem_cons_of_mem _ hy)]
    rfl

/-- A loop over a list whose passes all succeed is a fold. -/
theorem foldlM_ok {ι : Type w} {xs : List ι} {f : σ → ι → Exec ε σ} {g : σ → ι → σ} {s : σ}
    (h : ∀ x ∈ xs, ∀ s, f s x = .ok (g s x)) : xs.foldlM f s = .ok (xs.foldl g s) := by
  induction xs generalizing s with
  | nil => rfl
  | cons x xs ih =>
    rw [List.foldlM_cons, h x List.mem_cons_self, ok_bind,
      ih fun y hy => h y (List.mem_cons_of_mem _ hy)]
    rfl

/-- The code comes back to its caller, with a value or with an error of its own. -/
def Returns (x : Exec ε α) : Prop := (∃ a, x = .ok a) ∨ ∃ e, x = fail e

@[simp] theorem returns_ok (a : α) : Returns (.ok a : Exec ε α) := Or.inl ⟨a, rfl⟩

@[simp] theorem returns_fail (e : ε) : Returns (fail e : Exec ε α) := Or.inr ⟨e, rfl⟩

theorem Returns.bind {x : Exec ε α} {f : α → Exec ε β} (hx : Returns x)
    (hf : ∀ a, x = .ok a → Returns (f a)) : Returns (x >>= f) := by
  rcases hx with ⟨a, rfl⟩ | ⟨e, rfl⟩
  · exact hf a rfl
  · exact returns_fail e

/-- What one pass through a loop body decides. -/
inductive Step (σ : Type v) (α : Type w) where
  | next (s : σ)
  | done (a : α)

/-- Repeat `body` until it is done, for at most `fuel` passes. -/
def loop {α : Type v} : Nat → (σ → Exec ε (Step σ α)) → σ → Exec ε α
  | 0, _, _ => .error .outOfFuel
  | fuel + 1, body, s => do
    match ← body s with
    | .next s' => loop fuel body s'
    | .done a => pure a

variable {body : σ → Exec ε (Step σ α)} {s t : σ} {n : Nat}

theorem loop_next (h : body s = .ok (.next t)) : loop (n + 1) body s = loop n body t := by
  simp [loop, h]

theorem loop_done {a : α} (h : body s = .ok (.done a)) : loop (n + 1) body s = .ok a := by
  simp [loop, h]

theorem loop_error {f : Fault ε} (h : body s = .error f) : loop (n + 1) body s = .error f := by
  simp [loop, h]

/-- The states that the passes of a loop go through. -/
inductive Reaches {α : Type v} (body : σ → Exec ε (Step σ α)) (s : σ) : σ → Prop
  | start : Reaches body s s
  | next {t u : σ} (h : Reaches body s t) (hb : body t = .ok (.next u)) : Reaches body s u

/-- The total-correctness rule. The invariant `I` holds at each pass, every
pass that goes on lowers the variant `μ`, and a pass that stops establishes `Q`. -/
theorem loop_rule (I : σ → Prop) (Q : α → Prop) (μ : σ → Nat)
    (hnext : ∀ s s', I s → body s = .ok (.next s') → I s' ∧ μ s' < μ s)
    (hdone : ∀ s a, I s → body s = .ok (.done a) → Q a)
    (hret : ∀ s, I s → Returns (body s))
    (hs : I s) (hn : μ s < n) :
    (∃ a, loop n body s = .ok a ∧ Q a) ∨ ∃ e, loop n body s = fail e := by
  induction n generalizing s with
  | zero => omega
  | succ n ih =>
    rcases hret s hs with ⟨r, hr⟩ | ⟨e, he⟩
    · cases r with
      | next s' =>
        obtain ⟨hs', hlt⟩ := hnext s s' hs hr
        rw [loop_next hr]
        exact ih hs' (by omega)
      | done a => exact Or.inl ⟨a, loop_done hr, hdone s a hs hr⟩
    · exact Or.inr ⟨e, loop_error he⟩

section Partial

variable {γ δ : Type v} {x : Exec ε γ} {f : γ → Exec ε δ}
variable {P : γ → Prop} {Q : δ → Prop} {I : σ → Prop}

/-- What the code comes back with, if with a value, satisfies `P`. -/
def Ensures (x : Exec ε γ) (P : γ → Prop) : Prop := ∀ a, x = .ok a → P a

theorem ensures_pure {a : γ} (h : P a) : Ensures (pure a : Exec ε γ) P := by
  intro b hb
  cases hb
  exact h

theorem ensures_fail (e : ε) : Ensures (fail e : Exec ε γ) P := by
  intro a ha
  cases ha

theorem ensures_true (x : Exec ε γ) : Ensures x fun _ => True := fun _ _ => trivial

theorem Ensures.bind (hx : Ensures x P) (hf : ∀ a, P a → Ensures (f a) Q) :
    Ensures (x >>= f) Q := by
  intro b hb
  obtain ⟨a, ha, hfa⟩ := (bind_ok x f b).mp hb
  exact hf a (hx a ha) b hfa

/-- A pass that goes on satisfies `I`, and one that stops `Q`. -/
def Step.Sat (I : σ → Prop) (Q : δ → Prop) : Step σ δ → Prop
  | .next s => I s
  | .done a => Q a

variable {pass : σ → Exec ε (Step σ δ)}

theorem ensures_loop (h : ∀ s, I s → Ensures (pass s) (Step.Sat I Q)) (hs : I s) :
    Ensures (loop n pass s) Q := by
  induction n generalizing s with
  | zero =>
    intro a ha
    cases ha
  | succ n ih =>
    rw [loop]
    refine (h s hs).bind fun r hr => ?_
    cases r with
    | next t => exact ih hr
    | done a => exact ensures_pure hr

/-- What every pass preserves holds at every pass. -/
theorem Reaches.sat (h : ∀ s, I s → Ensures (pass s) (Step.Sat I Q)) (hs : I s)
    (hr : Reaches pass s t) : I t := by
  induction hr with
  | start => exact hs
  | next _ hb ih => exact h _ ih _ hb

end Partial

end Exec
