import HyperKitty.Lib.Exec

namespace Orbit

open Exec

variable {ε α β : Type} (f : α → α) (stop : α → Bool)

/-- The value that a loop begins with, and those of its first `n` passes. -/
def upTo (n : Nat) (x : α) : List α := (List.range (n + 1)).map fun k => f^[k] x

/-- The first value that stops is that of pass `n`. -/
structure StopsAt (x : α) (n : Nat) : Prop where
  here : stop (f^[n] x) = true
  before : ∀ k < n, stop (f^[k] x) = false

variable {f stop} {n fuel : Nat} {x : α}

@[simp] theorem upTo_zero : upTo f 0 x = [x] := rfl

theorem upTo_succ : upTo f (n + 1) x = x :: upTo f n (f x) := by
  rw [upTo, List.range_succ_eq_map, List.map_cons, List.map_map]
  rfl

@[simp] theorem length_upTo : (upTo f n x).length = n + 1 := by
  rw [upTo, List.length_map, List.length_range]

theorem getElem?_upTo {k : Nat} (h : k ≤ n) : (upTo f n x)[k]? = some (f^[k] x) := by
  rw [upTo, List.getElem?_map, List.getElem?_range (by omega)]
  rfl

theorem StopsAt.pred (h : StopsAt f stop x (n + 1)) : StopsAt f stop (f x) n where
  here := h.here
  before := fun k hk => h.before (k + 1) (Nat.succ_lt_succ hk)

/-- A loop whose passes stop at their value or record the next one comes back with the orbit up
to where it stops, once it is given more passes than that. -/
theorem loop_records (history : List α) {body : α × List α → Exec ε (Step (α × List α) β)}
    {out : α → List α → β}
    (hstop : ∀ x history, stop x = true → body (x, history) = .ok (.done (out x history)))
    (hgo : ∀ x history, stop x = false →
      body (x, history) = .ok (.next (f x, history ++ [f x])))
    (h : StopsAt f stop x n) (hfuel : n < fuel) :
    loop fuel body (x, history ++ [x]) = .ok (out (f^[n] x) (history ++ upTo f n x)) := by
  induction n generalizing fuel x history with
  | zero =>
    obtain ⟨m, rfl⟩ : ∃ m, fuel = m + 1 := ⟨fuel - 1, by omega⟩
    exact loop_done (hstop x _ h.here)
  | succ n ih =>
    obtain ⟨m, rfl⟩ : ∃ m, fuel = m + 1 := ⟨fuel - 1, by omega⟩
    rw [loop_next (hgo x _ (h.before 0 (Nat.succ_pos n))), ih _ h.pred (by omega), upTo_succ,
      List.append_assoc, Function.iterate_succ_apply]
    rfl

end Orbit
