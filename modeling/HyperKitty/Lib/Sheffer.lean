import Mathlib

namespace Sheffer

/-- The functions that the stroke makes of the bits of a list. Only the lists of `n` bits count. -/
inductive Built (n : Nat) : (List Bool → Bool) → Prop
  | bit {i : Nat} : i < n → Built n fun s => s.getD i false
  | stroke {f g : List Bool → Bool} : Built n f → Built n g → Built n fun s => !(f s && g s)
  | agree {f g : List Bool → Bool} : Built n f → (∀ s, s.length = n → f s = g s) → Built n g

variable {n k : Nat} {c f g : List Bool → Bool}

namespace Built

theorem complement (hf : Built n f) : Built n fun s => !f s :=
  (hf.stroke hf).agree fun s _ => by rw [Bool.and_self]

theorem constant (hn : 0 < n) (b : Bool) : Built n fun _ => b := by
  have hbit := bit hn
  have htrue : Built n fun _ => true :=
    (hbit.stroke hbit.complement).agree fun s _ => by rw [Bool.and_not_self, Bool.not_false]
  cases b with
  | true => exact htrue
  | false => exact htrue.complement

/-- A function chooses between two others. -/
theorem choice (hc : Built n c) (hf : Built n f) (hg : Built n g) :
    Built n fun s => if c s then f s else g s := by
  refine ((hc.stroke hf).stroke (hc.complement.stroke hg)).agree fun s _ => ?_
  cases c s <;> simp

/-- Every function of the first `k` bits, one bit after another. -/
theorem take (hk : k ≤ n) (hn : 0 < n) (f : List Bool → Bool) :
    Built n fun s => f (s.take k) := by
  induction k generalizing f with
  | zero => exact constant hn (f [])
  | succ k ih =>
    have hkn : k ≤ n := Nat.le_of_succ_le hk
    refine (choice (bit hk) (ih hkn fun s => f (s ++ [true]))
      (ih hkn fun s => f (s ++ [false]))).agree fun s hs => ?_
    have hlt : k < s.length := hs ▸ hk
    rw [List.take_succ_eq_append_getElem hlt, List.getD_eq_getElem s false hlt]
    cases s[k] <;> rfl

end Built

/-- The stroke is universal. -/
theorem built (hn : 0 < n) (f : List Bool → Bool) : Built n f :=
  (Built.take le_rfl hn f).agree fun s hs => by rw [List.take_of_length_le hs.le]

end Sheffer
