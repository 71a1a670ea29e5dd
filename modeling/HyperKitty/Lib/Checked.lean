import HyperKitty.Lib.Exec

/-- How a program is built. -/
inductive Build where
  | debug | release
  deriving DecidableEq, Repr

namespace Checked

open Exec

/-- The integers of 64 bits. -/
def InRange (n : Int) : Prop := -2 ^ 63 ≤ n ∧ n < 2 ^ 63

instance (n : Int) : Decidable (InRange n) := inferInstanceAs (Decidable (_ ∧ _))

/-- What the machine makes of the exact result `n`. One that does not fit is a panic in a program
built for debugging, and is wrapped around in a released one. -/
def result {ε : Type} (b : Build) (n : Int) : Exec ε Int64 :=
  match b with
  | .debug => if InRange n then .ok (.ofInt n) else .error .panic
  | .release => .ok (.ofInt n)

section Operations

variable {ε : Type} (b : Build) (x y : Int64)

def add : Exec ε Int64 := result b (x.toInt + y.toInt)

def sub : Exec ε Int64 := result b (x.toInt - y.toInt)

def mul : Exec ε Int64 := result b (x.toInt * y.toInt)

def neg : Exec ε Int64 := result b (-x.toInt)

end Operations

variable {ε : Type} {b : Build} {n m : Int} {x y z : Int64}

theorem inRange_toInt (x : Int64) : InRange x.toInt := ⟨x.le_toInt, x.toInt_lt⟩

theorem toInt_ofInt (h : InRange n) : (Int64.ofInt n).toInt = n :=
  Int64.toInt_ofInt_of_le h.1 h.2

theorem result_ok (h : b = .debug → InRange n) : (result b n : Exec ε _) = .ok (.ofInt n) := by
  cases b with
  | debug => exact if_pos (h rfl)
  | release => rfl

/-- Where there is a result it is the exact one, wrapped around; and without overflow checks
there is always one. -/
theorem result_eq_ok :
    (result b n : Exec ε _) = .ok z ↔ z = .ofInt n ∧ (b = .debug → InRange n) := by
  cases b with
  | debug =>
    by_cases h : InRange n
    · simp [result, h, eq_comm]
    · simp [result, h]
  | release => simp [result, eq_comm]

/-- With overflow checks a result is exact. -/
theorem result_debug : (result .debug n : Exec ε _) = .ok z ↔ z.toInt = n := by
  rw [result_eq_ok]
  constructor
  · intro h
    obtain ⟨rfl, hr⟩ := h
    exact toInt_ofInt (hr rfl)
  · intro h
    subst h
    exact ⟨(Int64.ofInt_toInt z).symm, fun _ => inRange_toInt z⟩

theorem result_panic : (result .debug n : Exec ε _) = .error .panic ↔ ¬ InRange n := by
  by_cases h : InRange n <;> simp [result, h]

theorem ofInt_toInt_add (x y : Int64) : Int64.ofInt (x.toInt + y.toInt) = x + y := by
  rw [Int64.ofInt_add, Int64.ofInt_toInt, Int64.ofInt_toInt]

theorem ofInt_toInt_neg (x : Int64) : Int64.ofInt (-x.toInt) = -x := by
  rw [Int64.ofInt_neg, Int64.ofInt_toInt]

theorem toInt_add (h : InRange (x.toInt + y.toInt)) : (x + y).toInt = x.toInt + y.toInt := by
  rw [← ofInt_toInt_add, toInt_ofInt h]

theorem eq_neg_of_add_eq_zero (h : x + y = 0) : y = -x := by
  have hx : -x + (x + y) = y := by
    rw [← Int64.add_assoc, Int64.add_left_neg, Int64.zero_add]
  rw [← hx, h, Int64.add_zero]

theorem add_eq_ok : (add b x y : Exec ε _) = .ok z ↔
    z = x + y ∧ (b = .debug → InRange (x.toInt + y.toInt)) := by
  rw [add, result_eq_ok, ofInt_toInt_add]

theorem neg_eq_ok : (neg b x : Exec ε _) = .ok z ↔ z = -x ∧ (b = .debug → InRange (-x.toInt)) := by
  rw [neg, result_eq_ok, ofInt_toInt_neg]

theorem ofInt_toInt_sub (x y : Int64) : Int64.ofInt (x.toInt - y.toInt) = x - y := by
  rw [Int64.ofInt_sub, Int64.ofInt_toInt, Int64.ofInt_toInt]

theorem sub_eq_ok : (sub b x y : Exec ε _) = .ok z ↔
    z = x - y ∧ (b = .debug → InRange (x.toInt - y.toInt)) := by
  rw [sub, result_eq_ok, ofInt_toInt_sub]

theorem add_ofInt (h : b = .debug → InRange n ∧ InRange m) :
    (add b (.ofInt n) (.ofInt m) : Exec ε _) = result b (n + m) := by
  cases b with
  | debug =>
    obtain ⟨hn, hm⟩ := h rfl
    rw [add, toInt_ofInt hn, toInt_ofInt hm]
  | release => rw [add, result, result, ofInt_toInt_add, Int64.ofInt_add]

theorem neg_ofInt (h : b = .debug → InRange n) :
    (neg b (.ofInt n) : Exec ε _) = result b (-n) := by
  cases b with
  | debug => rw [neg, toInt_ofInt (h rfl)]
  | release => rw [neg, result, result, ofInt_toInt_neg, Int64.ofInt_neg]

/-- A number and its negative both have a place, where the build checks for one. -/
def Fits (b : Build) (n : Int) : Prop := b = .debug → InRange n ∧ InRange (-n)

instance (b : Build) (n : Int) : Decidable (Fits b n) :=
  inferInstanceAs (Decidable (b = .debug → _))

theorem fits_release (n : Int) : Fits .release n := nofun

theorem add_ofInt_neg (h : Fits b n) : (add b (.ofInt n) (.ofInt (-n)) : Exec ε _) = .ok 0 := by
  rw [add_ofInt h, Int.add_right_neg]
  exact result_ok fun _ => by decide

/-- A number and its negative are computed one after the other. -/
theorem result_neg {α : Type} (k : Int64 → Int64 → Exec ε α) :
    (do k (← result b n) (← result b (-n))) =
      if Fits b n then k (.ofInt n) (.ofInt (-n)) else .error .panic := by
  cases b with
  | release => rw [if_pos (fits_release n)]; rfl
  | debug =>
    by_cases hn : InRange n
    · by_cases hm : InRange (-n)
      · have hf : Fits .debug n := fun _ => ⟨hn, hm⟩
        rw [if_pos hf, result_ok fun _ => hn, result_ok fun _ => hm]
        rfl
      · have hf : ¬ Fits .debug n := fun h => hm (h rfl).2
        rw [if_neg hf, result_ok fun _ => hn, result_panic.mpr hm]
        rfl
    · have hf : ¬ Fits .debug n := fun h => hn (h rfl).1
      rw [if_neg hf, result_panic.mpr hn]
      rfl

/-- Negating a computed number is computing the negative. -/
theorem result_bind_neg {α : Type} (k : Int64 → Int64 → Exec ε α) :
    (do
      let d ← result b n
      k d (← neg b d)) = (do k (← result b n) (← result b (-n))) := by
  by_cases h : b = .debug → InRange n
  · rw [result_ok h, ok_bind, ok_bind, neg_ofInt h]
  · obtain ⟨rfl, hn⟩ := Classical.not_imp.mp h
    rw [result_panic.mpr hn]
    rfl

/-- Only the least integer has no negative. -/
theorem inRange_neg : InRange (-x.toInt) ↔ x ≠ Int64.minValue := by
  rw [← Int64.toInt_inj.ne, Int64.toInt_minValue]
  have hx := inRange_toInt x
  unfold InRange at hx ⊢
  omega

end Checked
