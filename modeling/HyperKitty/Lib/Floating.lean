import Mathlib

/-- A floating-point number whose finite values are exact. -/
inductive F64 (K : Type*) where
  | nan
  | infinite (negative : Bool)
  | finite (x : K)
  deriving DecidableEq, Repr

namespace F64

variable {K : Type*} [LinearOrder K]

def isFinite : F64 K → Bool
  | finite _ => true
  | _ => false

def ble : F64 K → F64 K → Bool
  | finite x, finite y => decide (x ≤ y)
  | infinite true, finite _ => true
  | finite _, infinite false => true
  | infinite m, infinite n => m || !n
  | _, _ => false

def blt : F64 K → F64 K → Bool
  | finite x, finite y => decide (x < y)
  | infinite true, finite _ => true
  | finite _, infinite false => true
  | infinite m, infinite n => m && !n
  | _, _ => false

/-- Comparing anything with a NaN is false. -/
instance : LE (F64 K) := ⟨fun x y => ble x y = true⟩

instance : LT (F64 K) := ⟨fun x y => blt x y = true⟩

instance (x y : F64 K) : Decidable (x ≤ y) := inferInstanceAs (Decidable (ble x y = true))

instance (x y : F64 K) : Decidable (x < y) := inferInstanceAs (Decidable (blt x y = true))

/-- The equality of the machine: a NaN is not equal to itself. -/
instance : BEq (F64 K) := ⟨fun x y => ble x y && ble y x⟩

@[simp] theorem finite_le_finite {x y : K} : finite x ≤ finite y ↔ x ≤ y := decide_eq_true_iff

@[simp] theorem finite_lt_finite {x y : K} : finite x < finite y ↔ x < y := decide_eq_true_iff

@[simp] theorem not_nan_le (x : F64 K) : ¬ nan ≤ x := by
  simp [LE.le, ble]

@[simp] theorem not_le_nan (x : F64 K) : ¬ x ≤ nan := by
  simp [LE.le, ble]

@[simp] theorem finite_beq_self (x : K) : (finite x == finite x) = true := by
  simp [BEq.beq, ble]

/-- Only exact values lie between two exact bounds. -/
theorem between_iff {a b : K} {x : F64 K} :
    finite a ≤ x ∧ x ≤ finite b ↔ ∃ q, x = finite q ∧ a ≤ q ∧ q ≤ b := by
  cases x with
  | nan => simp
  | infinite n =>
    cases n with
    | true => simp [LE.le, ble]
    | false => simp [LE.le, ble]
  | finite q => simp

/-- Ruling out what is not finite and what lies outside the bounds leaves what
lies between them. -/
theorem isFinite_between_iff {a b : K} {x : F64 K} :
    x.isFinite = true ∧ ¬ x < finite a ∧ ¬ finite b < x ↔ finite a ≤ x ∧ x ≤ finite b := by
  rw [between_iff]
  cases x with
  | nan => simp [isFinite]
  | infinite n => simp [isFinite]
  | finite q => simp [isFinite]

section Arithmetic

variable [AddCommGroup K]

def neg : F64 K → F64 K
  | nan => nan
  | infinite n => infinite (!n)
  | finite x => finite (-x)

/-- Opposite infinities have no sum. -/
def add : F64 K → F64 K → F64 K
  | finite x, finite y => finite (x + y)
  | infinite m, infinite n => if m = n then infinite m else nan
  | infinite m, finite _ => infinite m
  | finite _, infinite n => infinite n
  | _, _ => nan

instance : Neg (F64 K) := ⟨neg⟩

instance : Add (F64 K) := ⟨add⟩

instance : Sub (F64 K) := ⟨fun x y => x + -y⟩

/-- The absolute value of the C library. -/
def fabs : F64 K → F64 K
  | nan => nan
  | infinite _ => infinite false
  | finite x => finite |x|

@[simp] theorem fabs_finite_sub (x y : K) : fabs (finite x - finite y) = finite |x - y| := by
  rw [sub_eq_add_neg]
  rfl

/-- The difference of two numbers is not a number. -/
def Incomparable (x y : F64 K) : Prop :=
  x = nan ∨ y = nan ∨ ∃ n, x = infinite n ∧ y = infinite n

/-- Two exact values whose distance satisfies a condition. -/
def Apart (P : K → Prop) (x y : F64 K) : Prop :=
  ∃ a b, x = finite a ∧ y = finite b ∧ P |a - b|

theorem fabs_sub_of_infinite {x y : F64 K} (h : x.isFinite = false ∨ y.isFinite = false) :
    fabs (x - y) = nan ∧ Incomparable x y ∨
      fabs (x - y) = infinite false ∧ ¬ Incomparable x y := by
  unfold Incomparable
  cases x with
  | nan => exact .inl ⟨rfl, .inl rfl⟩
  | infinite m =>
    cases y with
    | nan => exact .inl ⟨rfl, .inr (.inl rfl)⟩
    | infinite n =>
      cases m with
      | true =>
        cases n with
        | true => exact .inl ⟨rfl, .inr (.inr ⟨true, rfl, rfl⟩)⟩
        | false => exact .inr ⟨rfl, by simp⟩
      | false =>
        cases n with
        | true => exact .inr ⟨rfl, by simp⟩
        | false => exact .inl ⟨rfl, .inr (.inr ⟨false, rfl, rfl⟩)⟩
    | finite b => exact .inr ⟨rfl, by simp⟩
  | finite a =>
    cases y with
    | nan => exact .inl ⟨rfl, .inr (.inl rfl)⟩
    | infinite n => exact .inr ⟨rfl, by simp⟩
    | finite b => simp [isFinite] at h

theorem not_apart_of_infinite {x y : F64 K} {P : K → Prop}
    (h : x.isFinite = false ∨ y.isFinite = false) : ¬ Apart P x y := by
  rintro ⟨a, b, rfl, rfl, _⟩
  simp [isFinite] at h

/-- Only the distance of exact values is below a bound. -/
theorem fabs_sub_lt_iff {x y : F64 K} {r : K} :
    fabs (x - y) < finite r ↔ Apart (· < r) x y := by
  by_cases h : x.isFinite = false ∨ y.isFinite = false
  · rw [iff_false_right (not_apart_of_infinite h)]
    rcases fabs_sub_of_infinite h with ⟨he, _⟩ | ⟨he, _⟩
    · rw [he]
      exact Bool.false_ne_true
    · rw [he]
      exact Bool.false_ne_true
  · cases x with
    | finite a =>
      cases y with
      | finite b => simp [Apart]
      | _ => simp [isFinite] at h
    | _ => simp [isFinite] at h

/-- A distance that does not exist does not exceed any bound either. -/
theorem not_lt_fabs_sub_iff {x y : F64 K} {r : K} :
    ¬ finite r < fabs (x - y) ↔ Incomparable x y ∨ Apart (· ≤ r) x y := by
  by_cases h : x.isFinite = false ∨ y.isFinite = false
  · rw [or_iff_left (not_apart_of_infinite h)]
    rcases fabs_sub_of_infinite h with ⟨he, hi⟩ | ⟨he, hi⟩
    · rw [he]
      exact iff_of_true Bool.false_ne_true hi
    · rw [he]
      exact iff_of_false (fun hn => hn rfl) hi
  · cases x with
    | finite a =>
      cases y with
      | finite b => simp [Apart, Incomparable]
      | _ => simp [isFinite] at h
    | _ => simp [isFinite] at h

end Arithmetic

/-- What is at most an exact bound, minus infinity included. -/
theorem le_finite_iff {x : F64 K} {b : K} :
    x ≤ finite b ↔ x = infinite true ∨ ∃ a, x = finite a ∧ a ≤ b := by
  cases x with
  | nan => simp
  | infinite n =>
    cases n with
    | true => simp [LE.le, ble]
    | false => simp [LE.le, ble]
  | finite a => simp

theorem lt_finite_iff {x : F64 K} {b : K} :
    x < finite b ↔ x = infinite true ∨ ∃ a, x = finite a ∧ a < b := by
  cases x with
  | nan => simp [LT.lt, blt]
  | infinite n =>
    cases n with
    | true => simp [LT.lt, blt]
    | false => simp [LT.lt, blt]
  | finite a => simp

end F64
