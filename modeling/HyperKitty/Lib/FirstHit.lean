import Mathlib

namespace FirstHit

variable {α : Type*} (f : α → α) (hit : α → α → Bool)

/-- The loop with some rounds left, at a value of its counter. -/
def search : Nat → Nat → α → Option Nat
  | 0, _, _ => none
  | rounds + 1, counter, x =>
    let next := f x
    if hit x next then some counter else search rounds (counter + 1) next

variable {f hit}

/-- The `k`-th step from `x` satisfies the test. -/
def Hits (f : α → α) (hit : α → α → Bool) (x : α) (k : Nat) : Prop :=
  hit (f^[k] x) (f^[k + 1] x) = true

theorem search_eq_some {rounds counter n : Nat} {x : α} :
    search f hit rounds counter x = some n ↔
      ∃ k < rounds, n = counter + k ∧ Hits f hit x k ∧ ∀ j < k, ¬ Hits f hit x j := by
  induction rounds generalizing counter x with
  | zero => simp [search]
  | succ rounds ih =>
    by_cases h : hit x (f x) = true
    · simp only [search, h, if_true, Option.some.injEq]
      constructor
      · rintro rfl
        exact ⟨0, Nat.succ_pos _, rfl, h, nofun⟩
      · intro ⟨k, _, hn, _, hk⟩
        cases k with
        | zero => exact hn.symm
        | succ k => exact absurd h (hk 0 (Nat.succ_pos _))
    · simp only [search, h, ih, Bool.false_eq_true, if_false]
      constructor
      · intro ⟨k, hk, hn, hh, hj⟩
        refine ⟨k + 1, by omega, by omega, hh, ?_⟩
        intro j hlt
        cases j with
        | zero => exact h
        | succ j => exact hj j (by omega)
      · intro ⟨k, hk, hn, hh, hj⟩
        cases k with
        | zero => exact absurd hh h
        | succ k => exact ⟨k, by omega, by omega, hh, fun j hlt => hj (j + 1) (by omega)⟩

/-- From zero the loop returns the least round whose step satisfies the test. -/
theorem search_eq_some_iff_isLeast {rounds n : Nat} {x : α} :
    search f hit rounds 0 x = some n ↔ IsLeast {k | k < rounds ∧ Hits f hit x k} n := by
  rw [search_eq_some]
  constructor
  · rintro ⟨k, hk, rfl, hh, hj⟩
    rw [Nat.zero_add]
    refine ⟨⟨hk, hh⟩, ?_⟩
    intro m hm
    by_contra hlt
    exact hj m (not_le.mp hlt) hm.2
  · intro ⟨⟨hn, hh⟩, hleast⟩
    refine ⟨n, hn, (Nat.zero_add n).symm, hh, ?_⟩
    intro j hlt hj
    exact absurd (hleast ⟨hlt.trans hn, hj⟩) (not_le.mpr hlt)

theorem search_eq_none {rounds : Nat} {x : α} :
    search f hit rounds 0 x = none ↔ ∀ k < rounds, ¬ Hits f hit x k := by
  classical
  constructor
  · intro h k hk hh
    have hex : ∃ k, k < rounds ∧ Hits f hit x k := ⟨k, hk, hh⟩
    have hs : search f hit rounds 0 x = some (Nat.find hex) :=
      search_eq_some_iff_isLeast.mpr ⟨Nat.find_spec hex, fun m hm => Nat.find_min' hex hm⟩
    rw [h] at hs
    cases hs
  · intro h
    rw [Option.eq_none_iff_forall_ne_some]
    intro n hn
    have hl := (search_eq_some_iff_isLeast.mp hn).1
    exact h n hl.1 hl.2

section Limits

variable (f hit)

/-- A loop that is limited by a signed number and returns minus one at its end. -/
def run (limit : Int) (x : α) : Int :=
  match search f hit limit.toNat 0 x with
  | some counter => counter
  | none => -1

variable {f hit}

/-- A round before the limit whose step satisfies the test. -/
def Stops (f : α → α) (hit : α → α → Bool) (x : α) (limit k : Int) : Prop :=
  0 ≤ k ∧ k < limit ∧ Hits f hit x k.toNat

theorem stops_natCast {x : α} {limit : Int} {k : Nat} :
    Stops f hit x limit k ↔ k < limit.toNat ∧ Hits f hit x k := by
  unfold Stops
  rw [Int.toNat_natCast]
  constructor
  · intro ⟨_, hlt, h⟩
    exact ⟨by omega, h⟩
  · intro ⟨hlt, h⟩
    exact ⟨by omega, by omega, h⟩

theorem run_cases (f : α → α) (hit : α → α → Bool) (limit : Int) (x : α) :
    ((∀ k, ¬ Stops f hit x limit k) ∧ run f hit limit x = -1) ∨
      IsLeast {k | Stops f hit x limit k} (run f hit limit x) := by
  unfold run
  cases hs : search f hit limit.toNat 0 x with
  | none =>
    left
    refine ⟨?_, rfl⟩
    intro k hk
    obtain ⟨k, rfl⟩ := Int.eq_ofNat_of_zero_le hk.1
    have hk' := stops_natCast.mp hk
    exact search_eq_none.mp hs k hk'.1 hk'.2
  | some counter =>
    right
    obtain ⟨hc, hleast⟩ := search_eq_some_iff_isLeast.mp hs
    refine ⟨stops_natCast.mpr hc, ?_⟩
    intro k hk
    obtain ⟨k, rfl⟩ := Int.eq_ofNat_of_zero_le hk.1
    exact Int.ofNat_le.mpr (hleast (stops_natCast.mp hk))

theorem run_isLeast {limit : Int} {x : α} (h : ∃ k, Stops f hit x limit k) :
    IsLeast {k | Stops f hit x limit k} (run f hit limit x) := by
  rcases run_cases f hit limit x with ⟨hno, _⟩ | hl
  · obtain ⟨k, hk⟩ := h
    exact absurd hk (hno k)
  · exact hl

theorem run_eq_neg_one {limit : Int} {x : α} :
    run f hit limit x = -1 ↔ ∀ k, ¬ Stops f hit x limit k := by
  rcases run_cases f hit limit x with ⟨hno, he⟩ | hl
  · exact iff_of_true he hno
  · constructor
    · intro he
      have h0 := hl.1.1
      rw [he] at h0
      omega
    · intro hno
      exact absurd hl.1 (hno _)

end Limits

end FirstHit
