import Mathlib

structure QueueSlot (α : Type*) where
  item : α
  used : Bool

structure RingQueue (α : Type*) where
  slots : Nat → QueueSlot α
  head : Nat
  tail : Nat
  count : Nat

namespace RingQueue

variable {α : Type*} (cap : Nat)

/-- A ring of unused slots. -/
def empty (a : α) : RingQueue α := ⟨fun _ => ⟨a, false⟩, 0, 0, 0⟩

def push (r : RingQueue α) (a : α) : Option (RingQueue α) :=
  if cap ≤ r.count then none
  else
    some
      { slots := Function.update r.slots r.tail ⟨a, true⟩
        head := r.head
        tail := (r.tail + 1) % cap
        count := r.count + 1 }

def pop (r : RingQueue α) : Option (α × RingQueue α) :=
  if r.count = 0 then none
  else
    some ((r.slots r.head).item,
      { slots := Function.update r.slots r.head ⟨(r.slots r.head).item, false⟩
        head := (r.head + 1) % cap
        tail := r.tail
        count := r.count - 1 })

/-- The ring holds the items from its head on, and no others. -/
structure Holds (r : RingQueue α) (items : List α) : Prop where
  head_lt : r.head < cap
  count_le : r.count ≤ cap
  tail_eq : r.tail = (r.head + r.count) % cap
  length_eq : items.length = r.count
  item : ∀ i a, items[i]? = some a → (r.slots ((r.head + i) % cap)).item = a

variable {cap} {r r' : RingQueue α} {a b : α} {items : List α}

theorem holds_empty (hcap : 0 < cap) : Holds cap (empty a) [] where
  head_lt := hcap
  count_le := Nat.zero_le cap
  tail_eq := (Nat.zero_mod cap).symm
  length_eq := rfl
  item i b h := by simp at h

/-- Two places of the ring that are less than a round apart differ. -/
theorem place_ne {i j : Nat} (hij : i < j) (hj : j < i + cap) (n : Nat) :
    (n + i) % cap ≠ (n + j) % cap := by
  intro h
  have hmod : (n + i) ≡ (n + j) [MOD cap] := h
  have hdvd := (Nat.modEq_iff_dvd' (by omega)).mp hmod
  rw [show n + j - (n + i) = j - i by omega] at hdvd
  have hle := Nat.le_of_dvd (by omega) hdvd
  omega

theorem push_eq_none : push cap r a = none ↔ cap ≤ r.count := by
  simp [push]

theorem Holds.push (h : Holds cap r items) (hp : push cap r a = some r') :
    Holds cap r' (items ++ [a]) := by
  unfold RingQueue.push at hp
  split at hp
  · cases hp
  · next hroom =>
    cases hp
    have hlen := h.length_eq
    refine ⟨h.head_lt, Nat.not_le.mp hroom, ?_, by simp [hlen], ?_⟩
    · rw [h.tail_eq, Nat.mod_add_mod, Nat.add_assoc]
    · intro i b hi
      simp only [h.tail_eq]
      rcases Nat.lt_trichotomy i r.count with hlt | rfl | hgt
      · rw [List.getElem?_append_left (by omega)] at hi
        rw [Function.update_of_ne (place_ne hlt (by omega) r.head)]
        exact h.item i b hi
      · rw [Function.update_self]
        simpa [← hlen] using hi
      · rw [List.getElem?_eq_none (by simp; omega)] at hi
        cases hi

theorem Holds.pop (h : Holds cap r items) (hp : pop cap r = some (a, r')) :
    ∃ rest, items = a :: rest ∧ Holds cap r' rest := by
  unfold RingQueue.pop at hp
  split at hp
  · cases hp
  · next hsome =>
    rw [Option.some.injEq, Prod.mk.injEq] at hp
    obtain ⟨rfl, rfl⟩ := hp
    have hlen := h.length_eq
    have hhead := h.head_lt
    have hcount := h.count_le
    obtain ⟨first, rest, rfl⟩ := List.exists_cons_of_length_pos (by omega : 0 < items.length)
    have hfirst := h.item 0 first rfl
    rw [Nat.add_zero, Nat.mod_eq_of_lt hhead] at hfirst
    rw [List.length_cons] at hlen
    refine ⟨rest, by rw [hfirst], Nat.mod_lt _ (by omega), by simp only; omega, ?_,
      by simp only; omega, ?_⟩
    · simp only
      rw [h.tail_eq, Nat.mod_add_mod]
      congr 1
      omega
    · intro i b hi
      have hlt : i < rest.length := (List.getElem?_eq_some_iff.mp hi).1
      have hplace : ((r.head + 1) % cap + i) % cap = (r.head + (i + 1)) % cap := by
        rw [Nat.mod_add_mod]
        congr 1
        omega
      have hne := place_ne (Nat.succ_pos i) (by omega : i + 1 < 0 + cap) r.head
      rw [Nat.add_zero, Nat.mod_eq_of_lt hhead] at hne
      simp only
      rw [hplace, Function.update_of_ne hne.symm]
      exact h.item (i + 1) b hi

end RingQueue
