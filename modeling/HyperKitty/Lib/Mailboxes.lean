import HyperKitty.Lib.Ring

structure Mailbox (α : Type*) where
  queue : RingQueue α
  drops : UInt64

structure Mailboxes (α : Type*) where
  boxes : List (Mailbox α)
  routed : UInt64
  dropped : UInt64

namespace Mailboxes

variable {α : Type*}

inductive Move (α : Type*) where
  | idle
  | accept (p : Nat) (a : α)
  | drop (p : Nat)
  | receive (p : Nat) (a : α)

/-- What can happen to the mailboxes in one move. -/
inductive Step (cap : Nat) : Mailboxes α → Move α → Mailboxes α → Prop where
  | stay (s : Mailboxes α) : Step cap s .idle s
  | enter (s : Mailboxes α) (a : α) :
      Step cap s .idle { s with boxes := s.boxes ++ [⟨.empty a, 0⟩] }
  | accept {s : Mailboxes α} {p : Nat} {box : Mailbox α} {a : α} {queue : RingQueue α}
      (found : s.boxes[p]? = some box) (pushed : box.queue.push cap a = some queue) :
      Step cap s (.accept p a)
        { s with boxes := s.boxes.set p ⟨queue, box.drops⟩, routed := s.routed + 1 }
  | drop {s : Mailboxes α} {p : Nat} {box : Mailbox α}
      (found : s.boxes[p]? = some box) (full : cap ≤ box.queue.count) :
      Step cap s (.drop p)
        { s with
          boxes := s.boxes.set p ⟨box.queue, box.drops + 1⟩
          dropped := s.dropped + 1 }
  | receive {s : Mailboxes α} {p : Nat} {box : Mailbox α} {a : α} {queue : RingQueue α}
      (found : s.boxes[p]? = some box) (popped : box.queue.pop cap = some (a, queue)) :
      Step cap s (.receive p a) { s with boxes := s.boxes.set p ⟨queue, box.drops⟩ }

def start : Mailboxes α := ⟨[], 0, 0⟩

/-- The histories of mailboxes that start empty. -/
inductive Run (cap : Nat) : List (Move α) → Mailboxes α → Prop where
  | nil : Run cap [] start
  | snoc {moves : List (Move α)} {s s' : Mailboxes α} {move : Move α} :
      Run cap moves s → Step cap s move s' → Run cap (moves ++ [move]) s'

/-- What the queue of mailbox `p` has accepted, in that order. -/
def acceptedBy (p : Nat) (moves : List (Move α)) : List α :=
  moves.filterMap fun
    | .accept q a => if q = p then some a else none
    | _ => none

/-- What has been received from mailbox `p`, in that order. -/
def receivedBy (p : Nat) (moves : List (Move α)) : List α :=
  moves.filterMap fun
    | .receive q a => if q = p then some a else none
    | _ => none

/-- How many items stand in the queue of mailbox `p`. -/
def queued (s : Mailboxes α) (p : Nat) : Nat :=
  match s.boxes[p]? with
  | none => 0
  | some box => box.queue.count

variable {cap p q n : Nat} {a : α} {moves : List (Move α)} {s s' : Mailboxes α} {move : Move α}
variable {box box' : Mailbox α}

section Histories

@[simp] theorem acceptedBy_idle : acceptedBy p (moves ++ [.idle]) = acceptedBy p moves := by
  simp [acceptedBy]

@[simp] theorem acceptedBy_accept : acceptedBy p (moves ++ [.accept q a]) =
    acceptedBy p moves ++ if q = p then [a] else [] := by
  by_cases h : q = p <;> simp [acceptedBy, h]

@[simp] theorem acceptedBy_drop : acceptedBy p (moves ++ [.drop q]) = acceptedBy p moves := by
  simp [acceptedBy]

@[simp] theorem acceptedBy_receive :
    acceptedBy p (moves ++ [.receive q a]) = acceptedBy p moves := by
  simp [acceptedBy]

@[simp] theorem receivedBy_idle : receivedBy p (moves ++ [.idle]) = receivedBy p moves := by
  simp [receivedBy]

@[simp] theorem receivedBy_accept :
    receivedBy p (moves ++ [.accept q a]) = receivedBy p moves := by
  simp [receivedBy]

@[simp] theorem receivedBy_drop : receivedBy p (moves ++ [.drop q]) = receivedBy p moves := by
  simp [receivedBy]

@[simp] theorem receivedBy_receive : receivedBy p (moves ++ [.receive q a]) =
    receivedBy p moves ++ if q = p then [a] else [] := by
  by_cases h : q = p <;> simp [receivedBy, h]

end Histories

/-- What the mailbox has accepted is what was received from it and then what it holds. -/
def Fifo (cap : Nat) (moves : List (Move α)) (p : Nat) (box : Mailbox α) : Prop :=
  ∃ items, box.queue.Holds cap items ∧ acceptedBy p moves = receivedBy p moves ++ items

/-- The accounts of the mailboxes are in order. -/
structure Sound (cap : Nat) (moves : List (Move α)) (s : Mailboxes α) : Prop where
  fifo : ∀ p box, s.boxes[p]? = some box → Fifo cap moves p box
  absent : ∀ p, s.boxes.length ≤ p → acceptedBy p moves = [] ∧ receivedBy p moves = []
  routed : s.routed =
    UInt64.ofNat (∑ p ∈ Finset.range s.boxes.length, (acceptedBy p moves).length)
  dropped : s.dropped = (s.boxes.map (·.drops)).sum

theorem sound_start : Sound cap ([] : List (Move α)) start where
  fifo p box h := by simp [start] at h
  absent p h := ⟨rfl, rfl⟩
  routed := rfl
  dropped := rfl

theorem sum_set {xs : List UInt64} {i : Nat} {x y : UInt64} (h : xs[i]? = some x) :
    (xs.set i (x + y)).sum = xs.sum + y := by
  induction xs generalizing i with
  | nil => simp at h
  | cons z zs ih =>
    cases i with
    | zero =>
      obtain rfl : z = x := by simpa using h
      rw [List.set_cons_zero, List.sum_cons, List.sum_cons]
      ac_rfl
    | succ i =>
      rw [List.set_cons_succ, List.sum_cons, List.sum_cons, ih (by simpa using h)]
      ac_rfl

theorem lt_of_found (h : s.boxes[p]? = some box) : p < s.boxes.length :=
  (List.getElem?_eq_some_iff.mp h).1

theorem ne_of_absent (found : s.boxes[p]? = some box)
    (hq : (s.boxes.set p box').length ≤ q) : p ≠ q := by
  rw [List.length_set] at hq
  exact (Nat.lt_of_lt_of_le (lt_of_found found) hq).ne

/-- A mailbox that is changed, and the others. -/
theorem found_set (hq : (s.boxes.set q box')[p]? = some box) :
    p = q ∧ box = box' ∨ p ≠ q ∧ s.boxes[p]? = some box := by
  by_cases h : p = q
  · subst h
    have hlt : p < s.boxes.length := by
      simpa using (List.getElem?_eq_some_iff.mp hq).1
    rw [List.getElem?_set_self hlt, Option.some.injEq] at hq
    exact Or.inl ⟨rfl, hq.symm⟩
  · rw [List.getElem?_set_ne (Ne.symm h)] at hq
    exact Or.inr ⟨h, hq⟩

/-- What the mailboxes have dropped, after one of them has dropped `y` more. -/
theorem sum_drops (found : s.boxes[p]? = some box) (queue : RingQueue α) (y : UInt64) :
    ((s.boxes.set p ⟨queue, box.drops + y⟩).map (·.drops)).sum =
      (s.boxes.map (·.drops)).sum + y := by
  rw [List.map_set]
  exact sum_set (by rw [List.getElem?_map, found, Option.map_some])

theorem sum_drops_kept (found : s.boxes[p]? = some box) (queue : RingQueue α) :
    ((s.boxes.set p ⟨queue, box.drops⟩).map (·.drops)).sum = (s.boxes.map (·.drops)).sum := by
  have hsum := sum_drops found queue 0
  rwa [UInt64.add_zero, UInt64.add_zero] at hsum

theorem sum_accepted (hp : p < n) :
    ∑ q ∈ Finset.range n, (acceptedBy q (moves ++ [.accept p a])).length =
      ∑ q ∈ Finset.range n, (acceptedBy q moves).length + 1 := by
  have hone : ∀ q, (acceptedBy q (moves ++ [.accept p a])).length =
      (acceptedBy q moves).length + if p = q then 1 else 0 := by
    intro q
    by_cases hq : p = q <;> simp [hq]
  simp only [hone, Finset.sum_add_distrib, Finset.sum_ite_eq, Finset.mem_range, hp, if_true]

theorem Sound.stay (h : Sound cap moves s) : Sound cap (moves ++ [.idle]) s where
  fifo p box hbox := by
    simp only [Fifo, acceptedBy_idle, receivedBy_idle]
    exact h.fifo p box hbox
  absent p hp := by
    rw [acceptedBy_idle, receivedBy_idle]
    exact h.absent p hp
  routed := by
    simp only [acceptedBy_idle]
    exact h.routed
  dropped := h.dropped

theorem Sound.enter (h : Sound cap moves s) (hcap : 0 < cap) (a : α) :
    Sound cap (moves ++ [.idle]) { s with boxes := s.boxes ++ [⟨.empty a, 0⟩] } where
  fifo p box hbox := by
    simp only [Fifo, acceptedBy_idle, receivedBy_idle]
    rcases Nat.lt_trichotomy p s.boxes.length with hlt | rfl | hgt
    · rw [List.getElem?_append_left hlt] at hbox
      exact h.fifo p box hbox
    · obtain rfl : Mailbox.mk (.empty a) 0 = box := by simpa using hbox
      obtain ⟨hacc, hrec⟩ := h.absent _ le_rfl
      exact ⟨[], RingQueue.holds_empty hcap, by rw [hacc, hrec, List.append_nil]⟩
    · rw [List.getElem?_eq_none (by simp; omega)] at hbox
      cases hbox
  absent p hp := by
    rw [acceptedBy_idle, receivedBy_idle]
    exact h.absent p (by simp at hp; omega)
  routed := by
    obtain ⟨hacc, -⟩ := h.absent _ le_rfl
    simp only [acceptedBy_idle, List.length_append, List.length_singleton, Finset.sum_range_succ,
      hacc, List.length_nil, Nat.add_zero, h.routed]
  dropped := by simp [h.dropped]

theorem Sound.accept {queue : RingQueue α} (h : Sound cap moves s)
    (found : s.boxes[p]? = some box) (pushed : box.queue.push cap a = some queue) :
    Sound cap (moves ++ [.accept p a])
      { s with boxes := s.boxes.set p ⟨queue, box.drops⟩, routed := s.routed + 1 } where
  fifo q box' hbox := by
    simp only [Fifo, acceptedBy_accept, receivedBy_accept]
    rcases found_set hbox with ⟨rfl, rfl⟩ | ⟨hne, hbox⟩
    · obtain ⟨items, hholds, heq⟩ := h.fifo q box found
      exact ⟨items ++ [a], hholds.push pushed, by rw [heq, if_pos rfl, List.append_assoc]⟩
    · rw [if_neg hne.symm, List.append_nil]
      exact h.fifo q box' hbox
  absent q hq := by
    have hne := ne_of_absent found hq
    rw [List.length_set] at hq
    rw [acceptedBy_accept, receivedBy_accept, if_neg hne, List.append_nil]
    exact h.absent q hq
  routed := by
    simp only [List.length_set]
    rw [sum_accepted (lt_of_found found), UInt64.ofNat_add, ← h.routed]
    rfl
  dropped := by rw [sum_drops_kept found queue, h.dropped]

theorem Sound.drop (h : Sound cap moves s) (found : s.boxes[p]? = some box) :
    Sound cap (moves ++ [.drop p])
      { s with
        boxes := s.boxes.set p ⟨box.queue, box.drops + 1⟩
        dropped := s.dropped + 1 } where
  fifo q box' hbox := by
    simp only [Fifo, acceptedBy_drop, receivedBy_drop]
    rcases found_set hbox with ⟨rfl, rfl⟩ | ⟨-, hbox⟩
    · exact h.fifo q box found
    · exact h.fifo q box' hbox
  absent q hq := by
    rw [List.length_set] at hq
    rw [acceptedBy_drop, receivedBy_drop]
    exact h.absent q hq
  routed := by
    simp only [List.length_set, acceptedBy_drop]
    exact h.routed
  dropped := by rw [sum_drops found box.queue 1, h.dropped]

theorem Sound.receive {queue : RingQueue α} (h : Sound cap moves s)
    (found : s.boxes[p]? = some box) (popped : box.queue.pop cap = some (a, queue)) :
    Sound cap (moves ++ [.receive p a]) { s with boxes := s.boxes.set p ⟨queue, box.drops⟩ } where
  fifo q box' hbox := by
    simp only [Fifo, acceptedBy_receive, receivedBy_receive]
    rcases found_set hbox with ⟨rfl, rfl⟩ | ⟨hne, hbox⟩
    · obtain ⟨items, hholds, heq⟩ := h.fifo q box found
      obtain ⟨rest, rfl, hrest⟩ := hholds.pop popped
      exact ⟨rest, hrest, by rw [heq, if_pos rfl, List.append_assoc, List.singleton_append]⟩
    · rw [if_neg hne.symm, List.append_nil]
      exact h.fifo q box' hbox
  absent q hq := by
    have hne := ne_of_absent found hq
    rw [List.length_set] at hq
    rw [acceptedBy_receive, receivedBy_receive, if_neg hne, List.append_nil]
    exact h.absent q hq
  routed := by
    simp only [List.length_set, acceptedBy_receive]
    exact h.routed
  dropped := by rw [sum_drops_kept found queue, h.dropped]

theorem Sound.step (h : Sound cap moves s) (hcap : 0 < cap) (hs : Step cap s move s') :
    Sound cap (moves ++ [move]) s' := by
  cases hs with
  | stay => exact h.stay
  | enter a => exact h.enter hcap a
  | accept found pushed => exact h.accept found pushed
  | drop found full => exact h.drop found
  | receive found popped => exact h.receive found popped

/-- The accounts are in order after every history. -/
theorem Run.sound (hcap : 0 < cap) (h : Run cap moves s) : Sound cap moves s := by
  induction h with
  | nil => exact sound_start
  | snoc _ hstep ih => exact ih.step hcap hstep

/-- What has gone through all mailboxes was received or is still there. -/
theorem Sound.sum_eq (h : Sound cap moves s) :
    ∑ p ∈ Finset.range s.boxes.length, (acceptedBy p moves).length =
      ∑ p ∈ Finset.range s.boxes.length, ((receivedBy p moves).length + queued s p) := by
  apply Finset.sum_congr rfl
  intro p hp
  have hfound := List.getElem?_eq_getElem (Finset.mem_range.mp hp)
  obtain ⟨items, hholds, heq⟩ := h.fifo p _ hfound
  rw [heq, List.length_append, hholds.length_eq, queued, hfound]

end Mailboxes
