import Mathlib

/-- Who loses a bout: always one of the two who meet. -/
structure Knockout (α : Type*) where
  loser : α × α → α
  one_of_two : ∀ p, loser p = p.1 ∨ loser p = p.2

namespace Knockout

variable {α : Type*} [DecidableEq α] (k : Knockout α)

def winner (p : α × α) : α := if k.loser p = p.1 then p.2 else p.1

/-- A bout is not held when either side is already out. -/
def bout (out : Finset α) (p : α × α) : Finset α :=
  if p.1 ∈ out ∨ p.2 ∈ out then out else insert (k.loser p) out

/-- Who is out once the bouts are over. -/
def run (out : Finset α) (bouts : List (α × α)) : Finset α := bouts.foldl k.bout out

variable {k}

theorem sides (p : α × α) :
    k.loser p = p.1 ∧ k.winner p = p.2 ∨ k.loser p = p.2 ∧ k.winner p = p.1 := by
  by_cases h : k.loser p = p.1
  · exact .inl ⟨h, if_pos h⟩
  · have h2 := (k.one_of_two p).resolve_left h
    exact .inr ⟨h2, if_neg h⟩

theorem loser_ne_winner {p : α × α} (h : p.1 ≠ p.2) : k.loser p ≠ k.winner p := by
  rcases k.sides p with ⟨h1, h2⟩ | ⟨h1, h2⟩
  · rw [h1, h2]
    exact h
  · rw [h1, h2]
    exact h.symm

theorem bout_skipped {out : Finset α} {p : α × α} (h : p.1 ∈ out ∨ p.2 ∈ out) :
    k.bout out p = out := if_pos h

theorem bout_held {out : Finset α} {p : α × α} (h1 : p.1 ∉ out) (h2 : p.2 ∉ out) :
    k.bout out p = insert (k.loser p) out := if_neg (by simp [h1, h2])

theorem winner_notMem {out : Finset α} {p : α × α} (h1 : p.1 ∉ out) (h2 : p.2 ∉ out) :
    k.winner p ∉ out := by
  rcases k.sides p with ⟨_, hw⟩ | ⟨_, hw⟩
  · rwa [hw]
  · rwa [hw]

theorem subset_bout (out : Finset α) (p : α × α) : out ⊆ k.bout out p := by
  by_cases h : p.1 ∈ out ∨ p.2 ∈ out
  · rw [bout_skipped h]
  · rw [not_or] at h
    rw [bout_held h.1 h.2]
    exact Finset.subset_insert _ _

/-- After its bout one of the two is out. -/
theorem bout_settles (out : Finset α) (p : α × α) :
    p.1 ∈ k.bout out p ∨ p.2 ∈ k.bout out p := by
  by_cases h : p.1 ∈ out ∨ p.2 ∈ out
  · rwa [bout_skipped h]
  · rw [not_or] at h
    rw [bout_held h.1 h.2]
    rcases k.one_of_two p with hl | hl
    · exact .inl (hl ▸ Finset.mem_insert_self _ _)
    · exact .inr (hl ▸ Finset.mem_insert_self _ _)

@[simp] theorem run_nil (out : Finset α) : k.run out [] = out := rfl

@[simp] theorem run_cons (out : Finset α) (p : α × α) (bouts : List (α × α)) :
    k.run out (p :: bouts) = k.run (k.bout out p) bouts := rfl

theorem subset_run (out : Finset α) (bouts : List (α × α)) : out ⊆ k.run out bouts := by
  induction bouts generalizing out with
  | nil => exact Finset.Subset.refl out
  | cons p bouts ih => exact (subset_bout out p).trans (ih _)

/-- Nobody who is still in has met another who is. -/
theorem run_settles {out : Finset α} {bouts : List (α × α)} {p : α × α} (h : p ∈ bouts) :
    p.1 ∈ k.run out bouts ∨ p.2 ∈ k.run out bouts := by
  induction bouts generalizing out with
  | nil => cases h
  | cons q bouts ih =>
    rcases List.mem_cons.mp h with rfl | h
    · have hb := bout_settles (k := k) out p
      exact hb.imp (fun hm => subset_run _ bouts hm) (fun hm => subset_run _ bouts hm)
    · exact ih h

/-- Whoever goes out loses a bout. -/
theorem exists_of_mem_run {out : Finset α} {bouts : List (α × α)} {x : α}
    (h : x ∈ k.run out bouts) (hx : x ∉ out) : ∃ p ∈ bouts, k.loser p = x := by
  induction bouts generalizing out with
  | nil => exact absurd h hx
  | cons p bouts ih =>
    by_cases hb : x ∈ k.bout out p
    · have hl : k.loser p = x := by
        by_contra hn
        unfold bout at hb
        split at hb
        · exact hx hb
        · exact hx (Finset.mem_of_mem_insert_of_ne hb (Ne.symm hn))
      exact ⟨p, List.mem_cons_self, hl⟩
    · obtain ⟨q, hq, hl⟩ := ih h hb
      exact ⟨q, List.mem_cons_of_mem _ hq, hl⟩

theorem run_congr {k' : Knockout α} {bouts : List (α × α)}
    (h : ∀ p ∈ bouts, k.loser p = k'.loser p) (out : Finset α) :
    k.run out bouts = k'.run out bouts := by
  induction bouts generalizing out with
  | nil => rfl
  | cons p bouts ih =>
    have hb : k.bout out p = k'.bout out p := by
      unfold bout
      rw [h p List.mem_cons_self]
    rw [run_cons, run_cons, hb]
    exact ih (fun q hq => h q (List.mem_cons_of_mem _ hq)) _

variable (k) in
/-- The loser of a bout lost to one who is kept, or to one who is toppled in a later bout. -/
inductive Toppled (Kept : α → Prop) : List (α × α) → α → Prop
  | kept {m : List (α × α)} {p : α × α} {later : List (α × α)} :
      Kept (k.winner p) → Toppled Kept (m ++ p :: later) (k.loser p)
  | later {m : List (α × α)} {p : α × α} {later : List (α × α)} :
      Toppled Kept later (k.winner p) → Toppled Kept (m ++ p :: later) (k.loser p)

theorem Toppled.cons {Kept : α → Prop} {bouts : List (α × α)} {x : α}
    (h : k.Toppled Kept bouts x) (p : α × α) : k.Toppled Kept (p :: bouts) x := by
  cases h with
  | kept hk => exact Toppled.kept hk (m := p :: _)
  | later hl => exact Toppled.later hl (m := p :: _)

/-- Everybody who goes out lost to one who stays in or who goes out later. -/
theorem toppled_of_mem_run {out : Finset α} {bouts : List (α × α)} {x : α}
    (hd : ∀ p ∈ bouts, p.1 ≠ p.2) (h : x ∈ k.run out bouts) (hx : x ∉ out) :
    k.Toppled (· ∉ k.run out bouts) bouts x := by
  induction bouts generalizing out x with
  | nil => exact absurd h hx
  | cons p bouts ih =>
    have hd' : ∀ q ∈ bouts, q.1 ≠ q.2 := fun q hq => hd q (List.mem_cons_of_mem _ hq)
    rw [run_cons] at h ⊢
    by_cases hs : p.1 ∈ out ∨ p.2 ∈ out
    · rw [bout_skipped hs] at h ⊢
      exact (ih hd' h hx).cons p
    · rw [not_or] at hs
      rw [bout_held hs.1 hs.2] at h ⊢
      by_cases he : x = k.loser p
      · subst he
        by_cases hw : k.winner p ∈ k.run (insert (k.loser p) out) bouts
        · have hn : k.winner p ∉ insert (k.loser p) out := by
            rw [Finset.mem_insert, not_or]
            exact ⟨(loser_ne_winner (hd p List.mem_cons_self)).symm, winner_notMem hs.1 hs.2⟩
          exact Toppled.later (m := []) (ih hd' hw hn)
        · exact Toppled.kept (m := []) hw
      · have hn : x ∉ insert (k.loser p) out := by
          rw [Finset.mem_insert, not_or]
          exact ⟨he, hx⟩
        exact (ih hd' h hn).cons p

end Knockout
