import Mathlib

namespace Overwrite

variable {σ κ ν : Type*} {I : σ → Prop} {get : σ → κ → ν} {put : σ → κ → ν → σ} {p : κ → Prop}

/-- A write to a key in `p` is found there and nowhere else; one to another key is lost. -/
structure Lawful (I : σ → Prop) (get : σ → κ → ν) (put : σ → κ → ν → σ) (p : κ → Prop) : Prop where
  keeps : ∀ s k v, I s → I (put s k v)
  hit : ∀ s k v, I s → p k → get (put s k v) k = v
  other : ∀ s k v k', I s → k' ≠ k → get (put s k v) k' = get s k'
  lost : ∀ s k v, I s → ¬ p k → get (put s k v) k = get s k

def putAll (put : σ → κ → ν → σ) (s : σ) (writes : List (κ × ν)) : σ :=
  writes.foldl (fun s w => put s w.1 w.2) s

/-- The value of the last write to the key. -/
def lastWrite [DecidableEq κ] (k : κ) (writes : List (κ × ν)) : Option ν :=
  writes.foldl (fun found w => if w.1 = k then some w.2 else found) none

variable {s : σ} {k : κ} {writes : List (κ × ν)}

theorem putAll_snoc (s : σ) (writes : List (κ × ν)) (w : κ × ν) :
    putAll put s (writes ++ [w]) = put (putAll put s writes) w.1 w.2 := by
  rw [putAll, List.foldl_append]
  rfl

theorem Lawful.putAll_keeps (h : Lawful I get put p) (hs : I s) (writes : List (κ × ν)) :
    I (putAll put s writes) := by
  induction writes using List.reverseRecOn with
  | nil => exact hs
  | append_singleton writes w ih =>
    rw [putAll_snoc]
    exact h.keeps _ _ _ ih

variable [DecidableEq κ]

theorem lastWrite_snoc (writes : List (κ × ν)) (w : κ × ν) :
    lastWrite k (writes ++ [w]) = if w.1 = k then some w.2 else lastWrite k writes := by
  rw [lastWrite, List.foldl_append]
  rfl

theorem Lawful.get_putAll (h : Lawful I get put p) (hs : I s) (hk : p k)
    (writes : List (κ × ν)) :
    get (putAll put s writes) k = (lastWrite k writes).getD (get s k) := by
  induction writes using List.reverseRecOn with
  | nil => rfl
  | append_singleton writes w ih =>
    have hs := h.putAll_keeps hs writes
    rw [putAll_snoc, lastWrite_snoc]
    split
    · rename_i hw
      rw [hw, h.hit _ _ _ hs hk, Option.getD_some]
    · rename_i hw
      rw [h.other _ _ _ _ hs (Ne.symm hw), ih]

theorem Lawful.get_putAll_lost (h : Lawful I get put p) (hs : I s) (hk : ¬ p k)
    (writes : List (κ × ν)) : get (putAll put s writes) k = get s k := by
  induction writes using List.reverseRecOn with
  | nil => rfl
  | append_singleton writes w ih =>
    have hs := h.putAll_keeps hs writes
    rw [putAll_snoc]
    by_cases hw : k = w.1
    · subst hw
      rw [h.lost _ _ _ hs hk, ih]
    · rw [h.other _ _ _ _ hs hw, ih]

end Overwrite
