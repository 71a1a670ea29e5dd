import HyperKitty.Lib.Exec

/-- What C code returns through a pointer: NULL is its only error, and a panic
stands for an access outside of a block. -/
abbrev OrNull (α : Type) := Exec Unit α

namespace Buffer

open Exec

variable {ε : Type} {size offset : Nat} {p v : List UInt8}

/-- Copy bytes into a block from a position on. -/
def store (block : List UInt8) (offset : Nat) (bs : List UInt8) : Exec ε (List UInt8) :=
  if offset + bs.length ≤ block.length then
    .ok (block.take offset ++ bs ++ block.drop (offset + bs.length))
  else .error .panic

/-- A block of zeros whose first bytes are filled with `p`. -/
def filled (size : Nat) (p : List UInt8) : List UInt8 := p ++ List.replicate (size - p.length) 0

theorem filled_nil : filled size [] = List.replicate size 0 := rfl

theorem filled_full (h : p.length = size) : filled size p = p := by
  simp [filled, h]

theorem store_filled (hp : p.length = offset) (hs : offset + v.length ≤ size) :
    (store (filled size p) offset v : Exec ε _) = .ok (filled size (p ++ v)) := by
  subst hp
  have hl : p.length + v.length ≤ (filled size p).length := by
    simp only [filled, List.length_append, List.length_replicate]
    omega
  have ht : (filled size p).take p.length = p := List.take_left
  have hd : (filled size p).drop (p.length + v.length) =
      List.replicate (size - (p ++ v).length) 0 := by
    rw [filled, List.drop_append, List.drop_eq_nil_of_le (Nat.le_add_right _ _),
      List.drop_replicate, List.length_append, List.nil_append]
    congr 1
    omega
  rw [store, if_pos hl, ht, hd, filled]

/-- Copying succeeds exactly when the bytes fit. -/
theorem store_isOk_iff {block bs : List UInt8} :
    (∃ block', (store block offset bs : Exec ε _) = .ok block') ↔
      offset + bs.length ≤ block.length := by
  unfold store
  split
  · rename_i h
    exact ⟨fun _ => h, fun _ => ⟨_, rfl⟩⟩
  · rename_i h
    constructor
    · intro hb
      obtain ⟨_, hb⟩ := hb
      cases hb
    · intro hb
      exact absurd hb h

/-- The text in front of the first zero byte. -/
def cString (bs : List UInt8) : List UInt8 := bs.takeWhile (· ≠ 0)

def strlen (bs : List UInt8) : Nat := (cString bs).length

theorem prefix_cString (bs : List UInt8) : cString bs <+: bs := List.takeWhile_prefix _

@[simp] theorem take_strlen (bs : List UInt8) : bs.take (strlen bs) = cString bs :=
  (List.prefix_iff_eq_take.mp (prefix_cString bs)).symm

theorem cString_eq_self {bs : List UInt8} : cString bs = bs ↔ 0 ∉ bs := by
  rw [cString, List.takeWhile_eq_self_iff]
  constructor
  · intro h h0
    simpa using h 0 h0
  · intro h b hb
    simp only [ne_eq, decide_eq_true_eq]
    intro he
    exact h (he ▸ hb)

@[simp] theorem cString_nil : cString [] = [] := rfl

end Buffer
