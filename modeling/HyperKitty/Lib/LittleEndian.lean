import HyperKitty.Lib.Bytes

namespace Bytes

open Exec

/-- The last `w` digits of `n` in base 256, the least significant first. -/
def leBytes (w n : Nat) : List UInt8 := (List.range w).map fun i => UInt8.ofNat (n >>> (i * 8))

/-- Every byte is shifted to its place and joined to the ones before it. -/
def ofLe (bs : List UInt8) : Nat :=
  bs.zipIdx.foldl (fun n b => n ||| b.1.toNat <<< (b.2 * 8)) 0

theorem leBytes_eq_reverse (w n : Nat) : leBytes w n = (beBytes w n).reverse := by
  induction w generalizing n with
  | zero => rfl
  | succ w ih =>
    have hs : ∀ i, n >>> ((i + 1) * 8) = (n / 256) >>> (i * 8) := by
      intro i
      rw [Nat.succ_mul, Nat.add_comm, Nat.shiftRight_add, Nat.shiftRight_eq_div_pow n 8]
    rw [beBytes, List.reverse_append, ← ih, leBytes, List.range_succ_eq_map]
    simp [leBytes, Function.comp_def, hs]

theorem ofBe_cons (b : UInt8) (bs : List UInt8) :
    ofBe (b :: bs) = b.toNat * 256 ^ bs.length + ofBe bs := by
  induction bs using List.reverseRecOn with
  | nil => simp [ofBe]
  | append_singleton bs c ih =>
    rw [← List.cons_append, ofBe_snoc, ih, ofBe_snoc, List.length_append, List.length_singleton,
      Nat.pow_succ]
    ring

theorem ofLe_eq_reverse (bs : List UInt8) : ofLe bs = ofBe bs.reverse := by
  induction bs using List.reverseRecOn with
  | nil => rfl
  | append_singleton bs b ih =>
    have hlt : ofLe bs < 2 ^ (bs.length * 8) := by
      have h := ofBe_lt bs.reverse
      rw [← ih, List.length_reverse] at h
      rwa [Nat.mul_comm, Nat.pow_mul]
    have hsnoc : ofLe (bs ++ [b]) = ofLe bs ||| b.toNat <<< (bs.length * 8) := by
      simp [ofLe, List.zipIdx_append]
    rw [hsnoc, Nat.or_comm, ← Nat.shiftLeft_add_eq_or_of_lt hlt, Nat.shiftLeft_eq, Nat.mul_comm _ 8,
      Nat.pow_mul, ih, List.reverse_append, List.reverse_singleton, List.singleton_append,
      ofBe_cons, List.length_reverse]

section Codec

variable {α : Type} [FixedWidth α]

def toLe (x : α) : List UInt8 := leBytes (FixedWidth.width α) (FixedWidth.toNat x)

def fromLe (v : Vector UInt8 (FixedWidth.width α)) : α := FixedWidth.ofNat (ofLe v.toList)

theorem toLe_eq_reverse (x : α) : toLe x = (toBe x).reverse := leBytes_eq_reverse _ _

@[simp] theorem length_toLe (x : α) : (toLe x).length = FixedWidth.width α := by
  simp [toLe_eq_reverse]

theorem fromLe_eq_reverse (v : Vector UInt8 (FixedWidth.width α)) :
    (fromLe v : α) = fromBe v.reverse := by
  rw [fromLe, ofLe_eq_reverse, fromBe, Vector.toList_reverse]

theorem toLe_fromLe (v : Vector UInt8 (FixedWidth.width α)) : toLe (fromLe v : α) = v.toList := by
  rw [toLe_eq_reverse, fromLe_eq_reverse, toBe_fromBe, Vector.toList_reverse, List.reverse_reverse]

theorem toLe_inj {x y : α} (h : toLe x = toLe y) : x = y := by
  rw [toLe_eq_reverse, toLe_eq_reverse] at h
  exact toBe_inj (List.reverse_inj.mp h)

/-- The number whose little-endian bytes are the big-endian ones of `x`. -/
def swapBytes (x : α) : α := fromLe ⟨(toBe x).toArray, by simp⟩

@[simp] theorem toLe_swapBytes (x : α) : toLe (swapBytes x) = toBe x := by
  rw [swapBytes, toLe_fromLe]
  simp [Vector.toList]

theorem toBe_eq_toLe {x y : α} : toBe x = toLe y ↔ swapBytes x = y := by
  rw [← toLe_swapBytes]
  constructor
  · exact toLe_inj
  · exact congrArg toLe

theorem swapBytes_swapBytes (x : α) : swapBytes (swapBytes x) = x := by
  rw [← toBe_eq_toLe, ← List.reverse_inj, ← toLe_eq_reverse, toLe_swapBytes, toLe_eq_reverse,
    List.reverse_reverse]

end Codec

section Read

variable {ε α : Type} [FixedWidth α] {x : α} {offset : Nat} {bs p : List UInt8}

/-- Read a number of fixed width, the least significant byte first. -/
def readLe (α : Type) [FixedWidth α] (bs : List UInt8) (offset : Nat) : Exec ε α := do
  let v ← readArray (FixedWidth.width α) bs offset
  pure (fromLe v)

theorem readLe_of_prefix (h : p ++ toLe x <+: bs) (hp : p.length = offset) :
    (readLe α bs offset : Exec ε _) = .ok x := by
  have hv : Vector.toList (⟨(toLe x).toArray, by simp⟩ : Vector UInt8 (FixedWidth.width α)) =
      toLe x := by
    simp [Vector.toList]
  have hx := toLe_fromLe (α := α) ⟨(toLe x).toArray, by simp⟩
  rw [hv] at hx
  rw [← hv] at h
  rw [readLe, readArray_of_prefix h hp, ok_bind, toLe_inj hx, pure_eq]

theorem prefix_of_readLe (h : (readLe α bs offset : Exec ε _) = .ok x) (hb : p <+: bs)
    (hp : p.length = offset) : p ++ toLe x <+: bs := by
  obtain ⟨v, hv, hx⟩ := (bind_ok _ _ _).mp h
  cases hx
  rw [toLe_fromLe]
  exact prefix_of_readArray hv hb hp

theorem readLe_isOk (h : offset + FixedWidth.width α ≤ bs.length) :
    ∃ x, (readLe α bs offset : Exec ε _) = .ok x := by
  obtain ⟨v, hv⟩ := readArray_isOk (ε := ε) h
  exact ⟨fromLe v, by rw [readLe, hv, ok_bind, pure_eq]⟩

end Read

end Bytes
