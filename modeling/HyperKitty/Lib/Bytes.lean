import HyperKitty.Lib.Exec

namespace Bytes

open Exec

/-- The last `w` digits of `n` in base 256, the most significant first. -/
def beBytes : Nat → Nat → List UInt8
  | 0, _ => []
  | w + 1, n => beBytes w (n / 256) ++ [UInt8.ofNat n]

def ofBe (bs : List UInt8) : Nat := bs.foldl (fun n b => n * 256 + b.toNat) 0

@[simp] theorem length_beBytes (w n : Nat) : (beBytes w n).length = w := by
  induction w generalizing n with
  | zero => rfl
  | succ w ih => simp [beBytes, ih]

@[simp] theorem ofBe_snoc (bs : List UInt8) (b : UInt8) :
    ofBe (bs ++ [b]) = ofBe bs * 256 + b.toNat := by
  simp [ofBe]

theorem ofBe_lt (bs : List UInt8) : ofBe bs < 256 ^ bs.length := by
  induction bs using List.reverseRecOn with
  | nil => simp [ofBe]
  | append_singleton bs b ih =>
    have hb : b.toNat < 256 := b.toNat_lt
    rw [ofBe_snoc, List.length_append, List.length_singleton, Nat.pow_succ]
    omega

/-- Reading a written number gives it back, if its digits fit. -/
theorem ofBe_beBytes {w n : Nat} (h : n < 256 ^ w) : ofBe (beBytes w n) = n := by
  induction w generalizing n with
  | zero =>
    have hn : n = 0 := by simpa using h
    subst hn
    rfl
  | succ w ih =>
    have hq : n / 256 < 256 ^ w := by
      rw [Nat.pow_succ, Nat.mul_comm] at h
      exact Nat.div_lt_of_lt_mul h
    rw [beBytes, ofBe_snoc, ih hq, UInt8.toNat_ofNat']
    omega

/-- Writing a number that was read gives its bytes back. -/
theorem beBytes_ofBe (bs : List UInt8) : beBytes bs.length (ofBe bs) = bs := by
  induction bs using List.reverseRecOn with
  | nil => rfl
  | append_singleton bs b ih =>
    have hb : b.toNat < 256 := b.toNat_lt
    have hq : (ofBe bs * 256 + b.toNat) / 256 = ofBe bs := by omega
    have hr : UInt8.ofNat (ofBe bs * 256 + b.toNat) = b := by
      apply UInt8.toNat_inj.mp
      rw [UInt8.toNat_ofNat']
      omega
    rw [ofBe_snoc, List.length_append, List.length_singleton, beBytes, hq, hr, ih]

/-- Numbers of a fixed width in bytes, as machine integers are. -/
class FixedWidth (α : Type) where
  width : Nat
  toNat : α → Nat
  ofNat : Nat → α
  toNat_lt : ∀ x, toNat x < 256 ^ width
  ofNat_toNat : ∀ x, ofNat (toNat x) = x
  toNat_ofNat : ∀ n, n < 256 ^ width → toNat (ofNat n) = n

instance : FixedWidth UInt16 where
  width := 2
  toNat := UInt16.toNat
  ofNat := UInt16.ofNat
  toNat_lt := UInt16.toNat_lt
  ofNat_toNat _ := UInt16.ofNat_toNat
  toNat_ofNat _ h := UInt16.toNat_ofNat_of_lt' h

instance : FixedWidth UInt32 where
  width := 4
  toNat := UInt32.toNat
  ofNat := UInt32.ofNat
  toNat_lt := UInt32.toNat_lt
  ofNat_toNat _ := UInt32.ofNat_toNat
  toNat_ofNat _ h := UInt32.toNat_ofNat_of_lt' h

instance : FixedWidth UInt64 where
  width := 8
  toNat := UInt64.toNat
  ofNat := UInt64.ofNat
  toNat_lt := UInt64.toNat_lt
  ofNat_toNat _ := UInt64.ofNat_toNat
  toNat_ofNat _ h := UInt64.toNat_ofNat_of_lt' h

instance : FixedWidth Int64 where
  width := 8
  toNat x := x.toUInt64.toNat
  ofNat n := (UInt64.ofNat n).toInt64
  toNat_lt x := x.toUInt64.toNat_lt
  ofNat_toNat x := by rw [UInt64.ofNat_toNat, Int64.toInt64_toUInt64]
  toNat_ofNat n h := by
    rw [UInt64.toUInt64_toInt64]
    exact UInt64.toNat_ofNat_of_lt' h

@[simp] theorem width_uint16 : FixedWidth.width UInt16 = 2 := rfl

@[simp] theorem width_uint32 : FixedWidth.width UInt32 = 4 := rfl

@[simp] theorem width_uint64 : FixedWidth.width UInt64 = 8 := rfl

@[simp] theorem width_int64 : FixedWidth.width Int64 = 8 := rfl

section Codec

variable {α : Type} [FixedWidth α]

def toBe (x : α) : List UInt8 := beBytes (FixedWidth.width α) (FixedWidth.toNat x)

def fromBe (v : Vector UInt8 (FixedWidth.width α)) : α := FixedWidth.ofNat (ofBe v.toList)

@[simp] theorem length_toBe (x : α) : (toBe x).length = FixedWidth.width α := length_beBytes _ _

theorem toBe_fromBe (v : Vector UInt8 (FixedWidth.width α)) :
    toBe (fromBe v : α) = v.toList := by
  have hlt := ofBe_lt v.toList
  rw [Vector.length_toList] at hlt
  have hb := beBytes_ofBe v.toList
  rw [Vector.length_toList] at hb
  rw [toBe, fromBe, FixedWidth.toNat_ofNat _ hlt, hb]

theorem toBe_inj {x y : α} (h : toBe x = toBe y) : x = y := by
  have ho := congrArg ofBe h
  rw [toBe, toBe, ofBe_beBytes (FixedWidth.toNat_lt x), ofBe_beBytes (FixedWidth.toNat_lt y)] at ho
  rw [← FixedWidth.ofNat_toNat x, ho, FixedWidth.ofNat_toNat]

end Codec

section Read

variable {ε : Type} {n start stop offset : Nat} {bs p : List UInt8}

/-- The bytes from `start` up to `stop`; slicing out of bounds panics. -/
def slice (bs : List UInt8) (start stop : Nat) : Exec ε (List UInt8) :=
  if start ≤ stop ∧ stop ≤ bs.length then .ok ((bs.drop start).take (stop - start))
  else .error .panic

/-- The byte at a position; indexing out of bounds panics. -/
def readByte (bs : List UInt8) (offset : Nat) : Exec ε UInt8 :=
  match bs[offset]? with
  | some b => .ok b
  | none => .error .panic

/-- Copy `n` bytes from a position on into an array. -/
def readArray (n : Nat) (bs : List UInt8) (offset : Nat) : Exec ε (Vector UInt8 n) :=
  if h : offset + n ≤ bs.length then
    .ok ⟨((bs.drop offset).take n).toArray, by simp; omega⟩
  else .error .panic

/-- Read a number of fixed width, byte by byte. -/
def readBe (α : Type) [FixedWidth α] (bs : List UInt8) (offset : Nat) : Exec ε α := do
  let v ← readArray (FixedWidth.width α) bs offset
  pure (fromBe v)

/-- What follows the prefix `p` is read where `p` ends. -/
theorem slice_of_prefix {v : List UInt8} (h : p ++ v <+: bs) (hp : p.length = start)
    (hv : start + v.length = stop) : (slice bs start stop : Exec ε _) = .ok v := by
  subst hp hv
  obtain ⟨rest, rfl⟩ := h
  have hl : p.length + v.length ≤ (p ++ v ++ rest).length := by simp
  rw [slice, if_pos ⟨Nat.le_add_right _ _, hl⟩]
  simp

theorem readByte_of_prefix {b : UInt8} (h : p ++ [b] <+: bs) (hp : p.length = offset) :
    (readByte bs offset : Exec ε _) = .ok b := by
  subst hp
  obtain ⟨rest, rfl⟩ := h
  simp [readByte]

theorem readArray_of_prefix {v : Vector UInt8 n} (h : p ++ v.toList <+: bs)
    (hp : p.length = offset) : (readArray n bs offset : Exec ε _) = .ok v := by
  subst hp
  obtain ⟨rest, rfl⟩ := h
  have hl : p.length + n ≤ (p ++ v.toList ++ rest).length := by simp
  rw [readArray, dif_pos hl]
  congr 1
  apply Vector.toList_inj.mp
  simp [Vector.toList]

theorem readArray_isOk (h : offset + n ≤ bs.length) :
    ∃ v, (readArray n bs offset : Exec ε _) = .ok v :=
  ⟨_, dif_pos h⟩

/-- A read extends the prefix of the bytes that is known. -/
theorem prefix_of_slice {v : List UInt8} (h : (slice bs start stop : Exec ε _) = .ok v)
    (hb : p <+: bs) (hp : p.length = start) : p ++ v <+: bs ∧ stop = start + v.length := by
  subst hp
  obtain ⟨rest, rfl⟩ := hb
  unfold slice at h
  split at h
  · rename_i hb
    rw [List.drop_left, Except.ok.injEq] at h
    subst h
    refine ⟨(List.prefix_append_right_inj p).mpr (List.take_prefix _ _), ?_⟩
    simp at hb ⊢
    omega
  · cases h

theorem prefix_of_readByte {b : UInt8} (h : (readByte bs offset : Exec ε _) = .ok b)
    (hb : p <+: bs) (hp : p.length = offset) : p ++ [b] <+: bs := by
  subst hp
  obtain ⟨rest, rfl⟩ := hb
  unfold readByte at h
  rw [List.getElem?_append_right (Nat.le_refl _), Nat.sub_self] at h
  cases rest with
  | nil => cases h
  | cons c rest =>
    cases h
    exact ⟨rest, by simp⟩

theorem prefix_of_readArray {v : Vector UInt8 n} (h : (readArray n bs offset : Exec ε _) = .ok v)
    (hb : p <+: bs) (hp : p.length = offset) : p ++ v.toList <+: bs := by
  subst hp
  obtain ⟨rest, rfl⟩ := hb
  unfold readArray at h
  split at h
  · rw [Except.ok.injEq] at h
    have hv : v.toList = rest.take n := by
      rw [← h]
      simp [Vector.toList]
    rw [hv]
    exact (List.prefix_append_right_inj p).mpr (List.take_prefix _ _)
  · cases h

variable {α : Type} [FixedWidth α] {x : α}

theorem readBe_of_prefix (h : p ++ toBe x <+: bs) (hp : p.length = offset) :
    (readBe α bs offset : Exec ε _) = .ok x := by
  have hv : Vector.toList (⟨(toBe x).toArray, by simp⟩ : Vector UInt8 (FixedWidth.width α)) =
      toBe x := by
    simp [Vector.toList]
  have hx := toBe_fromBe (α := α) ⟨(toBe x).toArray, by simp⟩
  rw [hv] at hx
  rw [← hv] at h
  rw [readBe, readArray_of_prefix h hp, ok_bind, toBe_inj hx, pure_eq]

theorem prefix_of_readBe (h : (readBe α bs offset : Exec ε _) = .ok x) (hb : p <+: bs)
    (hp : p.length = offset) : p ++ toBe x <+: bs := by
  obtain ⟨v, hv, hx⟩ := (bind_ok _ _ _).mp h
  cases hx
  rw [toBe_fromBe]
  exact prefix_of_readArray hv hb hp

end Read

end Bytes
