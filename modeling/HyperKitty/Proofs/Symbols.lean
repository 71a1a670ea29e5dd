import HyperKitty.Lib.Mixing
import HyperKitty.Sla.Symbol

namespace HyperKitty.Sla

open Function Mixing

section Steps

variable {h h' : UInt64} {b b' : UInt8}

/-- The multiplier is odd, and multiplying by its inverse takes it away again. -/
theorem mul_prime_injective : Injective fun h : UInt64 => h * 0x100000001b3 := by
  intro h h' he
  have hinv : (0x100000001b3 : UInt64) * 0xce965057aff6957b = 1 := rfl
  have hmul := congrArg (· * (0xce965057aff6957b : UInt64)) he
  simpa [UInt64.mul_assoc, hinv] using hmul

theorem hashByte_injective (b : UInt8) : Injective fun h => hashByte h b := by
  intro h h' he
  have hxor : h ^^^ b.toUInt64 = h' ^^^ b.toUInt64 := mul_prime_injective he
  exact (UInt64.xor_left_inj b.toUInt64).mp hxor

/-- How far the byte moves the state before it is multiplied. -/
def shift (h : UInt64) (b : UInt8) : Int := (h ^^^ b.toUInt64).toNat - h.toNat

/-- A byte stays within its place. -/
theorem shift_bounds (h : UInt64) (b : UInt8) : -255 ≤ shift h b ∧ shift h b ≤ 255 := by
  have hb : b.toNat < 256 := b.toNat_lt
  have hdiv : (h.toNat ^^^ b.toNat) / 2 ^ 8 = h.toNat / 2 ^ 8 := by
    rw [Nat.xor_div_two_pow, Nat.div_eq_of_lt hb, Nat.xor_zero]
  have hxor : (h ^^^ b.toUInt64).toNat = h.toNat ^^^ b.toNat := by
    rw [UInt64.toNat_xor, UInt8.toNat_toUInt64]
  rw [shift, hxor]
  omega

/-- How much further one byte moves its state than another byte moves another state. -/
def drift (h h' : UInt64) (b b' : UInt8) : Int := shift h b - shift h' b'

theorem drift_bounds (h h' : UInt64) (b b' : UInt8) :
    -510 ≤ drift h h' b b' ∧ drift h h' b b' ≤ 510 := by
  have hb := shift_bounds h b
  have hb' := shift_bounds h' b'
  unfold drift
  omega

theorem hashByte_modEq (h : UInt64) (b : UInt8) :
    ((hashByte h b).toNat : Int) ≡ (h.toNat + shift h b) * 0x100000001b3 [ZMOD 2 ^ 64] := by
  have hmul : (hashByte h b).toNat =
      (h ^^^ b.toUInt64).toNat * 0x100000001b3 % 2 ^ 64 := UInt64.toNat_mul _ _
  rw [hmul, shift, Int.ModEq]
  omega

/-- A step adds the drift to the difference of the states, and multiplies it. -/
theorem difference_modEq {x : Int} (b b' : UInt8)
    (hx : (h.toNat : Int) - h'.toNat ≡ x [ZMOD 2 ^ 64]) :
    ((hashByte h b).toNat : Int) - (hashByte h' b').toNat ≡
      (x + drift h h' b b') * 0x100000001b3 [ZMOD 2 ^ 64] := by
  have hsub := (hashByte_modEq h b).sub (hashByte_modEq h' b')
  have hring : ((h.toNat : Int) + shift h b) * 0x100000001b3 -
      (h'.toNat + shift h' b') * 0x100000001b3 =
        (h.toNat - h'.toNat + drift h h' b b') * 0x100000001b3 := by
    unfold drift
    ring
  rw [hring] at hsub
  exact hsub.trans ((hx.add_right _).mul_right _)

/-- The last multiplication is taken back: states that meet differ by the drift alone. -/
theorem difference_of_meet (he : hashByte h b = hashByte h' b') :
    (h.toNat : Int) - h'.toNat + drift h h' b b' = 0 := by
  have hxor : h ^^^ b.toUInt64 = h' ^^^ b'.toUInt64 := mul_prime_injective he
  unfold drift shift
  rw [hxor]
  omega

theorem eq_of_drift (hd : drift h h b b' = 0) : b = b' := by
  have hx : (h ^^^ b.toUInt64).toNat = (h ^^^ b'.toUInt64).toNat := by
    unfold drift shift at hd
    omega
  have hb := (UInt64.xor_right_inj h).mp (UInt64.toNat_inj.mp hx)
  exact UInt8.toUInt64_inj.mp hb

end Steps

section Windows

theorem low_zero (low high : Int) (hl : -2 ^ 39 ≤ low ∧ low ≤ 2 ^ 39)
    (h : (low + 2 ^ 40 * high) % 2 ^ 64 = 0) : low = 0 ∧ high % 2 ^ 24 = 0 := by
  omega

/-- The multiplier is 2 ^ 40 + 435. Four drifts are too small for a combination of its powers
that vanishes. -/
theorem drifts_zero {p q r t : Int} (hp : -510 ≤ p ∧ p ≤ 510) (hq : -510 ≤ q ∧ q ≤ 510)
    (hr : -510 ≤ r ∧ r ≤ 510) (ht : -510 ≤ t ∧ t ≤ 510)
    (h : (((p * 0x100000001b3 + q) * 0x100000001b3 + r) * 0x100000001b3 + t) % 2 ^ 64 = 0) :
    p = 0 ∧ q = 0 ∧ r = 0 ∧ t = 0 := by
  obtain ⟨hlow, hhigh⟩ := low_zero (435 ^ 3 * p + 435 ^ 2 * q + 435 * r + t)
    (3 * 435 ^ 2 * p + 2 * 435 * q + r) (by omega) (by omega)
  -- the low part is divided by 435 twice, and what is left over each time is at most one
  obtain ⟨u, rfl⟩ : ∃ u, q = u - 435 * p := ⟨435 * p + q, by omega⟩
  obtain ⟨v, rfl⟩ : ∃ v, r = v - 435 * u := ⟨r + 435 * u, by omega⟩
  have hv : -1 ≤ v ∧ v ≤ 1 := by omega
  have hu : -1 ≤ u ∧ u ≤ 1 := by omega
  have hp' : -1 ≤ p ∧ p ≤ 1 := by omega
  have hzero : 435 ^ 2 * p + 435 * u + v = 0 := by omega
  omega

/-- Four bytes leave a state of their own. -/
theorem window_inj {h : UInt64} {a b c d a' b' c' d' : UInt8}
    (he : [a, b, c, d].foldl hashByte h = [a', b', c', d'].foldl hashByte h) :
    [a, b, c, d] = [a', b', c', d'] := by
  simp only [List.foldl_cons, List.foldl_nil] at he
  have h₀ : (h.toNat : Int) - h.toNat ≡ 0 [ZMOD 2 ^ 64] := by rw [sub_self]
  have h₃ := difference_modEq c c' (difference_modEq b b' (difference_modEq a a' h₀))
  have h₄ := h₃.add_right (drift (hashByte (hashByte (hashByte h a) b) c)
    (hashByte (hashByte (hashByte h a') b') c') d d')
  rw [difference_of_meet he, zero_add] at h₄
  obtain ⟨e₁, e₂, e₃, e₄⟩ := drifts_zero (drift_bounds _ _ a a') (drift_bounds _ _ b b')
    (drift_bounds _ _ c c') (drift_bounds _ _ d d') h₄.symm
  obtain rfl := eq_of_drift e₁
  obtain rfl := eq_of_drift e₂
  obtain rfl := eq_of_drift e₃
  obtain rfl := eq_of_drift e₄
  rfl

variable {x y u w : List UInt8}

theorem eq_of_length_four (h : x.length = 4) : ∃ a b c d, x = [a, b, c, d] := by
  match x, h with
  | [a, b, c, d], _ => exact ⟨a, b, c, d, rfl⟩

/-- Shorter windows are filled up with what both have in common. -/
theorem window_eq_iff (hlen : x.length = y.length) (hshort : x.length ≤ 4) (h : UInt64) :
    x.foldl hashByte h = y.foldl hashByte h ↔ x = y := by
  constructor
  · intro he
    let w : List UInt8 := List.replicate (4 - x.length) 0
    obtain ⟨a, b, c, d, hx⟩ : ∃ a b c d, x ++ w = [a, b, c, d] :=
      eq_of_length_four (by simp [w]; omega)
    obtain ⟨a', b', c', d', hy⟩ : ∃ a b c d, y ++ w = [a, b, c, d] :=
      eq_of_length_four (by simp [w]; omega)
    have hfold : (x ++ w).foldl hashByte h = (y ++ w).foldl hashByte h :=
      (foldl_eq_iff hashByte_injective h [] x y w).mpr he
    rw [hx, hy] at hfold
    have hwindow := window_inj hfold
    rw [← hx, ← hy] at hwindow
    exact List.append_cancel_right hwindow
  · rintro rfl
    rfl

/-- Symbols of one length that differ within four bytes in a row have hashes of their own. -/
theorem hashSymbol_eq_iff {s t : String} (hs : asBytes s = u ++ x ++ w)
    (ht : asBytes t = u ++ y ++ w) (hlen : x.length = y.length) (hshort : x.length ≤ 4) :
    hashSymbol s = hashSymbol t ↔ s = t := by
  rw [hashSymbol, hashSymbol, hs, ht, foldl_eq_iff hashByte_injective,
    window_eq_iff hlen hshort, ← asBytes_inj, hs, ht, List.append_left_inj,
    List.append_right_inj]

theorem hashSymbol_eq_iff_layers : hashSymbol "QLG" = hashSymbol "SLA" ↔ "QLG" = "SLA" :=
  hashSymbol_eq_iff (u := []) (x := [81, 76, 71]) (y := [83, 76, 65]) (w := []) rfl rfl rfl
    (by decide)

end Windows

end HyperKitty.Sla
