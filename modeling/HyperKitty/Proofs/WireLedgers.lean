import HyperKitty.Sla.Exact
import HyperKitty.Wasm.Ledgers

namespace HyperKitty.Sla

open Exec Bytes Checked Exact Wasm

variable {b : Build} {l a c : Ledger} {x y : List UInt8}

/-- The debit of a ledger has a negative unless it is the least of the integers. -/
theorem fits_exact (h : l.delta ≠ Int64.minValue) : Fits b l.exact.debit :=
  fun _ => ⟨inRange_toInt l.delta, inRange_neg.mpr h⟩

theorem encode_decode {bytes : Vector UInt8 24}
    (h : (readLe Int64 bytes.toList 8 : Exec Unit _) ≠ .ok Int64.minValue) :
    ∃ l, Ledger.decode b bytes = .ok l ∧ l.encode = bytes := by
  obtain ⟨l, rfl, hl⟩ := exists_encode bytes
  rw [readLe_delta] at h
  refine ⟨l, ?_, rfl⟩
  rw [decode_encode, checked_of_fits (fits_exact fun hd => h (congrArg Except.ok hd)), hl]

/-- The credit is not encoded, but computed again. -/
theorem decode_encode_of_iota (h : l.iota.toInt = -l.delta.toInt) :
    Ledger.decode b l.encode = .ok l := by
  apply decode_of_balanced
  rw [Ledger.isBalanced_eq_ok, ← ofInt_toInt_add, h, Int.add_right_neg]
  exact ⟨rfl, fun _ => by decide⟩

theorem slaCompose_encode (ha : a.isBalanced b = .ok true) (hc : c.isBalanced b = .ok true) :
    slaCompose b (a.encode.toList ++ x) (c.encode.toList ++ y) =
      encodeOrEmpty <$> a.compose b c := by
  have hlen : ¬ ((a.encode.toList ++ x).length < 24 ∨ (c.encode.toList ++ y).length < 24) := by
    simp
  rw [slaCompose, if_neg hlen, readArray_encode, ok_bind, decode_of_balanced ha, ok_bind,
    readArray_encode, ok_bind, decode_of_balanced hc, ok_bind]
  rfl

theorem slaEvolve_encode (ha : a.isBalanced b = .ok true) (hc : c.isBalanced b = .ok true) :
    slaEvolve b (a.encode.toList ++ x) (c.encode.toList ++ y) =
      encodeOrEmpty <$> a.evolve b c := by
  have hlen : ¬ ((a.encode.toList ++ x).length < 24 ∨ (c.encode.toList ++ y).length < 24) := by
    simp
  rw [slaEvolve, if_neg hlen, readArray_encode, ok_bind, decode_of_balanced ha, ok_bind,
    readArray_encode, ok_bind, decode_of_balanced hc, ok_bind]
  rfl

/-- The encoding and its inverse agree, but for one debit, and the entry points compute on
encoded ledgers what the operations do, whatever follows the first 24 bytes. -/
theorem encoding_respected (b : Build) :
    (∀ bytes : Vector UInt8 24,
      (readLe Int64 bytes.toList 8 : Exec Unit _) ≠ .ok Int64.minValue →
        ∃ l, Ledger.decode b bytes = .ok l ∧ l.encode = bytes) ∧
    (∀ l : Ledger, l.iota.toInt = -l.delta.toInt → Ledger.decode b l.encode = .ok l) ∧
    ∀ (a c : Ledger) (x y : List UInt8),
      a.isBalanced b = .ok true → c.isBalanced b = .ok true →
      slaCompose b (a.encode.toList ++ x) (c.encode.toList ++ y) =
        encodeOrEmpty <$> a.compose b c ∧
      slaEvolve b (a.encode.toList ++ x) (c.encode.toList ++ y) =
        encodeOrEmpty <$> a.evolve b c :=
  ⟨fun _ => encode_decode, fun _ => decode_encode_of_iota, fun _ _ _ _ ha hc =>
    ⟨slaCompose_encode ha hc, slaEvolve_encode ha hc⟩⟩

/-- A debit of five and one of three, the first with a byte behind it. -/
theorem encoding_respected_trailing :
    Ledger.decode .debug (Ledger.encode ⟨1, 5, -5, 42⟩) = .ok ⟨1, 5, -5, 42⟩ ∧
      slaCompose .debug ((Ledger.encode ⟨1, 5, -5, 42⟩).toList ++ [7])
          ((Ledger.encode ⟨2, 3, -3, 42⟩).toList ++ []) =
        encodeOrEmpty <$> Ledger.compose .debug ⟨1, 5, -5, 42⟩ ⟨2, 3, -3, 42⟩ :=
  ⟨(encoding_respected .debug).2.1 ⟨1, 5, -5, 42⟩ rfl,
    ((encoding_respected .debug).2.2 _ _ _ _ rfl rfl).1⟩

end HyperKitty.Sla
