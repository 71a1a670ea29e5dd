import HyperKitty.Sla.Ledger

namespace HyperKitty.Wasm

open Exec Bytes Sla

/-- The encoding of a result, which is empty where there is none. -/
def encodeOrEmpty : Option Ledger → List UInt8
  | some l => l.encode.toList
  | none => []

/-- Compose two encoded ledgers. Returns the result or empty on omega mismatch. -/
def slaCompose (b : Build) (x y : List UInt8) : Exec Unit (List UInt8) := do
  if x.length < 24 ∨ y.length < 24 then pure []
  else
    let la ← Ledger.decode b (← readArray 24 x 0)
    let lb ← Ledger.decode b (← readArray 24 y 0)
    pure (encodeOrEmpty (← la.compose b lb))

/-- Evolve a ledger by an increment. Returns the result or empty on violation. -/
def slaEvolve (b : Build) (base increment : List UInt8) : Exec Unit (List UInt8) := do
  if base.length < 24 ∨ increment.length < 24 then pure []
  else
    let lb ← Ledger.decode b (← readArray 24 base 0)
    let li ← Ledger.decode b (← readArray 24 increment 0)
    pure (encodeOrEmpty (← lb.evolve b li))

/-- The pieces of `n` bytes each, without a shorter one at the end. -/
def chunksExact (n : Nat) (bs : List UInt8) : List (List UInt8) :=
  (List.range (bs.length / n)).map fun i => (bs.drop (i * n)).take n

/-- The loop over the chunks, which stops at the first push that fails. -/
def accumulate (b : Build) : List (List UInt8) → LedgerSum → Exec Unit (List UInt8)
  | [], sum => pure sum.encodeWireFrame.toList
  | chunk :: chunks, sum => do
    let l ← Ledger.decode b (← readArray 24 chunk 0)
    match ← sum.push b l with
    | (some (), sum) => accumulate b chunks sum
    | (none, _) => pure []

/-- Accumulate multiple encoded ledgers. Returns the wire frame. -/
def slaAccumulate (b : Build) (ledgersFlat : List UInt8) : Exec Unit (List UInt8) :=
  if ledgersFlat.length % 24 ≠ 0 then pure []
  else accumulate b (chunksExact 24 ledgersFlat) .new

/-- A read takes the encoding of a ledger and leaves the bytes behind it. -/
theorem readArray_encode (l : Ledger) (rest : List UInt8) :
    (readArray 24 (l.encode.toList ++ rest) 0 : Exec Unit _) = .ok l.encode :=
  readArray_of_prefix (p := []) (List.prefix_append _ _) rfl

theorem chunksExact_of_length_lt {n : Nat} {bs : List UInt8} (h : bs.length < n) :
    chunksExact n bs = [] := by
  rw [chunksExact, Nat.div_eq_of_lt h]
  rfl

theorem chunksExact_append {n : Nat} {v bs : List UInt8} (hv : v.length = n) (hn : 0 < n) :
    chunksExact n (v ++ bs) = v :: chunksExact n bs := by
  have hdiv : (v ++ bs).length / n = bs.length / n + 1 := by
    rw [List.length_append, hv, Nat.add_comm, Nat.add_div_right _ hn]
  rw [chunksExact, hdiv, List.range_succ_eq_map, List.map_cons, List.map_map, chunksExact]
  congr 1
  · simp [hv]
  · apply List.map_congr_left
    intro i _
    have hi : (v ++ bs).drop ((i + 1) * n) = bs.drop (i * n) := by
      rw [Nat.succ_mul, Nat.add_comm, ← hv, List.drop_append]
      simp
    rw [Function.comp_apply, hi]

end HyperKitty.Wasm
