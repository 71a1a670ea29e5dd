import HyperKitty.Lib.HashChain
import HyperKitty.WormStorage.Ledger

namespace HyperKitty.WormStorage

variable {d : Hash} {es entries : List WormEntry}

/-- Combining with the same hash twice changes nothing. -/
@[simp] theorem computeChainHash_cancel (d c : Hash) :
    computeChainHash (computeChainHash d c) c = d := by
  ext i hi
  simp [computeChainHash]

@[simp] theorem computeChainHash_zero (c : Hash) : computeChainHash zeroHash c = c := by
  ext i hi
  simp [computeChainHash, zeroHash]

/-- An entry fits behind the chain hash that its own ones are combined from. -/
def entryLinking : Linking WormEntry Hash where
  previous e := computeChainHash e.chainHash e.contentHash
  digest e := e.chainHash

theorem computeChainHash_eq_iff {e : WormEntry} :
    computeChainHash d e.contentHash = e.chainHash ↔ entryLinking.previous e = d := by
  constructor
  · intro h
    change computeChainHash e.chainHash e.contentHash = d
    rw [← h, computeChainHash_cancel]
  · intro h
    rw [← h, entryLinking, computeChainHash_cancel]

theorem verifyLoop_iff : verifyLoop d es = true ↔ entryLinking.Linked d es := by
  induction es generalizing d with
  | nil => simp [verifyLoop, Linking.Linked]
  | cons e es ih =>
    rw [verifyLoop, Linking.Linked, ← computeChainHash_eq_iff, ← ih]
    by_cases h : computeChainHash d e.contentHash = e.chainHash
    · rw [if_neg (not_not.mpr h)]
      simp [h, entryLinking]
    · simp [h]

/-- Only the content hash and the chain hash of an entry are looked at. -/
theorem verifyLoop_modify {f : WormEntry → WormEntry}
    (hcontent : ∀ e, (f e).contentHash = e.contentHash)
    (hchain : ∀ e, (f e).chainHash = e.chainHash) (i : Nat) :
    verifyLoop d (es.modify i f) = verifyLoop d es := by
  induction es generalizing d i with
  | nil => rw [List.modify_nil]
  | cons e es ih =>
    cases i with
    | zero => rw [List.modify_zero_cons, verifyLoop, verifyLoop, hcontent, hchain]
    | succ i => rw [List.modify_succ_cons, verifyLoop, verifyLoop, ih]

/-- Entries can change places in a valid chain only if their contents have one hash. -/
theorem contentHash_of_swap {i j : Nat} (hij : i < j) (hj : j < es.length)
    (h : verifyLoop d es = true)
    (hs : verifyLoop d ((es.set i es[j]).set j es[i]) = true) :
    es[i].contentHash = es[j].contentHash := by
  rw [verifyLoop_iff] at h hs
  obtain ⟨hprevious, hdigest⟩ := h.swap hij hj hs
  have hcontent : ∀ e : WormEntry,
      computeChainHash (entryLinking.previous e) (entryLinking.digest e) = e.contentHash := by
    intro e
    ext k hk
    simp [computeChainHash, entryLinking, UInt8.xor_comm]
  rw [← hcontent, ← hcontent, hprevious, hdigest]

/-- A change to a stored array that keeps the hash fields of every entry, apart
from the one it replaces. -/
inductive Tampering where
  | reorder (i j : Nat)
  | replacePrevHash (i : Nat) (h : Hash)
  | changePayload (i : Nat) (payload : Option (List UInt8))

namespace Tampering

def apply (entries : List WormEntry) : Tampering → List WormEntry
  | reorder i j =>
    match entries[i]?, entries[j]? with
    | some a, some b => (entries.set i b).set j a
    | _, _ => entries
  | replacePrevHash i h => entries.modify i fun e => { e with prevHash := h }
  | changePayload i p => entries.modify i fun e => { e with payload := p }

/-- The chain hash of the entry in front of a position. -/
def chainHashBefore (entries : List WormEntry) (i : Nat) : Hash :=
  ((entries.take i).getLast?.map WormEntry.chainHash).getD zeroHash

/-- The tampering makes a difference that verification is asked to detect. -/
def Alters (entries : List WormEntry) : Tampering → Prop
  | reorder i j => ∃ (hi : i < entries.length) (hj : j < entries.length),
      entries[i].contentHash ≠ entries[j].contentHash
  | replacePrevHash i h => i < entries.length ∧ h ≠ chainHashBefore entries i
  | changePayload i p => ∃ hi : i < entries.length, p ≠ entries[i].payload

def IsReorder : Tampering → Prop
  | reorder _ _ => True
  | _ => False

end Tampering

theorem reorder_detected {i j : Nat} (hv : verifyChain entries = true)
    (ht : (Tampering.reorder i j).Alters entries) :
    verifyChain ((Tampering.reorder i j).apply entries) = false := by
  obtain ⟨hi, hj, hne⟩ := ht
  have happly : (Tampering.reorder i j).apply entries =
      (entries.set i entries[j]).set j entries[i] := by
    simp [Tampering.apply, List.getElem?_eq_getElem hi, List.getElem?_eq_getElem hj]
  rw [happly, Bool.eq_false_iff]
  intro hs
  rcases Nat.lt_trichotomy i j with hij | hij | hij
  · exact hne (contentHash_of_swap hij hj hv hs)
  · subst hij
    exact hne rfl
  · rw [List.set_comm _ _ (by omega)] at hs
    exact hne (contentHash_of_swap hij hi hv hs).symm

/-- Of the ways to tamper with a valid array, verification detects exactly the
reordering: neither the previous hashes nor the payloads are ever looked at. -/
theorem verifyChain_detects_iff (entries : List WormEntry) (t : Tampering)
    (hv : verifyChain entries = true) (ht : t.Alters entries) :
    verifyChain (t.apply entries) = false ↔ t.IsReorder := by
  cases t with
  | reorder i j =>
    exact iff_of_true (reorder_detected hv ht) trivial
  | replacePrevHash i h =>
    have hsame : verifyChain ((Tampering.replacePrevHash i h).apply entries) = true := by
      rw [← hv]
      exact verifyLoop_modify (f := fun e => { e with prevHash := h }) (fun _ => rfl)
        (fun _ => rfl) i
    rw [hsame]
    exact iff_of_false Bool.noConfusion id
  | changePayload i p =>
    have hsame : verifyChain ((Tampering.changePayload i p).apply entries) = true := by
      rw [← hv]
      exact verifyLoop_modify (f := fun e => { e with payload := p }) (fun _ => rfl)
        (fun _ => rfl) i
    rw [hsame]
    exact iff_of_false Bool.noConfusion id

/-- The payload itself, cut or padded to the width of a hash. -/
def paddedHash (payload : List UInt8) : Hash :=
  ⟨((payload ++ List.replicate hashSize 0).take hashSize).toArray, by simp⟩

/-- The next entry of an honest ledger. -/
def entryAfter (previous : Hash) (payload : List UInt8) : WormEntry :=
  { WormEntry.alloc with
    payload := some payload
    prevHash := previous
    contentHash := paddedHash payload
    chainHash := computeChainHash previous (paddedHash payload) }

def ledgerOfTwo : List WormEntry :=
  [entryAfter zeroHash [1], entryAfter (entryAfter zeroHash [1]).chainHash [2]]

theorem verifyChain_detects_swap :
    verifyChain ((Tampering.reorder 0 1).apply ledgerOfTwo) = false ↔
      (Tampering.reorder 0 1).IsReorder :=
  verifyChain_detects_iff ledgerOfTwo (.reorder 0 1) (by decide +kernel)
    ⟨by decide, by decide, by decide +kernel⟩

/-- A ledger whose content hashes are the hashes of its payloads still verifies
with a previous hash of zeros in its second entry, or with another first payload. -/
theorem verifyChain_accepts_forgeries :
    let broken : Tampering := .replacePrevHash 1 zeroHash
    let forged : Tampering := .changePayload 0 (some [3])
    verifyChain ledgerOfTwo = true ∧
      (∀ e ∈ ledgerOfTwo, ∀ p ∈ e.payload, e.contentHash = paddedHash p) ∧
      broken.Alters ledgerOfTwo ∧ verifyChain (broken.apply ledgerOfTwo) = true ∧
      forged.Alters ledgerOfTwo ∧ verifyChain (forged.apply ledgerOfTwo) = true := by
  intro broken forged
  refine ⟨by decide +kernel, by decide +kernel, ⟨by decide, by decide +kernel⟩, by decide +kernel,
    ⟨by decide, by decide +kernel⟩, by decide +kernel⟩

end HyperKitty.WormStorage
