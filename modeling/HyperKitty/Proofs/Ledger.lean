import HyperKitty.Lib.HashChain
import HyperKitty.Worm.Chain

namespace HyperKitty.Worm

variable {hash : List UInt8 → Hash}

/-- The links of a chain under a hash function. -/
def linking (hash : List UInt8 → Hash) : Linking WormRecord Hash where
  previous r := r.header.previousHash
  digest r := hash r.toBytes

namespace Chain

/-- The hash of the content is the one the header carries. -/
def Sealed (hash : List UInt8 → Hash) (r : WormRecord) : Prop :=
  hash r.content = r.header.contentHash

theorem verifyLoop_ok_iff {d : Hash} {rs : List WormRecord} :
    verifyLoop hash d rs = .ok true ↔ (linking hash).Linked d rs ∧ ∀ r ∈ rs, Sealed hash r := by
  induction rs generalizing d with
  | nil => simp [verifyLoop, Linking.Linked]
  | cons r rs ih =>
    rw [verifyLoop, Linking.Linked, List.forall_mem_cons]
    by_cases hl : r.header.previousHash = d
    · by_cases hc : hash r.content = r.header.contentHash
      · rw [if_neg (not_not.mpr hl), if_neg (not_not.mpr hc), ih]
        simp [linking, hl, Sealed, hc]
      · simp [hl, hc, Sealed]
    · simp [hl, linking]

/-- Verifying knows only two results. -/
theorem verifyLoop_cases (hash : List UInt8 → Hash) (d : Hash) (rs : List WormRecord) :
    verifyLoop hash d rs = .ok true ∨ verifyLoop hash d rs = .error .tamperDetected := by
  induction rs generalizing d with
  | nil => exact Or.inl rfl
  | cons r rs ih =>
    rw [verifyLoop]
    split
    · exact Or.inr rfl
    · split
      · exact Or.inr rfl
      · exact ih _

theorem verify_ok_iff {c : Chain} : c.verify hash = .ok true ↔
    (linking hash).Linked genesisHash c.records ∧ ∀ r ∈ c.records, Sealed hash r :=
  verifyLoop_ok_iff

theorem verify_tampered_iff {c : Chain} :
    c.verify hash = .error .tamperDetected ↔ ¬ c.verify hash = .ok true := by
  rcases verifyLoop_cases hash genesisHash c.records with h | h
  · rw [verify, ← genesisHash, h]
    simp
  · rw [verify, ← genesisHash, h]
    simp

theorem nextRecord_previousHash (c : Chain) (call : Call) :
    (c.nextRecord hash call).header.previousHash = (linking hash).tip genesisHash c.records := by
  unfold nextRecord Linking.tip
  cases c.records.getLast? <;> rfl

/-- What the header of a new record is made of, whatever chain it is added to. -/
theorem nextRecord_header (c : Chain) (call : Call) :
    (c.nextRecord hash call).header = { WormHeader.new with
      eventLength := UInt16.ofNat call.eventType.length
      dataLength := UInt32.ofNat call.data.length
      metadataLength := UInt32.ofNat call.metadata.length
      timestampNs := call.timestampNs
      previousHash := (c.nextRecord hash call).header.previousHash
      contentHash := hash (content call.eventType call.data call.metadata) } := by
  unfold nextRecord
  cases c.records.getLast? <;> rfl

theorem nextRecord_sealed (c : Chain) (call : Call) : Sealed hash (c.nextRecord hash call) := by
  rw [Sealed, nextRecord_header]
  rfl

/-- A chain that verifies still does when a record is appended. -/
theorem append_verify {c : Chain} (h : c.verify hash = .ok true) (call : Call) :
    (c.append hash call).2.verify hash = .ok true := by
  rw [verify_ok_iff] at h ⊢
  refine ⟨Linking.linked_snoc.mpr ⟨h.1, nextRecord_previousHash c call⟩, ?_⟩
  intro r hr
  rcases List.mem_append.mp hr with hr | hr
  · exact h.2 r hr
  · rw [List.mem_singleton.mp hr]
    exact nextRecord_sealed c call

theorem build_snoc (calls : List Call) (call : Call) :
    build hash (calls ++ [call]) = ((build hash calls).append hash call).2 := by
  simp [build]

theorem build_verify (calls : List Call) : (build hash calls).verify hash = .ok true := by
  induction calls using List.reverseRecOn with
  | nil => rfl
  | append_singleton calls call ih => exact build_snoc calls call ▸ append_verify ih call

/-- After any calls, one more call leaves a chain that verifies, extends the old
one by one record, and carries in each record the hash of the one before it. -/
theorem append_sound (hash : List UInt8 → Hash) (calls : List Call) (call : Call) :
    let c := build hash calls
    let c' := (c.append hash call).2
    (c.append hash call).1 = .ok () ∧ c'.verify hash = .ok true ∧ c.records <+: c'.records ∧
      c'.records.length = c.records.length + 1 ∧
      (∀ r ∈ c'.records.head?, r.header.previousHash = genesisHash) ∧
      ∀ (i : Nat) (hi : i + 1 < c'.records.length),
        c'.records[i + 1].header.previousHash = hash c'.records[i].toBytes := by
  intro c c'
  have hv : c'.verify hash = .ok true := append_verify (build_verify calls) call
  have hl := (verify_ok_iff.mp hv).1
  refine ⟨rfl, hv, List.prefix_append _ _, by simp [c', append], hl.head, hl.getElem⟩

end Chain

end HyperKitty.Worm
