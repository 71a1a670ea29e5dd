import HyperKitty.Proofs.Ledger

namespace HyperKitty.Worm

/-- Every part of the payload is short enough for its length field. -/
def Call.Fits (call : Call) : Prop :=
  call.eventType.length < 2 ^ 16 ∧ call.data.length < 2 ^ 32 ∧ call.metadata.length < 2 ^ 32

namespace Chain

variable {hash : List UInt8 → Hash}

theorem nextRecord_marked (c : Chain) (call : Call) : (c.nextRecord hash call).header.Marked := by
  rw [nextRecord_header]
  exact ⟨rfl, rfl⟩

theorem nextRecord_lengthsMatch {c : Chain} {call : Call} :
    (c.nextRecord hash call).LengthsMatch ↔ call.Fits := by
  have h16 := Nat.mod_eq_iff_lt (m := call.eventType.length) (n := 2 ^ 16) (by decide)
  have hdata := Nat.mod_eq_iff_lt (m := call.data.length) (n := 2 ^ 32) (by decide)
  have hmeta := Nat.mod_eq_iff_lt (m := call.metadata.length) (n := 2 ^ 32) (by decide)
  rw [WormRecord.LengthsMatch, nextRecord_header, Call.Fits, ← h16, ← hdata, ← hmeta]
  simp only [UInt16.toNat_ofNat', UInt32.toNat_ofNat']
  rfl

theorem nextRecord_roundTrips {c : Chain} {call : Call} :
    (c.nextRecord hash call).RoundTrips ↔ call.Fits := by
  rw [WormRecord.roundTrips_iff (nextRecord_marked c call), nextRecord_lengthsMatch]

theorem build_roundTrips {calls : List Call} :
    (∀ r ∈ (build hash calls).records, r.RoundTrips) ↔ ∀ call ∈ calls, call.Fits := by
  induction calls using List.reverseRecOn with
  | nil => simp [build, new]
  | append_singleton calls call ih =>
    rw [build_snoc, append, List.forall_mem_append, List.forall_mem_append, ih,
      List.forall_mem_singleton, List.forall_mem_singleton, nextRecord_roundTrips]

/-- Encoding and decoding agree on the records of a chain exactly when every
payload fits the length fields: appending does not check that. What decodes
always encodes back to the bytes it came from. -/
theorem codec_agrees_iff (hash : List UInt8 → Hash) (calls : List Call) :
    ((∀ r ∈ (build hash calls).records, ∀ rest, WormRecord.fromBytes (r.toBytes ++ rest) = .ok r) ∧
      ∀ bytes r, WormRecord.fromBytes bytes = .ok r →
        r.toBytes = bytes.take r.totalSize ∧ r.toBytes.length = r.totalSize) ↔
    ∀ call ∈ calls, call.Fits := by
  refine Iff.trans (and_iff_left fun bytes r h => ?_) build_roundTrips
  exact ⟨WormRecord.toBytes_of_fromBytes h, (WormRecord.fromBytes_ok_iff.mp h).2.1.totalSize.symm⟩

/-- An event type of 65536 bytes is appended with a length of zero. -/
theorem append_overlong_event :
    let call : Call := ⟨List.replicate 65536 7, [], [], 100⟩
    let hash : List UInt8 → Hash := fun _ => genesisHash
    (new.append hash call).1 = .ok () ∧
      ∃ r, (new.append hash call).2.records = [r] ∧ r.header.eventLength = 0 ∧
        r.eventType.length = 65536 ∧
        ¬ ∀ rest, WormRecord.fromBytes (r.toBytes ++ rest) = .ok r := by
  intro call hash
  have hlen : call.eventType.length = 65536 := List.length_replicate
  refine ⟨rfl, new.nextRecord hash call, rfl, ?_, hlen, fun h => ?_⟩
  · rw [nextRecord_header]
    simp only [hlen]
    rfl
  · have hfits := (nextRecord_roundTrips.mp h).1
    rw [hlen] at hfits
    omega

end Chain

end HyperKitty.Worm
