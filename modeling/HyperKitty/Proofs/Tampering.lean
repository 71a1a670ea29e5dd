import HyperKitty.Proofs.Ledger

namespace HyperKitty.Worm

open Exec Bytes

theorem WormHeader.toBytes_inj {h k : WormHeader} (e : h.toBytes = k.toBytes) : h = k := by
  obtain ⟨e, hsignature⟩ := List.append_inj' e (by simp)
  obtain ⟨e, hcontent⟩ := List.append_inj' e (by simp)
  obtain ⟨e, hprevious⟩ := List.append_inj' e (by simp)
  obtain ⟨e, htimestamp⟩ := List.append_inj' e (by simp)
  obtain ⟨e, hmetadata⟩ := List.append_inj' e (by simp)
  obtain ⟨e, hdata⟩ := List.append_inj' e (by simp)
  obtain ⟨e, hevent⟩ := List.append_inj' e (by simp)
  obtain ⟨e, hflags⟩ := List.append_inj' e (by simp)
  obtain ⟨hmagic, hversion⟩ := List.append_inj' e (by simp)
  cases h
  cases k
  simp only [List.cons.injEq, and_true] at hversion hflags
  rw [WormHeader.mk.injEq]
  exact ⟨Vector.toList_inj.mp hmagic, hversion, hflags, toBe_inj hevent, toBe_inj hdata,
    toBe_inj hmetadata, toBe_inj htimestamp, Vector.toList_inj.mp hprevious,
    Vector.toList_inj.mp hcontent, Vector.toList_inj.mp hsignature⟩

namespace WormRecord

/-- What the bytes of a record show: its header, and its payload without the
boundaries between the three parts. -/
def shown (r : WormRecord) : WormHeader × List UInt8 := (r.header, r.content)

theorem toBytes_eq (r : WormRecord) : r.toBytes = r.header.toBytes ++ r.content := by
  simp [toBytes, content, Worm.content]

theorem shown_of_toBytes {r s : WormRecord} (h : r.toBytes = s.toBytes) : r.shown = s.shown := by
  rw [toBytes_eq, toBytes_eq] at h
  obtain ⟨hh, hc⟩ := List.append_inj h (by simp)
  exact Prod.ext (WormHeader.toBytes_inj hh) hc

end WormRecord

namespace Chain

variable {hash : List UInt8 → Hash}

theorem verifyLoop_congr {d : Hash} {rs ss : List WormRecord}
    (h : rs.map WormRecord.shown = ss.map WormRecord.shown) :
    verifyLoop hash d rs = verifyLoop hash d ss := by
  induction rs generalizing d ss with
  | nil => rw [List.map_eq_nil_iff.mp h.symm]
  | cons r rs ih =>
    obtain ⟨s, ss, rfl, hs, ht⟩ := List.map_eq_cons_iff.mp h.symm
    obtain ⟨hh, hc⟩ := Prod.mk.inj hs
    rw [verifyLoop, verifyLoop, r.toBytes_eq, s.toBytes_eq, hh, hc, ih ht.symm]

/-- Verification sees no more of a chain than its records show. -/
theorem verify_congr {c c' : Chain}
    (h : c'.records.map WormRecord.shown = c.records.map WormRecord.shown) :
    c'.verify hash = c.verify hash :=
  verifyLoop_congr h

/-- No two of the byte strings have one hash. -/
def CollisionFree (hash : List UInt8 → Hash) (strings : List (List UInt8)) : Prop :=
  ∀ a ∈ strings, ∀ b ∈ strings, hash a = hash b → a = b

instance : Decidable (CollisionFree hash strings) :=
  inferInstanceAs (Decidable (∀ a ∈ strings, ∀ b ∈ strings, hash a = hash b → a = b))

/-- A different chain with the same headers and the same payloads, which are
divided differently among event type, data and metadata. -/
def Resplit (c c' : Chain) : Prop :=
  c' ≠ c ∧ c'.records.map WormRecord.shown = c.records.map WormRecord.shown

/-- Two chains that verify and end alike show the same records. -/
theorem shown_of_verify {c c' : Chain} (hc : c.verify hash = .ok true)
    (hc' : c'.verify hash = .ok true) (hlen : c'.records.length = c.records.length)
    (hlast : c'.records.getLast? = c.records.getLast?)
    (hfree : CollisionFree hash ((c.records ++ c'.records).map WormRecord.toBytes)) :
    c'.records.map WormRecord.shown = c.records.map WormRecord.shown := by
  apply Linking.Linked.agree (L := linking hash) ?_ ?_ (verify_ok_iff.mp hc').1
    (verify_ok_iff.mp hc).1 hlen (by rw [hlast])
  · intro r s h
    exact congrArg (fun v => v.1.previousHash) h
  · intro r hr s hs h
    apply WormRecord.shown_of_toBytes
    apply hfree _ ?_ _ ?_ h
    · exact List.mem_map_of_mem (List.mem_append_right _ hr)
    · exact List.mem_map_of_mem (List.mem_append_left _ hs)

/-- Whatever differs from a chain built by appending, with as many records and
the same last one, is detected unless it only moves bytes across the boundaries
within payloads: neither the hashes nor the verifier look at the lengths. -/
theorem tampering_detected_iff (hash : List UInt8 → Hash) (calls : List Call) (c' : Chain)
    (hlen : c'.records.length = (build hash calls).records.length)
    (hlast : c'.records.getLast? = (build hash calls).records.getLast?)
    (hfree : CollisionFree hash
      (((build hash calls).records ++ c'.records).map WormRecord.toBytes)) :
    (c' ≠ build hash calls → c'.verify hash = .error .tamperDetected) ↔
      ¬ Resplit (build hash calls) c' := by
  have hbuild : (build hash calls).verify hash = .ok true := build_verify calls
  constructor
  · intro hd hr
    obtain ⟨hne, hshown⟩ := hr
    have ht := hd hne
    rw [verify_congr hshown, hbuild] at ht
    cases ht
  · intro hr hne
    rw [verify_tampered_iff]
    intro hv
    exact hr ⟨hne, shown_of_verify hbuild hv hlen hlast hfree⟩

/-- The bytes read as digits, cut down to the width of a hash. -/
def digitHash (bytes : List UInt8) : Hash :=
  ⟨(beBytes hashSize (bytes.foldl (fun n b => n * 257 + b.toNat + 1) 0)).toArray, by simp⟩

/-- A changed timestamp in the first of two records. -/
theorem tampering_detected_timestamp :
    let calls : List Call := [⟨[1, 2], [3], [4], 100⟩, ⟨[5], [6], [7, 8], 200⟩]
    let c' : Chain := ⟨(build digitHash calls).records.modifyHead fun r =>
      { r with header := { r.header with timestampNs := 101 } }⟩
    (c' ≠ build digitHash calls → c'.verify digitHash = .error .tamperDetected) ↔
      ¬ Resplit (build digitHash calls) c' := by
  intro calls c'
  exact tampering_detected_iff digitHash calls c' (by decide +kernel) (by decide +kernel)
    (by decide +kernel)

/-- One byte of the first record moves from its event type to its data. -/
theorem verify_accepts_resplit :
    let c := build digitHash [⟨[1, 2], [3], [4], 100⟩, ⟨[5], [6], [7, 8], 200⟩]
    let c' : Chain := ⟨c.records.modifyHead fun r => { r with eventType := [1], data := [2, 3] }⟩
    c' ≠ c ∧ c'.records.length = c.records.length ∧ c'.records.getLast? = c.records.getLast? ∧
      CollisionFree digitHash ((c.records ++ c'.records).map WormRecord.toBytes) ∧
      c'.verify digitHash = .ok true := by
  intro c c'
  refine ⟨by decide +kernel, by decide +kernel, by decide +kernel, by decide +kernel, ?_⟩
  rw [verify_congr (c := c) (by decide +kernel)]
  exact build_verify _

end Chain

end HyperKitty.Worm
