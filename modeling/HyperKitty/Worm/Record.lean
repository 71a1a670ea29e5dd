import HyperKitty.Worm.Header

namespace HyperKitty.Worm

open Exec Bytes

structure WormRecord where
  header : WormHeader
  eventType : List UInt8
  data : List UInt8
  metadata : List UInt8
  deriving DecidableEq

namespace WormRecord

def new (header : WormHeader) (eventType data metadata : List UInt8) : WormRecord :=
  ⟨header, eventType, data, metadata⟩

def totalSize (r : WormRecord) : Nat := r.header.recordSize

def toBytes (r : WormRecord) : List UInt8 :=
  r.header.toBytes ++ r.eventType ++ r.data ++ r.metadata

def fromBytes (bytes : List UInt8) : Exec Error WormRecord := do
  if bytes.length < headerSize then
    fail (.storageError s!"record too short: {bytes.length} < {headerSize}")
  else
    let header ← WormHeader.fromBytes (← slice bytes 0 headerSize)
    let offset := headerSize
    let eventLength := header.eventLength.toNat
    let dataLength := header.dataLength.toNat
    let metadataLength := header.metadataLength.toNat
    let expectedLen := offset + eventLength + dataLength + metadataLength
    if bytes.length < expectedLen then
      fail (.storageError s!"record payload incomplete: {bytes.length} < {expectedLen}")
    else
      let eventType ← slice bytes offset (offset + eventLength)
      let data ← slice bytes (offset + eventLength) (offset + eventLength + dataLength)
      let metadata ← slice bytes (offset + eventLength + dataLength)
        (offset + eventLength + dataLength + metadataLength)
      pure ⟨header, eventType, data, metadata⟩

/-- The header tells the lengths of the payload's parts. -/
def LengthsMatch (r : WormRecord) : Prop :=
  r.header.eventLength.toNat = r.eventType.length ∧
    r.header.dataLength.toNat = r.data.length ∧ r.header.metadataLength.toNat = r.metadata.length

theorem LengthsMatch.totalSize {r : WormRecord} (h : r.LengthsMatch) :
    r.totalSize = r.toBytes.length := by
  obtain ⟨he, hd, hm⟩ := h
  simp [WormRecord.totalSize, WormHeader.recordSize, WormHeader.payloadSize, toBytes, he, hd, hm,
    Nat.add_assoc]

/-- Decoding gives exactly the marked record with matching lengths that the bytes
begin with. -/
theorem fromBytes_ok_iff {bytes : List UInt8} {r : WormRecord} :
    fromBytes bytes = .ok r ↔ r.header.Marked ∧ r.LengthsMatch ∧ r.toBytes <+: bytes := by
  constructor
  · intro hb
    unfold fromBytes at hb
    split at hb
    · cases hb
    obtain ⟨s, hs, hb⟩ := (bind_ok _ _ _).mp hb
    obtain ⟨header, hh, hb⟩ := (bind_ok _ _ _).mp hb
    dsimp only at hb
    split at hb
    · cases hb
    simp only [bind_ok, pure_eq, Except.ok.injEq] at hb
    obtain ⟨event, h1, data, h2, metadata, h3, rfl⟩ := hb
    obtain ⟨hmarked, hp⟩ := WormHeader.fromBytes_ok_iff.mp hh
    have p0 := hp.trans (prefix_of_slice hs List.nil_prefix rfl).1
    obtain ⟨p1, e1⟩ := prefix_of_slice h1 p0 (by simp)
    obtain ⟨p2, e2⟩ := prefix_of_slice h2 p1 (by simp; omega)
    obtain ⟨p3, e3⟩ := prefix_of_slice h3 p2 (by simp; omega)
    exact ⟨hmarked, ⟨Nat.add_left_cancel e1, Nat.add_left_cancel e2, Nat.add_left_cancel e3⟩, p3⟩
  · intro h
    obtain ⟨hmarked, ⟨he, hd, hm⟩, p3⟩ := h
    have p2 := (List.prefix_append _ _).trans p3
    have p1 := (List.prefix_append _ _).trans p2
    have p0 := (List.prefix_append _ _).trans p1
    have hl := p3.length_le
    simp only [toBytes, List.length_append, WormHeader.length_toBytes] at hl
    have hh : WormHeader.fromBytes r.header.toBytes = .ok r.header :=
      WormHeader.fromBytes_ok_iff.mpr ⟨hmarked, List.prefix_rfl⟩
    have hs : (slice bytes 0 headerSize : Exec Error _) = .ok r.header.toBytes :=
      slice_of_prefix (p := []) p0 rfl (by simp)
    have hshort : ¬ bytes.length < headerSize := by omega
    have hcomplete : ¬ bytes.length < headerSize + r.header.eventLength.toNat +
        r.header.dataLength.toNat + r.header.metadataLength.toNat := by omega
    rw [fromBytes, if_neg hshort, hs, ok_bind, hh, ok_bind]
    dsimp only
    rw [if_neg hcomplete, slice_of_prefix p1 (by simp) (by rw [he]), ok_bind,
      slice_of_prefix p2 (by simp [he]) (by rw [hd]), ok_bind,
      slice_of_prefix p3 (by simp [he, hd, Nat.add_assoc]) (by rw [hm]), ok_bind, pure_eq]

/-- The record decodes from its own bytes, whatever follows them. -/
def RoundTrips (r : WormRecord) : Prop := ∀ rest, fromBytes (r.toBytes ++ rest) = .ok r

theorem roundTrips_iff {r : WormRecord} (h : r.header.Marked) : r.RoundTrips ↔ r.LengthsMatch := by
  constructor
  · intro hr
    exact (fromBytes_ok_iff.mp (hr [])).2.1
  · intro hl rest
    exact fromBytes_ok_iff.mpr ⟨h, hl, List.prefix_append _ _⟩

/-- What is decoded is written back as the bytes it was decoded from. -/
theorem toBytes_of_fromBytes {bytes : List UInt8} {r : WormRecord} (h : fromBytes bytes = .ok r) :
    r.toBytes = bytes.take r.totalSize := by
  obtain ⟨_, hl, hp⟩ := fromBytes_ok_iff.mp h
  rw [hl.totalSize]
  exact List.prefix_iff_eq_take.mp hp

end WormRecord

end HyperKitty.Worm
