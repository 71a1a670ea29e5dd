import HyperKitty.Core.Error
import HyperKitty.Lib.Bytes

namespace HyperKitty.Worm

open Exec Bytes

/-- The letters WORM in ASCII. -/
def magicBytes : Vector UInt8 4 := ⟨#[0x57, 0x4F, 0x52, 0x4D], rfl⟩

def currentVersion : UInt8 := 1

def headerSize : Nat := 152

abbrev hashSize : Nat := 32

abbrev signatureSize : Nat := 64

abbrev Hash := Vector UInt8 hashSize

def genesisHash : Hash := Vector.replicate hashSize 0

structure WormHeader where
  magic : Vector UInt8 4
  version : UInt8
  flags : UInt8
  eventLength : UInt16
  dataLength : UInt32
  metadataLength : UInt32
  timestampNs : UInt64
  previousHash : Hash
  contentHash : Hash
  signature : Vector UInt8 signatureSize
  deriving DecidableEq

namespace WormHeader

def new : WormHeader where
  magic := magicBytes
  version := currentVersion
  flags := 0
  eventLength := 0
  dataLength := 0
  metadataLength := 0
  timestampNs := 0
  previousHash := genesisHash
  contentHash := genesisHash
  signature := Vector.replicate signatureSize 0

def payloadSize (h : WormHeader) : Nat :=
  h.eventLength.toNat + h.dataLength.toNat + h.metadataLength.toNat

def recordSize (h : WormHeader) : Nat := headerSize + h.payloadSize

def toBytes (h : WormHeader) : List UInt8 :=
  h.magic.toList ++ [h.version] ++ [h.flags] ++ toBe h.eventLength ++ toBe h.dataLength ++
    toBe h.metadataLength ++ toBe h.timestampNs ++ h.previousHash.toList ++
    h.contentHash.toList ++ h.signature.toList

def fromBytes (bytes : List UInt8) : Exec Error WormHeader := do
  if bytes.length < headerSize then
    fail (.storageError s!"header too short: {bytes.length} < {headerSize}")
  else
    let magic ← readArray 4 bytes 0
    if magic ≠ magicBytes then fail (.storageError "invalid magic bytes")
    else
      let version ← readByte bytes 4
      if version ≠ currentVersion then fail (.storageError s!"unsupported version: {version}")
      else
        let flags ← readByte bytes 5
        let eventLength ← readBe UInt16 bytes 6
        let dataLength ← readBe UInt32 bytes 8
        let metadataLength ← readBe UInt32 bytes 12
        let timestampNs ← readBe UInt64 bytes 16
        let previousHash ← readArray hashSize bytes 24
        let contentHash ← readArray hashSize bytes 56
        let signature ← readArray signatureSize bytes 88
        pure {
          magic, version, flags, eventLength, dataLength, metadataLength, timestampNs,
          previousHash, contentHash, signature }

/-- The header's own marks are the ones the decoder asks for. -/
def Marked (h : WormHeader) : Prop := h.magic = magicBytes ∧ h.version = currentVersion

@[simp] theorem length_toBytes (h : WormHeader) : h.toBytes.length = headerSize := by
  simp [toBytes, headerSize, hashSize, signatureSize]

/-- Decoding gives exactly the marked header that the bytes begin with. -/
theorem fromBytes_ok_iff {bytes : List UInt8} {h : WormHeader} :
    fromBytes bytes = .ok h ↔ h.Marked ∧ h.toBytes <+: bytes := by
  constructor
  · intro hb
    unfold fromBytes at hb
    split at hb
    · cases hb
    obtain ⟨magic, h1, hb⟩ := (bind_ok _ _ _).mp hb
    split at hb
    · cases hb
    rename_i hmagic
    obtain ⟨version, h2, hb⟩ := (bind_ok _ _ _).mp hb
    split at hb
    · cases hb
    rename_i hversion
    simp only [bind_ok, pure_eq, Except.ok.injEq] at hb
    obtain ⟨flags, h3, event, h4, data, h5, metadata, h6, timestamp, h7, previous, h8, content, h9,
      signature, h10, rfl⟩ := hb
    refine ⟨⟨not_not.mp hmagic, not_not.mp hversion⟩, ?_⟩
    have p1 := prefix_of_readArray h1 List.nil_prefix rfl
    have p2 := prefix_of_readByte h2 p1 (by simp)
    have p3 := prefix_of_readByte h3 p2 (by simp)
    have p4 := prefix_of_readBe h4 p3 (by simp)
    have p5 := prefix_of_readBe h5 p4 (by simp)
    have p6 := prefix_of_readBe h6 p5 (by simp)
    have p7 := prefix_of_readBe h7 p6 (by simp)
    have p8 := prefix_of_readArray h8 p7 (by simp)
    have p9 := prefix_of_readArray h9 p8 (by simp [hashSize])
    exact prefix_of_readArray h10 p9 (by simp [hashSize])
  · intro hh
    obtain ⟨⟨hmagic, hversion⟩, p10⟩ := hh
    have hl := p10.length_le
    rw [length_toBytes] at hl
    have p9 := (List.prefix_append _ _).trans p10
    have p8 := (List.prefix_append _ _).trans p9
    have p7 := (List.prefix_append _ _).trans p8
    have p6 := (List.prefix_append _ _).trans p7
    have p5 := (List.prefix_append _ _).trans p6
    have p4 := (List.prefix_append _ _).trans p5
    have p3 := (List.prefix_append _ _).trans p4
    have p2 := (List.prefix_append _ _).trans p3
    have p1 := (List.prefix_append _ _).trans p2
    rw [fromBytes, if_neg (Nat.not_lt.mpr hl),
      readArray_of_prefix (p := []) p1 (by simp), ok_bind, if_neg (not_not.mpr hmagic),
      readByte_of_prefix p2 (by simp), ok_bind, if_neg (not_not.mpr hversion),
      readByte_of_prefix p3 (by simp), ok_bind,
      readBe_of_prefix p4 (by simp), ok_bind,
      readBe_of_prefix p5 (by simp), ok_bind,
      readBe_of_prefix p6 (by simp), ok_bind,
      readBe_of_prefix p7 (by simp), ok_bind,
      readArray_of_prefix p8 (by simp), ok_bind,
      readArray_of_prefix p9 (by simp [hashSize]), ok_bind,
      readArray_of_prefix p10 (by simp [hashSize]), ok_bind, pure_eq]

end WormHeader

end HyperKitty.Worm
