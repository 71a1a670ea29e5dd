import HyperKitty.WormStorage.Entry

namespace HyperKitty.WormStorage

open Exec Bytes Buffer

/-- The bytes of a record up to its lengths. -/
def Lengths.opening (flags : UInt8) (l : Lengths) : List UInt8 :=
  wormMagic ++ [wormVersion] ++ [flags] ++ toLe l.eventLen ++ toLe l.dataLen ++ toLe l.metaLen

@[simp] theorem Lengths.length_opening (flags : UInt8) (l : Lengths) :
    (l.opening flags).length = 16 := by
  simp [opening]

structure Frame where
  flags : UInt8
  timestampNs : UInt64
  prevHash : Hash
  contentHash : Hash
  signature : Vector UInt8 sigSize
  event : List UInt8
  data : List UInt8
  metadata : List UInt8

namespace Frame

variable {f : Frame} {buf : List UInt8}

def lengths (f : Frame) : Lengths where
  eventLen := .ofNat f.event.length
  dataLen := .ofNat f.data.length
  metaLen := .ofNat f.metadata.length

def bodyLength (f : Frame) : Nat := f.event.length + f.data.length + f.metadata.length

/-- Every field is short enough for its length in the header. -/
def Fits (f : Frame) : Prop :=
  f.event.length < 2 ^ 16 ∧ f.data.length < 2 ^ 32 ∧ f.metadata.length < 2 ^ 32

def header (f : Frame) : List UInt8 :=
  wormMagic ++ [wormVersion] ++ [f.flags] ++ toLe f.lengths.eventLen ++ toLe f.lengths.dataLen ++
    toLe f.lengths.metaLen ++ toLe f.timestampNs ++ f.prevHash.toList ++ f.contentHash.toList ++
    f.signature.toList

theorem header_eq (f : Frame) : f.header = f.lengths.opening f.flags ++ toLe f.timestampNs ++
    f.prevHash.toList ++ f.contentHash.toList ++ f.signature.toList :=
  rfl

def toBytes (f : Frame) : List UInt8 := f.header ++ f.event ++ f.data ++ f.metadata

/-- A field as the reader keeps it: an empty one is not allocated. -/
def field (bs : List UInt8) : Option (List UInt8) := if 0 < bs.length then some bs else none

/-- The entry that is read from the frame. What the frame does not carry is zero. -/
def toEntry (f : Frame) : WormEntry :=
  { WormEntry.alloc with
    timestampNs := f.timestampNs
    prevHash := f.prevHash
    contentHash := f.contentHash
    signature := f.signature
    eventType := field f.event
    payload := field f.data
    metadata := field f.metadata }

@[simp] theorem length_header (f : Frame) : f.header.length = wormHeaderSize := by
  simp [header, wormHeaderSize, hashSize, sigSize]

@[simp] theorem length_toBytes (f : Frame) : f.toBytes.length = wormHeaderSize + f.bodyLength := by
  simp [toBytes, bodyLength, Nat.add_assoc]

@[simp] theorem field_getD (bs : List UInt8) : (field bs).getD [] = bs := by
  cases bs <;> rfl

theorem Fits.lengths_toNat (h : f.Fits) : f.lengths.eventLen.toNat = f.event.length ∧
    f.lengths.dataLen.toNat = f.data.length ∧ f.lengths.metaLen.toNat = f.metadata.length := by
  obtain ⟨he, hd, hm⟩ := h
  exact ⟨UInt16.toNat_ofNat_of_lt' he, UInt32.toNat_ofNat_of_lt' hd, UInt32.toNat_ofNat_of_lt' hm⟩

theorem Fits.exactLen (h : f.Fits) : f.lengths.exactLen = f.bodyLength := by
  obtain ⟨he, hd, hm⟩ := h.lengths_toNat
  rw [Lengths.exactLen, he, hd, hm, bodyLength]

/-- A frame below 4 GiB has fields that fit, and its lengths add up without wrapping. -/
theorem fits_of_small (he : f.event.length < 2 ^ 16) (h : wormHeaderSize + f.bodyLength < 2 ^ 32) :
    f.Fits := by
  unfold bodyLength at h
  exact ⟨he, by omega, by omega⟩

theorem Fits.expectedLen_le (h : f.Fits) : f.lengths.expectedLen ≤ f.toBytes.length := by
  rw [length_toBytes, ← h.exactLen]
  exact Lengths.expectedLen_le _

theorem Fits.expectedLen (h : f.Fits) (hs : wormHeaderSize + f.bodyLength < 2 ^ 32) :
    f.lengths.expectedLen = f.toBytes.length := by
  rw [Lengths.expectedLen_eq, h.exactLen, Nat.mod_eq_of_lt hs, length_toBytes]

theorem Fits.varLen (h : f.Fits) (hs : wormHeaderSize + f.bodyLength < 2 ^ 32) :
    f.lengths.varLen = f.bodyLength := by
  rw [Lengths.varLen_eq, h.exactLen, Nat.mod_eq_of_lt (by omega)]

theorem opening_prefix_header (f : Frame) : f.lengths.opening f.flags <+: f.header := by
  simp [header_eq]

theorem header_prefix_toBytes (f : Frame) : f.header <+: f.toBytes := by
  simp [toBytes]

end Frame

/-- The text of the event type; no event type counts as the empty one. -/
def WormEntry.eventText (e : WormEntry) : List UInt8 := cString (e.eventType.getD [])

def WormEntry.payloadBytes (e : WormEntry) : List UInt8 := e.payload.getD []

def WormEntry.metaText (e : WormEntry) : List UInt8 := cString (e.metadata.getD [])

/-- The frame that an entry is written as when the clock shows `ns`. -/
def WormEntry.frame (e : WormEntry) (ns : UInt64) : Frame where
  flags := 0
  timestampNs := ns
  prevHash := e.prevHash
  contentHash := e.contentHash
  signature := e.signature
  event := e.eventText
  data := e.payloadBytes
  metadata := e.metaText

theorem WormEntry.lengths_frame (e : WormEntry) (ns : UInt64) :
    (e.frame ns).lengths = e.lengths := by
  cases he : e.eventType <;> cases hp : e.payload <;> cases hm : e.metadata <;>
    simp [frame, eventText, payloadBytes, metaText, Frame.lengths, WormEntry.lengths, he, hp, hm,
      strlen]

end HyperKitty.WormStorage
