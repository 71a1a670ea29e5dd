import HyperKitty.Lib.Buffer
import HyperKitty.Lib.LittleEndian

namespace HyperKitty.WormStorage

open Exec Bytes Buffer

/-- The letters WORM in ASCII. -/
def wormMagic : List UInt8 := [0x57, 0x4F, 0x52, 0x4D]

@[simp] theorem length_wormMagic : wormMagic.length = 4 := rfl

def wormVersion : UInt8 := 0x01

def wormHeaderSize : Nat := 152

abbrev hashSize : Nat := 32

abbrev sigSize : Nat := 64

abbrev Hash := Vector UInt8 hashSize

/-- A pointer that is NULL is `none`. Of a string the bytes in front of the
terminator of its block are kept, of the payload its `payload_len` bytes. -/
structure WormEntry where
  sequence : UInt64
  timestampNs : UInt64
  eventType : Option (List UInt8)
  payload : Option (List UInt8)
  metadata : Option (List UInt8)
  prevHash : Hash
  contentHash : Hash
  chainHash : Hash
  signature : Vector UInt8 sigSize
  deriving DecidableEq

/-- The lengths of the variable fields, as the header has them. -/
structure Lengths where
  eventLen : UInt16
  dataLen : UInt32
  metaLen : UInt32
  deriving DecidableEq

namespace Lengths

/-- `event_len + data_len + meta_len`, added up as a 32-bit number. -/
def varLen (l : Lengths) : Nat := (l.eventLen.toUInt32 + l.dataLen + l.metaLen).toNat

/-- The length of the whole record, also added up as a 32-bit number. -/
def expectedLen (l : Lengths) : Nat := (152 + l.eventLen.toUInt32 + l.dataLen + l.metaLen).toNat

/-- What the fields really add up to. -/
def exactLen (l : Lengths) : Nat := l.eventLen.toNat + l.dataLen.toNat + l.metaLen.toNat

theorem varLen_eq (l : Lengths) : l.varLen = l.exactLen % 2 ^ 32 := by
  simp [varLen, exactLen]

theorem expectedLen_eq (l : Lengths) :
    l.expectedLen = (wormHeaderSize + l.exactLen) % 2 ^ 32 := by
  simp [expectedLen, exactLen, wormHeaderSize, Nat.add_assoc]

theorem expectedLen_le (l : Lengths) : l.expectedLen ≤ wormHeaderSize + l.exactLen := by
  rw [expectedLen_eq]
  exact Nat.mod_le _ _

end Lengths

def writeLe16 (val : UInt16) : List UInt8 := toLe val

def writeLe32 (val : UInt32) : List UInt8 := toLe val

def writeLe64 (val : UInt64) : List UInt8 := toLe val

def readLe16 (buf : List UInt8) (i : Nat) : OrNull UInt16 := readLe UInt16 buf i

def readLe32 (buf : List UInt8) (i : Nat) : OrNull UInt32 := readLe UInt32 buf i

def readLe64 (buf : List UInt8) (i : Nat) : OrNull UInt64 := readLe UInt64 buf i

def readLengths (buf : List UInt8) : OrNull Lengths := do
  let eventLen ← readLe16 buf 6
  let dataLen ← readLe32 buf 8
  let metaLen ← readLe32 buf 12
  pure ⟨eventLen, dataLen, metaLen⟩

namespace WormEntry

def alloc : WormEntry where
  sequence := 0
  timestampNs := 0
  eventType := none
  payload := none
  metadata := none
  prevHash := Vector.replicate hashSize 0
  contentHash := Vector.replicate hashSize 0
  chainHash := Vector.replicate hashSize 0
  signature := Vector.replicate sigSize 0

/-- The lengths that are written, cut down to the widths of their fields. -/
def lengths (e : WormEntry) : Lengths where
  eventLen := match e.eventType with
    | some s => .ofNat (strlen s)
    | none => 0
  dataLen := match e.payload with
    | some p => .ofNat p.length
    | none => 0
  metaLen := match e.metadata with
    | some s => .ofNat (strlen s)
    | none => 0

/-- Copy a field to the block and move the offset past it. -/
def storeField (buf : List UInt8) (offset len : Nat) :
    Option (List UInt8) → OrNull (List UInt8 × Nat)
  | some bs => do
    let buf ← store buf offset (bs.take len)
    pure (buf, offset + len)
  | none => pure (buf, offset)

/-- The timestamp that is written is what the clock shows, `ns`. -/
def serialize (e : WormEntry) (ns : UInt64) : OrNull (List UInt8) := do
  let l := e.lengths
  let buf := List.replicate l.expectedLen 0
  let buf ← store buf 0 wormMagic
  let buf ← store buf 4 [wormVersion]
  let buf ← store buf 5 [0x00]
  let buf ← store buf 6 (writeLe16 l.eventLen)
  let buf ← store buf 8 (writeLe32 l.dataLen)
  let buf ← store buf 12 (writeLe32 l.metaLen)
  let buf ← store buf 16 (writeLe64 ns)
  let buf ← store buf 24 e.prevHash.toList
  let buf ← store buf 56 e.contentHash.toList
  let buf ← store buf 88 e.signature.toList
  let (buf, offset) ← storeField buf wormHeaderSize l.eventLen.toNat e.eventType
  let (buf, offset) ← storeField buf offset l.dataLen.toNat e.payload
  let (buf, _) ← storeField buf offset l.metaLen.toNat e.metadata
  pure buf

/-- Everything that comes before the fields are copied. -/
def lengthCheck (buf : List UInt8) : OrNull Lengths := do
  if buf.length < wormHeaderSize then fail ()
  else
    let magic ← slice buf 0 4
    if magic ≠ wormMagic then fail ()
    else
      let version ← readByte buf 4
      if version ≠ wormVersion then fail ()
      else
        let l ← readLengths buf
        if buf.length < l.expectedLen then fail () else pure l

/-- Copy a field that is not empty, and what terminates it, to a new block of
`size` bytes. -/
def copyField (buf : List UInt8) (offset len size : Nat) (terminator : List UInt8) :
    OrNull (Option (List UInt8)) :=
  if 0 < len then do
    let bs ← slice buf offset (offset + len)
    let _ ← store (List.replicate size 0) 0 (bs ++ terminator)
    pure (some bs)
  else pure none

def deserialize (buf : List UInt8) : OrNull WormEntry := do
  let l ← lengthCheck buf
  let timestampNs ← readLe64 buf 16
  let prevHash ← readArray hashSize buf 24
  let contentHash ← readArray hashSize buf 56
  let signature ← readArray sigSize buf 88
  let offset := wormHeaderSize
  -- the size of this block is an int, that of the metadata's an unsigned 32-bit number
  let eventType ← copyField buf offset l.eventLen.toNat (l.eventLen.toNat + 1) [0]
  let offset := offset + l.eventLen.toNat
  let payload ← copyField buf offset l.dataLen.toNat l.dataLen.toNat []
  let offset := offset + l.dataLen.toNat
  let metadata ← copyField buf offset l.metaLen.toNat (l.metaLen + 1).toNat [0]
  pure { alloc with timestampNs, prevHash, contentHash, signature, eventType, payload, metadata }

end WormEntry

end HyperKitty.WormStorage
