import HyperKitty.Worm.Record

namespace HyperKitty.Worm

structure Chain where
  records : List WormRecord
  deriving DecidableEq

/-- The arguments of a call that appends a record. -/
structure Call where
  eventType : List UInt8
  data : List UInt8
  metadata : List UInt8
  timestampNs : UInt64

/-- The bytes that the content hash covers. -/
def content (eventType data metadata : List UInt8) : List UInt8 :=
  [eventType, data, metadata].flatten

def WormRecord.content (r : WormRecord) : List UInt8 := Worm.content r.eventType r.data r.metadata

namespace Chain

variable (hash : List UInt8 → Hash)

def new : Chain := ⟨[]⟩

/-- The record that a call adds. The lengths are cut down to the widths of
their fields. -/
def nextRecord (c : Chain) (call : Call) : WormRecord :=
  let header := { WormHeader.new with
    eventLength := UInt16.ofNat call.eventType.length
    dataLength := UInt32.ofNat call.data.length
    metadataLength := UInt32.ofNat call.metadata.length
    timestampNs := call.timestampNs }
  let header :=
    match c.records.getLast? with
    | some last => { header with previousHash := hash last.toBytes }
    | none => header
  let header := { header with
    contentHash := hash (content call.eventType call.data call.metadata) }
  .new header call.eventType call.data call.metadata

def append (c : Chain) (call : Call) : Except Error Unit × Chain :=
  (.ok (), ⟨c.records ++ [c.nextRecord hash call]⟩)

/-- The loop of `verify` with the hash that the next record has to carry. -/
def verifyLoop (prevHash : Hash) : List WormRecord → Except Error Bool
  | [] => .ok true
  | r :: rs =>
    if r.header.previousHash ≠ prevHash then .error .tamperDetected
    else if hash r.content ≠ r.header.contentHash then .error .tamperDetected
    else verifyLoop (hash r.toBytes) rs

def verify (c : Chain) : Except Error Bool :=
  verifyLoop hash (Vector.replicate hashSize 0) c.records

/-- The chain that a sequence of calls builds from the empty one. -/
def build (calls : List Call) : Chain := calls.foldl (fun c call => (c.append hash call).2) new

end Chain

end HyperKitty.Worm
