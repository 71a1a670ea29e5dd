import HyperKitty.Bus.Connection

namespace HyperKitty

open HyperKitty.Bus (Conn)

/-- The bus and its memory: every connection ever made, found by its pointer, and the
pointers of those that are connected. -/
structure Bus where
  heap : List Conn
  conns : List Nat
  totalPublished : UInt64
  totalRouted : UInt64
  totalDropped : UInt64

namespace Bus

open CString SwapRemove

abbrev maxConns : Nat := 256

/-- An in-process bus, just initialised. -/
def init : Bus := ⟨[], [], 0, 0, 0⟩

def connect (b : Bus) (id : List UInt8) : Option Nat × Bus :=
  if maxConns ≤ b.conns.length then (none, b)
  else
    (some b.heap.length,
      { b with heap := b.heap ++ [newConn id], conns := b.conns ++ [b.heap.length] })

/-- Take the connection out of the table. -/
def removeConn (b : Bus) (p : Nat) : Bus :=
  match b.conns.findIdx? (· == p) with
  | none => b
  | some i => { b with conns := swapRemove b.conns i }

def deactivate (b : Bus) (p : Nat) : Bus :=
  { b with heap := b.heap.modify p fun c => { c with active := false } }

/-- The message is addressed to this connection. -/
def addressed (m : Message) (c : Conn) : Bool :=
  m.msgTo.bytes != [] && m.msgTo.bytes == c.id.bytes

def broadcast (m : Message) : Bool := m.msgTo.bytes == [] || m.msgTo.bytes == [star]

def matchesConn (m : Message) (c : Conn) : Bool :=
  if addressed m c then true
  else if broadcast m then wantsTopic c m.topic.bytes
  else false

/-- Queue the message, or count it as dropped. -/
def deliver (b : Bus) (p : Nat) (m : Message) : Bool × Bus :=
  match b.heap[p]? with
  | none => (false, b)
  | some c =>
    match qPush c m with
    | some c' => (true, { b with heap := b.heap.set p c', totalRouted := b.totalRouted + 1 })
    | none =>
      (false,
        { b with
          heap := b.heap.set p { c with drops := c.drops + 1 }
          totalDropped := b.totalDropped + 1 })

def publishTo (m : Message) : List Nat → Nat → Bus → Nat × Bus
  | [], delivered, b => (delivered, b)
  | p :: ps, delivered, b =>
    match b.heap[p]? with
    | none => publishTo m ps delivered b
    | some c =>
      if c.active && matchesConn m c then
        match deliver b p m with
        | (true, b') => publishTo m ps (delivered + 1) b'
        | (false, b') => publishTo m ps delivered b'
      else publishTo m ps delivered b

def publish (b : Bus) (m : Message) : Int × Bus :=
  let (delivered, b') :=
    publishTo m b.conns 0 { b with totalPublished := b.totalPublished + 1 }
  (if 0 < delivered then 0 else -1, b')

/-- The first active connection that the message is addressed to. -/
def directConn (b : Bus) (m : Message) : Option Nat :=
  b.conns.find? fun p =>
    match b.heap[p]? with
    | none => false
    | some c => c.active && addressed m c

def uint32Max : Nat := 4294967295

/-- The first of the active subscribers with the smallest queue, if that is below `minQ`. -/
def leastQueue (b : Bus) (topic : List UInt8) : List Nat → Nat → Option Nat → Option Nat
  | [], _, best => best
  | p :: ps, minQ, best =>
    match b.heap[p]? with
    | none => leastQueue b topic ps minQ best
    | some c =>
      if c.active && wantsTopic c topic && decide (c.queue.count < minQ) then
        leastQueue b topic ps c.queue.count (some p)
      else leastQueue b topic ps minQ best

def route (b : Bus) (m : Message) : Int × Bus :=
  match (directConn b m).or (leastQueue b m.topic.bytes b.conns uint32Max none) with
  | none => (-1, b)
  | some p =>
    match deliver b p m with
    | (true, b') => (0, b')
    | (false, b') => (-1, b')

/-- Take the first message off the queue. The result 1 says that there is none. -/
def recv (b : Bus) (p : Nat) : Int × Option Message × Bus :=
  match b.heap[p]? with
  | none => (-1, none, b)
  | some c =>
    match qPop c with
    | none => (1, none, b)
    | some (m, c') => (0, some m, { b with heap := b.heap.set p c' })

end Bus

end HyperKitty
