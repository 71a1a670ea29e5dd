import HyperKitty.Bus.Message
import HyperKitty.Lib.Ring
import HyperKitty.Lib.SwapRemove

namespace HyperKitty.Bus

open CString SwapRemove

abbrev queueMax : Nat := 256
abbrev maxSubsPerConn : Nat := 64
abbrev maxTopicLen : Nat := 128
abbrev maxIdLen : Nat := 64

structure Subscription where
  topic : CString maxTopicLen
  active : Bool
  deriving DecidableEq

/-- A connection, with the subscription slots that are in use. -/
structure Conn where
  id : CString maxIdLen
  subs : List Subscription
  queue : RingQueue Message
  active : Bool
  drops : UInt64

/-- A message of zero bytes. -/
def Message.zero : Message := ⟨empty 32, empty 64, empty 64, empty 128, 0, empty maxBody⟩

def newConn (id : List UInt8) : Conn := ⟨copy maxIdLen id, [], .empty .zero, true, 0⟩

def star : UInt8 := 0x2A

/-- A pattern is a topic, `*`, or the beginning of topics before a `*`. -/
def topicMatches (pattern topic : List UInt8) : Bool :=
  if pattern = [star] then true
  else if pattern.getLast? = some star then pattern.dropLast.isPrefixOf topic
  else pattern == topic

def qPush (c : Conn) (m : Message) : Option Conn :=
  (c.queue.push queueMax m).map fun queue => { c with queue }

def qPop (c : Conn) : Option (Message × Conn) :=
  (c.queue.pop queueMax).map fun (m, queue) => (m, { c with queue })

/-- An active slot holds this very topic. -/
def Subscription.isFor (topic : List UInt8) (s : Subscription) : Bool :=
  s.active && s.topic.bytes == topic

def subscribe (c : Conn) (topic : List UInt8) : Int × Conn :=
  if maxSubsPerConn ≤ c.subs.length then (-1, c)
  else if c.subs.any (·.isFor topic) then (0, c)
  else (0, { c with subs := c.subs ++ [⟨copy maxTopicLen topic, true⟩] })

def unsubscribe (c : Conn) (topic : List UInt8) : Int × Conn :=
  match c.subs.findIdx? (·.isFor topic) with
  | none => (0, c)
  | some i => (0, { c with subs := swapRemove c.subs i })

/-- A subscription of the connection matches the topic. -/
def wantsTopic (c : Conn) (topic : List UInt8) : Bool :=
  c.subs.any fun s => s.active && topicMatches s.topic.bytes topic

end HyperKitty.Bus
