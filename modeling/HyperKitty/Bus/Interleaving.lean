import HyperKitty.Bus.Broker
import HyperKitty.Lib.Machine

namespace HyperKitty.Bus

/-- Where the task stands that holds the lock of the bus. It takes the lock of a connection
to look at its subscriptions, and again to push. -/
inductive Phase where
  | free
  | publishing (m : Message) (i delivered : Nat)
  | matching (m : Message) (i delivered : Nat)
  | pushing (m : Message) (i delivered : Nat)
  | addressing (m : Message) (i : Nat)
  | choosing (m : Message) (i minQ : Nat) (best : Option Nat)
  | weighing (m : Message) (i minQ : Nat) (best : Option Nat)
  | routing (m : Message) (p : Nat)

/-- The bus with the task that holds its lock, and the number of publishes and routes
that have begun. -/
structure World where
  bus : Bus
  begun : Nat
  phase : Phase

def World.start : World := ⟨init, 0, .free⟩

/-- What a client can do between two locks. The two halves of a disconnect are steps of
their own; a receive that waits takes its step when it is woken. -/
inductive Action where
  | connect (id : List UInt8)
  | removeConn (p : Nat)
  | deactivate (p : Nat)
  | subscribe (p : Nat) (topic : List UInt8)
  | unsubscribe (p : Nat) (topic : List UInt8)
  | recv (p : Nat)
  | publish (m : Message)
  | route (m : Message)
  | advance

inductive Event where
  | quiet
  | returned (rc : Int)
  | accepted (ticket p : Nat) (m : Message)
  | dropped (ticket p : Nat) (m : Message)
  | received (p : Nat) (m : Message)

namespace World

variable (w : World)

def goto (phase : Phase) : World := { w with phase }

/-- The connection at place `i` of the table. -/
def connAt (i : Nat) : Option Conn := w.bus.conns[i]?.bind fun p => w.bus.heap[p]?

/-- Push the message, and go on as `next` says. -/
def push (p : Nat) (m : Message) (next : Bool → Phase) : Event × World :=
  match w.bus.heap[p]? with
  | none => (.quiet, w.goto (next false))
  | some _ =>
    match deliver w.bus p m with
    | (true, bus) => (.accepted w.begun p m, { w with bus, phase := next true })
    | (false, bus) => (.dropped w.begun p m, { w with bus, phase := next false })

/-- The next step of the task that holds the lock of the bus. -/
def advance : Event × World :=
  match w.phase with
  | .free => (.quiet, w)
  | .publishing m i delivered =>
    if w.bus.conns.length ≤ i then
      (.returned (if 0 < delivered then 0 else -1), w.goto .free)
    else
      (.quiet, w.goto
        (match w.connAt i with
        | none => .publishing m (i + 1) delivered
        | some c =>
          if !c.active then .publishing m (i + 1) delivered
          else if addressed m c then .pushing m i delivered
          else if broadcast m then .matching m i delivered
          else .publishing m (i + 1) delivered))
  | .matching m i delivered =>
    (.quiet, w.goto
      (match w.connAt i with
      | none => .publishing m (i + 1) delivered
      | some c =>
        if wantsTopic c m.topic.bytes then .pushing m i delivered
        else .publishing m (i + 1) delivered))
  | .pushing m i delivered =>
    match w.bus.conns[i]? with
    | none => (.quiet, w.goto (.publishing m (i + 1) delivered))
    | some p =>
      w.push p m fun ok => .publishing m (i + 1) (if ok then delivered + 1 else delivered)
  | .addressing m i =>
    match w.bus.conns[i]? with
    | none => (.quiet, w.goto (.choosing m 0 uint32Max none))
    | some p =>
      (.quiet, w.goto
        (match w.bus.heap[p]? with
        | none => .addressing m (i + 1)
        | some c => if c.active && addressed m c then .routing m p else .addressing m (i + 1)))
  | .choosing m i minQ best =>
    if w.bus.conns.length ≤ i then
      match best with
      | none => (.returned (-1), w.goto .free)
      | some p => (.quiet, w.goto (.routing m p))
    else
      (.quiet, w.goto
        (match w.connAt i with
        | none => .choosing m (i + 1) minQ best
        | some c =>
          if c.active then .weighing m i minQ best else .choosing m (i + 1) minQ best))
  | .weighing m i minQ best =>
    match w.bus.conns[i]? with
    | none => (.quiet, w.goto (.choosing m (i + 1) minQ best))
    | some p =>
      (.quiet, w.goto
        (match w.bus.heap[p]? with
        | none => .choosing m (i + 1) minQ best
        | some c =>
          if wantsTopic c m.topic.bytes && decide (c.queue.count < minQ) then
            .choosing m (i + 1) c.queue.count (some p)
          else .choosing m (i + 1) minQ best))
  | .routing m p => w.push p m fun _ => .free

/-- An action that waits for the lock of the bus does nothing while that is taken. -/
def step : World → Action → Event × World
  | w, .connect id =>
    match w.phase with
    | .free => (.quiet, { w with bus := (Bus.connect w.bus id).2 })
    | _ => (.quiet, w)
  | w, .removeConn p =>
    match w.phase with
    | .free => (.quiet, { w with bus := Bus.removeConn w.bus p })
    | _ => (.quiet, w)
  | w, .deactivate p => (.quiet, { w with bus := Bus.deactivate w.bus p })
  | w, .subscribe p topic =>
    (.quiet, { w with bus.heap := w.bus.heap.modify p fun c => (Bus.subscribe c topic).2 })
  | w, .unsubscribe p topic =>
    (.quiet, { w with bus.heap := w.bus.heap.modify p fun c => (Bus.unsubscribe c topic).2 })
  | w, .recv p =>
    match Bus.recv w.bus p with
    | (rc, none, bus) => (.returned rc, { w with bus })
    | (_, some m, bus) => (.received p m, { w with bus })
  | w, .publish m =>
    match w.phase with
    | .free =>
      (.quiet,
        ⟨{ w.bus with totalPublished := w.bus.totalPublished + 1 }, w.begun + 1,
          .publishing m 0 0⟩)
    | _ => (.quiet, w)
  | w, .route m =>
    match w.phase with
    | .free => (.quiet, ⟨w.bus, w.begun + 1, .addressing m 0⟩)
    | _ => (.quiet, w)
  | w, .advance => w.advance

end World

end HyperKitty.Bus
