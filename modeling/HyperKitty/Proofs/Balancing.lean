import HyperKitty.Proofs.Addressing
import HyperKitty.Proofs.Delivery

namespace HyperKitty.Bus

open CString

variable {b : Bus} {m : Message} {c d : Conn} {p q : Nat}

/-- No queue holds more messages than it has room for. -/
def Bounded (b : Bus) : Prop :=
  ∀ (p : Nat) (c : Conn), b.heap[p]? = some c → c.queue.count ≤ queueMax

/-- However the clients act, no queue outgrows its ring. -/
theorem bounded_run (actions : List Action) :
    Bounded (Machine.run World.step .start actions).bus := by
  intro p c hc
  obtain ⟨_, hholds, _⟩ := ((run_refines actions).sound (by decide)).fifo p _ (found_box hc)
  exact hholds.count_le

/-- An active connection that has a subscription for the topic of the message. -/
def Matching (b : Bus) (m : Message) (p : Nat) (c : Conn) : Prop :=
  Live b p c ∧ wantsTopic c m.topic.bytes = true

/-- The message stands at the end of the queue of `p`, and no other connection has changed. -/
def EnqueuedAt (b : Bus) (m : Message) (p : Nat) (c : Conn) (after : Bus) : Prop :=
  ∃ queue, c.queue.push queueMax m = some queue ∧
    after.heap = b.heap.set p { c with queue } ∧ after.conns = b.conns ∧
    after.totalDropped = b.totalDropped

/-- One drop is counted, at one connection and at the bus. -/
def OneDrop (b after : Bus) : Prop :=
  after.totalDropped = b.totalDropped + 1 ∧
    ∃ p c, b.heap[p]? = some c ∧ after.heap = b.heap.set p { c with drops := c.drops + 1 }

/-- The queues and the drop counters are what they were. -/
def Untouched (b after : Bus) : Prop :=
  after.heap.map (fun c => (c.queue, c.drops)) = b.heap.map (fun c => (c.queue, c.drops)) ∧
    after.totalDropped = b.totalDropped

theorem not_oneDrop_self : ¬ OneDrop b b := by
  intro h
  have hne : b.totalDropped + 1 ≠ b.totalDropped := by grind
  exact hne h.1.symm

/-- What a route without an addressee does. -/
inductive Routed (b : Bus) (m : Message) : Int × Bus → Prop
  | nobody : (∀ p c, ¬ Matching b m p c) → Routed b m (-1, b)
  | enqueued {p : Nat} {c : Conn} {after : Bus} : Matching b m p c →
      (∀ q d, Matching b m q d → c.queue.count ≤ d.queue.count) → c.queue.count < queueMax →
      EnqueuedAt b m p c after → Routed b m (0, after)
  | dropped {after : Bus} : (∃ p c, Matching b m p c) →
      (∀ q d, Matching b m q d → queueMax ≤ d.queue.count) → OneDrop b after →
      Routed b m (-1, after)

theorem deliver_room (hc : b.heap[p]? = some c) (hroom : c.queue.count < queueMax) :
    ∃ after, deliver b p m = (true, after) ∧ EnqueuedAt b m p c after := by
  have hpush : c.queue.push queueMax m ≠ none := by
    rw [Ne, RingQueue.push_eq_none]
    omega
  obtain ⟨queue, hq⟩ := Option.ne_none_iff_exists'.mp hpush
  have hqp : qPush c m = some { c with queue } := by
    rw [qPush, hq]
    rfl
  refine ⟨{ b with heap := b.heap.set p { c with queue }, totalRouted := b.totalRouted + 1 }, ?_,
    queue, hq, rfl, rfl, rfl⟩
  simp only [deliver, hc, hqp]

theorem deliver_full (hc : b.heap[p]? = some c) (hfull : queueMax ≤ c.queue.count) :
    ∃ after, deliver b p m = (false, after) ∧ OneDrop b after := by
  have hqp : qPush c m = none := by
    rw [qPush, RingQueue.push_eq_none.mpr hfull]
    rfl
  refine ⟨{ b with heap := b.heap.set p { c with drops := c.drops + 1 }, totalDropped := _ }, ?_,
    rfl, p, c, hc, rfl⟩
  simp only [deliver, hc, hqp]

theorem directConn_unaddressed (h : m.msgTo.bytes = []) : directConn b m = none := by
  rw [directConn_eq_none]
  intro p c _
  simp [addressed, h]

theorem route_routed (hb : Bounded b) (h : m.msgTo.bytes = []) : Routed b m (route b m) := by
  have hnone := directConn_unaddressed (b := b) h
  rcases leastQueue_spec b m.topic.bytes with ⟨hres, hall⟩ | ⟨p, c, hres, hlive, hw, hall⟩
  · rw [route, hnone, hres]
    apply Routed.nobody
    intro p c hm
    have hcount := hb p c hm.1.2.1
    have hbig := hall p c hm.1 hm.2
    simp only [queueMax, uint32Max] at hcount hbig
    omega
  · have hmin : ∀ q d, Matching b m q d → c.queue.count ≤ d.queue.count := fun q d hd =>
      hall q d hd.1 hd.2
    rw [route, hnone, hres, Option.none_or]
    rcases lt_or_ge c.queue.count queueMax with hroom | hfull
    · obtain ⟨after, hd, he⟩ := deliver_room (m := m) hlive.2.1 hroom
      simp only [hd]
      exact Routed.enqueued ⟨hlive, hw⟩ hmin hroom he
    · obtain ⟨after, hd, ho⟩ := deliver_full (m := m) hlive.2.1 hfull
      simp only [hd]
      exact Routed.dropped ⟨p, c, hlive, hw⟩ (fun q d hq => hfull.trans (hmin q d hq)) ho

/-- A route without an addressee balances: the message goes to a subscriber with the shortest
queue, is dropped where all their queues are full, and changes nothing where there is none. -/
theorem route_least_loaded :
    (∀ actions, Bounded (Machine.run World.step .start actions).bus) ∧
    ∀ b m, Bounded b → m.msgTo.bytes = [] →
      ((∃ p c, Matching b m p c ∧ c.queue.count < queueMax) →
        (route b m).1 = 0 ∧ ∃ p c, Matching b m p c ∧
          (∀ q d, Matching b m q d → c.queue.count ≤ d.queue.count) ∧
          EnqueuedAt b m p c (route b m).2) ∧
      ((route b m).1 = -1 ∧ OneDrop b (route b m).2 ↔
        (∃ p c, Matching b m p c) ∧ ∀ p c, Matching b m p c → queueMax ≤ c.queue.count) ∧
      ((route b m).1 = -1 ∧ Untouched b (route b m).2 ↔ ∀ p c, ¬ Matching b m p c) := by
  refine ⟨bounded_run, ?_⟩
  intro b m hb h
  have hr := route_routed hb h
  generalize route b m = r at hr
  cases hr with
  | nobody hno =>
    refine ⟨?_, ?_, ?_⟩
    · intro ⟨p, c, hm, _⟩
      exact absurd hm (hno p c)
    · constructor
      · intro ⟨_, hd⟩
        exact absurd hd not_oneDrop_self
      · intro ⟨⟨p, c, hm⟩, _⟩
        exact absurd hm (hno p c)
    · exact ⟨fun _ => hno, fun _ => ⟨rfl, rfl, rfl⟩⟩
  | enqueued hm hmin hroom he =>
    refine ⟨fun _ => ⟨rfl, _, _, hm, hmin, he⟩, ?_, ?_⟩
    · constructor
      · intro ⟨hrc, _⟩
        cases hrc
      · intro ⟨_, hfull⟩
        have hf := hfull _ _ hm
        omega
    · constructor
      · intro ⟨hrc, _⟩
        cases hrc
      · intro hno
        exact absurd hm (hno _ _)
  | dropped hex hfull hd =>
    refine ⟨?_, ?_, ?_⟩
    · intro ⟨p, c, hm, hroom⟩
      have hf := hfull p c hm
      omega
    · exact ⟨fun _ => ⟨hex, hfull⟩, fun _ => ⟨rfl, hd⟩⟩
    · constructor
      · intro ⟨_, _, hsame⟩
        have hne : b.totalDropped + 1 ≠ b.totalDropped := by grind
        exact absurd (hd.1.symm.trans hsame) hne
      · intro hno
        obtain ⟨p, c, hm⟩ := hex
        exact absurd hm (hno p c)

/-- News for whoever wants them. -/
def news : Message :=
  { Message.zero with
    msgFrom := copy 64 (ascii "alice")
    topic := copy 128 (ascii "news")
    body := copy maxBody (ascii "rain") }

/-- Bob has a message in his queue when dave, who wants the same topic, connects. -/
def daveJoins : List Action :=
  [.connect (ascii "bob"), .subscribe 0 (ascii "news"), .publish news, .advance, .advance,
    .advance, .advance, .connect (ascii "dave"), .subscribe 1 (ascii "news")]

def unevenBus : Bus := (Machine.run World.step .start daveJoins).bus

/-- Of two who want a message, the one with the shorter queue gets it. -/
theorem dave_gets_it : unevenBus.heap.map (·.queue.count) = [1, 0] ∧
    (∃ c, Matching unevenBus news 0 c) ∧ (∃ c, Matching unevenBus news 1 c) ∧
    (route unevenBus news).1 = 0 ∧ ∃ p c, Matching unevenBus news p c ∧
      (∀ q d, Matching unevenBus news q d → c.queue.count ≤ d.queue.count) ∧
      EnqueuedAt unevenBus news p c (route unevenBus news).2 := by
  have hbob : ∃ c, Matching unevenBus news 0 c :=
    ⟨_, ⟨by decide +kernel, rfl, rfl⟩, by decide +kernel⟩
  have hdave : Matching unevenBus news 1
      { newConn (ascii "dave") with subs := [⟨copy maxTopicLen (ascii "news"), true⟩] } :=
    ⟨⟨by decide +kernel, rfl, rfl⟩, by decide +kernel⟩
  exact ⟨by decide +kernel, hbob, ⟨_, hdave⟩,
    (route_least_loaded.2 unevenBus news (route_least_loaded.1 daveJoins) (by decide +kernel)).1
      ⟨1, _, hdave, by decide +kernel⟩⟩

end HyperKitty.Bus
