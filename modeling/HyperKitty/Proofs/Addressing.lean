import HyperKitty.Bus.Broker

namespace HyperKitty.Bus

open CString

variable {b : Bus} {m : Message} {c d : Conn} {p q n minQ : Nat} {ps : List Nat}
variable {best : Option Nat} {topic : List UInt8}

/-- The table has the connection, and it is active. -/
def Live (b : Bus) (p : Nat) (c : Conn) : Prop :=
  p ∈ b.conns ∧ b.heap[p]? = some c ∧ c.active = true

section Delivery

theorem deliver_other (h : q ≠ p) : (deliver b p m).2.heap[q]? = b.heap[q]? := by
  unfold deliver
  split
  · rfl
  · split
    · exact List.getElem?_set_ne h.symm
    · exact List.getElem?_set_ne h.symm

/-- A connection that the message does not match is left as it is. -/
theorem publishTo_frame (hq : b.heap[q]? = some c) (hno : matchesConn m c = false) :
    (publishTo m ps n b).2.heap[q]? = some c := by
  induction ps generalizing n b with
  | nil => exact hq
  | cons p ps ih =>
    rw [publishTo]
    split
    · exact ih hq
    · next d hd =>
      split
      · next hmatch =>
        have hne : q ≠ p := by
          rintro rfl
          rw [hq, Option.some.injEq] at hd
          rw [← hd, hno, Bool.and_false] at hmatch
          cases hmatch
        have hkeep : (deliver b p m).2.heap[q]? = some c := (deliver_other hne).trans hq
        split
        · next b' hb' =>
          rw [hb'] at hkeep
          exact ih hkeep
        · next b' hb' =>
          rw [hb'] at hkeep
          exact ih hkeep
      · exact ih hq

theorem publishTo_unmatched (b : Bus) (n : Nat)
    (h : ∀ p ∈ ps, ∀ c, b.heap[p]? = some c → c.active = true → matchesConn m c = false) :
    publishTo m ps n b = (n, b) := by
  induction ps with
  | nil => rfl
  | cons p ps ih =>
    rw [List.forall_mem_cons] at h
    rw [publishTo]
    split
    · exact ih h.2
    · next c hc =>
      have hno : (c.active && matchesConn m c) = false := by
        cases ha : c.active with
        | false => rfl
        | true => exact h.1 c hc ha
      rw [hno]
      exact ih h.2

end Delivery

section Choice

theorem directConn_eq_some (h : directConn b m = some p) :
    ∃ c, Live b p c ∧ addressed m c = true := by
  have hmem := List.mem_of_find?_eq_some h
  have hp := List.find?_some h
  cases hc : b.heap[p]? with
  | none =>
    rw [hc] at hp
    cases hp
  | some c =>
    rw [hc] at hp
    obtain ⟨ha, haddr⟩ := Bool.and_eq_true_iff.mp hp
    exact ⟨c, ⟨hmem, hc, ha⟩, haddr⟩

theorem directConn_eq_none :
    directConn b m = none ↔ ∀ p c, Live b p c → addressed m c = false := by
  rw [directConn, List.find?_eq_none]
  constructor
  · intro h p c hlive
    obtain ⟨hmem, hc, ha⟩ := hlive
    simpa [hc, ha] using h p hmem
  · intro h p hmem
    cases hc : b.heap[p]? with
    | none => simp
    | some c =>
      cases ha : c.active with
      | false => simp [ha]
      | true => simp [h p c ⟨hmem, hc, ha⟩]

/-- The first element with the least number below `k`, or else `best`. -/
def leastOf {α : Type*} : List (α × Nat) → Nat → Option α → Option α
  | [], _, best => best
  | (a, n) :: xs, k, best => if n < k then leastOf xs n (some a) else leastOf xs k best

theorem leastOf_spec {α : Type*} (xs : List (α × Nat)) (k : Nat) (best : Option α) :
    (leastOf xs k best = best ∧ ∀ x ∈ xs, k ≤ x.2) ∨
      ∃ x ∈ xs, leastOf xs k best = some x.1 ∧ x.2 < k ∧ ∀ y ∈ xs, x.2 ≤ y.2 := by
  induction xs generalizing k best with
  | nil => exact Or.inl ⟨rfl, fun x h => absurd h List.not_mem_nil⟩
  | cons x xs ih =>
    obtain ⟨a, n⟩ := x
    rw [leastOf]
    split
    · next hlt =>
      right
      rcases ih n (some a) with ⟨hres, hall⟩ | ⟨x, hx, hres, hxn, hall⟩
      · exact ⟨(a, n), List.mem_cons_self, hres, hlt, List.forall_mem_cons.mpr ⟨le_rfl, hall⟩⟩
      · exact ⟨x, List.mem_cons_of_mem _ hx, hres, hxn.trans hlt,
          List.forall_mem_cons.mpr ⟨hxn.le, hall⟩⟩
    · next hge =>
      rw [Nat.not_lt] at hge
      rcases ih k best with ⟨hres, hall⟩ | ⟨x, hx, hres, hxk, hall⟩
      · exact Or.inl ⟨hres, List.forall_mem_cons.mpr ⟨hge, hall⟩⟩
      · exact Or.inr ⟨x, List.mem_cons_of_mem _ hx, hres, hxk,
          List.forall_mem_cons.mpr ⟨hxk.le.trans hge, hall⟩⟩

/-- The active subscribers of the topic, with the lengths of their queues. -/
def candidates (b : Bus) (topic : List UInt8) (ps : List Nat) : List (Nat × Nat) :=
  ps.filterMap fun p =>
    match b.heap[p]? with
    | none => none
    | some c => if c.active && wantsTopic c topic then some (p, c.queue.count) else none

theorem mem_candidates : (p, n) ∈ candidates b topic ps ↔ ∃ c, p ∈ ps ∧ b.heap[p]? = some c ∧
    c.active = true ∧ wantsTopic c topic = true ∧ c.queue.count = n := by
  rw [candidates, List.mem_filterMap]
  constructor
  · intro h
    obtain ⟨q, hq, hc⟩ := h
    split at hc
    · cases hc
    · next c hheap =>
      split at hc
      · next hwants =>
        cases hc
        obtain ⟨ha, hw⟩ := Bool.and_eq_true_iff.mp hwants
        exact ⟨c, hq, hheap, ha, hw, rfl⟩
      · cases hc
  · intro h
    obtain ⟨c, hp, hheap, ha, hw, hn⟩ := h
    refine ⟨p, hp, ?_⟩
    simp [hheap, ha, hw, hn]

theorem leastQueue_eq : leastQueue b topic ps minQ best =
    leastOf (candidates b topic ps) minQ best := by
  induction ps generalizing minQ best with
  | nil => rfl
  | cons p ps ih =>
    rw [leastQueue, candidates, List.filterMap_cons]
    cases hc : b.heap[p]? with
    | none => exact ih
    | some c =>
      cases hw : c.active && wantsTopic c topic with
      | false =>
        simp only [hw, Bool.false_and, Bool.false_eq_true, if_false]
        exact ih
      | true =>
        simp only [hw, Bool.true_and, decide_eq_true_eq, if_true, leastOf]
        split
        · exact ih
        · exact ih

/-- Without an addressee the message goes to a subscriber with the smallest queue, if any. -/
theorem leastQueue_spec (b : Bus) (topic : List UInt8) :
    (leastQueue b topic b.conns uint32Max none = none ∧
      ∀ p c, Live b p c → wantsTopic c topic = true → uint32Max ≤ c.queue.count) ∨
    ∃ p c, leastQueue b topic b.conns uint32Max none = some p ∧ Live b p c ∧
      wantsTopic c topic = true ∧
      ∀ q d, Live b q d → wantsTopic d topic = true → c.queue.count ≤ d.queue.count := by
  rw [leastQueue_eq]
  rcases leastOf_spec (candidates b topic b.conns) uint32Max none with
    ⟨hres, hall⟩ | ⟨⟨p, n⟩, hmem, hres, -, hall⟩
  · refine Or.inl ⟨hres, fun p c hlive hw => ?_⟩
    exact hall (p, c.queue.count) (mem_candidates.mpr ⟨c, hlive.1, hlive.2.1, hlive.2.2, hw, rfl⟩)
  · obtain ⟨c, hp, hheap, ha, hw, rfl⟩ := mem_candidates.mp hmem
    refine Or.inr ⟨p, c, hres, ⟨hp, hheap, ha⟩, hw, fun q d hlive hd => ?_⟩
    exact hall (q, d.queue.count) (mem_candidates.mpr ⟨d, hlive.1, hlive.2.1, hlive.2.2, hd, rfl⟩)

end Choice

section Directed

/-- The message names one connection. -/
def Directed (m : Message) : Prop := m.msgTo.bytes ≠ [] ∧ m.msgTo.bytes ≠ [star]

theorem addressed_iff (h : Directed m) : addressed m c = true ↔ c.id.bytes = m.msgTo.bytes := by
  rw [addressed, Bool.and_eq_true, bne_iff_ne, and_iff_right h.1, beq_iff_eq, eq_comm]

theorem matchesConn_iff (h : Directed m) :
    matchesConn m c = true ↔ c.id.bytes = m.msgTo.bytes := by
  have hno : broadcast m = false := by simp [broadcast, h.1, h.2]
  rw [matchesConn, ← addressed_iff h, hno]
  cases addressed m c <;> simp

theorem matchesConn_false (h : Directed m) (hid : c.id.bytes ≠ m.msgTo.bytes) :
    matchesConn m c = false :=
  Bool.eq_false_iff.mpr fun hm => hid ((matchesConn_iff h).mp hm)

theorem route_of_some (h : (directConn b m).or
    (leastQueue b m.topic.bytes b.conns uint32Max none) = some p) :
    (route b m).2 = (deliver b p m).2 := by
  rw [route, h]
  simp only
  split
  · next b' hb' => rw [hb']
  · next b' hb' => rw [hb']

theorem route_direct (hp : directConn b m = some p) : (route b m).2 = (deliver b p m).2 :=
  route_of_some (by rw [hp, Option.some_or])

/-- No active connection has the id that the message names. -/
def Absent (b : Bus) (m : Message) : Prop :=
  ∀ (p : Nat) (c : Conn), Live b p c → c.id.bytes ≠ m.msgTo.bytes

theorem absent_iff (h : Directed m) : Absent b m ↔ directConn b m = none := by
  rw [directConn_eq_none]
  apply forall₂_congr
  intro p c
  apply imp_congr_right
  intro _
  rw [ne_eq, ← addressed_iff h, Bool.not_eq_true]

theorem publish_absent (h : Directed m) (habsent : Absent b m) :
    (publish b m).2.heap = b.heap := by
  have hnone := publishTo_unmatched { b with totalPublished := b.totalPublished + 1 } 0
    fun p hp c hc ha => matchesConn_false h (habsent p c ⟨hp, hc, ha⟩)
  rw [publish, hnone]

theorem publish_frame (h : Directed m) (hp : b.heap[p]? = some c)
    (hid : c.id.bytes ≠ m.msgTo.bytes) : (publish b m).2.heap[p]? = some c :=
  publishTo_frame hp (matchesConn_false h hid)

theorem route_present (h : Directed m) (hpresent : ¬ Absent b m) (hq : b.heap[q]? = some d)
    (hid : d.id.bytes ≠ m.msgTo.bytes) : (route b m).2.heap[q]? = some d := by
  obtain ⟨p, hp⟩ := Option.ne_none_iff_exists'.mp ((absent_iff h).not.mp hpresent)
  obtain ⟨c, hlive, haddr⟩ := directConn_eq_some hp
  have hne : q ≠ p := by
    rintro rfl
    rw [hlive.2.1, Option.some.injEq] at hq
    rw [hq, addressed_iff h] at haddr
    exact hid haddr
  rw [route_direct hp, deliver_other hne, hq]

theorem route_absent (h : Directed m) (habsent : Absent b m) :
    ((route b m).2 = b ∧ ∀ p c, Live b p c → wantsTopic c m.topic.bytes = true →
      uint32Max ≤ c.queue.count) ∨
    ∃ p c, (route b m).2 = (deliver b p m).2 ∧ Live b p c ∧ wantsTopic c m.topic.bytes = true ∧
      ∀ q d, Live b q d → wantsTopic d m.topic.bytes = true → c.queue.count ≤ d.queue.count := by
  have hnone := (absent_iff h).mp habsent
  rcases leastQueue_spec b m.topic.bytes with
    ⟨hres, hall⟩ | ⟨p, c, hres, hlive, hw, hall⟩
  · left
    rw [route, hnone, hres]
    exact ⟨rfl, hall⟩
  · exact Or.inr ⟨p, c, route_of_some (by rw [hnone, hres, Option.none_or]), hlive, hw, hall⟩

end Directed

/-- The queue of every connection whose id is not the one the message names stays as it is,
and so does every queue where no active connection has that id. -/
def OnlyAddressee (b : Bus) (m : Message) (after : Bus) : Prop :=
  (∀ (p : Nat) (c : Conn), b.heap[p]? = some c → c.id.bytes ≠ m.msgTo.bytes →
    after.heap[p]?.map (·.queue) = some c.queue) ∧
    (Absent b m → after.heap.map (·.queue) = b.heap.map (·.queue))

/-- A published message reaches nobody but the addressee. So does a routed one if there is an
active addressee; otherwise it goes to a subscriber of its topic with the smallest queue. -/
theorem directed_delivery (b : Bus) (m : Message) (h : Directed m) :
    OnlyAddressee b m (publish b m).2 ∧ (¬ Absent b m → OnlyAddressee b m (route b m).2) ∧
      (Absent b m →
        ((route b m).2 = b ∧ ∀ p c, Live b p c → wantsTopic c m.topic.bytes = true →
          uint32Max ≤ c.queue.count) ∨
        ∃ p c, (route b m).2 = (deliver b p m).2 ∧ Live b p c ∧
          wantsTopic c m.topic.bytes = true ∧ ∀ q d, Live b q d →
            wantsTopic d m.topic.bytes = true → c.queue.count ≤ d.queue.count) := by
  refine ⟨⟨fun p c hc hid => ?_, fun ha => ?_⟩, fun hpresent => ⟨fun p c hc hid => ?_, ?_⟩,
    route_absent h⟩
  · rw [publish_frame h hc hid, Option.map_some]
  · rw [publish_absent h ha]
  · rw [route_present h hpresent hc hid, Option.map_some]
  · exact fun ha => absurd ha hpresent

section Absence

/-- A message from nobody to alice. -/
def toAlice : Message := { Message.zero with msgTo := copy 64 (ascii "alice") }

/-- Only bob is connected, and takes every topic. -/
def onlyBob : Bus :=
  { init with
    heap := [{ newConn (ascii "bob") with subs := [⟨copy maxTopicLen (ascii "*"), true⟩] }]
    conns := [0] }

theorem directed_toAlice : Directed toAlice := ⟨by decide +kernel, by decide +kernel⟩

theorem directed_delivery_alice : Directed toAlice ∧ OnlyAddressee onlyBob toAlice
    (publish onlyBob toAlice).2 :=
  ⟨directed_toAlice, (directed_delivery onlyBob toAlice directed_toAlice).1⟩

/-- Bob's queue gets the message that is routed to alice. -/
theorem directed_delivery_not_always : ¬ ∀ b m, Directed m →
    OnlyAddressee b m (publish b m).2 ∧ OnlyAddressee b m (route b m).2 := by
  intro h
  have hne : ascii "bob" ≠ toAlice.msgTo.bytes := by decide +kernel
  have hcount : (route onlyBob toAlice).2.heap[0]?.map (·.queue.count) = some 1 := by
    decide +kernel
  have hqueue := (h onlyBob toAlice directed_toAlice).2.1 0 _ rfl hne
  have hzero := congrArg (Option.map RingQueue.count) hqueue
  rw [Option.map_map] at hzero
  exact absurd (hcount.symm.trans hzero) (by decide +kernel)

end Absence

end HyperKitty.Bus
