import HyperKitty.Bus.Interleaving
import HyperKitty.Lib.Mailboxes

namespace HyperKitty.Bus

open Mailboxes SwapRemove

variable {w w' : World} {p q i k : Nat} {conns : List Nat} {m : Message} {c : Conn}
variable {e : Event} {es : List Event}

section Refinement

/-- What the accounts see of a connection. -/
def boxOf (c : Conn) : Mailbox Message := ⟨c.queue, c.drops⟩

def mailboxes (w : World) : Mailboxes Message :=
  ⟨w.bus.heap.map boxOf, w.bus.totalRouted, w.bus.totalDropped⟩

def moveOf : Event → Move Message
  | .accepted _ p m => .accept p m
  | .dropped _ p _ => .drop p
  | .received p m => .receive p m
  | .quiet | .returned _ => .idle

theorem map_modify {f : Conn → Conn} (hf : ∀ c, boxOf (f c) = boxOf c) (heap : List Conn)
    (p : Nat) : (heap.modify p f).map boxOf = heap.map boxOf := by
  apply List.ext_getElem?
  intro i
  rw [List.getElem?_map, List.getElem?_map, List.getElem?_modify, Option.map_eq_map,
    Option.map_map]
  congr 1
  funext c
  rw [Function.comp_apply]
  split
  · exact hf c
  · rfl

theorem boxOf_subscribe (c : Conn) (topic : List UInt8) :
    boxOf (subscribe c topic).2 = boxOf c := by
  unfold subscribe
  split
  · rfl
  · split <;> rfl

theorem boxOf_unsubscribe (c : Conn) (topic : List UInt8) :
    boxOf (unsubscribe c topic).2 = boxOf c := by
  unfold unsubscribe
  split <;> rfl

theorem found_box (h : w.bus.heap[p]? = some c) : (mailboxes w).boxes[p]? = some (boxOf c) := by
  rw [mailboxes, List.getElem?_map, h, Option.map_some]

theorem modify_refines {f : Conn → Conn} (hf : ∀ c, boxOf (f c) = boxOf c) (w : World) (p : Nat) :
    Step queueMax (mailboxes w) .idle
      (mailboxes { w with bus.heap := w.bus.heap.modify p f }) := by
  have hsame : mailboxes { w with bus.heap := w.bus.heap.modify p f } = mailboxes w := by
    rw [mailboxes, mailboxes, map_modify hf]
  rw [hsame]
  exact .stay _

theorem push_refines (w : World) (p : Nat) (m : Message) (next : Bool → Phase) :
    Step queueMax (mailboxes w) (moveOf (w.push p m next).1) (mailboxes (w.push p m next).2) := by
  unfold World.push
  cases hc : w.bus.heap[p]? with
  | none => exact .stay _
  | some c =>
    unfold deliver qPush
    rw [hc]
    cases hq : c.queue.push queueMax m with
    | none =>
      have hdrop := Step.drop (found_box hc) (RingQueue.push_eq_none.mp hq)
      simp only [hq, Option.map_none, mailboxes, List.map_set]
      exact hdrop
    | some queue =>
      have haccept := Step.accept (found_box hc) hq
      simp only [hq, Option.map_some, mailboxes, List.map_set]
      exact haccept

/-- A receive finds nothing, or takes the first message of a queue. -/
theorem recv_cases (b : Bus) (p : Nat) : (∃ rc, recv b p = (rc, none, b)) ∨
    ∃ c m queue, b.heap[p]? = some c ∧ c.queue.pop queueMax = some (m, queue) ∧
      recv b p = (0, some m, { b with heap := b.heap.set p { c with queue } }) := by
  unfold recv qPop
  cases hc : b.heap[p]? with
  | none => exact Or.inl ⟨-1, rfl⟩
  | some c =>
    cases hq : c.queue.pop queueMax with
    | none => exact Or.inl ⟨1, by simp [hq]⟩
    | some popped =>
      obtain ⟨m, queue⟩ := popped
      exact Or.inr ⟨c, m, queue, rfl, hq, by simp [hq]⟩

theorem recv_refines (w : World) (p : Nat) :
    Step queueMax (mailboxes w) (moveOf (w.step (.recv p)).1) (mailboxes (w.step (.recv p)).2) := by
  rcases recv_cases w.bus p with ⟨rc, hrecv⟩ | ⟨c, m, queue, hc, hpop, hrecv⟩
  · rw [World.step, hrecv]
    exact .stay _
  · have hreceive := Step.receive (found_box hc) hpop
    rw [World.step, hrecv]
    simp only [mailboxes, List.map_set]
    exact hreceive

theorem connect_refines (b : Bus) (id : List UInt8) (k : Nat) (phase phase' : Phase) :
    Step queueMax (mailboxes ⟨b, k, phase⟩) .idle
      (mailboxes ⟨(connect b id).2, k, phase'⟩) := by
  unfold connect
  split
  · exact .stay _
  · have henter : Step queueMax (mailboxes ⟨b, k, phase⟩) .idle _ := .enter _ Message.zero
    simp only [mailboxes, List.map_append, List.map_singleton]
    exact henter

theorem advance_refines (w : World) :
    Step queueMax (mailboxes w) (moveOf w.advance.1) (mailboxes w.advance.2) := by
  unfold World.advance
  split
  · exact .stay _
  · split
    · exact .stay _
    · exact .stay _
  · exact .stay _
  · split
    · exact .stay _
    · exact push_refines w _ _ _
  · split
    · exact .stay _
    · exact .stay _
  · split
    · split
      · exact .stay _
      · exact .stay _
    · exact .stay _
  · split
    · exact .stay _
    · exact .stay _
  · exact push_refines w _ _ _

/-- Every step of a client is a move of the mailboxes. -/
theorem step_refines (w : World) (a : Action) :
    Step queueMax (mailboxes w) (moveOf (w.step a).1) (mailboxes (w.step a).2) := by
  cases a with
  | connect id =>
    rw [World.step]
    split
    · exact connect_refines w.bus id w.begun _ _
    · exact .stay _
  | removeConn p =>
    rw [World.step]
    split
    · unfold removeConn
      split
      · exact .stay _
      · exact .stay _
    · exact .stay _
  | deactivate p =>
    exact modify_refines (f := fun c => { c with active := false }) (fun _ => rfl) w p
  | subscribe p topic => exact modify_refines (fun c => boxOf_subscribe c topic) w p
  | unsubscribe p topic => exact modify_refines (fun c => boxOf_unsubscribe c topic) w p
  | recv p => exact recv_refines w p
  | publish m =>
    rw [World.step]
    split
    · exact .stay _
    · exact .stay _
  | route m =>
    rw [World.step]
    split
    · exact .stay _
    · exact .stay _
  | advance => exact advance_refines w

/-- The events of a run are a history of the mailboxes. -/
theorem run_refines (actions : List Action) :
    Run queueMax ((Machine.log World.step .start actions).map fun entry => moveOf entry.2)
      (mailboxes (Machine.run World.step .start actions)) := by
  have hstart : Run queueMax [] (mailboxes .start) := .nil
  refine Machine.run_rule (R := fun l w =>
    Run queueMax (l.map fun entry => moveOf entry.2) (mailboxes w)) hstart ?_ actions
  intro l w a h
  rw [List.map_append]
  exact .snoc h (step_refines w a)

end Refinement

section Once

/-- The queue of `p` took a copy in the publish or route number `k`. -/
def acceptedIn (k p : Nat) : Event → Bool
  | .accepted k' p' _ => k' == k && p' == p
  | _ => false

/-- The pointer stands before place `i` of the table. -/
def Behind (conns : List Nat) (i p : Nat) : Prop := ∃ j < i, conns[j]? = some p

/-- The task that holds the lock may have pushed to the connection already. -/
def Visited (w : World) (p : Nat) : Prop :=
  match w.phase with
  | .free => True
  | .publishing _ i _ | .matching _ i _ | .pushing _ i _ => Behind w.bus.conns i p
  | .addressing .. | .choosing .. | .weighing .. | .routing .. => False

/-- No publish or route has given a queue two copies, and the one under way will not. -/
structure Once (es : List Event) (w : World) : Prop where
  nodup : w.bus.conns.Nodup
  lt_heap : ∀ p ∈ w.bus.conns, p < w.bus.heap.length
  past : ∀ k p, es.countP (acceptedIn k p) ≤ 1
  future : ∀ k p, w.begun < k → es.countP (acceptedIn k p) = 0
  current : ∀ p, 0 < es.countP (acceptedIn w.begun p) → Visited w p

theorem count_quiet (es : List Event) (he : ∀ k p, acceptedIn k p e = false) (k p : Nat) :
    (es ++ [e]).countP (acceptedIn k p) = es.countP (acceptedIn k p) := by
  simp [List.countP_append, he k p]

/-- A step that puts nothing into a queue and leaves the table as it is. -/
theorem Once.quiet (h : Once es w) (he : ∀ k p, acceptedIn k p e = false)
    (hconns : w'.bus.conns = w.bus.conns) (hheap : w.bus.heap.length ≤ w'.bus.heap.length)
    (hbegun : w'.begun = w.begun) (hvisited : ∀ p, Visited w p → Visited w' p) :
    Once (es ++ [e]) w' := by
  have hcount := count_quiet es he
  refine ⟨hconns ▸ h.nodup, fun p hp => ?_, fun k p => ?_, fun k p hk => ?_, fun p hp => ?_⟩
  · exact (h.lt_heap p (hconns ▸ hp)).trans_le hheap
  · rw [hcount]
    exact h.past k p
  · rw [hcount]
    exact h.future k p (hbegun ▸ hk)
  · rw [hcount, hbegun] at hp
    exact hvisited p (h.current p hp)

theorem Once.goto (h : Once es w) (he : ∀ k p, acceptedIn k p e = false) {phase : Phase}
    (hvisited : ∀ p, Visited w p → Visited (w.goto phase) p) :
    Once (es ++ [e]) (w.goto phase) :=
  h.quiet he rfl le_rfl rfl hvisited

/-- A task that has pushed nothing may go anywhere. -/
theorem Once.unvisited (h : Once es w) (hnone : ∀ q, ¬ Visited w q) (phase : Phase) :
    Once (es ++ [.quiet]) (w.goto phase) := by
  apply h.goto (fun _ _ => rfl)
  intro q hq
  exact absurd hq (hnone q)

theorem deliver_shape (b : Bus) (p : Nat) (m : Message) :
    (deliver b p m).2.conns = b.conns ∧ (deliver b p m).2.heap.length = b.heap.length := by
  unfold deliver
  split
  · exact ⟨rfl, rfl⟩
  · split
    · exact ⟨rfl, List.length_set⟩
    · exact ⟨rfl, List.length_set⟩

theorem push_shape (w : World) (p : Nat) (m : Message) (next : Bool → Phase) :
    (∃ ok, (w.push p m next).2.phase = next ok) ∧
      (w.push p m next).2.bus.conns = w.bus.conns ∧
      (w.push p m next).2.bus.heap.length = w.bus.heap.length ∧
      (w.push p m next).2.begun = w.begun ∧
      ∀ k q, acceptedIn k q (w.push p m next).1 = true → k = w.begun ∧ q = p := by
  obtain ⟨hconns, hheap⟩ := deliver_shape w.bus p m
  unfold World.push
  split
  · exact ⟨⟨false, rfl⟩, rfl, rfl, rfl, fun k q h => absurd h (by simp [acceptedIn])⟩
  · split
    · next bus hbus =>
      rw [hbus] at hconns hheap
      refine ⟨⟨true, rfl⟩, hconns, hheap, rfl, fun k q h => ?_⟩
      obtain ⟨hk, hq⟩ := Bool.and_eq_true_iff.mp h
      exact ⟨(beq_iff_eq.mp hk).symm, (beq_iff_eq.mp hq).symm⟩
    · next bus hbus =>
      rw [hbus] at hconns hheap
      exact ⟨⟨false, rfl⟩, hconns, hheap, rfl, fun k q h => absurd h (by simp [acceptedIn])⟩

/-- A push to a connection that the task has not pushed to yet. -/
theorem Once.push (h : Once es w) {next : Bool → Phase}
    (hfresh : es.countP (acceptedIn w.begun p) = 0)
    (hvisited : ∀ ok q, Visited w q ∨ q = p → Visited (w.goto (next ok)) q) :
    Once (es ++ [(w.push p m next).1]) (w.push p m next).2 := by
  obtain ⟨⟨ok, hphase⟩, hconns, hheap, hbegun, haccepted⟩ := push_shape w p m next
  generalize w.push p m next = r at *
  have hcount : ∀ k q, (es ++ [r.1]).countP (acceptedIn k q) =
      es.countP (acceptedIn k q) + if acceptedIn k q r.1 then 1 else 0 := by
    intro k q
    rw [List.countP_append, List.countP_singleton]
  have hkeep : ∀ q, Visited (w.goto (next ok)) q → Visited r.2 q := by
    intro q hq
    unfold Visited at hq ⊢
    rw [hphase, hconns]
    exact hq
  refine ⟨hconns ▸ h.nodup, fun q hq => ?_, fun k q => ?_, fun k q hk => ?_, fun q hq => ?_⟩
  · rw [hheap]
    exact h.lt_heap q (hconns ▸ hq)
  · rw [hcount]
    split
    · next hacc =>
      obtain ⟨rfl, rfl⟩ := haccepted k q hacc
      rw [hfresh]
    · exact h.past k q
  · rw [hbegun] at hk
    have hno : ¬ acceptedIn k q r.1 = true := fun hacc => by
      have hkb := (haccepted k q hacc).1
      omega
    rw [hcount, if_neg hno, h.future k q hk]
  · rw [hcount, hbegun] at hq
    refine hkeep q (hvisited ok q ?_)
    split at hq
    · next hacc => exact Or.inr (haccepted _ q hacc).2
    · exact Or.inl (h.current q hq)

theorem Behind.next (h : Behind conns i p) : Behind conns (i + 1) p := by
  obtain ⟨j, hj, hp⟩ := h
  exact ⟨j, Nat.lt_succ_of_lt hj, hp⟩

/-- In a table without repetitions the pointer at place `i` does not stand before that. -/
theorem not_behind (hn : conns.Nodup) (hi : conns[i]? = some p) : ¬ Behind conns i p := by
  intro h
  obtain ⟨j, hj, hjp⟩ := h
  have hlt : j < conns.length := (List.getElem?_eq_some_iff.mp hjp).1
  exact hj.ne ((List.getElem?_inj hlt hn).mp (hjp.trans hi.symm))

/-- What the task has not visited has had nothing from it. -/
theorem Once.fresh (h : Once es w) (hp : ¬ Visited w p) :
    es.countP (acceptedIn w.begun p) = 0 :=
  Nat.eq_zero_of_not_pos fun hpos => hp (h.current p hpos)

theorem Once.advance (h : Once es w) : Once (es ++ [w.advance.1]) w.advance.2 := by
  have hvisited : ∀ q, Visited w q ↔ Visited (w.goto w.phase) q := fun q => Iff.rfl
  unfold World.advance
  split
  · exact h.quiet (fun _ _ => rfl) rfl le_rfl rfl fun _ hq => hq
  · next m i delivered hphase =>
    rw [hphase] at hvisited
    split
    · exact h.goto (fun _ _ => rfl) fun _ _ => trivial
    · apply h.goto (fun _ _ => rfl)
      intro q hq
      have hbehind : Behind w.bus.conns i q := (hvisited q).mp hq
      split
      · exact hbehind.next
      · split
        · exact hbehind.next
        · split
          · exact hbehind
          · split
            · exact hbehind
            · exact hbehind.next
  · next m i delivered hphase =>
    rw [hphase] at hvisited
    apply h.goto (fun _ _ => rfl)
    intro q hq
    have hbehind : Behind w.bus.conns i q := (hvisited q).mp hq
    split
    · exact hbehind.next
    · split
      · exact hbehind
      · exact hbehind.next
  · next m i delivered hphase =>
    rw [hphase] at hvisited
    split
    · apply h.goto (fun _ _ => rfl)
      intro q hq
      exact Behind.next ((hvisited q).mp hq)
    · next p hp =>
      apply h.push (h.fresh fun hv => not_behind h.nodup hp ((hvisited p).mp hv))
      intro ok q hq
      rcases hq with hq | rfl
      · exact Behind.next ((hvisited q).mp hq)
      · exact ⟨i, Nat.lt_succ_self i, hp⟩
  · next m i hphase =>
    rw [hphase] at hvisited
    have hnone : ∀ q, ¬ Visited w q := fun q hq => (hvisited q).mp hq
    split
    · exact h.unvisited hnone _
    · exact h.unvisited hnone _
  · next m i minQ best hphase =>
    rw [hphase] at hvisited
    have hnone : ∀ q, ¬ Visited w q := fun q hq => (hvisited q).mp hq
    split
    · split
      · exact h.goto (fun _ _ => rfl) fun _ _ => trivial
      · exact h.unvisited hnone _
    · exact h.unvisited hnone _
  · next m i minQ best hphase =>
    rw [hphase] at hvisited
    have hnone : ∀ q, ¬ Visited w q := fun q hq => (hvisited q).mp hq
    split
    · exact h.unvisited hnone _
    · exact h.unvisited hnone _
  · next m p hphase =>
    rw [hphase] at hvisited
    exact h.push (h.fresh fun hv => (hvisited p).mp hv) fun _ _ _ => trivial

/-- A step that changes the table leaves every pointer in it once, and in the heap. -/
theorem Once.table (h : Once es w) (hphase : w.phase = .free) {b : Bus}
    (hnodup : b.conns.Nodup) (hlt : ∀ p ∈ b.conns, p < b.heap.length) :
    Once (es ++ [.quiet]) { w with bus := b } := by
  have hcount := count_quiet es (e := .quiet) fun _ _ => rfl
  refine ⟨hnodup, hlt, fun k p => ?_, fun k p hk => ?_, fun p _ => ?_⟩
  · rw [hcount]
    exact h.past k p
  · rw [hcount]
    exact h.future k p hk
  · unfold Visited
    simp only [hphase]

/-- A publish or a route begins, and has given no queue anything yet. -/
theorem Once.begin (h : Once es w) {b : Bus} {phase : Phase} (hconns : b.conns = w.bus.conns)
    (hheap : b.heap = w.bus.heap) : Once (es ++ [.quiet]) ⟨b, w.begun + 1, phase⟩ := by
  have hcount := count_quiet es (e := .quiet) fun _ _ => rfl
  refine ⟨hconns ▸ h.nodup, fun p hp => ?_, fun k p => ?_, fun k p hk => ?_, fun p hp => ?_⟩
  · rw [hheap]
    exact h.lt_heap p (hconns ▸ hp)
  · rw [hcount]
    exact h.past k p
  · rw [hcount]
    exact h.future k p (Nat.lt_of_succ_lt hk)
  · rw [hcount, h.future _ p (Nat.lt_succ_self _)] at hp
    exact absurd hp (Nat.lt_irrefl 0)

theorem Once.connect (h : Once es w) (hphase : w.phase = .free) (id : List UInt8) :
    Once (es ++ [.quiet]) { w with bus := (connect w.bus id).2 } := by
  unfold Bus.connect
  split
  · exact h.table hphase h.nodup h.lt_heap
  · refine h.table hphase ?_ ?_
    · have hnew := h.nodup.concat fun hmem => Nat.lt_irrefl _ (h.lt_heap _ hmem)
      rwa [List.concat_eq_append] at hnew
    · intro p hp
      rw [List.length_append, List.length_singleton]
      rcases List.mem_append.mp hp with hp | hp
      · exact Nat.lt_succ_of_lt (h.lt_heap p hp)
      · rw [List.mem_singleton.mp hp]
        exact Nat.lt_succ_self _

theorem Once.removeConn (h : Once es w) (hphase : w.phase = .free) (p : Nat) :
    Once (es ++ [.quiet]) { w with bus := removeConn w.bus p } := by
  unfold Bus.removeConn
  split
  · exact h.table hphase h.nodup h.lt_heap
  · next i hi =>
    obtain ⟨front, x, back, heq, rfl, -⟩ := findIdx?_some hi
    have hperm : (swapRemove w.bus.conns front.length).Perm (front ++ back) :=
      heq ▸ swapRemove_perm
    have hnodup := h.nodup
    rw [heq, List.nodup_middle, List.nodup_cons] at hnodup
    apply h.table hphase (hperm.nodup_iff.mpr hnodup.2)
    intro q hq
    apply h.lt_heap q
    rw [heq]
    exact mem_around (hperm.mem_iff.mp hq)

theorem Once.modify (h : Once es w) (f : Conn → Conn) (p : Nat) :
    Once (es ++ [.quiet]) { w with bus.heap := w.bus.heap.modify p f } := by
  refine h.quiet (fun _ _ => rfl) rfl ?_ rfl fun _ hq => hq
  simp

theorem Once.recv (h : Once es w) (p : Nat) :
    Once (es ++ [(w.step (.recv p)).1]) (w.step (.recv p)).2 := by
  rcases recv_cases w.bus p with ⟨rc, hrecv⟩ | ⟨c, m, queue, -, -, hrecv⟩
  · rw [World.step, hrecv]
    exact h.quiet (fun _ _ => rfl) rfl le_rfl rfl fun _ hq => hq
  · rw [World.step, hrecv]
    refine h.quiet (fun _ _ => rfl) rfl ?_ rfl fun _ hq => hq
    simp

theorem Once.step (h : Once es w) (a : Action) :
    Once (es ++ [(w.step a).1]) (w.step a).2 := by
  have hwait : Once (es ++ [.quiet]) w := h.quiet (fun _ _ => rfl) rfl le_rfl rfl fun _ hq => hq
  cases a with
  | connect id =>
    rw [World.step]
    split
    · next hphase => exact h.connect hphase id
    · exact hwait
  | removeConn p =>
    rw [World.step]
    split
    · next hphase => exact h.removeConn hphase p
    · exact hwait
  | deactivate p => exact h.modify _ p
  | subscribe p topic => exact h.modify _ p
  | unsubscribe p topic => exact h.modify _ p
  | recv p => exact h.recv p
  | publish m =>
    rw [World.step]
    split
    · exact h.begin rfl rfl
    · exact hwait
  | route m =>
    rw [World.step]
    split
    · exact h.begin rfl rfl
    · exact hwait
  | advance => exact h.advance

theorem once_run (actions : List Action) :
    Once ((Machine.log World.step .start actions).map Prod.snd)
      (Machine.run World.step .start actions) := by
  have hstart : Once [] World.start :=
    ⟨List.nodup_nil, nofun, fun _ _ => Nat.zero_le 1, fun _ _ _ => rfl, fun _ _ => trivial⟩
  refine Machine.run_rule (R := fun l w => Once (l.map Prod.snd) w) hstart ?_ actions
  intro l w a h
  rw [List.map_append]
  exact h.step a

end Once

/-- What the connection received, in that order. -/
def receivedOf (p : Nat) (es : List Event) : List Message :=
  es.filterMap fun
    | .received q m => if q = p then some m else none
    | _ => none

/-- What the queue of the connection accepted, in that order. -/
def acceptedOf (p : Nat) (es : List Event) : List Message :=
  es.filterMap fun
    | .accepted _ q m => if q = p then some m else none
    | _ => none

/-- How many messages stand in the queue of the connection. -/
def queueLength (w : World) (p : Nat) : Nat :=
  match w.bus.heap[p]? with
  | none => 0
  | some c => c.queue.count

/-- Every queue is a bounded ring, and hands on what it accepts in that order, once, with
nothing lost; and the counters of the bus and of the connections agree. -/
structure Exact (es : List Event) (w : World) : Prop where
  count_le : ∀ (p : Nat) (c : Conn), w.bus.heap[p]? = some c → c.queue.count ≤ queueMax
  tail_eq : ∀ (p : Nat) (c : Conn), w.bus.heap[p]? = some c →
    c.queue.tail = (c.queue.head + c.queue.count) % queueMax
  fifo : ∀ (p : Nat) (c : Conn), w.bus.heap[p]? = some c →
    ∃ items, c.queue.Holds queueMax items ∧ acceptedOf p es = receivedOf p es ++ items
  once : ∀ k p, es.countP (acceptedIn k p) ≤ 1
  routed : w.bus.totalRouted = UInt64.ofNat
    (∑ p ∈ Finset.range w.bus.heap.length, ((receivedOf p es).length + queueLength w p))
  dropped : w.bus.totalDropped = (w.bus.heap.map (·.drops)).sum

theorem acceptedBy_moves (p : Nat) (es : List Event) :
    acceptedBy p (es.map moveOf) = acceptedOf p es := by
  rw [acceptedBy, acceptedOf, List.filterMap_map]
  refine congrArg (List.filterMap · es) (funext fun e => ?_)
  cases e <;> rfl

theorem receivedBy_moves (p : Nat) (es : List Event) :
    receivedBy p (es.map moveOf) = receivedOf p es := by
  rw [receivedBy, receivedOf, List.filterMap_map]
  refine congrArg (List.filterMap · es) (funext fun e => ?_)
  cases e <;> rfl

theorem queued_mailboxes (w : World) (p : Nat) : queued (mailboxes w) p = queueLength w p := by
  rw [queued, mailboxes, List.getElem?_map, queueLength]
  cases w.bus.heap[p]? <;> rfl

/-- What the accounts of the mailboxes say of the bus. -/
theorem exact_of_sound (hsound : Sound queueMax (es.map moveOf) (mailboxes w)) (honce : Once es w) :
    Exact es w := by
  have hfifo : ∀ (p : Nat) (c : Conn), w.bus.heap[p]? = some c →
      ∃ items, c.queue.Holds queueMax items ∧ acceptedOf p es = receivedOf p es ++ items := by
    intro p c hc
    rw [← acceptedBy_moves, ← receivedBy_moves]
    exact hsound.fifo p (boxOf c) (found_box hc)
  refine ⟨fun p c hc => ?_, fun p c hc => ?_, hfifo, honce.past, ?_, ?_⟩
  · obtain ⟨items, hholds, -⟩ := hfifo p c hc
    exact hholds.count_le
  · obtain ⟨items, hholds, -⟩ := hfifo p c hc
    exact hholds.tail_eq
  · have hrouted := hsound.routed
    rw [hsound.sum_eq] at hrouted
    simp only [receivedBy_moves, queued_mailboxes] at hrouted
    simpa only [mailboxes, List.length_map] using hrouted
  · have hdropped := hsound.dropped
    simp only [mailboxes, List.map_map] at hdropped
    exact hdropped

/-- However the steps of the clients are interleaved, delivery is first in first out, and
its accounts are exact. -/
theorem delivery_exact (actions : List Action) :
    Exact ((Machine.log World.step .start actions).map Prod.snd)
      (Machine.run World.step .start actions) := by
  have hrun := (run_refines actions).sound (by decide)
  rw [← Function.comp_def, ← List.map_map] at hrun
  exact exact_of_sound hrun (once_run actions)

end HyperKitty.Bus
