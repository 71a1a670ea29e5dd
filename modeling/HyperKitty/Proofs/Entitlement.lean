import HyperKitty.Proofs.Addressing
import HyperKitty.Proofs.Delivery

namespace HyperKitty.Bus

open CString Mailboxes SwapRemove

variable {w : World} {actions : List Action} {a : Action} {p k i : Nat} {m : Message}
variable {c : Conn} {P : Conn → Prop} {e : Event}

/-- The world after the actions. -/
def after (actions : List Action) : World := Machine.run World.step .start actions

theorem after_snoc (actions : List Action) (a : Action) :
    after (actions ++ [a]) = ((after actions).step a).2 :=
  Machine.run_snoc World.start actions a

section Records

/-- A connect under this id, which got the lock of the bus, was answered with `p`. -/
def Opened (actions : List Action) (p : Nat) (id : List UInt8) : Prop :=
  ∃ before, before ++ [.connect id] <+: actions ∧ (after before).phase = .free ∧
    (connect (after before).bus id).1 = some p

/-- The connection at `p` has its id from its connect, and its topics from subscribes of its own. -/
structure Recorded (actions : List Action) (p : Nat) (c : Conn) : Prop where
  id : ∃ id, Opened actions p id ∧ c.id = copy maxIdLen id
  subs : ∀ s ∈ c.subs, ∃ topic, .subscribe p topic ∈ actions ∧ s.topic = copy maxTopicLen topic

theorem Recorded.longer {actions' : List Action} (h : Recorded actions p c)
    (hp : actions <+: actions') : Recorded actions' p c := by
  refine ⟨?_, fun s hs => ?_⟩
  · obtain ⟨id, ⟨before, hbefore, hopened⟩, hc⟩ := h.id
    exact ⟨id, ⟨before, hbefore.trans hp, hopened⟩, hc⟩
  · obtain ⟨topic, ht, hst⟩ := h.subs s hs
    exact ⟨topic, hp.subset ht, hst⟩

theorem Recorded.mono (h : Recorded actions p c) (a : Action) : Recorded (actions ++ [a]) p c :=
  h.longer (List.prefix_append actions [a])

theorem recorded_new {id : List UInt8} (hphase : (after actions).phase = .free)
    (hroom : ¬ maxConns ≤ (after actions).bus.conns.length) :
    Recorded (actions ++ [.connect id]) (after actions).bus.heap.length (newConn id) := by
  have hconnect : (connect (after actions).bus id).1 = some (after actions).bus.heap.length := by
    rw [connect, if_neg hroom]
  exact ⟨⟨id, ⟨actions, List.prefix_refl _, hphase, hconnect⟩, rfl⟩, nofun⟩

theorem Recorded.subscribe (h : Recorded actions p c) (topic : List UInt8) :
    Recorded (actions ++ [.subscribe p topic]) p (subscribe c topic).2 := by
  have hc := h.mono (.subscribe p topic)
  unfold Bus.subscribe
  split
  · exact hc
  · split
    · exact hc
    · refine ⟨hc.id, fun s hs => ?_⟩
      rcases List.mem_append.mp hs with hs | hs
      · exact hc.subs s hs
      · rw [List.mem_singleton.mp hs]
        exact ⟨topic, List.mem_append_right _ (List.mem_singleton_self _), rfl⟩

theorem Recorded.unsubscribe (h : Recorded actions p c) (topic : List UInt8) :
    Recorded actions p (unsubscribe c topic).2 := by
  unfold Bus.unsubscribe
  split
  · exact h
  · next i hi =>
    obtain ⟨front, x, back, heq, rfl, -⟩ := findIdx?_some hi
    have hperm : (swapRemove c.subs front.length).Perm (front ++ back) := heq ▸ swapRemove_perm
    refine ⟨h.id, fun s hs => h.subs s ?_⟩
    rw [heq]
    exact mem_around (hperm.mem_iff.mp hs)

/-- No connection is new, and none has another id or other topics than before. -/
def Unaltered (heap heap' : List Conn) : Prop :=
  ∀ (p : Nat) (c' : Conn), heap'[p]? = some c' →
    ∃ c : Conn, heap[p]? = some c ∧ c'.id = c.id ∧ c'.subs = c.subs

theorem Unaltered.refl (heap : List Conn) : Unaltered heap heap := fun _ c hc => ⟨c, hc, rfl, rfl⟩

theorem Unaltered.set {heap : List Conn} {c' : Conn} (hc : heap[p]? = some c) (hid : c'.id = c.id)
    (hsubs : c'.subs = c.subs) : Unaltered heap (heap.set p c') := by
  intro q d hd
  by_cases h : p = q
  · subst h
    rw [List.getElem?_set_self (List.getElem?_eq_some_iff.mp hc).1, Option.some.injEq] at hd
    subst hd
    exact ⟨c, hc, hid, hsubs⟩
  · rw [List.getElem?_set_ne h] at hd
    exact ⟨d, hd, rfl, rfl⟩

theorem qPush_same {c' : Conn} (h : qPush c m = some c') : c'.id = c.id ∧ c'.subs = c.subs := by
  obtain ⟨queue, -, rfl⟩ := Option.map_eq_some_iff.mp h
  exact ⟨rfl, rfl⟩

theorem deliver_unaltered (b : Bus) (p : Nat) (m : Message) :
    Unaltered b.heap (deliver b p m).2.heap := by
  unfold deliver
  split
  · exact .refl _
  · next c hc =>
    split
    · next c' hq => exact .set hc (qPush_same hq).1 (qPush_same hq).2
    · exact .set hc rfl rfl

theorem push_unaltered (w : World) (p : Nat) (m : Message) (next : Bool → Phase) :
    Unaltered w.bus.heap (w.push p m next).2.bus.heap := by
  have hdeliver := deliver_unaltered w.bus p m
  unfold World.push
  split
  · exact .refl _
  · split
    · next bus hbus =>
      rw [hbus] at hdeliver
      exact hdeliver
    · next bus hbus =>
      rw [hbus] at hdeliver
      exact hdeliver

theorem advance_unaltered (w : World) : Unaltered w.bus.heap w.advance.2.bus.heap := by
  unfold World.advance
  split
  · exact .refl _
  · split
    · exact .refl _
    · exact .refl _
  · exact .refl _
  · split
    · exact .refl _
    · exact push_unaltered w _ _ _
  · split
    · exact .refl _
    · exact .refl _
  · split
    · split
      · exact .refl _
      · exact .refl _
    · exact .refl _
  · split
    · exact .refl _
    · exact .refl _
  · exact push_unaltered w _ _ _

theorem recv_unaltered (w : World) (p : Nat) :
    Unaltered w.bus.heap (w.step (.recv p)).2.bus.heap := by
  rcases recv_cases w.bus p with ⟨rc, hrecv⟩ | ⟨c, m, queue, hc, -, hrecv⟩
  · rw [World.step, hrecv]
    exact .refl _
  · rw [World.step, hrecv]
    exact .set hc rfl rfl

/-- Every connection of the heap is recorded. -/
def AllRecorded (actions : List Action) (heap : List Conn) : Prop :=
  ∀ (p : Nat) (c : Conn), heap[p]? = some c → Recorded actions p c

theorem AllRecorded.unaltered {heap heap' : List Conn} (h : AllRecorded actions heap)
    (hsame : Unaltered heap heap') (a : Action) : AllRecorded (actions ++ [a]) heap' := by
  intro p c' hc'
  obtain ⟨c, hc, hid, hsubs⟩ := hsame p c' hc'
  have hrec := (h p c hc).mono a
  exact ⟨hid ▸ hrec.id, hsubs ▸ hrec.subs⟩

/-- A step that changes the connection at `p` alone. -/
theorem AllRecorded.modify {heap : List Conn} {f : Conn → Conn} (h : AllRecorded actions heap)
    (hf : ∀ c, Recorded actions p c → Recorded (actions ++ [a]) p (f c)) :
    AllRecorded (actions ++ [a]) (heap.modify p f) := by
  intro q c' hc'
  rw [List.getElem?_modify, Option.map_eq_map] at hc'
  obtain ⟨c, hc, rfl⟩ := Option.map_eq_some_iff.mp hc'
  split
  · next heq =>
    subst heq
    exact hf c (h _ c hc)
  · exact (h q c hc).mono a

/-- A connection that is added to the heap. -/
theorem AllRecorded.add {heap : List Conn} {c' : Conn} (h : AllRecorded actions heap)
    (hc' : Recorded actions heap.length c') : AllRecorded actions (heap ++ [c']) := by
  intro p c hc
  rw [List.getElem?_append] at hc
  split at hc
  · exact h p c hc
  · obtain ⟨hlt, rfl⟩ := List.getElem?_eq_some_iff.mp hc
    rw [List.length_singleton] at hlt
    obtain rfl : p = heap.length := by omega
    simpa using hc'

theorem AllRecorded.step (h : AllRecorded actions w.bus.heap) (hw : after actions = w)
    (a : Action) : AllRecorded (actions ++ [a]) (w.step a).2.bus.heap := by
  have hwait : AllRecorded (actions ++ [a]) w.bus.heap := h.unaltered (.refl _) a
  cases a with
  | connect id =>
    rw [World.step]
    split
    · next hphase =>
      unfold Bus.connect
      split
      · exact hwait
      · next hroom =>
        subst hw
        exact hwait.add (recorded_new hphase hroom)
    · exact hwait
  | removeConn p =>
    rw [World.step]
    split
    · unfold Bus.removeConn
      split
      · exact hwait
      · exact hwait
    · exact hwait
  | deactivate p => exact h.modify fun c hc => ⟨(hc.mono _).id, (hc.mono _).subs⟩
  | subscribe p topic => exact h.modify fun c hc => hc.subscribe topic
  | unsubscribe p topic => exact h.modify fun c hc => (hc.mono _).unsubscribe topic
  | recv p => exact h.unaltered (recv_unaltered w p) _
  | publish m =>
    rw [World.step]
    split
    · exact hwait
    · exact hwait
  | route m =>
    rw [World.step]
    split
    · exact hwait
    · exact hwait
  | advance => exact h.unaltered (advance_unaltered w) _

theorem allRecorded_after (actions : List Action) :
    AllRecorded actions (after actions).bus.heap := by
  induction actions using List.reverseRecOn with
  | nil => exact fun p c hc => by simp [after, World.start, init] at hc
  | append_singleton actions a ih =>
    rw [after_snoc]
    exact ih.step rfl a

end Records

section Calls

/-- The call that the task holding the lock is in. -/
def Phase.call : Phase → Option Action
  | .free => none
  | .publishing m .. | .matching m .. | .pushing m .. => some (.publish m)
  | .addressing m .. | .choosing m .. | .weighing m .. | .routing m .. => some (.route m)

variable {call : Action}

/-- At some moment of this publish or route, number `k`, the connection at `p` was such. -/
def During (actions : List Action) (k : Nat) (call : Action) (p : Nat) (P : Conn → Prop) : Prop :=
  ∃ before, before <+: actions ∧ (after before).begun = k ∧
    (after before).phase.call = some call ∧ ∃ c, (after before).bus.heap[p]? = some c ∧ P c

/-- The call found the connection active, and found the message to be for it. A publish asks
that of its topics only where the message names nobody. -/
structure Served (actions : List Action) (k : Nat) (call : Action) (m : Message) (p : Nat) :
    Prop where
  active : During actions k call p fun c => c.active = true
  meant : During actions k call p (fun c => addressed m c = true) ∨
    (call = .publish m → broadcast m = true) ∧
      During actions k call p fun c => wantsTopic c m.topic.bytes = true

theorem During.mono (h : During actions k call p P) (a : Action) :
    During (actions ++ [a]) k call p P := by
  obtain ⟨before, hbefore, h⟩ := h
  exact ⟨before, hbefore.trans (List.prefix_append actions [a]), h⟩

theorem Served.mono (h : Served actions k call m p) (a : Action) :
    Served (actions ++ [a]) k call m p :=
  ⟨h.active.mono a, h.meant.imp (·.mono a) fun ⟨hb, hw⟩ => ⟨hb, hw.mono a⟩⟩

theorem During.now (hw : after actions = w) (hcall : w.phase.call = some call)
    (hc : w.bus.heap[p]? = some c) (hP : P c) : During actions w.begun call p P := by
  subst hw
  exact ⟨actions, List.prefix_refl actions, rfl, hcall, c, hc, hP⟩

/-- What the task has found out so far, in the call number `k`. -/
def Ready (actions : List Action) (k : Nat) (conns : List Nat) : Phase → Prop
  | .free | .publishing .. | .addressing .. => True
  | .matching m i _ => broadcast m = true ∧
      ∀ p ∈ conns[i]?, During actions k (.publish m) p fun c => c.active = true
  | .pushing m i _ => ∀ p ∈ conns[i]?, Served actions k (.publish m) m p
  | .choosing m _ _ best => ∀ p ∈ best, Served actions k (.route m) m p
  | .weighing m i _ best => (∀ p ∈ best, Served actions k (.route m) m p) ∧
      ∀ p ∈ conns[i]?, During actions k (.route m) p fun c => c.active = true
  | .routing m p => Served actions k (.route m) m p

theorem Ready.mono {conns : List Nat} {phase : Phase} (h : Ready actions k conns phase)
    (a : Action) : Ready (actions ++ [a]) k conns phase := by
  cases phase with
  | free => trivial
  | publishing m i delivered => trivial
  | matching m i delivered => exact ⟨h.1, fun p hp => (h.2 p hp).mono a⟩
  | pushing m i delivered => exact fun p hp => (h p hp).mono a
  | addressing m i => trivial
  | choosing m i minQ best => exact fun p hp => (h p hp).mono a
  | weighing m i minQ best =>
    exact ⟨fun p hp => (h.1 p hp).mono a, fun p hp => (h.2 p hp).mono a⟩
  | routing m p => exact Served.mono h a

/-- The task is in a call that was made, and knows what its phase says. -/
structure Informed (actions : List Action) (w : World) : Prop where
  made : ∀ call ∈ w.phase.call, call ∈ actions
  ready : Ready actions w.begun w.bus.conns w.phase

theorem connAt_eq_some : w.connAt i = some c ↔
    ∃ p, w.bus.conns[i]? = some p ∧ w.bus.heap[p]? = some c :=
  Option.bind_eq_some_iff

theorem mem_unique {conns : List Nat} {p q : Nat} (hp : conns[i]? = some p) (hq : q ∈ conns[i]?) :
    q = p :=
  Option.some.inj (hq.symm.trans hp)

/-- The loop of a publish looks at a connection. -/
theorem publishing_ready {delivered : Nat} (hw : after actions = w)
    (hphase : w.phase = .publishing m i delivered) :
    Ready actions w.begun w.bus.conns
      (match w.connAt i with
      | none => .publishing m (i + 1) delivered
      | some c =>
        if !c.active then .publishing m (i + 1) delivered
        else if addressed m c then .pushing m i delivered
        else if broadcast m then .matching m i delivered
        else .publishing m (i + 1) delivered) := by
  have hcall : w.phase.call = some (.publish m) := by rw [hphase, Phase.call]
  split
  · trivial
  · next c hconn =>
    obtain ⟨p, hp, hc⟩ := connAt_eq_some.mp hconn
    split
    · trivial
    · next hactive =>
      have hact : During actions w.begun (.publish m) p fun c => c.active = true :=
        .now hw hcall hc (by simpa using hactive)
      split
      · next haddr =>
        intro q hq
        rw [mem_unique hp hq]
        exact ⟨hact, Or.inl (.now hw hcall hc haddr)⟩
      · split
        · next hbroad =>
          refine ⟨hbroad, fun q hq => ?_⟩
          rw [mem_unique hp hq]
          exact hact
        · trivial

/-- The loop of a publish looks at the topics of a connection that it found active. -/
theorem matching_ready {delivered : Nat} (hw : after actions = w)
    (hphase : w.phase = .matching m i delivered)
    (h : Ready actions w.begun w.bus.conns (.matching m i delivered)) :
    Ready actions w.begun w.bus.conns
      (match w.connAt i with
      | none => .publishing m (i + 1) delivered
      | some c =>
        if wantsTopic c m.topic.bytes then .pushing m i delivered
        else .publishing m (i + 1) delivered) := by
  have hcall : w.phase.call = some (.publish m) := by rw [hphase, Phase.call]
  split
  · trivial
  · next c hconn =>
    obtain ⟨p, hp, hc⟩ := connAt_eq_some.mp hconn
    split
    · next hwants =>
      intro q hq
      have hactive := h.2 q hq
      rw [mem_unique hp hq] at hactive ⊢
      exact ⟨hactive, Or.inr ⟨fun _ => h.1, .now hw hcall hc hwants⟩⟩
    · trivial

/-- The first loop of a route looks at a connection. -/
theorem addressing_ready (hw : after actions = w) (hphase : w.phase = .addressing m i) :
    Ready actions w.begun w.bus.conns
      (match w.bus.heap[p]? with
      | none => .addressing m (i + 1)
      | some c => if c.active && addressed m c then .routing m p else .addressing m (i + 1)) := by
  have hcall : w.phase.call = some (.route m) := by rw [hphase, Phase.call]
  split
  · trivial
  · next c hc =>
    split
    · next h =>
      obtain ⟨hactive, haddr⟩ := Bool.and_eq_true_iff.mp h
      exact ⟨.now hw hcall hc hactive, Or.inl (.now hw hcall hc haddr)⟩
    · trivial

/-- The second loop of a route looks at a connection. -/
theorem choosing_ready {minQ : Nat} {best : Option Nat} (hw : after actions = w)
    (hphase : w.phase = .choosing m i minQ best)
    (h : Ready actions w.begun w.bus.conns (.choosing m i minQ best)) :
    Ready actions w.begun w.bus.conns
      (match w.connAt i with
      | none => .choosing m (i + 1) minQ best
      | some c =>
        if c.active then .weighing m i minQ best else .choosing m (i + 1) minQ best) := by
  have hcall : w.phase.call = some (.route m) := by rw [hphase, Phase.call]
  split
  · exact h
  · next c hconn =>
    obtain ⟨p, hp, hc⟩ := connAt_eq_some.mp hconn
    split
    · next hactive =>
      refine ⟨h, fun q hq => ?_⟩
      rw [mem_unique hp hq]
      exact .now hw hcall hc hactive
    · exact h

/-- The second loop of a route looks at the topics and the queue of a connection. -/
theorem weighing_ready {minQ : Nat} {best : Option Nat} (hw : after actions = w)
    (hphase : w.phase = .weighing m i minQ best) (hp : w.bus.conns[i]? = some p)
    (h : Ready actions w.begun w.bus.conns (.weighing m i minQ best)) :
    Ready actions w.begun w.bus.conns
      (match w.bus.heap[p]? with
      | none => .choosing m (i + 1) minQ best
      | some c =>
        if wantsTopic c m.topic.bytes && decide (c.queue.count < minQ) then
          .choosing m (i + 1) c.queue.count (some p)
        else .choosing m (i + 1) minQ best) := by
  have hcall : w.phase.call = some (.route m) := by rw [hphase, Phase.call]
  split
  · exact h.1
  · next c hc =>
    split
    · next hwants =>
      obtain ⟨hwants, -⟩ := Bool.and_eq_true_iff.mp hwants
      intro q hq
      obtain rfl : p = q := Option.some.inj hq
      exact ⟨h.2 p hp, Or.inr ⟨nofun, .now hw hcall hc hwants⟩⟩
    · exact h.1

/-- What a push leaves, and that it can be accepted by that queue alone. -/
theorem push_accepts (w : World) (p : Nat) (m : Message) (next : Bool → Phase) :
    (∃ ok, (w.push p m next).2.phase = next ok) ∧
      (w.push p m next).2.bus.conns = w.bus.conns ∧ (w.push p m next).2.begun = w.begun ∧
      ∀ k q m', (w.push p m next).1 = .accepted k q m' → k = w.begun ∧ q = p ∧ m' = m := by
  obtain ⟨hphase, hconns, -, hbegun, -⟩ := push_shape w p m next
  refine ⟨hphase, hconns, hbegun, fun k q m' he => ?_⟩
  unfold World.push at he
  split at he
  · cases he
  · split at he
    · cases he
      exact ⟨rfl, rfl, rfl⟩
    · cases he

/-- A push by a task that goes on to phases which know nothing. -/
theorem Informed.push {next : Bool → Phase} (h : Informed actions w)
    (hcall : ∀ ok, ∀ call ∈ (next ok).call, call ∈ w.phase.call)
    (hready : ∀ ok, Ready actions w.begun w.bus.conns (next ok)) :
    Informed actions (w.push p m next).2 := by
  obtain ⟨⟨ok, hphase⟩, hconns, hbegun, -⟩ := push_accepts w p m next
  refine ⟨fun call hc => h.made call ?_, ?_⟩
  · rw [hphase] at hc
    exact hcall ok call hc
  · rw [hphase, hconns, hbegun]
    exact hready ok

theorem Informed.goto {phase : Phase} (h : Informed actions w)
    (hcall : ∀ call ∈ phase.call, call ∈ w.phase.call)
    (hready : Ready actions w.begun w.bus.conns phase) : Informed actions (w.goto phase) :=
  ⟨fun call hc => h.made call (hcall call hc), hready⟩

theorem Informed.advance (h : Informed actions w) (hw : after actions = w) :
    Informed actions w.advance.2 := by
  have hready := h.ready
  unfold World.advance
  split
  · exact h
  · next m i delivered hphase =>
    split
    · exact h.goto nofun trivial
    · refine h.goto (fun call hc => ?_) (publishing_ready hw hphase)
      rw [hphase]
      split at hc
      · exact hc
      · split at hc
        · exact hc
        · split at hc
          · exact hc
          · split at hc
            · exact hc
            · exact hc
  · next m i delivered hphase =>
    rw [hphase] at hready
    refine h.goto (fun call hc => ?_) (matching_ready hw hphase hready)
    rw [hphase]
    split at hc
    · exact hc
    · split at hc
      · exact hc
      · exact hc
  · next m i delivered hphase =>
    split
    · refine h.goto (fun call hc => ?_) trivial
      rw [hphase]
      exact hc
    · refine h.push (fun ok call hc => ?_) fun _ => trivial
      rw [hphase]
      exact hc
  · next m i hphase =>
    split
    · refine h.goto (fun call hc => ?_) nofun
      rw [hphase]
      exact hc
    · refine h.goto (fun call hc => ?_) (addressing_ready hw hphase)
      rw [hphase]
      split at hc
      · exact hc
      · split at hc
        · exact hc
        · exact hc
  · next m i minQ best hphase =>
    rw [hphase] at hready
    split
    · split
      · exact h.goto nofun trivial
      · next p =>
        refine h.goto (fun call hc => ?_) (hready p rfl)
        rw [hphase]
        exact hc
    · refine h.goto (fun call hc => ?_) (choosing_ready hw hphase hready)
      rw [hphase]
      split at hc
      · exact hc
      · split at hc
        · exact hc
        · exact hc
  · next m i minQ best hphase =>
    rw [hphase] at hready
    split
    · refine h.goto (fun call hc => ?_) hready.1
      rw [hphase]
      exact hc
    · next p hp =>
      refine h.goto (fun call hc => ?_) (weighing_ready hw hphase hp hready)
      rw [hphase]
      split at hc
      · exact hc
      · split at hc
        · exact hc
        · exact hc
  · exact h.push nofun fun _ => trivial

theorem Informed.mono (h : Informed actions w) (a : Action) : Informed (actions ++ [a]) w :=
  ⟨fun call hc => List.mem_append_left _ (h.made call hc), h.ready.mono a⟩

/-- The rest of the clients leave the task alone, and the table and the number of its call. A
task is made, at the start of its call, by the client that gets the lock. -/
theorem step_others (w : World) (ha : a ≠ .advance) :
    ((w.step a).2.phase = w.phase ∧ (w.step a).2.begun = w.begun ∧
      (w.step a).2.bus.conns = w.bus.conns) ∨
    (w.phase = .free ∧ (w.step a).2.phase = .free) ∨
    (∃ m, a = .publish m ∧ (w.step a).2.phase = .publishing m 0 0) ∨
    ∃ m, a = .route m ∧ (w.step a).2.phase = .addressing m 0 := by
  cases a with
  | connect id =>
    rw [World.step]
    split
    · next hphase => exact Or.inr (Or.inl ⟨hphase, hphase⟩)
    · exact Or.inl ⟨rfl, rfl, rfl⟩
  | removeConn p =>
    rw [World.step]
    split
    · next hphase => exact Or.inr (Or.inl ⟨hphase, hphase⟩)
    · exact Or.inl ⟨rfl, rfl, rfl⟩
  | deactivate p => exact Or.inl ⟨rfl, rfl, rfl⟩
  | subscribe p topic => exact Or.inl ⟨rfl, rfl, rfl⟩
  | unsubscribe p topic => exact Or.inl ⟨rfl, rfl, rfl⟩
  | recv p =>
    rcases recv_cases w.bus p with ⟨rc, hrecv⟩ | ⟨c, m, queue, -, -, hrecv⟩
    · rw [World.step, hrecv]
      exact Or.inl ⟨rfl, rfl, rfl⟩
    · rw [World.step, hrecv]
      exact Or.inl ⟨rfl, rfl, rfl⟩
  | publish m =>
    rw [World.step]
    split
    · exact Or.inr (Or.inr (Or.inl ⟨m, rfl, rfl⟩))
    · exact Or.inl ⟨rfl, rfl, rfl⟩
  | route m =>
    rw [World.step]
    split
    · exact Or.inr (Or.inr (Or.inr ⟨m, rfl, rfl⟩))
    · exact Or.inl ⟨rfl, rfl, rfl⟩
  | advance => exact absurd rfl ha

theorem Informed.step (h : Informed actions w) (hw : after actions = w) (a : Action) :
    Informed (actions ++ [a]) (w.step a).2 := by
  have hmono := h.mono a
  by_cases ha : a = .advance
  · subst ha
    exact (h.advance hw).mono _
  · rcases step_others w ha with ⟨hphase, hbegun, hconns⟩ | ⟨-, hphase⟩ |
      ⟨m, rfl, hphase⟩ | ⟨m, rfl, hphase⟩
    · constructor
      · rw [hphase]
        exact hmono.made
      · rw [hphase, hconns, hbegun]
        exact hmono.ready
    · constructor
      · rw [hphase]
        nofun
      · rw [hphase]
        trivial
    · constructor
      · rw [hphase]
        rintro call ⟨⟩
        exact List.mem_append_right _ (List.mem_singleton_self _)
      · rw [hphase]
        trivial
    · constructor
      · rw [hphase]
        rintro call ⟨⟩
        exact List.mem_append_right _ (List.mem_singleton_self _)
      · rw [hphase]
        trivial

theorem informed_after (actions : List Action) : Informed actions (after actions) := by
  induction actions using List.reverseRecOn with
  | nil => exact ⟨nofun, trivial⟩
  | append_singleton actions a ih =>
    rw [after_snoc]
    exact ih.step rfl a

end Calls

/-- The message was offered by a call that served the connection. -/
def Offered (actions : List Action) (k : Nat) (m : Message) (p : Nat) : Prop :=
  ∃ call ∈ actions, (call = .publish m ∨ call = .route m) ∧ Served actions k call m p

/-- Only the pushing steps of a call put a message into a queue. -/
theorem accepted_offered (h : Informed actions w) (he : (w.step a).1 = .accepted k p m) :
    Offered actions k m p := by
  have hready := h.ready
  cases a with
  | advance =>
    rw [World.step] at he
    unfold World.advance at he
    split at he
    · cases he
    · split at he
      · cases he
      · cases he
    · cases he
    · next m' i delivered hphase =>
      split at he
      · cases he
      · next q hq =>
        obtain ⟨rfl, rfl, rfl⟩ := (push_accepts w q m' _).2.2.2 k p m he
        rw [hphase] at hready
        refine ⟨.publish m, h.made _ ?_, Or.inl rfl, hready p hq⟩
        rw [hphase]
        rfl
    · split at he
      · cases he
      · cases he
    · split at he
      · split at he
        · cases he
        · cases he
      · cases he
    · split at he
      · cases he
      · cases he
    · next m' q hphase =>
      obtain ⟨rfl, rfl, rfl⟩ := (push_accepts w q m' _).2.2.2 k p m he
      rw [hphase] at hready
      refine ⟨.route m, h.made _ ?_, Or.inr rfl, hready⟩
      rw [hphase]
      rfl
  | recv q =>
    rcases recv_cases w.bus q with ⟨rc, hrecv⟩ | ⟨c, m, queue, -, -, hrecv⟩
    · rw [World.step, hrecv] at he
      cases he
    · rw [World.step, hrecv] at he
      cases he
  | connect id | removeConn q | publish m' | route m' =>
    rw [World.step] at he
    split at he
    · cases he
    · cases he
  | deactivate q | subscribe q topic | unsubscribe q topic => cases he

theorem Offered.mono (h : Offered actions k m p) (a : Action) : Offered (actions ++ [a]) k m p := by
  obtain ⟨call, hcall, hm, hserved⟩ := h
  exact ⟨call, List.mem_append_left _ hcall, hm, hserved.mono a⟩

def events (actions : List Action) : List Event :=
  (Machine.log World.step .start actions).map Prod.snd

theorem events_snoc (actions : List Action) (a : Action) :
    events (actions ++ [a]) = events actions ++ [((after actions).step a).1] := by
  rw [events, Machine.log_snoc, List.map_append]
  rfl

theorem accepted_after (h : .accepted k p m ∈ events actions) : Offered actions k m p := by
  induction actions using List.reverseRecOn with
  | nil => cases h
  | append_singleton actions a ih =>
    rw [events_snoc] at h
    rcases List.mem_append.mp h with h | h
    · exact (ih h).mono a
    · exact (accepted_offered (informed_after actions) (List.mem_singleton.mp h).symm).mono a

/-- What a connection received, its queue accepted before. -/
theorem received_accepted (actions : List Action) (p : Nat) :
    receivedOf p (events actions) <+: acceptedOf p (events actions) := by
  have hsound := (run_refines actions).sound (by decide)
  rw [← Function.comp_def, ← List.map_map, ← events] at hsound
  rw [← receivedBy_moves, ← acceptedBy_moves]
  rcases Nat.lt_or_ge p (mailboxes (after actions)).boxes.length with hlt | hge
  · obtain ⟨items, -, hfifo⟩ := hsound.fifo p _ (List.getElem?_eq_getElem hlt)
    exact ⟨items, hfifo.symm⟩
  · obtain ⟨haccepted, hreceived⟩ := hsound.absent p hge
    rw [hreceived, haccepted]

/-- The connection was opened under the name that the message is for, or has subscribed to a
pattern of the topic. What a connection keeps of either is cut off at its field. -/
def Earned (actions : List Action) (m : Message) (p : Nat) : Prop :=
  (∃ id, Opened actions p id ∧ (copy maxIdLen id).bytes = m.msgTo.bytes) ∨
    ∃ topic, .subscribe p topic ∈ actions ∧
      topicMatches (copy maxTopicLen topic).bytes m.topic.bytes = true

theorem During.recorded (h : During actions k call p P) :
    ∃ c, P c ∧ Recorded actions p c := by
  obtain ⟨before, hbefore, -, -, c, hc, hP⟩ := h
  exact ⟨c, hP, (allRecorded_after before p c hc).longer hbefore⟩

theorem Served.earned (h : Served actions k call m p) : Earned actions m p := by
  rcases h.meant with haddr | ⟨-, hwants⟩
  · obtain ⟨c, haddr, hrec⟩ := haddr.recorded
    obtain ⟨id, hid, hcid⟩ := hrec.id
    obtain ⟨-, hto⟩ := Bool.and_eq_true_iff.mp haddr
    exact Or.inl ⟨id, hid, by rw [← hcid, ← beq_iff_eq.mp hto]⟩
  · obtain ⟨c, hwants, hrec⟩ := hwants.recorded
    obtain ⟨s, hs, hmatch⟩ := List.any_eq_true.mp hwants
    obtain ⟨topic, ht, hst⟩ := hrec.subs s hs
    obtain ⟨-, hmatch⟩ := Bool.and_eq_true_iff.mp hmatch
    exact Or.inr ⟨topic, ht, hst ▸ hmatch⟩

/-- Alice connects, and takes what is then published for her. -/
def aliceConnects : List Action :=
  [.connect (ascii "alice"), .publish toAlice, .advance, .advance, .advance, .recv 0]

/-- However the clients are interleaved, nobody receives a message that was not offered to the
bus, in a call that found the receiver active and the message meant for it; and for that the
receiver had to connect or subscribe. -/
theorem received_entitled (actions : List Action) (p : Nat) (m : Message)
    (h : m ∈ receivedOf p (events actions)) :
    (∃ k, Offered actions k m p) ∧ Earned actions m p := by
  obtain ⟨e, he, hem⟩ := List.mem_filterMap.mp ((received_accepted actions p).subset h)
  obtain ⟨k, rfl⟩ : ∃ k, e = .accepted k p m := by
    cases e with
    | accepted k q m' =>
      obtain ⟨rfl, rfl⟩ : q = p ∧ m' = m := by simpa using hem
      exact ⟨k, rfl⟩
    | quiet | returned rc | dropped k q m' | received q m' => cases hem
  have hoffered := accepted_after he
  obtain ⟨call, -, -, hserved⟩ := accepted_after he
  exact ⟨⟨k, hoffered⟩, hserved.earned⟩

theorem received_entitled_alice :
    toAlice ∈ receivedOf 0 (events aliceConnects) ∧
      (∃ k, Offered aliceConnects k toAlice 0) ∧ Earned aliceConnects toAlice 0 := by
  have h : receivedOf 0 (events aliceConnects) = [toAlice] := rfl
  have hmem : toAlice ∈ receivedOf 0 (events aliceConnects) := h ▸ List.mem_singleton_self _
  exact ⟨hmem, received_entitled aliceConnects 0 toAlice hmem⟩

end HyperKitty.Bus
