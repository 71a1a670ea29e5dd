import HyperKitty.Proofs.Entitlement

namespace HyperKitty.Bus

variable {w : World} {actions : List Action} {a : Action} {p k i j : Nat} {m : Message}
variable {c : Conn} {conns : List Nat} {call : Action}

section Reasons

/-- The call pushed the message to the queue of the connection, which took or dropped it. -/
def Tried (actions : List Action) (k : Nat) (m : Message) (p : Nat) : Prop :=
  .accepted k p m ∈ events actions ∨ .dropped k p m ∈ events actions

/-- At some moment of the publish the connection was inactive, or the message did not match. -/
def Unmatched (actions : List Action) (k : Nat) (m : Message) (p : Nat) : Prop :=
  During actions k (.publish m) p (fun c => c.active = false) ∨
    During actions k (.publish m) p (fun c => addressed m c = false) ∧
      (broadcast m = false ∨
        During actions k (.publish m) p fun c => wantsTopic c m.topic.bytes = false)

/-- At some moment of the route the message was not for this connection. -/
def Unaddressed (actions : List Action) (k : Nat) (m : Message) (p : Nat) : Prop :=
  During actions k (.route m) p fun c => (c.active && addressed m c) = false

/-- At some moment of the route the connection was inactive, or had no such subscription. -/
def Unsubscribed (actions : List Action) (k : Nat) (m : Message) (p : Nat) : Prop :=
  During actions k (.route m) p (fun c => c.active = false) ∨
    During actions k (.route m) p fun c => wantsTopic c m.topic.bytes = false

theorem Tried.mono (h : Tried actions k m p) (a : Action) : Tried (actions ++ [a]) k m p := by
  unfold Tried
  rw [events_snoc]
  exact h.imp (List.mem_append_left _) (List.mem_append_left _)

theorem Unmatched.mono (h : Unmatched actions k m p) (a : Action) :
    Unmatched (actions ++ [a]) k m p :=
  h.imp (·.mono a) fun ⟨haddr, hrest⟩ => ⟨haddr.mono a, hrest.imp_right (·.mono a)⟩

theorem Unsubscribed.mono (h : Unsubscribed actions k m p) (a : Action) :
    Unsubscribed (actions ++ [a]) k m p :=
  h.imp (·.mono a) (·.mono a)

/-- A publish has done what there was to do for the connection. -/
def Settled (actions : List Action) (k : Nat) (m : Message) (p : Nat) : Prop :=
  Tried actions k m p ∨ Unmatched actions k m p

theorem Settled.mono (h : Settled actions k m p) (a : Action) : Settled (actions ++ [a]) k m p :=
  h.imp (·.mono a) (·.mono a)

end Reasons

section Places

theorem behind_succ : Behind conns (i + 1) p ↔ Behind conns i p ∨ conns[i]? = some p := by
  constructor
  · rintro ⟨j, hj, hp⟩
    rcases Nat.lt_succ_iff_lt_or_eq.mp hj with hj | rfl
    · exact Or.inl ⟨j, hj, hp⟩
    · exact Or.inr hp
  · rintro (h | hp)
    · exact h.next
    · exact ⟨i, Nat.lt_succ_self i, hp⟩

theorem not_behind_zero : ¬ Behind conns 0 p := fun ⟨_, hj, _⟩ => Nat.not_lt_zero _ hj

theorem behind_of_mem (hlen : conns.length ≤ i) (hp : p ∈ conns) : Behind conns i p := by
  obtain ⟨j, hj, hjp⟩ := List.getElem_of_mem hp
  exact ⟨j, hj.trans_le hlen, List.getElem?_eq_some_iff.mpr ⟨hj, hjp⟩⟩

/-- The connection that a loop looks at is in the heap. -/
theorem found_conn (hw : after actions = w) (hp : p ∈ w.bus.conns) :
    ∃ c, w.bus.heap[p]? = some c := by
  subst hw
  exact ⟨_, List.getElem?_eq_getElem ((once_run actions).lt_heap p hp)⟩

/-- No queue is as long as the bound that the second loop of a route starts from. -/
theorem count_lt_max (hw : after actions = w) (hc : w.bus.heap[p]? = some c) :
    c.queue.count < uint32Max := by
  subst hw
  have hsound := (run_refines actions).sound (by decide)
  rw [← Function.comp_def, ← List.map_map, ← events] at hsound
  have hle := (exact_of_sound hsound (once_run actions)).count_le p c hc
  exact hle.trans_lt (by decide)

end Places

section Progress

/-- What the second loop of a route has found before place `i`. -/
def Sought (actions : List Action) (k : Nat) (m : Message) (conns : List Nat) (i minQ : Nat) :
    Option Nat → Prop
  | some p => p ∈ conns
  | none => minQ = uint32Max ∧ ∀ p, Behind conns i p → Unsubscribed actions k m p

/-- What the task has done for the connections before the place where it stands. -/
def Covered (actions : List Action) (k : Nat) (conns : List Nat) : Phase → Prop
  | .free => True
  | .publishing m i _ | .pushing m i _ => ∀ p, Behind conns i p → Settled actions k m p
  | .matching m i _ => (∀ p, Behind conns i p → Settled actions k m p) ∧
      ∀ p, conns[i]? = some p →
        During actions k (.publish m) p fun c => addressed m c = false
  | .addressing m i => ∀ p, Behind conns i p → Unaddressed actions k m p
  | .choosing m i minQ best | .weighing m i minQ best =>
    (∀ p ∈ conns, Unaddressed actions k m p) ∧ Sought actions k m conns i minQ best
  | .routing _ p => p ∈ conns

theorem Sought.mono {minQ : Nat} {best : Option Nat} (h : Sought actions k m conns i minQ best)
    (a : Action) : Sought (actions ++ [a]) k m conns i minQ best := by
  cases best with
  | some p => exact h
  | none => exact ⟨h.1, fun p hp => (h.2 p hp).mono a⟩

theorem Covered.mono {phase : Phase} (h : Covered actions k conns phase) (a : Action) :
    Covered (actions ++ [a]) k conns phase := by
  cases phase with
  | free => trivial
  | publishing m i delivered => exact fun p hp => (h p hp).mono a
  | matching m i delivered =>
    exact ⟨fun p hp => (h.1 p hp).mono a, fun p hp => (h.2 p hp).mono a⟩
  | pushing m i delivered => exact fun p hp => (h p hp).mono a
  | addressing m i => exact fun p hp => During.mono (h p hp) a
  | choosing m i minQ best => exact ⟨fun p hp => During.mono (h.1 p hp) a, h.2.mono a⟩
  | weighing m i minQ best => exact ⟨fun p hp => During.mono (h.1 p hp) a, h.2.mono a⟩
  | routing m p => exact h

/-- What holds before a place and at it holds before the next one. -/
theorem forall_behind_succ {P : Nat → Prop} (h : ∀ p, Behind conns i p → P p)
    (hi : ∀ p, conns[i]? = some p → P p) : ∀ p, Behind conns (i + 1) p → P p := by
  intro p hp
  exact (behind_succ.mp hp).elim (h p) (hi p)

/-- The connection at the place where a loop stands, and at no other place of the table. -/
theorem at_place {P : Nat → Prop} {p : Nat} (hp : conns[i]? = some p) (hP : P p) :
    ∀ q, conns[i]? = some q → P q := by
  intro q hq
  obtain rfl : p = q := Option.some.inj (hp.symm.trans hq)
  exact hP

/-- A loop that is not at its end stands at a connection of the heap. -/
theorem exists_connAt (hw : after actions = w) (hi : ¬ w.bus.conns.length ≤ i) :
    ∃ p c, w.bus.conns[i]? = some p ∧ w.bus.heap[p]? = some c ∧ w.connAt i = some c := by
  have hp := List.getElem?_eq_getElem (Nat.not_le.mp hi)
  obtain ⟨c, hc⟩ := found_conn hw (List.mem_of_getElem? hp)
  exact ⟨_, c, hp, hc, connAt_eq_some.mpr ⟨_, hp, hc⟩⟩

theorem publishing_covered {delivered : Nat} (hw : after actions = w)
    (hphase : w.phase = .publishing m i delivered) (hi : ¬ w.bus.conns.length ≤ i)
    (h : ∀ p, Behind w.bus.conns i p → Settled actions w.begun m p) :
    Covered actions w.begun w.bus.conns
      (match w.connAt i with
      | none => .publishing m (i + 1) delivered
      | some c =>
        if !c.active then .publishing m (i + 1) delivered
        else if addressed m c then .pushing m i delivered
        else if broadcast m then .matching m i delivered
        else .publishing m (i + 1) delivered) := by
  have hcall : w.phase.call = some (.publish m) := by rw [hphase, Phase.call]
  obtain ⟨p, c, hp, hc, hconn⟩ := exists_connAt hw hi
  rw [hconn]
  by_cases hactive : c.active = true
  · by_cases haddr : addressed m c = true
    · simp only [hactive, haddr, Bool.not_true, Bool.false_eq_true, if_false, if_true]
      exact h
    · have hother : During actions w.begun (.publish m) p fun c => addressed m c = false :=
        .now hw hcall hc (Bool.eq_false_iff.mpr haddr)
      by_cases hbroad : broadcast m = true
      · simp only [hactive, haddr, hbroad, Bool.not_true, Bool.false_eq_true, if_false, if_true]
        exact ⟨h, at_place hp hother⟩
      · simp only [hactive, haddr, hbroad, Bool.not_true, Bool.false_eq_true, if_false]
        exact forall_behind_succ h
          (at_place hp (Or.inr (Or.inr ⟨hother, Or.inl (Bool.eq_false_iff.mpr hbroad)⟩)))
  · simp only [hactive, Bool.not_false, if_true]
    exact forall_behind_succ h
      (at_place hp (Or.inr (Or.inl (.now hw hcall hc (Bool.eq_false_iff.mpr hactive)))))

theorem matching_covered {delivered : Nat} (hw : after actions = w)
    (hphase : w.phase = .matching m i delivered)
    (h : Covered actions w.begun w.bus.conns (.matching m i delivered)) :
    Covered actions w.begun w.bus.conns
      (match w.connAt i with
      | none => .publishing m (i + 1) delivered
      | some c =>
        if wantsTopic c m.topic.bytes then .pushing m i delivered
        else .publishing m (i + 1) delivered) := by
  have hcall : w.phase.call = some (.publish m) := by rw [hphase, Phase.call]
  by_cases hi : w.bus.conns.length ≤ i
  · have hnone : w.connAt i = none := by
      rw [World.connAt, List.getElem?_eq_none hi, Option.bind_none]
    rw [hnone]
    refine forall_behind_succ h.1 fun p hp => ?_
    rw [List.getElem?_eq_none hi] at hp
    cases hp
  · obtain ⟨p, c, hp, hc, hconn⟩ := exists_connAt hw hi
    rw [hconn]
    by_cases hwants : wantsTopic c m.topic.bytes = true
    · simp only [hwants, if_true]
      exact h.1
    · simp only [hwants, Bool.false_eq_true, if_false]
      have hnot : Unmatched actions w.begun m p :=
        Or.inr ⟨h.2 p hp, Or.inr (.now hw hcall hc (Bool.eq_false_iff.mpr hwants))⟩
      exact forall_behind_succ h.1 (at_place hp (Or.inr hnot))

theorem addressing_covered (hw : after actions = w) (hphase : w.phase = .addressing m i)
    (hp : w.bus.conns[i]? = some p)
    (h : ∀ p, Behind w.bus.conns i p → Unaddressed actions w.begun m p) :
    Covered actions w.begun w.bus.conns
      (match w.bus.heap[p]? with
      | none => .addressing m (i + 1)
      | some c => if c.active && addressed m c then .routing m p else .addressing m (i + 1)) := by
  have hcall : w.phase.call = some (.route m) := by rw [hphase, Phase.call]
  obtain ⟨c, hc⟩ := found_conn hw (List.mem_of_getElem? hp)
  rw [hc]
  by_cases hfits : (c.active && addressed m c) = true
  · simp only [hfits, if_true]
    exact List.mem_of_getElem? hp
  · simp only [hfits, Bool.false_eq_true, if_false]
    exact forall_behind_succ h
      (at_place hp (.now hw hcall hc (Bool.eq_false_iff.mpr hfits)))

/-- A connection that the second loop of a route passes over. -/
theorem Sought.next {minQ : Nat} {best : Option Nat} (h : Sought actions k m conns i minQ best)
    (hi : ∀ p, conns[i]? = some p → best = none → Unsubscribed actions k m p) :
    Sought actions k m conns (i + 1) minQ best := by
  cases best with
  | some p => exact h
  | none => exact ⟨h.1, forall_behind_succ h.2 fun p hp => hi p hp rfl⟩

theorem choosing_covered {minQ : Nat} {best : Option Nat} (hw : after actions = w)
    (hphase : w.phase = .choosing m i minQ best) (hi : ¬ w.bus.conns.length ≤ i)
    (h : Covered actions w.begun w.bus.conns (.choosing m i minQ best)) :
    Covered actions w.begun w.bus.conns
      (match w.connAt i with
      | none => .choosing m (i + 1) minQ best
      | some c =>
        if c.active then .weighing m i minQ best else .choosing m (i + 1) minQ best) := by
  have hcall : w.phase.call = some (.route m) := by rw [hphase, Phase.call]
  obtain ⟨p, c, hp, hc, hconn⟩ := exists_connAt hw hi
  rw [hconn]
  by_cases hactive : c.active = true
  · simp only [hactive, if_true]
    exact h
  · simp only [hactive, Bool.false_eq_true, if_false]
    have hnot : Unsubscribed actions w.begun m p :=
      Or.inl (.now hw hcall hc (Bool.eq_false_iff.mpr hactive))
    exact ⟨h.1, h.2.next fun q hq _ => at_place hp hnot q hq⟩

theorem weighing_covered {minQ : Nat} {best : Option Nat} (hw : after actions = w)
    (hphase : w.phase = .weighing m i minQ best) (hp : w.bus.conns[i]? = some p)
    (h : Covered actions w.begun w.bus.conns (.weighing m i minQ best)) :
    Covered actions w.begun w.bus.conns
      (match w.bus.heap[p]? with
      | none => .choosing m (i + 1) minQ best
      | some c =>
        if wantsTopic c m.topic.bytes && decide (c.queue.count < minQ) then
          .choosing m (i + 1) c.queue.count (some p)
        else .choosing m (i + 1) minQ best) := by
  have hcall : w.phase.call = some (.route m) := by rw [hphase, Phase.call]
  have hmem := List.mem_of_getElem? hp
  obtain ⟨c, hc⟩ := found_conn hw hmem
  rw [hc]
  by_cases hbetter : (wantsTopic c m.topic.bytes && decide (c.queue.count < minQ)) = true
  · simp only [hbetter, if_true]
    exact ⟨h.1, hmem⟩
  · simp only [hbetter, Bool.false_eq_true, if_false]
    refine ⟨h.1, h.2.next fun q hq hbest => ?_⟩
    -- with nobody found yet the queue cannot be too long
    subst hbest
    have hshort : decide (c.queue.count < minQ) = true := by
      rw [h.2.1]
      exact decide_eq_true (count_lt_max hw hc)
    rw [hshort, Bool.and_true] at hbetter
    have hnot : Unsubscribed actions w.begun m p :=
      Or.inr (.now hw hcall hc (Bool.eq_false_iff.mpr hbetter))
    exact at_place hp hnot q hq

/-- A push of a connection in the table is taken or dropped. -/
theorem push_tries (hw : after actions = w) (hp : p ∈ w.bus.conns) (m : Message)
    (next : Bool → Phase) : (w.push p m next).1 = .accepted w.begun p m ∨
      (w.push p m next).1 = .dropped w.begun p m := by
  obtain ⟨c, hc⟩ := found_conn hw hp
  unfold World.push
  rw [hc]
  dsimp only
  split
  · exact Or.inl rfl
  · exact Or.inr rfl

theorem tried_of_push (hw : after actions = w) (hp : p ∈ w.bus.conns) {next : Bool → Phase}
    (hstep : w.advance = w.push p m next) : Tried (actions ++ [.advance]) w.begun m p := by
  have hevents : events (actions ++ [.advance]) = events actions ++ [(w.push p m next).1] := by
    rw [events_snoc, hw, World.step, hstep]
  unfold Tried
  rw [hevents]
  rcases push_tries hw hp m next with he | he
  · rw [he]
    exact Or.inl (List.mem_append_right _ (List.mem_singleton_self _))
  · rw [he]
    exact Or.inr (List.mem_append_right _ (List.mem_singleton_self _))

theorem advance_of_pushing {delivered : Nat} (hphase : w.phase = .pushing m i delivered)
    (hp : w.bus.conns[i]? = some p) : w.advance =
      w.push p m fun ok => .publishing m (i + 1) (if ok then delivered + 1 else delivered) := by
  unfold World.advance
  rw [hphase]
  dsimp only
  rw [hp]

theorem advance_of_routing (hphase : w.phase = .routing m p) :
    w.advance = w.push p m fun _ => .free := by
  unfold World.advance
  rw [hphase]

end Progress

section Steps

theorem covered_goto {phase : Phase} (h : Covered actions w.begun w.bus.conns phase) :
    Covered (actions ++ [a]) (w.goto phase).begun (w.goto phase).bus.conns (w.goto phase).phase :=
  h.mono a

theorem pushing_covered {delivered : Nat} (hw : after actions = w)
    (hphase : w.phase = .pushing m i delivered) (hp : w.bus.conns[i]? = some p)
    (h : ∀ p, Behind w.bus.conns i p → Settled actions w.begun m p) :
    ∀ p, Behind w.bus.conns (i + 1) p → Settled (actions ++ [.advance]) w.begun m p := by
  have htried : Tried (actions ++ [.advance]) w.begun m p :=
    tried_of_push hw (List.mem_of_getElem? hp) (advance_of_pushing hphase hp)
  exact forall_behind_succ (fun p hp => (h p hp).mono _) (at_place hp (Or.inl htried))

theorem advance_covered (hw : after actions = w)
    (h : Covered actions w.begun w.bus.conns w.phase) :
    Covered (actions ++ [.advance]) w.advance.2.begun w.advance.2.bus.conns w.advance.2.phase := by
  unfold World.advance
  split
  · next hphase =>
    rw [hphase]
    trivial
  · next m i delivered hphase =>
    rw [hphase] at h
    split
    · trivial
    · next hi => exact covered_goto (publishing_covered hw hphase hi h)
  · next m i delivered hphase =>
    rw [hphase] at h
    exact covered_goto (matching_covered hw hphase h)
  · next m i delivered hphase =>
    rw [hphase] at h
    split
    · next hnone =>
      have hnext : Covered actions w.begun w.bus.conns (.publishing m (i + 1) delivered) := by
        refine forall_behind_succ h fun p hp => ?_
        rw [hnone] at hp
        cases hp
      exact covered_goto hnext
    · next p hp =>
      obtain ⟨⟨ok, hnext⟩, hconns, hbegun, -⟩ := push_accepts w p m fun ok =>
        .publishing m (i + 1) (if ok then delivered + 1 else delivered)
      rw [hnext, hconns, hbegun]
      exact pushing_covered hw hphase hp h
  · next m i hphase =>
    rw [hphase] at h
    split
    · next hnone =>
      refine covered_goto ⟨fun p hp => h p ?_, rfl, fun p hp => absurd hp not_behind_zero⟩
      exact behind_of_mem (List.getElem?_eq_none_iff.mp hnone) hp
    · next p hp => exact covered_goto (addressing_covered hw hphase hp h)
  · next m i minQ best hphase =>
    rw [hphase] at h
    split
    · split
      · trivial
      · next p => exact covered_goto h.2
    · next hi => exact covered_goto (choosing_covered hw hphase hi h)
  · next m i minQ best hphase =>
    rw [hphase] at h
    split
    · next hnone =>
      refine covered_goto ⟨h.1, h.2.next fun p hp => ?_⟩
      rw [hnone] at hp
      cases hp
    · next p hp => exact covered_goto (weighing_covered hw hphase hp h)
  · next m p hphase =>
    obtain ⟨⟨ok, hnext⟩, -⟩ := push_accepts w p m fun _ => .free
    rw [hnext]
    trivial

theorem covered_after (actions : List Action) :
    Covered actions (after actions).begun (after actions).bus.conns (after actions).phase := by
  induction actions using List.reverseRecOn with
  | nil => trivial
  | append_singleton actions a ih =>
    rw [after_snoc]
    by_cases ha : a = .advance
    · subst ha
      exact advance_covered rfl ih
    · rcases step_others (after actions) ha with ⟨hphase, hbegun, hconns⟩ | ⟨-, hphase⟩ |
        ⟨m, -, hphase⟩ | ⟨m, -, hphase⟩
      · rw [hphase, hbegun, hconns]
        exact ih.mono a
      · rw [hphase]
        trivial
      · rw [hphase]
        exact fun p hp => absurd hp not_behind_zero
      · rw [hphase]
        exact fun p hp => absurd hp not_behind_zero

end Steps

/-- What a call leaves behind: a publish every connection of the table served, unless that did
not fit at some moment, and a route one that is served, unless none fitted all the time. -/
def Completed (actions : List Action) (k : Nat) (conns : List Nat) : Action → Prop
  | .publish m => ∀ p ∈ conns, Settled actions k m p
  | .route m => (∃ p, Tried actions k m p) ∨
      ∀ p ∈ conns, Unaddressed actions k m p ∧ Unsubscribed actions k m p
  | _ => True

/-- A call ends where a loop has come to its end, or with the push of a route. -/
theorem phase_of_ended (hend : w.advance.2.phase = .free) :
    w.phase = .free ∨
      (∃ m i delivered, w.phase = .publishing m i delivered ∧ w.bus.conns.length ≤ i) ∨
      (∃ m i minQ, w.phase = .choosing m i minQ none ∧ w.bus.conns.length ≤ i) ∨
      ∃ m p, w.phase = .routing m p := by
  unfold World.advance at hend
  cases hphase : w.phase with
  | free => exact Or.inl rfl
  | publishing m i delivered =>
    rw [hphase] at hend
    dsimp only [World.goto] at hend
    split at hend
    · next hi => exact Or.inr (Or.inl ⟨m, i, delivered, rfl, hi⟩)
    · dsimp only at hend
      split at hend
      · cases hend
      · split at hend
        · cases hend
        · split at hend
          · cases hend
          · split at hend
            · cases hend
            · cases hend
  | matching m i delivered =>
    rw [hphase] at hend
    dsimp only [World.goto] at hend
    split at hend
    · cases hend
    · split at hend
      · cases hend
      · cases hend
  | pushing m i delivered =>
    rw [hphase] at hend
    dsimp only at hend
    split at hend
    · cases hend
    · next p hp =>
      obtain ⟨⟨ok, hnext⟩, -⟩ := push_accepts w p m fun ok =>
        .publishing m (i + 1) (if ok then delivered + 1 else delivered)
      rw [hnext] at hend
      cases hend
  | addressing m i =>
    rw [hphase] at hend
    dsimp only [World.goto] at hend
    split at hend
    · cases hend
    · dsimp only at hend
      split at hend
      · cases hend
      · split at hend
        · cases hend
        · cases hend
  | choosing m i minQ best =>
    rw [hphase] at hend
    dsimp only [World.goto] at hend
    split at hend
    · next hi =>
      cases best with
      | some p => cases hend
      | none => exact Or.inr (Or.inr (Or.inl ⟨m, i, minQ, rfl, hi⟩))
    · dsimp only at hend
      split at hend
      · cases hend
      · split at hend
        · cases hend
        · cases hend
  | weighing m i minQ best =>
    rw [hphase] at hend
    dsimp only [World.goto] at hend
    split at hend
    · cases hend
    · dsimp only at hend
      split at hend
      · cases hend
      · split at hend
        · cases hend
        · cases hend
  | routing m p => exact Or.inr (Or.inr (Or.inr ⟨m, p, rfl⟩))

theorem advance_completed (hw : after actions = w)
    (h : Covered actions w.begun w.bus.conns w.phase) (hcall : w.phase.call = some call)
    (hend : w.advance.2.phase = .free) :
    Completed (actions ++ [.advance]) w.begun w.bus.conns call := by
  rcases phase_of_ended hend with hphase | ⟨m, i, delivered, hphase, hi⟩ |
    ⟨m, i, minQ, hphase, hi⟩ | ⟨m, p, hphase⟩
  · rw [hphase] at hcall
    cases hcall
  · rw [hphase] at h hcall
    cases hcall
    exact fun p hp => (h p (behind_of_mem hi hp)).mono _
  · rw [hphase] at h hcall
    cases hcall
    obtain ⟨haddr, hsought⟩ := h
    refine Or.inr fun p hp => ⟨During.mono (haddr p hp) _, ?_⟩
    exact (hsought.2 p (behind_of_mem hi hp)).mono _
  · rw [hphase] at h hcall
    cases hcall
    exact Or.inl ⟨p, tried_of_push hw h (advance_of_routing hphase)⟩

/-- However the clients are interleaved, no call passes over a connection that it had to serve.
What a queue did not take because it was full counts as dropped. -/
theorem call_completed (actions : List Action) (a call : Action)
    (hcall : (after actions).phase.call = some call)
    (hend : (after (actions ++ [a])).phase = .free) :
    Completed (actions ++ [a]) (after actions).begun (after actions).bus.conns call := by
  rw [after_snoc] at hend
  by_cases ha : a = .advance
  · subst ha
    exact advance_completed rfl (covered_after actions) hcall hend
  · rcases step_others (after actions) ha with ⟨hphase, -⟩ | ⟨hfree, -⟩ | ⟨m, -, hphase⟩ |
      ⟨m, -, hphase⟩
    · rw [hphase] at hend
      rw [hend] at hcall
      cases hcall
    · rw [hfree] at hcall
      cases hcall
    · rw [hphase] at hend
      cases hend
    · rw [hphase] at hend
      cases hend

/-- Alice connects, and a message for her is put into her queue. -/
def aliceServed : List Action :=
  [.connect (CString.ascii "alice"), .publish toAlice, .advance, .advance]

theorem call_completed_alice : (after aliceServed).phase.call = some (.publish toAlice) ∧
    (after (aliceServed ++ [.advance])).phase = .free ∧
    Completed (aliceServed ++ [.advance]) (after aliceServed).begun (after aliceServed).bus.conns
      (.publish toAlice) :=
  ⟨rfl, rfl, call_completed aliceServed .advance (.publish toAlice) rfl rfl⟩

end HyperKitty.Bus
