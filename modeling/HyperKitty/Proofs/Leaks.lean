import HyperKitty.Bus.Destroy
import HyperKitty.Proofs.Entitlement

namespace HyperKitty.Bus

open Exec SwapRemove

variable {w : World} {actions : List Action} {a b : Action} {p q : Nat} {id : List UInt8}

section Destroy

variable {heap : List Conn} {freed ps : List Nat}

theorem loadConn_ok (hp : p < heap.length) (hfreed : p ∉ freed) :
    ∃ c, loadConn heap freed p = .ok c :=
  ⟨heap[p], by rw [loadConn, if_neg hfreed, List.getElem?_eq_getElem hp]⟩

theorem stopAll (h : ∀ p ∈ ps, p < heap.length) :
    ∃ heap', ps.foldlM stopConn heap = .ok heap' ∧ heap'.length = heap.length := by
  induction ps generalizing heap with
  | nil => exact ⟨heap, rfl, rfl⟩
  | cons p ps ih =>
    obtain ⟨hp, hps⟩ := List.forall_mem_cons.mp h
    obtain ⟨c, hc⟩ := loadConn_ok hp List.not_mem_nil
    have hstop : stopConn heap p = .ok (heap.set p { c with active := false }) := by
      rw [stopConn, hc, ok_bind]
      rfl
    have hlen : (heap.set p { c with active := false }).length = heap.length := List.length_set
    obtain ⟨heap', hrest, hlen'⟩ := ih fun q hq => hlen.symm ▸ hps q hq
    exact ⟨heap', by rw [List.foldlM_cons, hstop, ok_bind, hrest], hlen'.trans hlen⟩

/-- No pointer of the list is freed twice. -/
theorem freeAll (h : ∀ p ∈ ps, p < heap.length) (hnodup : (freed ++ ps).Nodup) :
    ps.foldlM (freeConn heap) freed = .ok (freed ++ ps) := by
  induction ps generalizing freed with
  | nil => rw [List.append_nil]; rfl
  | cons p ps ih =>
    obtain ⟨hp, hps⟩ := List.forall_mem_cons.mp h
    have hfresh : p ∉ freed := fun hmem =>
      List.disjoint_of_nodup_append hnodup hmem List.mem_cons_self
    obtain ⟨c, hc⟩ := loadConn_ok hp hfresh
    have hfree : freeConn heap freed p = .ok (freed ++ [p]) := by
      rw [freeConn, hc, ok_bind]
      rfl
    have hcut : freed ++ p :: ps = freed ++ [p] ++ ps := by simp
    rw [List.foldlM_cons, hfree, ok_bind, ih hps (hcut ▸ hnodup), hcut]

/-- A table without repetitions is freed as it stands. -/
theorem destroy_ok {bus : Bus} (hnodup : bus.conns.Nodup)
    (h : ∀ p ∈ bus.conns, p < bus.heap.length) :
    ∃ bus', destroy bus = .ok (bus.conns, bus') := by
  obtain ⟨heap, hstop, hlen⟩ := stopAll h
  have hfree : bus.conns.foldlM (freeConn heap) [] = .ok bus.conns :=
    freeAll (fun p hp => hlen.symm ▸ h p hp) (by rwa [List.nil_append])
  exact ⟨_, by rw [destroy, hstop, ok_bind, hfree, ok_bind]; rfl⟩

end Destroy

section Table

theorem mem_removeConn {bus : Bus} (hnodup : bus.conns.Nodup) :
    q ∈ (removeConn bus p).conns ↔ q ∈ bus.conns ∧ q ≠ p := by
  unfold removeConn
  split
  · next hnone =>
    have hp : p ∉ bus.conns := fun hmem => by
      have hfound := List.findIdx?_eq_none_iff.mp hnone p hmem
      simp at hfound
    exact ⟨fun hq => ⟨hq, fun heq => hp (heq ▸ hq)⟩, fun hq => hq.1⟩
  · next i hi =>
    obtain ⟨front, x, back, heq, rfl, hx⟩ := findIdx?_some hi
    obtain rfl : x = p := beq_iff_eq.mp hx
    have hperm : (swapRemove bus.conns front.length).Perm (front ++ back) := heq ▸ swapRemove_perm
    rw [heq, List.nodup_middle, List.nodup_cons] at hnodup
    rw [hperm.mem_iff, heq, List.mem_append, List.mem_append, List.mem_cons]
    constructor
    · intro hq
      exact ⟨hq.imp_right Or.inr, fun h => hnodup.1 (h ▸ List.mem_append.mpr hq)⟩
    · rintro ⟨hq | rfl | hq, hne⟩
      · exact Or.inl hq
      · exact absurd rfl hne
      · exact Or.inr hq

theorem advance_table (w : World) : w.advance.2.bus.conns = w.bus.conns ∧
    w.advance.2.bus.heap.length = w.bus.heap.length := by
  have hpush : ∀ (p : Nat) (m : Message) (next : Bool → Phase),
      (w.push p m next).2.bus.conns = w.bus.conns ∧
        (w.push p m next).2.bus.heap.length = w.bus.heap.length := fun p m next =>
    ⟨(push_shape w p m next).2.1, (push_shape w p m next).2.2.1⟩
  unfold World.advance
  split
  · exact ⟨rfl, rfl⟩
  · split
    · exact ⟨rfl, rfl⟩
    · exact ⟨rfl, rfl⟩
  · exact ⟨rfl, rfl⟩
  · split
    · exact ⟨rfl, rfl⟩
    · exact hpush _ _ _
  · split
    · exact ⟨rfl, rfl⟩
    · exact ⟨rfl, rfl⟩
  · split
    · split
      · exact ⟨rfl, rfl⟩
      · exact ⟨rfl, rfl⟩
    · exact ⟨rfl, rfl⟩
  · split
    · exact ⟨rfl, rfl⟩
    · exact ⟨rfl, rfl⟩
  · exact hpush _ _ _

/-- All that a step can do to the table and to the number of connections made. -/
theorem step_table (w : World) (a : Action) :
    (∃ id, a = .connect id ∧ (w.step a).2.bus.conns = w.bus.conns ++ [w.bus.heap.length] ∧
      (w.step a).2.bus.heap.length = w.bus.heap.length + 1) ∨
    (∃ p, a = .removeConn p ∧ w.phase = .free ∧
      (w.step a).2.bus.conns = (removeConn w.bus p).conns ∧
      (w.step a).2.bus.heap.length = w.bus.heap.length) ∨
    ((∀ p, a = .removeConn p → w.phase ≠ .free) ∧ (w.step a).2.bus.conns = w.bus.conns ∧
      (w.step a).2.bus.heap.length = w.bus.heap.length) := by
  cases a with
  | connect id =>
    rw [World.step]
    split
    · unfold connect
      split
      · exact Or.inr (Or.inr ⟨by simp, rfl, rfl⟩)
      · exact Or.inl ⟨id, rfl, rfl, List.length_append⟩
    · exact Or.inr (Or.inr ⟨by simp, rfl, rfl⟩)
  | removeConn p =>
    rw [World.step]
    split
    · next hphase =>
      refine Or.inr (Or.inl ⟨p, rfl, hphase, rfl, ?_⟩)
      unfold removeConn
      split
      · rfl
      · rfl
    · next hphase => exact Or.inr (Or.inr ⟨fun _ _ => hphase, rfl, rfl⟩)
  | deactivate p => exact Or.inr (Or.inr ⟨by simp, rfl, List.length_modify ..⟩)
  | subscribe p topic => exact Or.inr (Or.inr ⟨by simp, rfl, List.length_modify ..⟩)
  | unsubscribe p topic => exact Or.inr (Or.inr ⟨by simp, rfl, List.length_modify ..⟩)
  | recv p =>
    rcases recv_cases w.bus p with ⟨rc, hrecv⟩ | ⟨c, m, queue, -, -, hrecv⟩
    · rw [World.step, hrecv]
      exact Or.inr (Or.inr ⟨by simp, rfl, rfl⟩)
    · rw [World.step, hrecv]
      exact Or.inr (Or.inr ⟨by simp, rfl, List.length_set⟩)
  | publish m =>
    rw [World.step]
    split
    · exact Or.inr (Or.inr ⟨by simp, rfl, rfl⟩)
    · exact Or.inr (Or.inr ⟨by simp, rfl, rfl⟩)
  | route m =>
    rw [World.step]
    split
    · exact Or.inr (Or.inr ⟨by simp, rfl, rfl⟩)
    · exact Or.inr (Or.inr ⟨by simp, rfl, rfl⟩)
  | advance => exact Or.inr (Or.inr ⟨by simp, advance_table w⟩)

end Table

section Runs

/-- The pointer was handed to a disconnect, which got the lock of the bus. -/
def Disconnected (actions : List Action) (p : Nat) : Prop :=
  ∃ before, before ++ [.removeConn p] <+: actions ∧ (after before).phase = .free ∧
    p < (after before).bus.heap.length

/-- An action of a longer run is one of the run before, or the last one. -/
theorem exists_before_snoc {P : List Action → Prop} :
    (∃ before, before ++ [a] <+: actions ++ [b] ∧ P before) ↔
      (∃ before, before ++ [a] <+: actions ∧ P before) ∨ a = b ∧ P actions := by
  constructor
  · rintro ⟨before, hbefore, hP⟩
    rcases List.prefix_concat_iff.mp hbefore with he | hbefore
    · obtain ⟨rfl, hab⟩ := List.append_inj' he rfl
      exact Or.inr ⟨List.singleton_inj.mp hab, hP⟩
    · exact Or.inl ⟨before, hbefore, hP⟩
  · rintro (⟨before, hbefore, hP⟩ | ⟨rfl, hP⟩)
    · exact ⟨before, hbefore.trans (List.prefix_append _ _), hP⟩
    · exact ⟨actions, List.prefix_refl _, hP⟩

theorem disconnected_snoc : Disconnected (actions ++ [a]) p ↔ Disconnected actions p ∨
    .removeConn p = a ∧ (after actions).phase = .free ∧ p < (after actions).bus.heap.length :=
  exists_before_snoc

theorem heap_le_longer {before : List Action} (h : before <+: actions) :
    (after before).bus.heap.length ≤ (after actions).bus.heap.length := by
  obtain ⟨rest, rfl⟩ := h
  induction rest using List.reverseRecOn with
  | nil => rw [List.append_nil]
  | append_singleton rest a ih =>
    rw [← List.append_assoc, after_snoc]
    apply ih.trans
    rcases step_table (after (before ++ rest)) a with ⟨-, -, -, hheap⟩ | ⟨-, -, -, -, hheap⟩ |
      ⟨-, -, hheap⟩
    · exact hheap ▸ Nat.le_succ _
    · exact hheap.ge
    · exact hheap.ge

/-- The pointers that connects were answered with are those of the heap. -/
theorem exists_opened_iff (actions : List Action) (p : Nat) :
    (∃ id, Opened actions p id) ↔ p < (after actions).bus.heap.length := by
  constructor
  · rintro ⟨id, before, hbefore, hphase, hconnect⟩
    apply Nat.lt_of_lt_of_le ?_ (heap_le_longer hbefore)
    rw [after_snoc, World.step, hphase]
    unfold connect at hconnect ⊢
    split at hconnect
    · cases hconnect
    · next hroom =>
      cases hconnect
      simp [hroom]
  · intro hp
    obtain ⟨id, hid, -⟩ := (allRecorded_after actions p _ (List.getElem?_eq_getElem hp)).id
    exact ⟨id, hid⟩

theorem Disconnected.lt_heap (h : Disconnected actions p) :
    p < (after actions).bus.heap.length := by
  obtain ⟨before, hbefore, -, hp⟩ := h
  exact hp.trans_le (heap_le_longer ((List.prefix_append _ _).trans hbefore))

/-- The table holds what was made and not disconnected. -/
def Tabled (actions : List Action) (w : World) : Prop :=
  ∀ p, p ∈ w.bus.conns ↔ p < w.bus.heap.length ∧ ¬ Disconnected actions p

theorem Tabled.step (h : Tabled actions (after actions)) (a : Action) :
    Tabled (actions ++ [a]) ((after actions).step a).2 := by
  intro p
  rcases step_table (after actions) a with ⟨id, rfl, hconns, hheap⟩ |
    ⟨q, rfl, hphase, hconns, hheap⟩ | ⟨hother, hconns, hheap⟩
  · have hsame : Disconnected (actions ++ [.connect id]) p ↔ Disconnected actions p :=
      disconnected_snoc.trans (or_iff_left (by simp))
    rw [hconns, hheap, hsame, List.mem_append, List.mem_singleton, h p,
      Nat.lt_succ_iff_lt_or_eq, or_and_right]
    refine or_congr_right ⟨fun hp => ⟨hp, fun hd => ?_⟩, fun hp => hp.1⟩
    exact Nat.lt_irrefl _ (hp ▸ hd.lt_heap)
  · have hnodup : (after actions).bus.conns.Nodup := (once_run actions).nodup
    rw [hconns, hheap, mem_removeConn hnodup, h p, disconnected_snoc, and_assoc]
    refine and_congr_right fun hp => ?_
    simp [hphase, hp]
  · have hsame : Disconnected (actions ++ [a]) p ↔ Disconnected actions p := by
      refine disconnected_snoc.trans (or_iff_left ?_)
      rintro ⟨rfl, hphase, -⟩
      exact hother p rfl hphase
    rw [hconns, hheap, hsame, h p]

theorem tabled_after (actions : List Action) : Tabled actions (after actions) := by
  induction actions using List.reverseRecOn with
  | nil => exact fun p => by simp [after, World.start, init]
  | append_singleton actions a ih =>
    rw [after_snoc]
    exact ih.step a

end Runs

/-- However a bus was used, its end frees nothing twice. It frees what was opened and is not
disconnected: a disconnect keeps the connection from ever being freed. -/
theorem destroy_leaks (actions : List Action) :
    ∃ freed bus, destroy (after actions).bus = .ok (freed, bus) ∧ freed.Nodup ∧
      ∀ p, p ∈ freed ↔ (∃ id, Opened actions p id) ∧ ¬ Disconnected actions p := by
  have honce := once_run actions
  obtain ⟨bus, hdestroy⟩ := destroy_ok honce.nodup honce.lt_heap
  refine ⟨_, bus, hdestroy, honce.nodup, fun p => ?_⟩
  rw [exists_opened_iff]
  exact tabled_after actions p

end HyperKitty.Bus
