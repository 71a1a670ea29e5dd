import HyperKitty.Bus.Interleaving
import HyperKitty.Proofs.Addressing
import HyperKitty.Proofs.Delivery

namespace HyperKitty.Bus

variable {w w' w'' : World} {b : Bus} {m : Message} {c : Conn} {p i k n minQ : Nat}
variable {best : Option Nat} {ps : List Nat}

/-- The task that holds the lock gets from one state to the other if no one else steps. -/
def Reaches (w w' : World) : Prop :=
  ∃ n, Machine.run World.step w (List.replicate n .advance) = w'

theorem Reaches.refl (w : World) : Reaches w w := ⟨0, rfl⟩

theorem Reaches.head (h : w.advance.2 = w') (hr : Reaches w' w'') : Reaches w w'' := by
  obtain ⟨n, rfl⟩ := hr
  subst h
  exact ⟨n + 1, rfl⟩

theorem Reaches.trans (h : Reaches w w') (hr : Reaches w' w'') : Reaches w w'' := by
  obtain ⟨n, rfl⟩ := h
  obtain ⟨n', rfl⟩ := hr
  refine ⟨n + n', ?_⟩
  rw [List.replicate_add, Machine.run, List.foldl_append]
  rfl

theorem drop_cons (h : b.conns.drop i = p :: ps) :
    b.conns[i]? = some p ∧ b.conns.drop (i + 1) = ps ∧ i < b.conns.length := by
  have hlt : i < b.conns.length := by
    rw [← List.drop_eq_nil_iff.not.trans Nat.not_le, h]
    simp
  rw [List.drop_eq_getElem_cons hlt, List.cons.injEq] at h
  exact ⟨by rw [List.getElem?_eq_getElem hlt, h.1], h.2, hlt⟩

section Publish

theorem advance_pushing (hp : b.conns[i]? = some p) (hc : b.heap[p]? = some c) :
    (World.advance ⟨b, k, .pushing m i n⟩).2 =
      ⟨(deliver b p m).2, k, .publishing m (i + 1) (if (deliver b p m).1 then n + 1 else n)⟩ := by
  simp only [World.advance, hp, World.push, hc]
  split
  · next b' hb' => simp [hb']
  · next b' hb' => simp [hb']

/-- The loop gets to the push exactly where the message goes to the connection. -/
theorem decide_reaches (hp : b.conns[i]? = some p) (hlt : i < b.conns.length)
    (hc : b.heap[p]? = some c) : Reaches ⟨b, k, .publishing m i n⟩
      ⟨b, k, if c.active && matchesConn m c then .pushing m i n else .publishing m (i + 1) n⟩ := by
  have hat : ∀ phase, World.connAt ⟨b, k, phase⟩ i = some c := by
    intro phase
    simp [World.connAt, hp, hc]
  have hstep : (World.advance ⟨b, k, .publishing m i n⟩).2 = ⟨b, k,
      if !c.active then .publishing m (i + 1) n
      else if addressed m c then .pushing m i n
      else if broadcast m then .matching m i n
      else .publishing m (i + 1) n⟩ := by
    simp only [World.advance, if_neg (Nat.not_le.mpr hlt), hat, World.goto]
  have hmatching : (World.advance ⟨b, k, .matching m i n⟩).2 = ⟨b, k,
      if wantsTopic c m.topic.bytes then .pushing m i n else .publishing m (i + 1) n⟩ := by
    simp only [World.advance, hat, World.goto]
  apply Reaches.head hstep
  unfold matchesConn
  cases c.active with
  | false => exact .refl _
  | true =>
    cases addressed m c with
    | true => exact .refl _
    | false =>
      cases broadcast m with
      | true => exact .head hmatching (.refl _)
      | false => exact .refl _

theorem publishing_reaches (ps : List Nat) (b : Bus) (i n : Nat) (h : b.conns.drop i = ps) :
    Reaches ⟨b, k, .publishing m i n⟩ ⟨(publishTo m ps n b).2, k, .free⟩ := by
  induction ps generalizing b i n with
  | nil =>
    have hle : b.conns.length ≤ i := List.drop_eq_nil_iff.mp h
    refine .head ?_ (.refl _)
    simp only [World.advance, if_pos hle, World.goto, publishTo]
  | cons p ps ih =>
    obtain ⟨hp, hnext, hlt⟩ := drop_cons h
    cases hc : b.heap[p]? with
    | none =>
      simp only [publishTo, hc]
      refine .head ?_ (ih b (i + 1) n hnext)
      simp [World.advance, Nat.not_le.mpr hlt, World.goto, World.connAt, hp, hc]
    | some c =>
      apply (decide_reaches hp hlt hc).trans
      simp only [publishTo, hc]
      cases hm : c.active && matchesConn m c with
      | false => exact ih b (i + 1) n hnext
      | true =>
        apply Reaches.head (advance_pushing hp hc)
        have hconns := (deliver_shape b p m).1
        rcases hd : deliver b p m with ⟨ok, b'⟩
        rw [hd] at hconns
        cases ok with
        | true => exact ih b' (i + 1) (n + 1) (by rw [hconns, hnext])
        | false => exact ih b' (i + 1) n (by rw [hconns, hnext])

/-- A publish that nobody interrupts does what `publish` says. -/
theorem publish_uninterrupted (b : Bus) (k : Nat) (m : Message) :
    Reaches (World.step ⟨b, k, .free⟩ (.publish m)).2 ⟨(publish b m).2, k + 1, .free⟩ :=
  publishing_reaches b.conns _ 0 0 rfl

end Publish

section Route

theorem routing_reaches (hc : b.heap[p]? = some c) :
    Reaches ⟨b, k, .routing m p⟩ ⟨(deliver b p m).2, k, .free⟩ := by
  refine .head ?_ (.refl _)
  simp only [World.advance, World.push, hc]
  split
  · next b' hb' => rw [hb']
  · next b' hb' => rw [hb']

/-- What becomes of the bus when the loops have chosen. -/
def settle (b : Bus) (m : Message) : Option Nat → Bus
  | none => b
  | some p => (deliver b p m).2

/-- A pointer that the loops have chosen is in the heap. -/
def InHeap (b : Bus) (best : Option Nat) : Prop := ∀ p ∈ best, ∃ c, b.heap[p]? = some c

theorem choosing_reaches (ps : List Nat) (i minQ : Nat) (best : Option Nat)
    (h : b.conns.drop i = ps) (hbest : InHeap b best) :
    Reaches ⟨b, k, .choosing m i minQ best⟩
      ⟨settle b m (leastQueue b m.topic.bytes ps minQ best), k, .free⟩ := by
  induction ps generalizing i minQ best with
  | nil =>
    have hle : b.conns.length ≤ i := List.drop_eq_nil_iff.mp h
    cases best with
    | none =>
      refine .head ?_ (.refl _)
      simp only [World.advance, if_pos hle, World.goto, leastQueue, settle]
    | some p =>
      obtain ⟨c, hc⟩ := hbest p rfl
      refine .head ?_ (routing_reaches hc)
      simp only [World.advance, if_pos hle, World.goto]
  | cons p ps ih =>
    obtain ⟨hp, hnext, hlt⟩ := drop_cons h
    cases hc : b.heap[p]? with
    | none =>
      simp only [leastQueue, hc]
      refine .head ?_ (ih (i + 1) minQ best hnext hbest)
      simp [World.advance, Nat.not_le.mpr hlt, World.goto, World.connAt, hp, hc]
    | some c =>
      have hstep : (World.advance ⟨b, k, .choosing m i minQ best⟩).2 = ⟨b, k,
          if c.active then .weighing m i minQ best else .choosing m (i + 1) minQ best⟩ := by
        simp [World.advance, Nat.not_le.mpr hlt, World.goto, World.connAt, hp, hc]
      apply Reaches.head hstep
      simp only [leastQueue, hc]
      cases c.active with
      | false => exact ih (i + 1) minQ best hnext hbest
      | true =>
        have hweigh : (World.advance ⟨b, k, .weighing m i minQ best⟩).2 = ⟨b, k,
            if wantsTopic c m.topic.bytes && decide (c.queue.count < minQ) then
              .choosing m (i + 1) c.queue.count (some p)
            else .choosing m (i + 1) minQ best⟩ := by
          simp only [World.advance, World.goto, hp, hc]
        apply Reaches.head hweigh
        rw [Bool.true_and]
        cases wantsTopic c m.topic.bytes && decide (c.queue.count < minQ) with
        | false => exact ih (i + 1) minQ best hnext hbest
        | true =>
          apply ih (i + 1) c.queue.count (some p) hnext
          intro q hq
          obtain rfl := Option.mem_some_iff.mp hq
          exact ⟨c, hc⟩

/-- The connection at the pointer is active, and the one that the message is addressed to. -/
def isDirect (b : Bus) (m : Message) (p : Nat) : Bool :=
  match b.heap[p]? with
  | none => false
  | some c => c.active && addressed m c

theorem addressing_reaches (ps : List Nat) (i : Nat) (h : b.conns.drop i = ps) :
    Reaches ⟨b, k, .addressing m i⟩
      ⟨settle b m ((ps.find? (isDirect b m)).or
        (leastQueue b m.topic.bytes b.conns uint32Max none)), k, .free⟩ := by
  induction ps generalizing i with
  | nil =>
    have hnone : b.conns[i]? = none := List.getElem?_eq_none (List.drop_eq_nil_iff.mp h)
    refine .head ?_ (choosing_reaches b.conns 0 uint32Max none rfl nofun)
    simp only [World.advance, hnone, World.goto]
  | cons p ps ih =>
    obtain ⟨hp, hnext, -⟩ := drop_cons h
    rw [List.find?_cons]
    cases hc : b.heap[p]? with
    | none =>
      simp only [isDirect, hc]
      refine .head ?_ (ih (i + 1) hnext)
      simp only [World.advance, hp, hc, World.goto]
    | some c =>
      have hstep : (World.advance ⟨b, k, .addressing m i⟩).2 = ⟨b, k,
          if c.active && addressed m c then .routing m p else .addressing m (i + 1)⟩ := by
        simp only [World.advance, hp, hc, World.goto]
      apply Reaches.head hstep
      simp only [isDirect, hc]
      cases c.active && addressed m c with
      | false => exact ih (i + 1) hnext
      | true => exact routing_reaches hc

theorem route_settle : (route b m).2 = settle b m
    ((directConn b m).or (leastQueue b m.topic.bytes b.conns uint32Max none)) := by
  cases hchosen : (directConn b m).or (leastQueue b m.topic.bytes b.conns uint32Max none) with
  | none => rw [route, hchosen, settle]
  | some p => rw [route_of_some hchosen, settle]

/-- A route that nobody interrupts does what `route` says. -/
theorem route_uninterrupted (b : Bus) (k : Nat) (m : Message) :
    Reaches (World.step ⟨b, k, .free⟩ (.route m)).2 ⟨(route b m).2, k + 1, .free⟩ := by
  rw [route_settle]
  exact addressing_reaches b.conns 0 rfl

end Route

end HyperKitty.Bus
