import HyperKitty.Bus.Connection
import HyperKitty.Lib.Machine

namespace HyperKitty.Bus

open CString SwapRemove

/-- The bytes of a topic in front of its terminating zero. -/
abbrev Topic := { t : List UInt8 // 0 ∉ t }

inductive SubOp where
  | subscribe (t : Topic)
  | unsubscribe (t : Topic)

def SubOp.topic : SubOp → Topic
  | .subscribe t | .unsubscribe t => t

def subStep (c : Conn) : SubOp → Int × Conn
  | .subscribe t => subscribe c t.1
  | .unsubscribe t => unsubscribe c t.1

/-- What a slot keeps of a topic. -/
def stored (t : Topic) : List UInt8 := t.1.take (maxTopicLen - 1)

def activeTopics (subs : List Subscription) : List (List UInt8) :=
  (subs.filter (·.active)).map (·.topic.bytes)

/-- The operation was about the topic, and was not refused. -/
def Accepted (t : Topic) (e : SubOp × Int) : Prop := e.1.topic = t ∧ e.2 = 0

/-- The last accepted operation on the topic was a subscribe. -/
def LastSubscribed (log : List (SubOp × Int)) (t : Topic) : Prop :=
  ∃ before after, log = before ++ (.subscribe t, 0) :: after ∧ ∀ e ∈ after, ¬ Accepted t e

/-- The active slots hold the topics that are subscribed, each of them once. -/
structure Consistent (log : List (SubOp × Int)) (c : Conn) : Prop where
  mem_iff : ∀ t : Topic, t.1 ∈ activeTopics c.subs ↔ LastSubscribed log t
  nodup : (activeTopics c.subs).Nodup

/-- The operation does what it does to a set of at most `maxSubsPerConn` topics. -/
def Answers (c : Conn) : SubOp → Prop
  | .subscribe t =>
    (t.1 ∈ activeTopics c.subs → subscribe c t.1 = (0, c)) ∧
      (t.1 ∉ activeTopics c.subs → (subscribe c t.1).1 ≠ 0 →
        (activeTopics c.subs).dedup.length = maxSubsPerConn)
  | .unsubscribe t =>
    stored t ∉ activeTopics (unsubscribe c t.1).2.subs ∧
      ∀ u, u ≠ stored t →
        (u ∈ activeTopics (unsubscribe c t.1).2.subs ↔ u ∈ activeTopics c.subs)

/-- In every state of the run from a new connection the subscriptions are a set, and every
operation of the run works on it as on one. -/
def SetLike (id : List UInt8) (ops : List SubOp) : Prop :=
  (∀ js, js <+: ops → Consistent (Machine.log subStep (newConn id) js)
    (Machine.run subStep (newConn id) js)) ∧
  Machine.Throughout (fun js op => Answers (Machine.run subStep (newConn id) js) op) ops

/-- The topic fits into a slot, and is not one that is subscribed already when no slot is left. -/
def Fits (c : Conn) : SubOp → Prop
  | .subscribe t =>
    if maxSubsPerConn ≤ c.subs.length then t.1 ∉ activeTopics c.subs
    else t.1.length < maxTopicLen
  | .unsubscribe t => t.1.length < maxTopicLen ∨ stored t ∉ activeTopics c.subs

variable {log : List (SubOp × Int)} {c : Conn} {subs front back : List Subscription}
variable {t : Topic} {u : List UInt8} {op : SubOp} {rc : Int} {s : Subscription}

section Slots

theorem isFor_iff : s.isFor u = true ↔ s.active = true ∧ s.topic.bytes = u := by
  simp [Subscription.isFor]

theorem mem_activeTopics : u ∈ activeTopics subs ↔ ∃ s ∈ subs, s.isFor u = true := by
  simp only [activeTopics, List.mem_map, List.mem_filter, isFor_iff, and_assoc]

theorem length_of_mem (h : u ∈ activeTopics subs) : u.length < maxTopicLen := by
  obtain ⟨s, -, hs⟩ := mem_activeTopics.mp h
  rw [← (isFor_iff.mp hs).2]
  exact s.topic.fits

theorem activeTopics_append :
    activeTopics (subs ++ back) = activeTopics subs ++ activeTopics back := by
  simp [activeTopics]

theorem stored_of_lt (h : t.1.length < maxTopicLen) : stored t = t.1 :=
  List.take_of_length_le (by omega)

theorem activeTopics_copy : activeTopics [⟨copy maxTopicLen t.1, true⟩] = [stored t] := by
  have hcopy : t.1.take (maxTopicLen - 1) = (copy maxTopicLen t.1).bytes :=
    (copy_eq_iff t.2).mp rfl
  simp only [activeTopics, List.filter_cons, if_true, List.filter_nil, List.map_cons, List.map_nil,
    stored, hcopy]

theorem subscribe_full (hfull : maxSubsPerConn ≤ c.subs.length) : subscribe c u = (-1, c) :=
  if_pos hfull

theorem subscribe_known (hroom : ¬ maxSubsPerConn ≤ c.subs.length)
    (h : u ∈ activeTopics c.subs) : subscribe c u = (0, c) := by
  rw [subscribe, if_neg hroom, if_pos (List.any_eq_true.mpr (mem_activeTopics.mp h))]

theorem subscribe_new (hroom : ¬ maxSubsPerConn ≤ c.subs.length) (h : u ∉ activeTopics c.subs) :
    subscribe c u = (0, { c with subs := c.subs ++ [⟨copy maxTopicLen u, true⟩] }) := by
  have hnone : ¬ c.subs.any (·.isFor u) = true :=
    fun hany => h (mem_activeTopics.mpr (List.any_eq_true.mp hany))
  rw [subscribe, if_neg hroom, if_neg hnone]

theorem unsubscribe_unknown (h : u ∉ activeTopics c.subs) : unsubscribe c u = (0, c) := by
  have hnone : c.subs.findIdx? (·.isFor u) = none := by
    rw [List.findIdx?_eq_none_iff]
    intro s hs
    cases hf : s.isFor u with
    | false => rfl
    | true => exact absurd (mem_activeTopics.mpr ⟨s, hs, hf⟩) h
  rw [unsubscribe, hnone]

theorem unsubscribe_known (h : u ∈ activeTopics c.subs) :
    ∃ front s back, c.subs = front ++ s :: back ∧ s.isFor u = true ∧
      (unsubscribe c u).1 = 0 ∧ (unsubscribe c u).2.subs.Perm (front ++ back) := by
  obtain ⟨s, hs, hf⟩ := mem_activeTopics.mp h
  cases hfind : c.subs.findIdx? (·.isFor u) with
  | none =>
    rw [List.findIdx?_eq_none_iff] at hfind
    rw [hfind s hs] at hf
    cases hf
  | some i =>
    obtain ⟨front, found, back, heq, rfl, hfound⟩ := findIdx?_some hfind
    refine ⟨front, found, back, heq, hfound, ?_, ?_⟩
    · rw [unsubscribe, hfind]
    · rw [unsubscribe, hfind, heq]
      exact swapRemove_perm

end Slots

section Histories

/-- The last entry decides, or those before it do when it was not accepted. -/
theorem lastSubscribed_append {e : SubOp × Int} : LastSubscribed (log ++ [e]) t ↔
    e = (.subscribe t, 0) ∨ ¬ Accepted t e ∧ LastSubscribed log t := by
  constructor
  · intro hl
    obtain ⟨before, after, heq, hafter⟩ := hl
    rcases List.eq_nil_or_concat after with rfl | ⟨after, last, rfl⟩
    · obtain ⟨-, hlast⟩ := List.append_inj' heq rfl
      exact .inl (List.singleton_inj.mp hlast)
    · rw [List.concat_eq_append, ← List.cons_append, ← List.append_assoc] at heq
      obtain ⟨rfl, hlast⟩ := List.append_inj' heq rfl
      cases hlast
      exact .inr ⟨hafter e (by simp), before, after, rfl, fun e he => hafter e (by simp [he])⟩
  · rintro (rfl | ⟨he, before, after, rfl, hafter⟩)
    · exact ⟨log, [], rfl, fun _ h => absurd h List.not_mem_nil⟩
    · refine ⟨before, after ++ [e], by simp, fun d hd => ?_⟩
      rcases List.mem_append.mp hd with hd | hd
      · exact hafter d hd
      · rw [List.mem_singleton.mp hd]
        exact he

theorem lastSubscribed_accepted (h : Accepted t (op, rc)) :
    LastSubscribed (log ++ [(op, rc)]) t ↔ op = .subscribe t := by
  have hrc : rc = 0 := h.2
  rw [lastSubscribed_append, or_iff_left fun hn => hn.1 h, Prod.mk.injEq, and_iff_left hrc]

theorem lastSubscribed_ignored (h : ¬ Accepted t (op, rc)) :
    LastSubscribed (log ++ [(op, rc)]) t ↔ LastSubscribed log t := by
  have hne : (op, rc) ≠ (.subscribe t, 0) := by
    intro he
    rw [he] at h
    exact h ⟨rfl, rfl⟩
  rw [lastSubscribed_append, or_iff_right hne, and_iff_right h]

end Histories

/-- What a run keeps as long as every topic fits. -/
structure Kept (log : List (SubOp × Int)) (c : Conn) : Prop extends Consistent log c where
  all_active : ∀ s ∈ c.subs, s.active = true
  length_le : c.subs.length ≤ maxSubsPerConn

theorem Kept.length_eq (h : Kept log c) : (activeTopics c.subs).length = c.subs.length := by
  rw [activeTopics, List.filter_eq_self.mpr h.all_active, List.length_map]

/-- What is active changes with the operation as the topics that are subscribed do. -/
theorem consistent_accepted {c' : Conn} (h : Consistent log c) (hop : op.topic = t)
    (hnodup : (activeTopics c'.subs).Nodup)
    (hself : t.1 ∈ activeTopics c'.subs ↔ op = .subscribe t)
    (hother : ∀ u, u ≠ t.1 → (u ∈ activeTopics c'.subs ↔ u ∈ activeTopics c.subs)) :
    Consistent (log ++ [(op, 0)]) c' := by
  refine ⟨fun u => ?_, hnodup⟩
  by_cases hu : u = t
  · subst hu
    rw [hself, lastSubscribed_accepted ⟨hop, rfl⟩]
  · have hignored : ¬ Accepted u (op, 0) := fun ha => hu (ha.1.symm.trans hop)
    rw [lastSubscribed_ignored hignored, ← h.mem_iff]
    exact hother u.1 fun he => hu (Subtype.ext he)

theorem consistent_refused (h : Consistent log c) (hrc : rc ≠ 0) :
    Consistent (log ++ [(op, rc)]) c :=
  ⟨fun u => by rw [lastSubscribed_ignored fun ha => hrc ha.2, h.mem_iff], h.nodup⟩

theorem kept_subscribe (h : Kept log c) (hfit : Fits c (.subscribe t)) :
    Answers c (.subscribe t) ∧
      Kept (log ++ [(.subscribe t, (subscribe c t.1).1)]) (subscribe c t.1).2 := by
  have hlen := h.length_eq
  rw [Fits] at hfit
  rw [Answers]
  by_cases hfull : maxSubsPerConn ≤ c.subs.length
  · rw [if_pos hfull] at hfit
    rw [subscribe_full hfull, h.nodup.dedup, hlen]
    exact ⟨⟨fun hmem => absurd hmem hfit, fun _ _ => le_antisymm h.length_le hfull⟩,
      consistent_refused h.toConsistent (by simp), h.all_active, h.length_le⟩
  · rw [if_neg hfull] at hfit
    by_cases hmem : t.1 ∈ activeTopics c.subs
    · rw [subscribe_known hfull hmem]
      refine ⟨⟨fun _ => rfl, fun hnot => absurd hmem hnot⟩, ?_, h.all_active, h.length_le⟩
      exact consistent_accepted h.toConsistent rfl h.nodup ⟨fun _ => rfl, fun _ => hmem⟩
        fun _ _ => Iff.rfl
    · rw [subscribe_new hfull hmem]
      have hnew : activeTopics (c.subs ++ [⟨copy maxTopicLen t.1, true⟩]) =
          activeTopics c.subs ++ [t.1] := by
        rw [activeTopics_append, activeTopics_copy, stored_of_lt hfit]
      refine ⟨⟨fun hin => absurd hin hmem, fun _ hrc => absurd rfl hrc⟩, ?_, ?_, ?_⟩
      · refine consistent_accepted h.toConsistent (t := t) rfl ?_ ?_ ?_
        · rw [hnew, ← List.concat_eq_append]
          exact h.nodup.concat hmem
        · simp [hnew]
        · intro u hu
          simp [hnew, hu]
      · intro s hs
        rcases List.mem_append.mp hs with hs | hs
        · exact h.all_active s hs
        · rw [List.mem_singleton.mp hs]
      · rw [List.length_append]
        exact Nat.not_le.mp hfull

theorem kept_unsubscribe (h : Kept log c) (hfit : Fits c (.unsubscribe t)) :
    Answers c (.unsubscribe t) ∧
      Kept (log ++ [(.unsubscribe t, (unsubscribe c t.1).1)]) (unsubscribe c t.1).2 := by
  rw [Answers]
  by_cases hmem : t.1 ∈ activeTopics c.subs
  · obtain ⟨front, s, back, heq, hs, hrc, hperm⟩ := unsubscribe_known hmem
    have hactive : activeTopics c.subs = activeTopics front ++ t.1 :: activeTopics back := by
      obtain ⟨ha, hb⟩ := isFor_iff.mp hs
      rw [heq, activeTopics_append]
      simp [activeTopics, ha, hb]
    have hafter : (activeTopics (unsubscribe c t.1).2.subs).Perm
        (activeTopics front ++ activeTopics back) := by
      rw [← activeTopics_append]
      exact (hperm.filter _).map _
    have hnodup := h.nodup
    rw [hactive, List.nodup_middle, List.nodup_cons] at hnodup
    have hgone : t.1 ∉ activeTopics (unsubscribe c t.1).2.subs :=
      fun hin => hnodup.1 (hafter.mem_iff.mp hin)
    have hother : ∀ u, u ≠ t.1 →
        (u ∈ activeTopics (unsubscribe c t.1).2.subs ↔ u ∈ activeTopics c.subs) := by
      intro u hu
      rw [hafter.mem_iff, hactive]
      simp [hu]
    rw [stored_of_lt (length_of_mem hmem), hrc]
    refine ⟨⟨hgone, hother⟩, ?_, ?_, ?_⟩
    · exact consistent_accepted h.toConsistent rfl (hafter.nodup_iff.mpr hnodup.2)
        ⟨fun hin => absurd hin hgone, nofun⟩ hother
    · intro s' hs'
      apply h.all_active s'
      rw [heq]
      exact mem_around (hperm.mem_iff.mp hs')
    · have hle := h.length_le
      rw [heq, List.length_append, List.length_cons] at hle
      rw [hperm.length_eq, List.length_append]
      omega
  · have hstored : stored t ∉ activeTopics c.subs := by
      rcases hfit with hlt | hnot
      · rwa [stored_of_lt hlt]
      · exact hnot
    rw [unsubscribe_unknown hmem]
    refine ⟨⟨hstored, fun _ _ => Iff.rfl⟩, ?_, h.all_active, h.length_le⟩
    exact consistent_accepted h.toConsistent rfl h.nodup
      ⟨fun hin => absurd hin hmem, nofun⟩ fun _ _ => Iff.rfl

theorem kept_step (h : Kept log c) (hfit : Fits c op) :
    Answers c op ∧ Kept (log ++ [(op, (subStep c op).1)]) (subStep c op).2 := by
  cases op with
  | subscribe t => exact kept_subscribe h hfit
  | unsubscribe t => exact kept_unsubscribe h hfit

variable {id : List UInt8} {ops : List SubOp}

theorem kept_run
    (h : Machine.Throughout (fun js op => Fits (Machine.run subStep (newConn id) js) op) ops) :
    Kept (Machine.log subStep (newConn id) ops) (Machine.run subStep (newConn id) ops) := by
  induction ops using List.reverseRecOn with
  | nil =>
    refine ⟨⟨fun t => ?_, List.nodup_nil⟩, nofun, Nat.zero_le _⟩
    constructor
    · intro hin
      cases hin
    · intro hl
      obtain ⟨before, after, heq, -⟩ := hl
      simp at heq
  | append_singleton ops op ih =>
    rw [Machine.throughout_snoc] at h
    rw [Machine.log_snoc, Machine.run_snoc]
    exact (kept_step (ih h.1) h.2).2

/-- An operation that does not fit is answered as it would not be for a set, or leaves behind
what is not one. -/
theorem fits_of_setLike
    (hnext : Consistent (log ++ [(op, (subStep c op).1)]) (subStep c op).2) (hans : Answers c op) :
    Fits c op := by
  cases op with
  | subscribe t =>
    rw [Fits]
    split
    · next hfull =>
      intro hmem
      have hknown := hans.1 hmem
      rw [subscribe_full hfull] at hknown
      cases congrArg Prod.fst hknown
    · next hroom =>
      by_contra hlong
      have hmem : t.1 ∉ activeTopics c.subs := fun hin => hlong (length_of_mem hin)
      simp only [subStep, subscribe_new hroom hmem] at hnext
      have hin := (hnext.mem_iff t).mpr ((lastSubscribed_accepted ⟨rfl, rfl⟩).mpr rfl)
      exact hlong (length_of_mem hin)
  | unsubscribe t =>
    rw [Fits, or_iff_not_imp_left]
    intro hlong
    have hmem : t.1 ∉ activeTopics c.subs := fun hin => hlong (length_of_mem hin)
    have hgone := hans.1
    rwa [unsubscribe_unknown hmem] at hgone

theorem throughout_fits (h : SetLike id ops) :
    Machine.Throughout (fun js op => Fits (Machine.run subStep (newConn id) js) op) ops := by
  intro js op hpre
  obtain ⟨hcons, hans⟩ := h
  have hnext := hcons _ hpre
  rw [Machine.log_snoc, Machine.run_snoc] at hnext
  exact fits_of_setLike hnext (hans js op hpre)

/-- The subscriptions of a connection are a set throughout exactly the runs whose topics fit. -/
theorem setLike_iff (id : List UInt8) (ops : List SubOp) : SetLike id ops ↔
    Machine.Throughout (fun js op => Fits (Machine.run subStep (newConn id) js) op) ops := by
  refine ⟨throughout_fits, fun h => ⟨fun js hpre => ?_, fun js op hpre => ?_⟩⟩
  · exact (kept_run (h.of_prefix hpre)).toConsistent
  · have hjs := h.of_prefix ((List.prefix_append js [op]).trans hpre)
    exact (kept_step (kept_run hjs) (h js op hpre)).1

/-- A topic of 128 bytes that is subscribed twice. -/
theorem setLike_not_always : ¬ ∀ id ops, SetLike id ops := by
  intro h
  have ht : (0 : UInt8) ∉ List.replicate 128 (97 : UInt8) := by simp
  have hfits : Fits (newConn []) (.subscribe ⟨_, ht⟩) :=
    throughout_fits (h [] [.subscribe ⟨_, ht⟩, .subscribe ⟨_, ht⟩]) [] _ ⟨[_], rfl⟩
  rw [Fits, if_neg (by simp [newConn]), List.length_replicate] at hfits
  exact absurd hfits (by decide)

end HyperKitty.Bus
