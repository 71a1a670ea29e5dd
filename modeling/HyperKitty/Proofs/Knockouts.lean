import HyperKitty.Nand.Filter

namespace HyperKitty.Nand

open ConflictRegistry

variable {K : Type*} [LinearOrder K] [Zero K]
variable {r : ConflictRegistry} {activations : List (ExpertActivation K)}

/-- A lower weight, or the same weight and a lower id. -/
def Below (a b : ExpertActivation K) : Prop :=
  a.weight < b.weight ∨ a.weight = b.weight ∧ a.id < b.id

omit [Zero K] in
theorem Below.asymm {a b : ExpertActivation K} (h : Below a b) : ¬ Below b a := by
  unfold Below at h ⊢
  grind

theorem canonical_eq {p : ExpertId × ExpertId} {a b : ExpertId} (hp : p.1 < p.2)
    (h : a = p.1 ∧ b = p.2 ∨ a = p.2 ∧ b = p.1) : canonical a b = p := by
  rcases h with ⟨rfl, rfl⟩ | ⟨rfl, rfl⟩
  · exact canonical_of_lt hp
  · rw [canonical_comm]
    exact canonical_of_lt hp

theorem lt_of_mem_conflictsAmong {p : ExpertId × ExpertId} (h : p ∈ conflictsAmong r activations) :
    p.1 < p.2 := r.ordered p (mem_findConflicts.mp h).1

/-- The two sides of a conflict are those of active experts who conflict. -/
theorem sides_of_mem_conflictsAmong (k : Knockout ExpertId) {p : ExpertId × ExpertId}
    (h : p ∈ conflictsAmong r activations) :
    canonical (k.loser p) (k.winner p) = p ∧
    r.areConflicting (k.loser p) (k.winner p) = true ∧
    k.loser p ∈ activeIds activations ∧ k.winner p ∈ activeIds activations := by
  obtain ⟨hc, h1, h2⟩ := mem_findConflicts.mp h
  have he : canonical (k.loser p) (k.winner p) = p :=
    canonical_eq (lt_of_mem_conflictsAmong h) (k.sides p)
  refine ⟨he, areConflicting_iff.mpr (he.symm ▸ hc), ?_⟩
  rcases k.sides p with ⟨hl, hw⟩ | ⟨hl, hw⟩
  · rw [hl, hw]
    exact ⟨h1, h2⟩
  · rw [hl, hw]
    exact ⟨h2, h1⟩

theorem mem_activeIds_of_suppressed {id : ExpertId} (h : id ∈ suppressed r activations) :
    id ∈ activeIds activations := by
  rw [suppressed_eq_knockedOut] at h
  obtain ⟨p, hp, rfl⟩ := Knockout.exists_of_mem_run h (Finset.notMem_empty _)
  exact (sides_of_mem_conflictsAmong _ hp).2.2.1

/-- Two active experts who conflict meet, and one of them is suppressed. -/
theorem suppressed_of_conflicting {a b : ExpertActivation K} (ha : a ∈ activations)
    (hb : b ∈ activations) (pa : a.Active) (pb : b.Active)
    (h : r.areConflicting a.id b.id = true) :
    a.id ∈ suppressed r activations ∨ b.id ∈ suppressed r activations := by
  have ia : a.id ∈ activeIds activations := mem_activeIds.mpr ⟨a, ha, pa, rfl⟩
  have ib : b.id ∈ activeIds activations := mem_activeIds.mpr ⟨b, hb, pb, rfl⟩
  have hc : canonical a.id b.id ∈ r.conflicts := areConflicting_iff.mp h
  rw [suppressed_eq_knockedOut]
  rcases lt_or_gt_of_ne (ne_of_conflicting h) with hlt | hlt
  · rw [canonical_of_lt hlt] at hc
    exact Knockout.run_settles (p := (a.id, b.id)) (mem_findConflicts.mpr ⟨hc, ia, ib⟩)
  · rw [canonical_comm, canonical_of_lt hlt] at hc
    exact (Knockout.run_settles (p := (b.id, a.id)) (mem_findConflicts.mpr ⟨hc, ib, ia⟩)).symm

theorem filter_conflict_free {a b : ExpertActivation K} (ha : a ∈ filter r activations)
    (hb : b ∈ filter r activations) : r.areConflicting a.id b.id = false := by
  obtain ⟨ha, pa, na⟩ := mem_filter.mp ha
  obtain ⟨hb, pb, nb⟩ := mem_filter.mp hb
  rw [Bool.eq_false_iff]
  intro hc
  rcases suppressed_of_conflicting ha hb pa pb hc with h | h
  · exact na h
  · exact nb h

theorem suppressed_eq_empty
    (h : ∀ a ∈ activations, ∀ b ∈ activations, r.areConflicting a.id b.id = false) :
    suppressed r activations = ∅ := by
  have hn : conflictsAmong r activations = [] := by
    rw [List.eq_nil_iff_forall_not_mem]
    intro p hp
    obtain ⟨hc, h1, h2⟩ := mem_findConflicts.mp hp
    obtain ⟨a, ha, _, ea⟩ := mem_activeIds.mp h1
    obtain ⟨b, hb, _, eb⟩ := mem_activeIds.mp h2
    have hab := h a ha b hb
    rw [ea, eb, Bool.eq_false_iff, Ne, areConflicting_iff,
      canonical_of_lt (r.ordered p hc)] at hab
    exact hab hc
  rw [suppressed_eq_knockedOut, knockedOut, hn]
  rfl

theorem filter_filter (r : ConflictRegistry) (activations : List (ExpertActivation K)) :
    filter r (filter r activations) = filter r activations := by
  have hnone : suppressed r (filter r activations) = ∅ := by
    apply suppressed_eq_empty
    intro a ha b hb
    exact filter_conflict_free ha hb
  rw [filter_eq r (filter r activations), hnone]
  apply List.filter_eq_self.mpr
  intro a ha
  simpa using (mem_filter.mp ha).2.1

/-- The filter admits a conflict-free selection, and admits the same again. -/
theorem filter_selects (r : ConflictRegistry) (activations : List (ExpertActivation K)) :
    (filter r activations =
        activations.filter fun a => 0 < a.weight ∧ a.id ∉ suppressed r activations) ∧
      (filter r activations).Sublist activations ∧
      (∀ a ∈ filter r activations, ∀ b ∈ filter r activations,
        r.areConflicting a.id b.id = false) ∧
      filter r (filter r activations) = filter r activations := by
  refine ⟨filter_eq r activations, ?_, ?_, filter_filter r activations⟩
  · rw [filter_eq]
    exact List.filter_sublist
  · intro a ha b hb
    exact filter_conflict_free ha hb

section Distinct

/-- Where ids are distinct an active expert competes with its own weight. -/
theorem firstWeight_of_nodup {a : ExpertActivation K} (hn : (activations.map (·.id)).Nodup)
    (ha : a ∈ activations) (pa : a.Active) : firstWeight activations a.id = a.weight := by
  have hn' : ((activations.filter (·.Active)).map (·.id)).Nodup :=
    hn.sublist (List.filter_sublist.map _)
  have hm : a ∈ activations.filter (·.Active) := List.mem_filter.mpr ⟨ha, by simpa using pa⟩
  rw [firstWeight, weightOf, Keyed.find?_key hn' hm]
  rfl

end Distinct

omit [Zero K] in
/-- The loser of a bout is the lighter one, or of equal ones that of the lower id. -/
theorem loser_lighter (w : ExpertId → K) {p : ExpertId × ExpertId} (hp : p.1 < p.2) :
    w ((byWeight w).loser p) < w ((byWeight w).winner p) ∨
      w ((byWeight w).loser p) = w ((byWeight w).winner p) ∧
        (byWeight w).loser p < (byWeight w).winner p := by
  have hl : (byWeight w).loser p = argmin w p := rfl
  unfold argmin at hl
  rcases (byWeight w).sides p with ⟨h1, h2⟩ | ⟨h1, h2⟩
  · rw [h1] at hl
    rw [h1, h2]
    rcases lt_trichotomy (w p.1) (w p.2) with h | h | h
    · exact .inl h
    · exact .inr ⟨h, hp⟩
    · rw [if_neg h.asymm, if_pos h] at hl
      exact absurd hl hp.ne
  · rw [h1] at hl
    rw [h1, h2]
    rcases lt_trichotomy (w p.1) (w p.2) with h | h | h
    · rw [if_pos h] at hl
      exact absurd hl hp.ne'
    · rw [if_neg h.not_lt, if_neg h.not_gt] at hl
      exact absurd hl hp.ne'
    · exact .inl h

/-- The expert lost a conflict to one that is admitted, or to one that is suppressed in turn by a
conflict further on in the sorted order. -/
inductive GivesWay (r : ConflictRegistry) (activations : List (ExpertActivation K)) :
    ExpertId × ExpertId → ExpertActivation K → Prop
  | admitted {a b : ExpertActivation K} : b ∈ filter r activations →
      r.areConflicting a.id b.id = true → Below a b →
      GivesWay r activations (canonical a.id b.id) a
  | inTurn {a b : ExpertActivation K} {p : ExpertId × ExpertId} : b ∈ activations → b.Active →
      b ∉ filter r activations → r.areConflicting a.id b.id = true → Below a b →
      pairLt (canonical a.id b.id) p → GivesWay r activations p b →
      GivesWay r activations (canonical a.id b.id) a

/-- Whoever gives way stands below somebody who is admitted, through a chain of conflicts. -/
theorem GivesWay.exists_admitted {p : ExpertId × ExpertId} {a : ExpertActivation K}
    (h : GivesWay r activations p a) : ∃ b ∈ filter r activations,
      Relation.TransGen (fun x y => r.areConflicting x.id y.id = true ∧ Below x y) a b := by
  induction h with
  | admitted hb hc hbelow => exact ⟨_, hb, .single ⟨hc, hbelow⟩⟩
  | inTurn _ _ _ hc hbelow _ _ ih =>
    obtain ⟨b, hb, hchain⟩ := ih
    exact ⟨b, hb, hchain.head ⟨hc, hbelow⟩⟩

section Distinct

variable (hn : (activations.map (·.id)).Nodup)
include hn

/-- Of two active experts who met, the suppressed one stands below the other. -/
theorem below_of_met {p : ExpertId × ExpertId} {a b : ExpertActivation K}
    (hp : p ∈ conflictsAmong r activations) (ha : a ∈ activations) (pa : a.Active)
    (hb : b ∈ activations) (pb : b.Active)
    (hl : (byWeight (firstWeight activations)).loser p = a.id)
    (hw : (byWeight (firstWeight activations)).winner p = b.id) : Below a b := by
  have h := loser_lighter (firstWeight activations) (lt_of_mem_conflictsAmong hp)
  rw [hl, hw, firstWeight_of_nodup hn ha pa, firstWeight_of_nodup hn hb pb] at h
  exact h

theorem givesWay_of_toppled {bouts : List (ExpertId × ExpertId)} {id : ExpertId}
    (hs : bouts.Pairwise pairLt) (hb : ∀ p ∈ bouts, p ∈ conflictsAmong r activations)
    (h : (byWeight (firstWeight activations)).Toppled (· ∉ suppressed r activations) bouts id)
    {a : ExpertActivation K} (ha : a ∈ activations) (pa : a.Active) (e : a.id = id) :
    ∃ p ∈ bouts, GivesWay r activations p a := by
  induction h generalizing a with
  | @kept met p later hk =>
    have hm : p ∈ met ++ p :: later := List.mem_append_right _ List.mem_cons_self
    obtain ⟨hc, hcon, _, hw⟩ := sides_of_mem_conflictsAmong _ (hb p hm)
    obtain ⟨b, mb, pb, eb⟩ := mem_activeIds.mp hw
    have hbelow : Below a b := below_of_met hn (hb p hm) ha pa mb pb e.symm eb.symm
    rw [← e, ← eb] at hc hcon
    refine ⟨p, hm, hc ▸ GivesWay.admitted (mem_filter.mpr ⟨mb, pb, ?_⟩) hcon hbelow⟩
    exact eb ▸ hk
  | @later met p later hl ih =>
    have hm : p ∈ met ++ p :: later := List.mem_append_right _ List.mem_cons_self
    have hlater : ∀ q ∈ later, q ∈ met ++ p :: later := fun q hq =>
      List.mem_append_right _ (List.mem_cons_of_mem _ hq)
    obtain ⟨hc, hcon, _, hw⟩ := sides_of_mem_conflictsAmong _ (hb p hm)
    obtain ⟨b, mb, pb, eb⟩ := mem_activeIds.mp hw
    have hbelow : Below a b := below_of_met hn (hb p hm) ha pa mb pb e.symm eb.symm
    have hs' := List.pairwise_cons.mp (List.pairwise_append.mp hs).2.1
    obtain ⟨q, hq, hgives⟩ := ih hs'.2 (fun q hq => hb q (hlater q hq)) mb pb eb
    rw [← e, ← eb] at hc hcon
    refine ⟨p, hm, ?_⟩
    by_cases hin : b ∈ filter r activations
    · exact hc ▸ GivesWay.admitted hin hcon hbelow
    · refine hc ▸ GivesWay.inTurn mb pb hin hcon hbelow ?_ hgives
      rw [hc]
      exact hs'.1 q hq

/-- Every suppressed active expert gave way. -/
theorem suppressed_gives_way {a : ExpertActivation K} (ha : a ∈ activations)
    (pa : 0 < a.weight) (h : a ∉ filter r activations) :
    ∃ p, GivesWay r activations p a := by
  have hs : a.id ∈ suppressed r activations := by
    by_contra hns
    exact h (mem_filter.mpr ⟨ha, pa, hns⟩)
  have ht : (byWeight (firstWeight activations)).Toppled (· ∉ suppressed r activations)
      (conflictsAmong r activations) a.id := by
    rw [suppressed_eq_knockedOut] at hs ⊢
    apply Knockout.toppled_of_mem_run _ hs (Finset.notMem_empty _)
    intro p hp
    exact (lt_of_mem_conflictsAmong hp).ne
  obtain ⟨p, _, hp⟩ :=
    givesWay_of_toppled hn (r.findConflicts_sorted _) (fun _ hp => hp) ht ha pa rfl
  exact ⟨p, hp⟩

end Distinct

/-- Three experts in a row, each in conflict with the next. -/
def chain : ConflictRegistry := (new.registerConflict ⟨1⟩ ⟨2⟩).registerConflict ⟨2⟩ ⟨3⟩

def rising : List (ExpertActivation ℚ) := [⟨⟨1⟩, 1/10⟩, ⟨⟨2⟩, 1/2⟩, ⟨⟨3⟩, 9/10⟩]

theorem filter_rising : filter chain rising = [⟨⟨3⟩, 9/10⟩] := by decide +kernel

theorem lightest_gives_way : ∃ p, GivesWay chain rising p ⟨⟨1⟩, 1/10⟩ :=
  suppressed_gives_way (by decide) (by decide +kernel) (by decide +kernel)
    (by rw [filter_rising]; decide +kernel)

/-- The first expert is suppressed, yet it conflicts with nobody who is admitted. -/
theorem not_always_blocked :
    ¬ ∀ (r : ConflictRegistry) (activations : List (ExpertActivation ℚ)),
      (activations.map (·.id)).Nodup → ∀ a ∈ activations, 0 < a.weight →
        a ∉ filter r activations →
        ∃ b ∈ filter r activations, r.areConflicting a.id b.id = true ∧ Below a b := by
  intro h
  have hout : (⟨⟨1⟩, 1/10⟩ : ExpertActivation ℚ) ∉ filter chain rising := by
    rw [filter_rising]
    decide +kernel
  obtain ⟨b, hb, hc, _⟩ := h chain rising (by decide) _ List.mem_cons_self (by decide +kernel) hout
  rw [filter_rising, List.mem_singleton] at hb
  subst hb
  revert hc
  decide +kernel

section Distinct

variable (hn : (activations.map (·.id)).Nodup)
include hn

theorem heaviest_survives {a : ExpertActivation K} (ha : a ∈ activations) (pa : a.Active)
    (h : ∀ b ∈ activations, b.Active → r.areConflicting a.id b.id = true → Below b a) :
    a ∈ filter r activations := by
  apply mem_filter.mpr
  refine ⟨ha, pa, ?_⟩
  intro hs
  rw [suppressed_eq_knockedOut] at hs
  obtain ⟨p, hp, hl⟩ := Knockout.exists_of_mem_run hs (Finset.notMem_empty _)
  obtain ⟨_, hcon, _, hw⟩ := sides_of_mem_conflictsAmong _ hp
  obtain ⟨b, hb, pb, eb⟩ := mem_activeIds.mp hw
  have hab : Below a b := below_of_met hn hp ha pa hb pb hl eb.symm
  rw [hl, ← eb] at hcon
  exact hab.asymm (h b hb pb hcon)

end Distinct

/-- Some active expert stands above every other one. -/
theorem exists_heaviest (h : ∃ a ∈ activations, a.Active) :
    ∃ a ∈ activations, a.Active ∧
      ∀ b ∈ activations, b.Active → b.id ≠ a.id → Below b a := by
  classical
  have hne : (activations.filter (·.Active)).toFinset.Nonempty := by
    obtain ⟨a, ha, pa⟩ := h
    exact ⟨a, by simpa using ⟨ha, pa⟩⟩
  obtain ⟨a, ha, hmax⟩ :=
    Finset.exists_max_image _ (fun a : ExpertActivation K => toLex (a.weight, a.id)) hne
  rw [List.mem_toFinset, List.mem_filter, decide_eq_true_iff] at ha
  refine ⟨a, ha.1, ha.2, ?_⟩
  intro b hb pb hid
  have hle := hmax b (by simpa using ⟨hb, pb⟩)
  rw [Prod.Lex.toLex_le_toLex] at hle
  exact hle.imp id fun ⟨hw, hi⟩ => ⟨hw, lt_of_le_of_ne hi hid⟩

/-- An active expert above all active experts it conflicts with is admitted, so that not all of
them are suppressed. -/
theorem heaviest_admitted (hn : (activations.map (·.id)).Nodup) :
    (∀ a ∈ activations, 0 < a.weight →
      (∀ b ∈ activations, 0 < b.weight → r.areConflicting a.id b.id = true → Below b a) →
      a ∈ filter r activations) ∧
    ((∃ a ∈ activations, 0 < a.weight) → filter r activations ≠ []) := by
  constructor
  · intro a ha pa h
    exact heaviest_survives hn ha pa h
  · intro h
    obtain ⟨a, ha, pa, hmax⟩ := exists_heaviest h
    apply List.ne_nil_of_mem
    apply heaviest_survives hn ha pa
    intro b hb pb hc
    exact hmax b hb pb (ne_of_conflicting hc).symm

theorem heaviest_of_chain_admitted :
    ⟨⟨3⟩, 9/10⟩ ∈ filter chain rising ∧ filter chain rising ≠ [] := by
  have hn : (rising.map (·.id)).Nodup := by decide
  refine ⟨(heaviest_admitted hn).1 _ (by decide +kernel) (by decide +kernel) ?_,
    (heaviest_admitted hn).2 ⟨⟨⟨3⟩, 9/10⟩, by decide +kernel, by decide +kernel⟩⟩
  unfold Below
  decide +kernel

end HyperKitty.Nand
