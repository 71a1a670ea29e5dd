import HyperKitty.Proofs.Knockouts

namespace HyperKitty.Nand

open ConflictRegistry

variable {K : Type*} [LinearOrder K] [Zero K]
variable {r : ConflictRegistry} {activations xs ys : List (ExpertActivation K)}
variable {calls calls' : List (ExpertId × ExpertId)}

/-- The registry after a sequence of `register_conflict` calls. -/
def registerAll (calls : List (ExpertId × ExpertId)) : ConflictRegistry :=
  calls.foldl (fun r c => r.registerConflict c.1 c.2) new

/-- The calls declare the same pairs, in any order, orientation and number. -/
def SameCalls (calls calls' : List (ExpertId × ExpertId)) : Prop :=
  ∀ a b, ((a, b) ∈ calls ∨ (b, a) ∈ calls) ↔ ((a, b) ∈ calls' ∨ (b, a) ∈ calls')

theorem mem_foldl_register {p : ExpertId × ExpertId} (r : ConflictRegistry) :
    p ∈ (calls.foldl (fun r c => r.registerConflict c.1 c.2) r).conflicts ↔
      p ∈ r.conflicts ∨ ∃ c ∈ calls, c.1 ≠ c.2 ∧ p = canonical c.1 c.2 := by
  induction calls generalizing r with
  | nil => simp
  | cons c calls ih =>
    rw [List.foldl_cons, ih, mem_registerConflict, List.exists_mem_cons_iff, or_assoc]

theorem mem_registerAll {p : ExpertId × ExpertId} :
    p ∈ (registerAll calls).conflicts ↔ p.1 < p.2 ∧ (p ∈ calls ∨ p.swap ∈ calls) := by
  rw [registerAll, mem_foldl_register]
  constructor
  · intro h
    obtain ⟨⟨a, b⟩, hc, hn, rfl⟩ := h.resolve_left (Finset.notMem_empty p)
    refine ⟨canonical_lt hn, ?_⟩
    unfold canonical
    split
    · exact .inl hc
    · exact .inr hc
  · intro ⟨hlt, h⟩
    right
    rcases h with h | h
    · exact ⟨p, h, hlt.ne, (canonical_of_lt hlt).symm⟩
    · refine ⟨p.swap, h, hlt.ne', ?_⟩
      rw [canonical_comm]
      exact (canonical_of_lt hlt).symm

/-- The search finds the declared pairs of the experts, each once and in increasing order. -/
theorem findConflicts_registerAll (calls : List (ExpertId × ExpertId)) (experts : List ExpertId) :
    ((registerAll calls).findConflicts experts).Pairwise pairLt ∧
      ∀ a b, (a, b) ∈ (registerAll calls).findConflicts experts ↔
        a < b ∧ a ∈ experts ∧ b ∈ experts ∧ ((a, b) ∈ calls ∨ (b, a) ∈ calls) := by
  refine ⟨findConflicts_sorted _ _, ?_⟩
  intro a b
  rw [mem_findConflicts, mem_registerAll]
  constructor
  · intro ⟨⟨hlt, hcall⟩, ha, hb⟩
    exact ⟨hlt, ha, hb, hcall⟩
  · intro ⟨hlt, ha, hb, hcall⟩
    exact ⟨⟨hlt, hcall⟩, ha, hb⟩

theorem registerAll_congr (h : SameCalls calls calls') :
    registerAll calls = registerAll calls' := by
  ext p
  rw [mem_registerAll, mem_registerAll]
  exact and_congr_right fun _ => h p.1 p.2

/-- The filter admits the same multiset however the conflicts and the activations arrive. -/
def OrderFree (calls : List (ExpertId × ExpertId)) (activations : List (ExpertActivation K)) :
    Prop :=
  ∀ calls' activations', SameCalls calls calls' → activations'.Perm activations →
    (filter (registerAll calls') activations').Perm (filter (registerAll calls) activations)

/-- The weights give each active id one of its active weights. -/
def Picks (activations : List (ExpertActivation K)) (weight : ExpertId → K) : Prop :=
  ∀ id ∈ activeIds activations, ∃ a ∈ activations, a.Active ∧ a.id = id ∧ a.weight = weight id

/-- Whichever active weight each id is given, the same ids are knocked out. -/
def Unswayed (r : ConflictRegistry) (activations : List (ExpertActivation K)) : Prop :=
  ∀ w w', Picks activations w → Picks activations w' →
    knockedOut r activations w = knockedOut r activations w'

/-- Two different active ids compare the same way with any of their active weights. -/
def Separated (activations : List (ExpertActivation K)) : Prop :=
  ∀ a ∈ activations, ∀ a' ∈ activations, ∀ b ∈ activations, ∀ b' ∈ activations,
    a.Active → a'.Active → b.Active → b'.Active → a.id = a'.id → b.id = b'.id → a.id < b.id →
    (a.weight ≤ b.weight ↔ a'.weight ≤ b'.weight)

omit [LinearOrder K] [Zero K] in
theorem find_isSome {a : ExpertActivation K} (h : a ∈ xs) :
    (xs.find? (·.id == a.id)).isSome := by
  rw [List.find?_isSome]
  exact ⟨a, h, beq_self_eq_true a.id⟩

omit [LinearOrder K] in
/-- An id competes with the weight of some activation of that id. -/
theorem exists_weightOf {a : ExpertActivation K} (h : a ∈ xs) :
    ∃ b ∈ xs, b.id = a.id ∧ b.weight = weightOf xs a.id := by
  obtain ⟨b, hb⟩ := Option.isSome_iff_exists.mp (find_isSome h)
  refine ⟨b, List.mem_of_find?_eq_some hb, by simpa using List.find?_some hb, ?_⟩
  rw [weightOf, hb]
  rfl

theorem firstWeight_picks (activations : List (ExpertActivation K)) :
    Picks activations (firstWeight activations) := by
  intro id h
  obtain ⟨a, ha, pa, rfl⟩ := mem_activeIds.mp h
  have hm : a ∈ activations.filter (·.Active) := List.mem_filter.mpr ⟨ha, by simpa using pa⟩
  obtain ⟨b, hb, hrest⟩ := exists_weightOf hm
  obtain ⟨mb, pb⟩ := List.mem_filter.mp hb
  exact ⟨b, mb, by simpa using pb, hrest⟩

section SameMembers

variable (hp : xs.Perm ys)
include hp

theorem mem_activeIds_perm {id : ExpertId} : id ∈ activeIds xs ↔ id ∈ activeIds ys :=
  ((hp.filter _).map _).mem_iff

theorem knockedOut_perm (r : ConflictRegistry) (w : ExpertId → K) :
    knockedOut r xs w = knockedOut r ys w := by
  have hc : conflictsAmong r xs = conflictsAmong r ys := by
    apply r.findConflicts_congr
    intro id
    exact mem_activeIds_perm hp
  rw [knockedOut, knockedOut, hc]

theorem Picks.perm {w : ExpertId → K} (h : Picks xs w) : Picks ys w := by
  intro id hid
  obtain ⟨a, ha, hrest⟩ := h id ((mem_activeIds_perm hp).mpr hid)
  exact ⟨a, hp.mem_iff.mp ha, hrest⟩

theorem suppressed_subset_of_admitted (h : (filter r xs).Perm (filter r ys)) :
    suppressed r xs ⊆ suppressed r ys := by
  intro id hid
  obtain ⟨a, ha, pa, rfl⟩ := mem_activeIds.mp (mem_activeIds_of_suppressed hid)
  by_contra hn
  have hm : a ∈ filter r xs := h.mem_iff.mpr (mem_filter.mpr ⟨hp.mem_iff.mp ha, pa, hn⟩)
  exact (mem_filter.mp hm).2.2 hid

end SameMembers

/-- The activations with the picked weights moved to the front. -/
def pickedFirst (activations : List (ExpertActivation K)) (w : ExpertId → K) :
    List (ExpertActivation K) :=
  activations.filter (fun a => a.weight = w a.id) ++
    activations.filter (fun a => !decide (a.weight = w a.id))

omit [Zero K] in
theorem pickedFirst_perm (activations : List (ExpertActivation K)) (w : ExpertId → K) :
    (pickedFirst activations w).Perm activations := List.filter_append_perm _ _

/-- With the picked weights in front these are the weights the ids compete with. -/
theorem firstWeight_pickedFirst {w : ExpertId → K} (h : Picks activations w) {id : ExpertId}
    (hid : id ∈ activeIds activations) : firstWeight (pickedFirst activations w) id = w id := by
  obtain ⟨a, ha, pa, hi, hw⟩ := h id hid
  subst hi
  let front := (activations.filter (fun a => a.weight = w a.id)).filter (·.Active)
  have hm : a ∈ front := by
    simp only [front, List.mem_filter, decide_eq_true_iff]
    exact ⟨⟨ha, hw⟩, pa⟩
  have hfirst : firstWeight (pickedFirst activations w) a.id = weightOf front a.id := by
    rw [firstWeight, weightOf, pickedFirst, List.filter_append, List.find?_append,
      Option.or_of_isSome (find_isSome hm)]
    rfl
  obtain ⟨b, hb, hbid, hbw⟩ := exists_weightOf hm
  have hpick : b.weight = w b.id := by simpa using (List.mem_filter.mp (List.mem_filter.mp hb).1).2
  rw [hfirst, ← hbw, hpick, hbid]

theorem suppressed_pickedFirst (r : ConflictRegistry) {w : ExpertId → K}
    (h : Picks activations w) :
    suppressed r (pickedFirst activations w) = knockedOut r activations w := by
  rw [suppressed_eq_knockedOut, knockedOut_perm (pickedFirst_perm activations w)]
  apply Knockout.run_congr
  intro p hp
  obtain ⟨_, h1, h2⟩ := mem_findConflicts.mp hp
  exact byWeight_congr (firstWeight_pickedFirst h h1) (firstWeight_pickedFirst h h2)

theorem orderFree_iff_unswayed :
    OrderFree calls activations ↔ Unswayed (registerAll calls) activations := by
  constructor
  · intro h w w' hw hw'
    have hp := pickedFirst_perm activations w
    have hp' := pickedFirst_perm activations w'
    have hq := hp.trans hp'.symm
    have hf := (h calls _ (fun _ _ => Iff.rfl) hp).trans (h calls _ (fun _ _ => Iff.rfl) hp').symm
    rw [← suppressed_pickedFirst _ hw, ← suppressed_pickedFirst _ hw']
    exact (suppressed_subset_of_admitted hq hf).antisymm
      (suppressed_subset_of_admitted hq.symm hf.symm)
  · intro h calls' activations' hc hp
    rw [← registerAll_congr hc, filter_eq, filter_eq]
    have hs : suppressed (registerAll calls) activations' =
        suppressed (registerAll calls) activations := by
      rw [suppressed_eq_knockedOut, suppressed_eq_knockedOut, knockedOut_perm hp]
      exact h _ _ ((firstWeight_picks activations').perm hp) (firstWeight_picks activations)
    rw [hs]
    exact hp.filter _

omit [Zero K] in
/-- The first of the pair loses unless it is the heavier one. -/
theorem loser_eq (w : ExpertId → K) (p : ExpertId × ExpertId) :
    (byWeight w).loser p = if w p.1 ≤ w p.2 then p.1 else p.2 := by
  change argmin w p = _
  unfold argmin
  grind

theorem unswayed_of_separated (h : Separated activations) (r : ConflictRegistry) :
    Unswayed r activations := by
  intro w w' hw hw'
  apply Knockout.run_congr
  intro p hp
  obtain ⟨hc, h1, h2⟩ := mem_findConflicts.mp hp
  obtain ⟨a, ha, pa, ia, wa⟩ := hw _ h1
  obtain ⟨a', ha', pa', ia', wa'⟩ := hw' _ h1
  obtain ⟨b, hb, pb, ib, wb⟩ := hw _ h2
  obtain ⟨b', hb', pb', ib', wb'⟩ := hw' _ h2
  have hlt : a.id < b.id := by
    rw [ia, ib]
    exact r.ordered p hc
  have hiff := h a ha a' ha' b hb b' hb' pa pa' pb pb' (ia.trans ia'.symm) (ib.trans ib'.symm) hlt
  rw [wa, wb, wa', wb'] at hiff
  rw [loser_eq, loser_eq, if_congr hiff rfl rfl]

/-- Give two ids the weights of two activations and every other id its first weight. -/
def pickPair (activations : List (ExpertActivation K)) (a b : ExpertActivation K) (id : ExpertId) :
    K :=
  if id = a.id then a.weight else if id = b.id then b.weight else firstWeight activations id

theorem pickPair_picks {a b : ExpertActivation K} (ha : a ∈ activations) (hb : b ∈ activations)
    (pa : a.Active) (pb : b.Active) : Picks activations (pickPair activations a b) := by
  intro id hid
  unfold pickPair
  by_cases h1 : id = a.id
  · rw [if_pos h1]
    exact ⟨a, ha, pa, h1.symm, rfl⟩
  · rw [if_neg h1]
    by_cases h2 : id = b.id
    · rw [if_pos h2]
      exact ⟨b, hb, pb, h2.symm, rfl⟩
    · rw [if_neg h2]
      exact firstWeight_picks activations id hid

/-- Where two active ids are the only conflict, one of them is the only one knocked out. -/
theorem knockedOut_single {a b : ExpertActivation K} (ha : a ∈ activations)
    (hb : b ∈ activations) (pa : a.Active) (pb : b.Active) (hlt : a.id < b.id)
    (w : ExpertId → K) :
    knockedOut (registerAll [(a.id, b.id)]) activations w =
      {if w a.id ≤ w b.id then a.id else b.id} := by
  have hc : conflictsAmong (registerAll [(a.id, b.id)]) activations = [(a.id, b.id)] := by
    apply (findConflicts_sorted _ _).eq_of_mem_iff (List.pairwise_singleton _ _)
    intro p
    rw [mem_findConflicts, mem_registerAll, List.mem_singleton, List.mem_singleton]
    constructor
    · intro ⟨⟨hp, h⟩, _⟩
      refine h.resolve_right ?_
      intro hs
      rw [Prod.swap_eq_iff_eq_swap] at hs
      subst hs
      exact hp.asymm hlt
    · intro h
      subst h
      exact ⟨⟨hlt, .inl rfl⟩, mem_activeIds.mpr ⟨a, ha, pa, rfl⟩,
        mem_activeIds.mpr ⟨b, hb, pb, rfl⟩⟩
  rw [knockedOut, hc, Knockout.run_cons, Knockout.run_nil,
    Knockout.bout_held (Finset.notMem_empty _) (Finset.notMem_empty _), loser_eq]
  rfl

theorem separated_of_orderFree
    (h : ∀ calls : List (ExpertId × ExpertId), OrderFree calls activations) :
    Separated activations := by
  intro a ha a' ha' b hb b' hb' pa pa' pb pb' ia ib hlt
  have hu := orderFree_iff_unswayed.mp (h [(a.id, b.id)]) _ _
    (pickPair_picks ha hb pa pb) (pickPair_picks ha' hb' pa' pb')
  rw [knockedOut_single ha hb pa pb hlt, knockedOut_single ha hb pa pb hlt,
    Finset.singleton_inj] at hu
  have hne : b.id ≠ a.id := hlt.ne'
  have hne' : b'.id ≠ a'.id := by rwa [← ia, ← ib]
  have wa : pickPair activations a b a.id = a.weight := if_pos rfl
  have wb : pickPair activations a b b.id = b.weight := by simp [pickPair, hne]
  have wa' : pickPair activations a' b' a.id = a'.weight := by simp [pickPair, ia]
  have wb' : pickPair activations a' b' b.id = b'.weight := by simp [pickPair, ib, hne']
  rw [wa, wb, wa', wb'] at hu
  grind

/-- Whatever the conflicts are, the order of arrival never matters, exactly when different ids are
apart. For conflicts that are given, `orderFree_iff_unswayed` says when it does not. -/
theorem arrival_order_iff (activations : List (ExpertActivation K)) :
    (∀ calls : List (ExpertId × ExpertId), OrderFree calls activations) ↔
      Separated activations :=
  ⟨separated_of_orderFree, fun h _ => orderFree_iff_unswayed.mpr (unswayed_of_separated h _)⟩

/-- With expert `1` at two weights the one that comes first decides about expert `2`. -/
theorem repeated_id_sways :
    ¬ OrderFree [(⟨1⟩, ⟨2⟩)]
      [(⟨⟨1⟩, 9/10⟩ : ExpertActivation ℚ), ⟨⟨1⟩, 1/10⟩, ⟨⟨2⟩, 1/2⟩] := by
  intro h
  have hp := (h [(⟨1⟩, ⟨2⟩)] [⟨⟨1⟩, 1/10⟩, ⟨⟨1⟩, 9/10⟩, ⟨⟨2⟩, 1/2⟩] (fun _ _ => Iff.rfl)
    (List.Perm.swap _ _ _)).length_eq
  revert hp
  decide +kernel

end HyperKitty.Nand
