import HyperKitty.Lib.HashChain
import HyperKitty.Lib.Machine
import HyperKitty.Runtime.Reconciliation

namespace HyperKitty.Runtime.ReconciliationProtocol

open Machine Routing

variable {K : Type} {p : ReconciliationProtocol K} {d : ReconciliationDecision K}
  {calls : List (Call K)}

/-- A commit succeeds, is refused because the decision is a rejection, or fails
because the decision names no next state. -/
theorem commit_cases (p : ReconciliationProtocol K) (d : ReconciliationDecision K) :
    (∃ next, d.accepted = true ∧ d.nextState = some next ∧
        p.commit d = (.ok (), { p with state := p.state.advance next d.entropy })) ∨
      (∃ e, d.accepted = false ∧
        p.commit d = (.error e, { p with state := p.state.reject })) ∨
      ∃ e, d.accepted = true ∧ d.nextState = none ∧ p.commit d = (.error e, p) := by
  unfold commit
  cases ha : d.accepted with
  | false => exact Or.inr (Or.inl ⟨_, rfl, rfl⟩)
  | true =>
    cases hn : d.nextState with
    | none => exact Or.inr (Or.inr ⟨_, rfl, rfl, rfl⟩)
    | some next => exact Or.inl ⟨next, rfl, rfl, rfl⟩

variable [Field K] [LinearOrder K]

/-- What `reconcile` asks the predicate about. -/
def candidate (current previous : Glyph) (proofExists invariantOk : Bool) : ValidityInput K where
  currentState := current
  previousState := previous
  routeResult := some (nextGlyph current previous)
  entropy := .finite 0
  proofExists := proofExists
  invariantOk := invariantOk

/-- Deciding always succeeds and changes nothing. -/
theorem reconcile_eq (p : ReconciliationProtocol K) (current previous : Glyph)
    (proofExists invariantOk : Bool) :
    p.reconcile current previous proofExists invariantOk =
      (.ok (
        let validity := p.predicate.check (candidate current previous proofExists invariantOk)
        if validity.accepted then
          .accept current previous (nextGlyph current previous) (.finite 0) validity
        else
          .reject current previous (.finite 0) validity (validity.failedGate.getD .route)), p) := by
  have hinvariant : (invariantOk && (QRADispatchResult.new current previous).isValid) =
      invariantOk := Bool.and_true _
  unfold reconcile
  rw [QRADispatcher.dispatch_eq]
  simp only [Except.mapError, bind, Except.bind, hinvariant]
  change (if (p.predicate.check (candidate current previous proofExists invariantOk)).accepted
    then pure _ else pure _, p) = _
  split
  · rfl
  · rfl

/-- A candidate that has a proof and keeps the invariant is accepted, unless the
threshold leaves no room for an entropy of zero. -/
def Accepts (p : ReconciliationProtocol K) (proofExists invariantOk : Bool) : Prop :=
  ¬ p.predicate.entropyThreshold < .finite 0 ∧ proofExists = true ∧ invariantOk = true

theorem check_candidate (p : ReconciliationProtocol K) (current previous : Glyph)
    (proofExists invariantOk : Bool) :
    Accepts p proofExists invariantOk ∧
        p.predicate.check (candidate current previous proofExists invariantOk) = .accept ∨
      ¬ Accepts p proofExists invariantOk ∧ ∃ gate,
        p.predicate.check (candidate current previous proofExists invariantOk) =
          .reject gate (.finite 0) := by
  have hglyphs : ¬ (current.index ≥ 6 ∨ previous.index ≥ 6) := by
    have := current.index_lt
    have := previous.index_lt
    omega
  unfold Accepts ValidityPredicate.check candidate
  by_cases ht : p.predicate.entropyThreshold < .finite 0
  · exact Or.inr ⟨by simp [ht], .entropy, by simp [F64.isFinite, ht]⟩
  · cases proofExists with
    | false => exact Or.inr ⟨by simp, .proof, by simp [F64.isFinite, ht]⟩
    | true =>
      cases invariantOk with
      | false => exact Or.inr ⟨by simp, .invariant, by simp [F64.isFinite, ht]⟩
      | true => exact Or.inl ⟨by simp [ht], by simp [F64.isFinite, ht, hglyphs]⟩

/-- A candidate is decided by its two flags and the threshold alone. -/
theorem reconcile_cases (p : ReconciliationProtocol K) (current previous : Glyph)
    (proofExists invariantOk : Bool) :
    Accepts p proofExists invariantOk ∧ p.reconcile current previous proofExists invariantOk =
        (.ok (.accept current previous (nextGlyph current previous) (.finite 0) .accept), p) ∨
      ¬ Accepts p proofExists invariantOk ∧ ∃ gate,
        p.reconcile current previous proofExists invariantOk =
          (.ok (.reject current previous (.finite 0) (.reject gate (.finite 0)) gate), p) := by
  rw [reconcile_eq]
  rcases check_candidate p current previous proofExists invariantOk with
    ⟨ha, he⟩ | ⟨ha, gate, he⟩
  · rw [he]
    exact Or.inl ⟨ha, rfl⟩
  · rw [he]
    exact Or.inr ⟨ha, gate, rfl⟩

theorem reconcile_accepts {proofExists invariantOk : Bool}
    (h : Accepts p proofExists invariantOk) (current previous : Glyph) :
    p.reconcile current previous proofExists invariantOk =
      (.ok (.accept current previous (nextGlyph current previous) (.finite 0) .accept), p) :=
  ((reconcile_cases p current previous proofExists invariantOk).resolve_right
    fun hn => hn.1 h).2

theorem accepts_new [IsStrictOrderedRing K] (initial : Glyph) :
    Accepts (.new initial : ReconciliationProtocol K) true true := by
  refine ⟨?_, rfl, rfl⟩
  have h : (0 : K) ≤ 0.20 := by norm_num
  exact fun hlt => absurd (F64.finite_lt_finite.mp hlt) (not_lt.mpr h)

/-- What every decision of the protocol says of itself. -/
def Regular (d : ReconciliationDecision K) : Prop :=
  d.accepted = true → d.nextState = some (nextGlyph d.currentState d.previousState)

theorem reconcile_regular {current previous : Glyph} {proofExists invariantOk : Bool}
    (h : (p.reconcile current previous proofExists invariantOk).1 = .ok d) : Regular d := by
  rcases reconcile_cases p current previous proofExists invariantOk with
    ⟨_, he⟩ | ⟨_, gate, he⟩
  · rw [he] at h
    cases h
    intro _
    rfl
  · rw [he] at h
    cases h
    nofun

/-- Every decision that is committed was returned by an earlier call. -/
def Genuine (p : ReconciliationProtocol K) (calls : List (Call K)) : Prop :=
  Throughout (fun earlier call => ∀ d, call = .commit d →
    ∃ e ∈ log step p earlier, e.2 = .decided (.ok d)) calls

theorem regular_of_mem_log {e : Call K × Answer K} (he : e ∈ log step p calls)
    (hd : e.2 = .decided (.ok d)) : Regular d := by
  refine forall_mem_log (P := fun e => ∀ d, e.2 = .decided (.ok d) → Regular d)
    ?_ e he d hd
  intro p call d hd
  cases call with
  | reconcile current previous proofExists invariantOk =>
    exact reconcile_regular (by simpa [step] using hd)
  | commit d => simp [step] at hd

theorem genuine_snoc {call : Call K} : Genuine p (calls ++ [call]) ↔ Genuine p calls ∧
    ∀ d, call = .commit d → ∃ e ∈ log step p calls, e.2 = .decided (.ok d) :=
  throughout_snoc

theorem Genuine.regular (h : Genuine p (calls ++ [.commit d])) : Regular d := by
  obtain ⟨e, he, hd⟩ := (genuine_snoc.mp h).2 d rfl
  exact regular_of_mem_log he hd

@[simp] theorem step_reconcile (current previous : Glyph) (proofExists invariantOk : Bool) :
    (step p (.reconcile current previous proofExists invariantOk)).2 = p := by
  rw [step, reconcile_eq]

/-- The decisions that a history commits, in order. -/
def committed (l : List (Call K × Answer K)) : List (ReconciliationDecision K) :=
  l.filterMap fun
    | (.commit d, .committed (.ok _)) => some d
    | _ => none

/-- A decision takes the state it was made for to the successor in the table. -/
def transitions : Linking (ReconciliationDecision K) Glyph where
  previous := ReconciliationDecision.currentState
  digest d := nextGlyph d.currentState d.previousState

/-- Committing what the protocol decided either takes its state to the successor
and is recorded, or it does neither. -/
theorem commit_regular (hd : Regular d) (l : List (Call K × Answer K)) :
    ((p.commit d).1 = .ok () ∧ (p.commit d).2.getState = transitions.digest d ∧
        committed (l ++ [(.commit d, (step p (.commit d)).1)]) = committed l ++ [d]) ∨
      ((p.commit d).1 ≠ .ok () ∧ (p.commit d).2.getState = p.getState ∧
        committed (l ++ [(.commit d, (step p (.commit d)).1)]) = committed l) := by
  rcases commit_cases p d with ⟨next, ha, hn, he⟩ | ⟨e, ha, he⟩ | ⟨e, ha, hn, he⟩
  · left
    have hnext : next = transitions.digest d := Option.some.inj (hn.symm.trans (hd ha))
    simp [committed, step, he, getState, ReconciliationState.advance, hnext]
  · right
    simp [committed, step, he, getState, ReconciliationState.reject]
  · right
    simp [committed, step, he]

/-- The state of the protocol is where the committed decisions lead. -/
theorem getState_run (h : Genuine p calls) : (run step p calls).getState =
    transitions.tip p.getState (committed (log step p calls)) := by
  induction calls using List.reverseRecOn with
  | nil => rfl
  | append_singleton calls call ih =>
    have ih := ih (genuine_snoc.mp h).1
    rw [run_snoc, log_snoc]
    cases call with
    | reconcile current previous proofExists invariantOk =>
      rw [step_reconcile, ih]
      simp [committed, step]
    | commit d =>
      change ((run step p calls).commit d).2.getState = _
      rcases commit_regular h.regular (log step p calls) with ⟨_, hs, hc⟩ | ⟨_, hs, hc⟩
      · rw [hs, hc, Linking.tip_snoc]
      · rw [hs, hc, ih]

/-- `P` holds of every commit that succeeds, with the states before and after it. -/
def AtCommits (P : Glyph → ReconciliationDecision K → Glyph → Prop)
    (p : ReconciliationProtocol K) (calls : List (Call K)) : Prop :=
  Throughout (fun earlier call => ∀ d, call = .commit d →
    ((run step p earlier).commit d).1 = .ok () →
      P (run step p earlier).getState d ((run step p earlier).commit d).2.getState) calls

/-- A commit that succeeds takes the state to the successor of the decision's own
state, whatever the state is. It finds the decision's own state each time exactly
when the committed decisions follow one another. -/
theorem commits_follow_iff (p : ReconciliationProtocol K) (calls : List (Call K))
    (h : Genuine p calls) :
    AtCommits (fun _ d after =>
      (QRADispatcher.dispatch d.currentState d.previousState).map QRADispatchResult.next =
        .ok after) p calls ∧
    (AtCommits (fun before d _ => before = d.currentState) p calls ↔
      transitions.Linked p.getState (committed (log step p calls))) := by
  induction calls using List.reverseRecOn with
  | nil => exact ⟨throughout_nil, iff_of_true throughout_nil trivial⟩
  | append_singleton calls call ih =>
    have hstate := getState_run (genuine_snoc.mp h).1
    obtain ⟨hafter, hbefore⟩ := ih (genuine_snoc.mp h).1
    unfold AtCommits at hafter hbefore ⊢
    rw [throughout_snoc, throughout_snoc, log_snoc, hbefore]
    cases call with
    | reconcile current previous proofExists invariantOk =>
      simp [hafter, committed, step]
    | commit d =>
      rcases commit_regular h.regular (log step p calls) with ⟨hok, hs, hc⟩ | ⟨hok, hs, hc⟩
      · rw [hc, Linking.linked_snoc, ← hstate]
        refine ⟨⟨hafter, ?_⟩, and_congr_right' ⟨?_, ?_⟩⟩
        · intro d' hd _
          cases hd
          rw [hs, QRADispatcher.dispatch_eq]
          rfl
        · intro hb
          exact (hb d rfl hok).symm
        · intro hb d' hd _
          cases hd
          exact hb.symm
      · rw [hc]
        refine ⟨⟨hafter, ?_⟩, and_iff_left ?_⟩
        · intro d' hd hok'
          cases hd
          exact absurd hok' hok
        · intro d' hd hok'
          cases hd
          exact absurd hok' hok

/-- What the protocol makes of a step from Lambda after Gamma. -/
def toGamma : ReconciliationDecision ℚ :=
  .accept .lambda .gamma .gamma (.finite 0) .accept

/-- Two commits of one decision. -/
def replayed : List (Call ℚ) :=
  [.reconcile .lambda .gamma true true, .commit toGamma, .commit toGamma]

theorem genuine_replayed : Genuine (.new .lambda) replayed := by
  have hd : (new .lambda).reconcile .lambda .gamma true true = (.ok toGamma, new .lambda) :=
    reconcile_accepts (accepts_new .lambda) .lambda .gamma
  have hlog (calls : List (Call ℚ)) :
      (Call.reconcile .lambda .gamma true true, Answer.decided (.ok toGamma)) ∈
        log step (new .lambda) (.reconcile .lambda .gamma true true :: calls) := by
    rw [log, step, hd]
    exact List.mem_cons_self
  change Genuine (.new .lambda) ((([] ++ [_]) ++ [_]) ++ [_])
  rw [genuine_snoc, genuine_snoc, genuine_snoc]
  refine ⟨⟨⟨throughout_nil, by simp⟩, ?_⟩, ?_⟩
  · intro d h
    obtain rfl : d = toGamma := by simpa using h.symm
    exact ⟨_, hlog [], rfl⟩
  · intro d h
    obtain rfl : d = toGamma := by simpa using h.symm
    exact ⟨_, hlog [.commit toGamma], rfl⟩

theorem commits_follow_replayed :
    AtCommits (fun _ d after =>
      (QRADispatcher.dispatch d.currentState d.previousState).map QRADispatchResult.next =
        .ok after) (.new .lambda) replayed ∧
    (AtCommits (fun before d _ => before = d.currentState) (.new .lambda) replayed ↔
      transitions.Linked (ReconciliationProtocol.new (K := ℚ) .lambda).getState
        (committed (log step (.new .lambda) replayed))) :=
  commits_follow_iff _ _ genuine_replayed

theorem replay_is_committed : Genuine (.new .lambda) replayed ∧
    ¬ AtCommits (fun before d after => before = d.currentState ∧
      (QRADispatcher.dispatch d.currentState d.previousState).map QRADispatchResult.next =
        .ok after) (.new .lambda) replayed := by
  refine ⟨genuine_replayed, ?_⟩
  intro h
  have hlast := h [_, _] _ (List.prefix_refl _) _ rfl rfl
  exact absurd hlast.1 (by decide)

end HyperKitty.Runtime.ReconciliationProtocol
