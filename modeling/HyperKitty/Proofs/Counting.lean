import HyperKitty.Proofs.Deciding
import HyperKitty.Proofs.Reconciling

namespace HyperKitty

open Machine Outcome HyperKitty.Runtime

variable {K : Type}

namespace Kernel

/-- How the kernel answered a record. -/
def outcome (e : RouteDecision K × KernelResult) : Outcome (UInt8 × F64 K) :=
  if e.2.status = 0 then .accepted (e.1.nextState, e.1.entropy) else .rejected

theorem never_ignored (l : List (RouteDecision K × KernelResult)) :
    (l.map outcome).countP isIgnored = 0 := by
  rw [List.countP_map, List.countP_eq_zero]
  intro e _
  change ¬ (outcome e).isIgnored = true
  unfold outcome
  split
  · exact Bool.false_ne_true
  · exact Bool.false_ne_true

variable [Field K] [LinearOrder K]

/-- The kernel is called on one record after another. -/
def decideRecord (k : KernelState K) (d : RouteDecision K) : KernelResult × KernelState K :=
  kernelDecide k (some d)

/-- The last value that was accepted and the counters fit the answers. -/
def KernelState.Fits (k : KernelState K) (os : List (Outcome (UInt8 × F64 K))) : Prop :=
  Accounts (0xFF, .finite 0) os (k.committedState, k.lastEntropy) k.committedAt
    k.acceptanceCount k.rejectionCount

theorem fits_step {k : KernelState K} {os : List (Outcome (UInt8 × F64 K))} (h : k.Fits os)
    (d : RouteDecision K) :
    (decideRecord k d).2.Fits (os ++ [outcome (d, (decideRecord k d).1)]) := by
  rcases kernelDecide_cases k d with ⟨_, he⟩ | ⟨_, status, gate, hneg, he⟩
  · rw [decideRecord, he]
    exact h.accept (d.nextState, d.entropy)
  · have ho : outcome (d, (rejectAt k status gate d.traceId).1) = .rejected := by
      exact if_neg (Int.ne_of_lt hneg)
    rw [decideRecord, he, ho]
    exact h.reject

theorem fits_run (ds : List (RouteDecision K)) :
    (run decideRecord initial ds).Fits ((log decideRecord initial ds).map outcome) := by
  have hstart : (initial : KernelState K).Fits [] := Accounts.start
  refine run_rule (R := fun l k => KernelState.Fits k (l.map outcome)) hstart ?_ ds
  intro l k d h
  rw [List.map_append]
  exact fits_step h d

theorem accepts_le (ds : List (RouteDecision K)) :
    ∀ c ∈ accepts ((log decideRecord initial ds).map outcome), c.1 ≤ 5 := by
  intro c hc
  rw [accepts, List.filterMap_map, List.mem_filterMap] at hc
  obtain ⟨e, he, hv⟩ := hc
  refine forall_mem_log (P := fun e => ∀ c, value? (outcome e) = some c → c.1 ≤ 5) ?_ e he c hv
  intro k d c hc
  by_cases h : (decideRecord k d).1.status = 0
  · obtain ⟨⟨_, hglyphs, _⟩, _⟩ := status_eq_zero_iff.mp h
    rw [outcome, if_pos h] at hc
    cases hc
    exact (validateGlyphs_iff.mp hglyphs).2.2
  · rw [outcome, if_neg h] at hc
    cases hc

/-- A call that is refused counts one rejection and changes nothing else. -/
theorem refused_unchanged {k : KernelState K} {d : RouteDecision K}
    (h : (kernelDecide k (some d)).1.status < 0) :
    (kernelDecide k (some d)).2 = { k with rejectionCount := k.rejectionCount + 1 } := by
  rcases kernelDecide_cases k d with ⟨_, he⟩ | ⟨_, status, gate, _, he⟩
  · rw [he] at h
    exact absurd h (lt_irrefl 0)
  · rw [he]
    rfl

end Kernel

namespace Runtime.ReconciliationProtocol

/-- How the protocol answered a commit. -/
def outcome? : Call K × Answer K → Option (Outcome (Glyph × F64 K))
  | (.commit d, .committed (.ok _)) =>
    some (match d.nextState with
      | some next => .accepted (next, d.entropy)
      | none => .ignored)
  | (.commit d, .committed (.error _)) => some (if d.accepted then .ignored else .rejected)
  | _ => none

def Call.isCommit : Call K → Bool
  | .commit _ => true
  | _ => false

/-- The commit of a decision that is accepted and yet names no next state. -/
def Call.isVoid : Call K → Bool
  | .commit d => d.accepted && d.nextState.isNone
  | _ => false

/-- A commit that fails may count a rejection and changes nothing else. -/
theorem failed_unchanged {p : ReconciliationProtocol K} {d : ReconciliationDecision K} {e : Error}
    (h : (p.commit d).1 = .error e) :
    (p.commit d).2 = p ∨ (p.commit d).2 = { p with state := p.state.reject } := by
  rcases commit_cases p d with ⟨next, _, _, he⟩ | ⟨_, _, he⟩ | ⟨_, _, _, he⟩
  · rw [he] at h
    cases h
  · exact Or.inr (congrArg Prod.snd he)
  · exact Or.inl (congrArg Prod.snd he)

variable [Field K]

/-- The last value that was accepted and the counters fit the answers, and every
commit got one. -/
structure Fits (initial : Glyph) (calls : List (Call K)) (os : List (Outcome (Glyph × F64 K)))
    (s : ReconciliationState K) : Prop where
  accounts : Accounts (initial, .finite 0) os (s.committedState, s.lastEntropy) s.committedAt
    s.acceptanceCount s.rejectionCount
  answered : os.length = calls.countP Call.isCommit
  ignored : os.countP isIgnored = calls.countP Call.isVoid

theorem Fits.commit {initial : Glyph} {calls : List (Call K)} {os : List (Outcome (Glyph × F64 K))}
    {p : ReconciliationProtocol K} (h : Fits initial calls os p.state)
    (d : ReconciliationDecision K) :
    Fits initial (calls ++ [.commit d])
      (os ++ List.filterMap outcome? [(.commit d, .committed (p.commit d).1)])
      (p.commit d).2.state := by
  rcases commit_cases p d with ⟨next, ha, hn, he⟩ | ⟨e, ha, he⟩ | ⟨e, ha, hn, he⟩
  · have ho : outcome? (.commit d, .committed (.ok ())) = some (.accepted (next, d.entropy)) := by
      simp [outcome?, hn]
    rw [he, List.filterMap_cons_some ho, List.filterMap_nil]
    exact {
      accounts := h.accounts.accept (next, d.entropy)
      answered := by simp [h.answered, Call.isCommit]
      ignored := by simp [h.ignored, Call.isVoid, isIgnored, hn] }
  · have ho : outcome? (.commit d, .committed (.error e)) = some .rejected := by
      simp [outcome?, ha]
    rw [he, List.filterMap_cons_some ho, List.filterMap_nil]
    exact {
      accounts := h.accounts.reject
      answered := by simp [h.answered, Call.isCommit]
      ignored := by simp [h.ignored, Call.isVoid, isIgnored, ha] }
  · have ho : outcome? (.commit d, .committed (.error e)) = some .ignored := by
      simp [outcome?, ha]
    rw [he, List.filterMap_cons_some ho, List.filterMap_nil]
    exact {
      accounts := h.accounts.ignore
      answered := by simp [h.answered, Call.isCommit]
      ignored := by simp [h.ignored, Call.isVoid, isIgnored, ha, hn] }

variable [LinearOrder K]

theorem fits_run (initial : Glyph) (calls : List (Call K)) :
    Fits initial calls ((log step (.new initial) calls).filterMap outcome?)
      (run step (.new initial) calls).state := by
  induction calls using List.reverseRecOn with
  | nil => exact ⟨Accounts.start, rfl, rfl⟩
  | append_singleton calls call ih =>
    rw [log_snoc, List.filterMap_append, run_snoc]
    cases call with
    | reconcile current previous proofExists invariantOk =>
      rw [step_reconcile, List.filterMap_cons_none rfl, List.filterMap_nil, List.append_nil]
      exact {
        accounts := ih.accounts
        answered := by simp [ih.answered, Call.isCommit]
        ignored := by simp [ih.ignored, Call.isVoid] }
    | commit d => exact ih.commit d

theorem Genuine.no_void {p : ReconciliationProtocol K} {calls : List (Call K)}
    (h : Genuine p calls) : calls.countP Call.isVoid = 0 := by
  rw [List.countP_eq_zero]
  intro call hcall hvoid
  obtain ⟨earlier, hearlier⟩ := Throughout.of_mem h hcall
  cases call with
  | reconcile current previous proofExists invariantOk => cases hvoid
  | commit d =>
    obtain ⟨e, he, hd⟩ := hearlier d rfl
    simp only [Call.isVoid, Bool.and_eq_true] at hvoid
    rw [regular_of_mem_log he hd hvoid.1] at hvoid
    cases hvoid.2

end Runtime.ReconciliationProtocol

variable [Field K] [LinearOrder K]

open Kernel ReconciliationProtocol in
/-- After any run of the kernel, and after any run of the protocol, the state is
the last accepted value and every decision is counted once. The one exception is
a decision that is accepted and yet names no next state: the protocol, which never
returns such a decision, does not count it as a rejection. What is refused changes
nothing else. -/
theorem decisions_counted :
    (∀ ds : List (RouteDecision K),
      let k := run decideRecord initial ds
      let os := (log decideRecord initial ds).map outcome
      k.Fits os ∧ k.acceptanceCount + k.rejectionCount = .ofNat ds.length ∧
        ∀ c ∈ accepts os, c.1 ≤ 5) ∧
    (∀ (k : KernelState K) (d : RouteDecision K), (kernelDecide k (some d)).1.status < 0 →
      (kernelDecide k (some d)).2 = { k with rejectionCount := k.rejectionCount + 1 }) ∧
    (∀ (g : Glyph) (calls : List (Call K)),
      let s := (run step (.new g) calls).state
      Fits g calls ((log step (.new g) calls).filterMap outcome?) s ∧
        s.acceptanceCount + s.rejectionCount + .ofNat (calls.countP Call.isVoid) =
          .ofNat (calls.countP Call.isCommit) ∧
        (Genuine (.new g) calls →
          s.acceptanceCount + s.rejectionCount = .ofNat (calls.countP Call.isCommit))) ∧
    (∀ (p : ReconciliationProtocol K) (current previous : Glyph) (proofExists invariantOk : Bool),
      (p.reconcile current previous proofExists invariantOk).2 = p) ∧
    ∀ (p : ReconciliationProtocol K) (d : ReconciliationDecision K) (e : Error),
      (p.commit d).1 = .error e →
        (p.commit d).2 = p ∨ (p.commit d).2 = { p with state := p.state.reject } := by
  refine ⟨?kernel, fun k d => refused_unchanged, ?protocol, ?reconcile,
    fun p d e => failed_unchanged⟩
  case kernel =>
    intro ds
    have hfits := Kernel.fits_run ds
    refine ⟨hfits, ?_, accepts_le ds⟩
    have hcounted := Accounts.counted hfits
    rw [never_ignored, List.length_map, log_length] at hcounted
    simpa using hcounted
  case protocol =>
    intro g calls
    have hfits := ReconciliationProtocol.fits_run g calls
    have hcounted := hfits.accounts.counted
    rw [hfits.ignored, hfits.answered] at hcounted
    refine ⟨hfits, hcounted, ?_⟩
    intro hg
    rw [hg.no_void] at hcounted
    simpa using hcounted
  case reconcile =>
    intro p current previous proofExists invariantOk
    rw [reconcile_eq]

/-- A decision that is accepted and names no next state. -/
def voidDecision : ReconciliationDecision ℚ :=
  { ReconciliationDecision.accept .lambda .gamma .gamma (.finite 0) .accept with
    nextState := none }

open ReconciliationProtocol in
theorem void_commit_uncounted :
    let s := (run step (.new .lambda) [.commit voidDecision]).state
    s.acceptanceCount + s.rejectionCount ≠ .ofNat 1 := by
  decide +kernel

end HyperKitty
