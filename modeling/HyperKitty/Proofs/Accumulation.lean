import HyperKitty.Sla.Exact
import HyperKitty.Wasm.Ledgers

namespace HyperKitty.Sla

open Exec Bytes Checked Exact Wasm Ledger

/-- Push points one by one, up to the first that is rejected. -/
def pushAll (b : Build) : List Ledger → LedgerSum → Exec Unit (Option Unit × LedgerSum)
  | [], sum => pure (some (), sum)
  | p :: ps, sum => do
    match ← sum.push b p with
    | (some (), sum) => pushAll b ps sum
    | (none, sum) => pure (none, sum)

variable {b : Build} {a : Exact} {as cs : List Exact} {w : Int64} {l : Ledger}
  {ls : List Ledger} {sum : LedgerSum} {out bytes : List UInt8}

theorem composeAll_toLedger (ha : Fits b a.debit) (htag : ∀ c ∈ cs, c.tag = a.tag)
    (hcs : ∀ c ∈ cs, Fits b c.debit) (hfit : ∀ p, p <+: cs → Fits b (debit (a.extend p))) :
    composeAll b a.toLedger (cs.map toLedger) = .ok (some (toLedger (a.extend cs))) := by
  induction cs generalizing a with
  | nil => rw [Account.extend_nil]; rfl
  | cons c cs ih =>
    obtain ⟨hc, hcs⟩ := List.forall_mem_cons.mp hcs
    obtain ⟨ht, htag⟩ := List.forall_mem_cons.mp htag
    let r : Exact := ⟨a.amount + c.amount, a.tag⟩
    have hr : Fits b r.debit := by
      have h := hfit [c] ⟨cs, rfl⟩
      rwa [Account.extend_cons, Account.extend_nil] at h
    have hcompose : a.toLedger.compose b c.toLedger = .ok (some r.toLedger) := by
      rw [compose_toLedger ha hc, Account.join_of_tag ht.symm]
      exact congrArg (some <$> ·) (checked_of_fits hr)
    rw [List.map_cons, Account.extend_cons, composeAll, runAll_cons_eq_some]
    refine ⟨_, hcompose, ?_⟩
    apply ih hr htag hcs
    intro p hp
    have h := hfit (c :: p) ((List.cons_prefix_cons).mpr ⟨rfl, hp⟩)
    rwa [Account.extend_cons] at h

theorem pushAll_toSum (hs : Fits b (Account.total as).2) (has : ∀ c ∈ as, c.tag = w)
    (htag : ∀ c ∈ cs, c.tag = w) (hcs : ∀ c ∈ cs, Fits b c.debit)
    (hfit : ∀ p, p <+: cs → Fits b (Account.total (as ++ p)).2) :
    pushAll b (cs.map toLedger) (toSum as) = .ok (some (), toSum (as ++ cs)) := by
  induction cs generalizing as with
  | nil => rw [List.append_nil]; rfl
  | cons c cs ih =>
    obtain ⟨hc, hcs⟩ := List.forall_mem_cons.mp hcs
    obtain ⟨ht, htag⟩ := List.forall_mem_cons.mp htag
    have hr := hfit [c] ⟨cs, rfl⟩
    have hpush : (toSum as).push b c.toLedger = .ok (some (), toSum (as ++ [c])) := by
      rw [push_toSum hs hc, if_pos (Account.admits_of_tag has ht), checkedSum_of_fits hr]
      rfl
    have happ : ∀ p, as ++ [c] ++ p = as ++ c :: p := by simp
    rw [List.map_cons, pushAll, hpush, ← happ cs]
    apply ih hr _ htag hcs
    · intro p hp
      rw [happ]
      exact hfit (c :: p) ((List.cons_prefix_cons).mpr ⟨rfl, hp⟩)
    · intro d hd
      rcases List.mem_append.mp hd with hd | hd
      · exact has d hd
      · rw [List.mem_singleton.mp hd, ht]

/-- The concatenated encodings of ledgers. -/
def wire (ls : List Ledger) : List UInt8 := ls.flatMap fun l => l.encode.toList

/-- The wire frame of a run of pushes, which is empty where one of them failed. -/
def frameOrEmpty : Option Unit × LedgerSum → List UInt8
  | (some (), sum) => sum.encodeWireFrame.toList
  | (none, _) => []

theorem length_wire (ls : List Ledger) : (wire ls).length = 24 * ls.length := by
  induction ls with
  | nil => rfl
  | cons l ls ih =>
    have hl : l.encode.toList.length = 24 := l.encode.length_toList
    rw [wire, List.flatMap_cons, List.length_append, hl, ← wire, ih, List.length_cons]
    omega

theorem chunksExact_wire (ls : List Ledger) :
    chunksExact 24 (wire ls) = ls.map fun l => l.encode.toList := by
  induction ls with
  | nil => exact chunksExact_of_length_lt (by decide)
  | cons l ls ih =>
    rw [wire, List.flatMap_cons, chunksExact_append l.encode.length_toList (by decide), ← wire, ih,
      List.map_cons]

/-- Bytes without a remainder are the encodings of ledgers. -/
theorem exists_wire (h : bytes.length % 24 = 0) :
    ∃ ls, bytes = wire ls ∧ ∀ l ∈ ls, l.exact.toLedger = l := by
  induction hn : bytes.length / 24 generalizing bytes with
  | zero =>
    have hb : bytes = [] := List.eq_nil_of_length_eq_zero (by omega)
    exact ⟨[], hb, List.forall_mem_nil _⟩
  | succ n ih =>
    have ht : (bytes.take 24).length = 24 := by
      rw [List.length_take]
      omega
    have hd : (bytes.drop 24).length = bytes.length - 24 := List.length_drop
    obtain ⟨l, hl, hc⟩ := exists_encode ⟨(bytes.take 24).toArray, by simpa using ht⟩
    have hrest : ∃ ls, bytes.drop 24 = wire ls ∧ ∀ l ∈ ls, l.exact.toLedger = l := by
      apply ih
      · omega
      · omega
    obtain ⟨ls, hls, hcs⟩ := hrest
    refine ⟨l :: ls, ?_, List.forall_mem_cons.mpr ⟨hc, hcs⟩⟩
    rw [wire, List.flatMap_cons, ← wire, ← hls, hl]
    simp [Vector.toList]

theorem readArray_chunk (l : Ledger) :
    (readArray 24 l.encode.toList 0 : Exec Unit _) = .ok l.encode := by
  have h := readArray_encode l []
  rwa [List.append_nil] at h

/-- The loop over the chunks is the run of pushes. -/
theorem accumulate_encodings (h : ∀ l ∈ ls, Ledger.decode b l.encode = .ok l) :
    accumulate b (ls.map fun l => l.encode.toList) sum = frameOrEmpty <$> pushAll b ls sum := by
  induction ls generalizing sum with
  | nil => rfl
  | cons l ls ih =>
    obtain ⟨hl, h⟩ := List.forall_mem_cons.mp h
    rw [List.map_cons, accumulate, readArray_chunk, ok_bind, hl, ok_bind, pushAll]
    cases hp : sum.push b l with
    | error e => rfl
    | ok r =>
      obtain ⟨_ | ⟨⟨⟩⟩, sum'⟩ := r
      · rfl
      · exact ih h

theorem slaAccumulate_wire (h : ∀ l ∈ ls, Ledger.decode b l.encode = .ok l) :
    slaAccumulate b (wire ls) = frameOrEmpty <$> pushAll b ls .new := by
  have hlen : (wire ls).length % 24 = 0 := by
    rw [length_wire]
    exact Nat.mul_mod_right 24 _
  rw [slaAccumulate, if_neg (not_not.mpr hlen), chunksExact_wire, accumulate_encodings h]

/-- Where the loop over the chunks comes to an end, so does the run of pushes. -/
theorem pushAll_of_accumulate (hls : ∀ l ∈ ls, l.exact.toLedger = l)
    (h : accumulate b (ls.map fun l => l.encode.toList) sum = .ok out) :
    ∃ r, pushAll b ls sum = .ok r ∧ frameOrEmpty r = out := by
  induction ls generalizing sum with
  | nil =>
    cases h
    exact ⟨_, rfl, rfl⟩
  | cons l ls ih =>
    obtain ⟨hl, hls⟩ := List.forall_mem_cons.mp hls
    rw [List.map_cons, accumulate, readArray_chunk, ok_bind, bind_ok] at h
    obtain ⟨m, hm, h⟩ := h
    cases eq_of_decode hl hm
    obtain ⟨⟨r, sum'⟩, hp, h⟩ := (bind_ok _ _ _).mp h
    rw [pushAll, hp]
    cases r with
    | none =>
      cases h
      exact ⟨_, rfl, rfl⟩
    | some u => exact ih hls h

theorem frameOrEmpty_eq_nil {r : Option Unit × LedgerSum} : frameOrEmpty r = [] ↔ r.1 = none := by
  obtain ⟨_ | ⟨⟨⟩⟩, sum⟩ := r
  · exact iff_of_true rfl rfl
  · apply iff_of_false _ nofun
    intro h
    cases congrArg List.length h

/-- The frame is empty for a bad length, or where a push fails. -/
theorem slaAccumulate_eq_nil (h : slaAccumulate b bytes = .ok out) :
    out = [] ↔ bytes.length % 24 ≠ 0 ∨ ∃ ls sum, bytes = wire ls ∧
      (∀ l ∈ ls, l.iota = -l.delta) ∧ pushAll b ls .new = .ok (none, sum) := by
  have hcanon : ∀ l : Ledger, l.exact.toLedger = l ↔ l.iota = -l.delta := by
    intro l
    cases l
    simp [toLedger, Ledger.exact, debit, eq_comm]
  unfold slaAccumulate at h
  split at h
  · rename_i hlen
    cases h
    exact iff_of_true rfl (.inl hlen)
  · rename_i hlen
    rw [or_iff_right hlen]
    constructor
    · intro ho
      obtain ⟨ls, rfl, hls⟩ := exists_wire (not_not.mp hlen)
      rw [chunksExact_wire] at h
      obtain ⟨⟨_, sum⟩, hr, hf⟩ := pushAll_of_accumulate hls h
      cases frameOrEmpty_eq_nil.mp (hf.trans ho)
      exact ⟨ls, sum, rfl, fun l hl => (hcanon l).mp (hls l hl), hr⟩
    · intro hp
      obtain ⟨ls, sum, rfl, hls, hp⟩ := hp
      rw [chunksExact_wire] at h
      obtain ⟨r, hr, hf⟩ := pushAll_of_accumulate (fun l hl => (hcanon l).mpr (hls l hl)) h
      rw [hp] at hr
      cases hr
      exact hf.symm

theorem total_exact (ls : List Ledger) :
    (Account.total (ls.map Ledger.exact)).2 = (ls.map fun l => l.delta.toInt).sum := by
  induction ls with
  | nil => rfl
  | cons l ls ih =>
    rw [List.map_cons, List.map_cons, List.sum_cons, ← ih]
    rfl

theorem sum_iota (h : ∀ l ∈ ls, l.isBalanced .debug = .ok true) :
    (ls.map fun l => l.iota.toInt).sum = -(ls.map fun l => l.delta.toInt).sum := by
  induction ls with
  | nil => rfl
  | cons l ls ih =>
    obtain ⟨hl, h⟩ := List.forall_mem_cons.mp h
    rw [List.map_cons, List.map_cons, List.sum_cons, List.sum_cons, ih h, toInt_iota hl]
    omega

/-- Balanced ledgers keep within bounds where their debits and their credits do. -/
theorem fits_total (hls : ∀ l ∈ ls, l.isBalanced b = .ok true)
    (h : b = .debug → ∀ p, p <+: ls → InRange (p.map fun l => l.delta.toInt).sum ∧
      InRange (p.map fun l => l.iota.toInt).sum) :
    ∀ p, p <+: ls.map Ledger.exact → Fits b (Account.total p).2 := by
  intro p hp hb
  subst hb
  obtain ⟨ls', hls', rfl⟩ : ∃ ls', ls' <+: ls ∧ p = ls'.map Ledger.exact := by
    refine ⟨ls.take p.length, List.take_prefix _ _, ?_⟩
    rw [List.map_take]
    exact List.prefix_iff_eq_take.mp hp
  have hneg := sum_iota fun l hl => hls l (hls'.subset hl)
  rw [total_exact, ← hneg]
  exact h rfl ls' hls'

theorem map_toLedger_exact (h : ∀ l ∈ ls, l.isBalanced b = .ok true) :
    (ls.map Ledger.exact).map toLedger = ls := by
  rw [List.map_map]
  exact (List.map_congr_left fun l hl => (toLedger_exact (h l hl)).1).trans (List.map_id ls)

theorem fits_debit (h : ∀ l ∈ ls, l.isBalanced b = .ok true) :
    ∀ c ∈ ls.map Ledger.exact, Fits b (debit c) := by
  rw [List.forall_mem_map]
  exact fun l hl => (toLedger_exact (h l hl)).2

theorem composeAll_of_balanced {ms : List Ledger}
    (hl : ∀ m ∈ l :: ms, m.isBalanced b = .ok true) (ho : ∀ m ∈ l :: ms, m.omega = l.omega)
    (hfit : ∀ p, p <+: (l :: ms).map Ledger.exact → Fits b (Account.total p).2) :
    composeAll b l ms = .ok (some (toLedger (l.exact.extend (ms.map Ledger.exact)))) := by
  obtain ⟨hl, hms⟩ := List.forall_mem_cons.mp hl
  obtain ⟨he, hf⟩ := toLedger_exact hl
  have htag : ∀ c ∈ ms.map Ledger.exact, c.tag = l.omega := by
    rw [List.forall_mem_map]
    exact fun m hm => ho m (List.mem_cons_of_mem l hm)
  have hfits : ∀ p, p <+: ms.map Ledger.exact → Fits b (debit (l.exact.extend p)) := by
    intro p hp
    rw [debit, Account.amount_extend]
    exact hfit (l.exact :: p) ((List.cons_prefix_cons).mpr ⟨rfl, hp⟩)
  have h := composeAll_toLedger hf htag (fits_debit hms) hfits
  rwa [he, map_toLedger_exact hms] at h

theorem pushAll_of_balanced (hls : ∀ l ∈ ls, l.isBalanced b = .ok true)
    (ho : ∀ l ∈ ls, l.omega = w)
    (hfit : ∀ p, p <+: ls.map Ledger.exact → Fits b (Account.total p).2) :
    pushAll b ls .new = .ok (some (), toSum (ls.map Ledger.exact)) := by
  have h := pushAll_toSum (hfit [] List.nil_prefix) (List.forall_mem_nil _)
    (List.forall_mem_map.mpr ho) (fits_debit hls) hfit
  rwa [map_toLedger_exact hls] at h

/-- Pushing balanced ledgers of one omega in any order comes to what their composition does.
A push that is rejected changes nothing, and the entry point returns the frame of the pushes. -/
theorem accumulation_agrees (b : Build) :
    (∀ (l : Ledger) (ms ls : List Ledger), (l :: ms).Perm ls →
      (∀ m ∈ l :: ms, m.isBalanced b = .ok true ∧ m.omega = l.omega) →
      (b = .debug → ∀ p, p <+: l :: ms ∨ p <+: ls →
        InRange (p.map fun m => m.delta.toInt).sum ∧
          InRange (p.map fun m => m.iota.toInt).sum) →
      ∃ r sum, composeAll b l ms = .ok (some r) ∧ pushAll b ls .new = .ok (some (), sum) ∧
        sum.sAcc = r.s ∧ sum.deltaAcc = r.delta ∧ sum.omega = r.omega ∧
        sum.iotaAcc = -sum.deltaAcc ∧ sum.count = ls.length ∧ sum.isBalanced b = .ok true ∧
        slaAccumulate b (wire ls) = .ok sum.encodeWireFrame.toList) ∧
    (∀ (sum : LedgerSum) (p : Ledger) (t : Bool), p.isBalanced b = .ok t →
      t = false ∨ sum.count ≠ 0 ∧ p.omega ≠ sum.omega → sum.push b p = .ok (none, sum)) ∧
    ∀ bytes out, slaAccumulate b bytes = .ok out →
      (out = [] ↔ bytes.length % 24 ≠ 0 ∨ ∃ ls sum, bytes = wire ls ∧
        (∀ l ∈ ls, l.iota = -l.delta) ∧ pushAll b ls .new = .ok (none, sum)) := by
  refine ⟨?_, fun sum p t hb hr => LedgerSum.push_of_rejected hb hr,
    fun bytes out h => slaAccumulate_eq_nil h⟩
  intro l ms ls hperm hl hfit
  have hms : ∀ m ∈ l :: ms, m.isBalanced b = .ok true := fun m hm => (hl m hm).1
  have hls : ∀ m ∈ ls, m.isBalanced b = .ok true := fun m hm => hms m (hperm.mem_iff.mpr hm)
  have hms_fit := fits_total hms fun hb p hp => hfit hb p (.inl hp)
  have hls_fit := fits_total hls fun hb p hp => hfit hb p (.inr hp)
  have hcompose := composeAll_of_balanced hms (fun m hm => (hl m hm).2) hms_fit
  have hpush := pushAll_of_balanced hls (fun m hm => (hl m (hperm.mem_iff.mpr hm)).2) hls_fit
  have htotal : Account.total (ls.map Ledger.exact) =
      (l.exact.extend (ms.map Ledger.exact)).amount := by
    rw [Account.amount_extend]
    exact (Account.total_perm (hperm.map Ledger.exact)).symm
  have hframe := slaAccumulate_wire fun m hm => decode_of_balanced (hls m hm)
  rw [hpush] at hframe
  refine ⟨_, _, hcompose, hpush, ?_, ?_, ?_, Int64.ofInt_neg _, List.length_map _, ?_, hframe⟩
  · rw [toSum, toLedger, htotal]
  · rw [toSum, toLedger, debit, htotal]
  · obtain ⟨k, ks, rfl⟩ : ∃ k ks, ls = k :: ks :=
      List.exists_cons_of_ne_nil fun h => List.cons_ne_nil l ms (hperm.trans (by rw [h])).eq_nil
    exact (hl k (hperm.mem_iff.mpr List.mem_cons_self)).2
  · exact isBalanced_toSum (hls_fit _ (List.prefix_refl _))

/-- Two ledgers, pushed the other way round. -/
theorem accumulation_agrees_two :
    ∃ r sum, composeAll .debug ⟨1, 5, -5, 66⟩ [⟨2, -3, 3, 66⟩] = .ok (some r) ∧
      pushAll .debug [⟨2, -3, 3, 66⟩, ⟨1, 5, -5, 66⟩] .new = .ok (some (), sum) ∧
      sum.sAcc = r.s ∧ sum.deltaAcc = r.delta ∧ sum.omega = r.omega ∧
      sum.iotaAcc = -sum.deltaAcc ∧ sum.count = 2 ∧ sum.isBalanced .debug = .ok true ∧
      slaAccumulate .debug (wire [⟨2, -3, 3, 66⟩, ⟨1, 5, -5, 66⟩]) =
        .ok sum.encodeWireFrame.toList := by
  apply (accumulation_agrees .debug).1 _ _ _ (.swap _ _ _)
  · decide
  · intro _ p hp
    rcases hp with hp | hp
    all_goals
      rw [← List.mem_inits] at hp
      revert p
      decide

end HyperKitty.Sla
