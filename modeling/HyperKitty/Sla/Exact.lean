import HyperKitty.Lib.Account
import HyperKitty.Sla.Ledger

namespace HyperKitty.Sla

open Exec Bytes Checked

/-- The hash and the debit are added up, and the witness is the tag. -/
abbrev Exact := Account (UInt64 × Int) Int64

namespace Exact

def debit (a : Exact) : Int := a.amount.2

/-- The ledger of an exact account, cut down to 64 bits. -/
def toLedger (a : Exact) : Ledger := ⟨a.amount.1, .ofInt a.debit, .ofInt (-a.debit), a.tag⟩

/-- The accumulator that has taken in the accounts `as`. -/
def toSum (as : List Exact) : LedgerSum :=
  ⟨(Account.total as).1, .ofInt (Account.total as).2, .ofInt (-(Account.total as).2),
    (Account.tag? as).getD 0, as.length⟩

/-- What is computed for an exact account, with overflow checks where the build has them. -/
def checked (b : Build) (a : Exact) : Exec Unit Ledger :=
  if Fits b a.debit then .ok a.toLedger else .error .panic

def checkedOption (b : Build) : Option Exact → Exec Unit (Option Ledger)
  | some a => some <$> checked b a
  | none => pure none

def checkedSum (b : Build) (as : List Exact) : Exec Unit LedgerSum :=
  if Fits b (Account.total as).2 then .ok (toSum as) else .error .panic

/-- The account that 24 bytes carry. -/
def carried (bytes : Vector UInt8 24) : Exec Unit Exact := do
  let s ← readLe UInt64 bytes.toList 0
  let delta ← readLe Int64 bytes.toList 8
  let omega ← readLe Int64 bytes.toList 16
  pure ⟨(s, delta.toInt), omega⟩

end Exact

open Exact

def Ledger.exact (l : Ledger) : Exact := ⟨(l.s, l.delta.toInt), l.omega⟩

variable {b : Build} {a c : Exact} {as : List Exact} {l : Ledger}

theorem checked_of_fits (h : Fits b a.debit) : checked b a = .ok a.toLedger := if_pos h

/-- The computation succeeds exactly where the debit and its negative have a place. -/
theorem checkedOption_eq_ok {o : Option Exact} {r : Option Ledger} :
    checkedOption b o = .ok r ↔ (∀ a ∈ o, Fits b a.debit) ∧ r = o.map toLedger := by
  cases o with
  | none => simp [checkedOption, eq_comm]
  | some a =>
    by_cases h : Fits b a.debit
    · simp [checkedOption, checked, h, eq_comm]
    · simp [checkedOption, checked, h]

theorem checkedSum_of_fits (h : Fits b (Account.total as).2) :
    checkedSum b as = .ok (toSum as) := if_pos h

/-- The two halves are computed one after the other. -/
theorem checked_eq_bind (a : Exact) : checked b a = (do
    let delta ← result b a.debit
    let iota ← result b (-a.debit)
    pure ⟨a.amount.1, delta, iota, a.tag⟩) :=
  (result_neg fun delta iota => (pure ⟨_, delta, iota, _⟩ : Exec Unit Ledger)).symm

theorem new_eq_checked (s : UInt64) (delta omega : Int64) :
    Ledger.new b s delta omega = checked b ⟨(s, delta.toInt), omega⟩ := by
  have hd : (result b (debit ⟨(s, delta.toInt), omega⟩) : Exec Unit _) = .ok delta := by
    rw [debit, result_ok fun _ => inRange_toInt delta, Int64.ofInt_toInt]
  rw [checked_eq_bind, hd, ok_bind]
  rfl

/-- What the constructor returns is the ledger of an account. -/
theorem exists_of_new {s : UInt64} {delta omega : Int64}
    (h : Ledger.new b s delta omega = .ok l) : ∃ a : Exact, l = a.toLedger ∧ Fits b a.debit := by
  rw [new_eq_checked, checked] at h
  split at h
  · cases h
    exact ⟨_, rfl, ‹_›⟩
  · cases h

/-- Composition joins the accounts, and both halves of a ledger are computed exactly. -/
theorem compose_toLedger (ha : Fits b a.debit) (hc : Fits b c.debit) :
    a.toLedger.compose b c.toLedger = checkedOption b (a.join c) := by
  by_cases ht : a.tag = c.tag
  · have hd : (add b a.toLedger.delta c.toLedger.delta : Exec Unit _) =
        result b (a.debit + c.debit) := add_ofInt fun h => ⟨(ha h).1, (hc h).1⟩
    have hi : (add b a.toLedger.iota c.toLedger.iota : Exec Unit _) =
        result b (-(a.debit + c.debit)) := by
      rw [neg_add]
      exact add_ofInt fun h => ⟨(ha h).2, (hc h).2⟩
    rw [Ledger.compose_of_eq ht, Account.join_of_tag ht, hd, hi]
    simp only [checkedOption, checked_eq_bind, map_bind]
    rfl
  · rw [Ledger.compose_of_ne ht, Account.join, if_neg ht]
    rfl

/-- The two halves of the ledger of an account cancel out. -/
theorem reconciliation_toLedger (ha : Fits b a.debit) :
    a.toLedger.reconciliation b = .ok 0 := add_ofInt_neg ha

theorem isBalanced_toLedger (ha : Fits b a.debit) : a.toLedger.isBalanced b = .ok true := by
  rw [Ledger.isBalanced, reconciliation_toLedger ha]
  rfl

/-- Evolution shifts the account. -/
theorem evolve_toLedger (ha : Fits b a.debit) (hc : Fits b c.debit) :
    a.toLedger.evolve b c.toLedger = checkedOption b (a.shift c) := by
  by_cases ht : c.tag = 0
  · have hd : (add b a.toLedger.delta c.toLedger.delta : Exec Unit _) =
        result b (a.debit + c.debit) := add_ofInt fun h => ⟨(ha h).1, (hc h).1⟩
    have hr := result_bind_neg (b := b) (n := a.debit + c.debit) fun d i =>
      (pure (some ⟨a.toLedger.s + c.toLedger.s, d, i, a.tag⟩) : Exec Unit (Option Ledger))
    rw [Ledger.evolve_of_balanced (reconciliation_toLedger hc) ht, Account.shift, if_pos ht, hd]
    simp only [Ledger.new, checkedOption, checked_eq_bind, map_bind, bind_assoc]
    exact hr
  · rw [Ledger.evolve_of_ne (reconciliation_toLedger hc) (.inr ht), Account.shift, if_neg ht]
    rfl

theorem isBalanced_toSum (hs : Fits b (Account.total as).2) :
    (toSum as).isBalanced b = .ok true := by
  have h : (add b (toSum as).deltaAcc (toSum as).iotaAcc : Exec Unit _) = .ok 0 :=
    add_ofInt_neg hs
  rw [LedgerSum.isBalanced, h]
  rfl

theorem take_toLedger {sum : LedgerSum} {n : Int} (hd : sum.deltaAcc = .ofInt n) (hn : Fits b n)
    (ha : Fits b a.debit) : sum.take b a.toLedger =
      if Fits b (n + a.debit) then
        .ok (some (), ⟨sum.sAcc + a.amount.1, .ofInt (n + a.debit), .ofInt (-(n + a.debit)),
          sum.omega, sum.count + 1⟩)
      else .error .panic := by
  have hadd : (add b sum.deltaAcc a.toLedger.delta : Exec Unit _) = result b (n + a.debit) := by
    rw [hd]
    exact add_ofInt fun h => ⟨(hn h).1, (ha h).1⟩
  rw [LedgerSum.take, hadd, result_bind_neg fun delta iota =>
    (pure (some (), ⟨_, delta, iota, _, _⟩) : Exec Unit (Option Unit × LedgerSum))]
  exact result_neg _

/-- A push takes in what the collection admits, and otherwise changes nothing. -/
theorem push_toSum (hs : Fits b (Account.total as).2) (ha : Fits b a.debit) :
    (toSum as).push b a.toLedger =
      if Account.Admits as a then (fun sum => (some (), sum)) <$> checkedSum b (as ++ [a])
      else .ok (none, toSum as) := by
  have hb := isBalanced_toLedger ha
  have hcheck : ∀ w : Int64, w = (Account.tag? (as ++ [a])).getD 0 →
      LedgerSum.take b { toSum as with omega := w } a.toLedger =
        (fun sum => (some (), sum)) <$> checkedSum b (as ++ [a]) := by
    intro w hw
    have htotal : (Account.total (as ++ [a])).2 = (Account.total as).2 + a.debit := by
      rw [Account.total_append, Account.total_singleton]
      rfl
    rw [take_toLedger rfl hs ha, checkedSum, htotal]
    split
    · subst hw
      simp [toSum, debit]
    · rfl
  cases as with
  | nil =>
    rw [if_pos (Account.admits_nil a), LedgerSum.push_of_empty hb rfl]
    exact hcheck _ rfl
  | cons c as =>
    have hcount : (toSum (c :: as)).count ≠ 0 := Nat.succ_ne_zero _
    by_cases ht : a.tag = c.tag
    · rw [if_pos ((Account.admits_cons c a as).mpr ht), LedgerSum.push_of_omega hb hcount ht]
      exact hcheck _ rfl
    · rw [if_neg (mt (Account.admits_cons c a as).mp ht),
        LedgerSum.push_of_rejected hb (.inr ⟨hcount, ht⟩)]

theorem iota_of_balanced (h : l.isBalanced b = .ok true) : l.iota = -l.delta :=
  eq_neg_of_add_eq_zero (eq_of_beq (Ledger.isBalanced_eq_ok.mp h).1.symm)

/-- With overflow checks a ledger passes for balanced only where it exactly is. -/
theorem toInt_iota (h : l.isBalanced .debug = .ok true) : l.iota.toInt = -l.delta.toInt := by
  obtain ⟨hz, hr⟩ := Ledger.isBalanced_eq_ok.mp h
  have he := toInt_add (hr rfl)
  rw [eq_of_beq hz.symm, Int64.toInt_zero] at he
  omega

/-- A ledger that passes for balanced is the ledger of its own account. -/
theorem toLedger_exact (h : l.isBalanced b = .ok true) :
    l.exact.toLedger = l ∧ Fits b l.exact.debit := by
  constructor
  · rw [toLedger, Int64.ofInt_neg]
    simp only [Ledger.exact, debit, Int64.ofInt_toInt]
    rw [← iota_of_balanced h]
  · intro hb
    subst hb
    have hi := inRange_toInt l.iota
    rw [toInt_iota h] at hi
    exact ⟨inRange_toInt l.delta, hi⟩

theorem exists_of_balanced (h : l.isBalanced b = .ok true) :
    ∃ a : Exact, l = a.toLedger ∧ Fits b a.debit :=
  ⟨l.exact, (toLedger_exact h).1.symm, (toLedger_exact h).2⟩

theorem readLe_delta (l : Ledger) :
    (readLe Int64 l.encode.toList 8 : Exec Unit _) = .ok l.delta := by
  apply readLe_of_prefix (p := toLe l.s) _ (by simp)
  exact ⟨toLe l.omega, by simp [Ledger.encode, Vector.toList]⟩

theorem carried_encode (l : Ledger) : carried l.encode = .ok l.exact := by
  have hs : (readLe UInt64 l.encode.toList 0 : Exec Unit _) = .ok l.s := by
    apply readLe_of_prefix (p := []) _ rfl
    exact ⟨toLe l.delta ++ toLe l.omega, by simp [Ledger.encode, Vector.toList]⟩
  have ho : (readLe Int64 l.encode.toList 16 : Exec Unit _) = .ok l.omega := by
    apply readLe_of_prefix (p := toLe l.s ++ toLe l.delta) _ (by simp)
    exact ⟨[], by simp [Ledger.encode, Vector.toList]⟩
  rw [carried, hs, ok_bind, readLe_delta, ok_bind, ho, ok_bind]
  rfl

/-- Decoding reads the account and computes its ledger. -/
theorem decode_eq_carried (b : Build) (bytes : Vector UInt8 24) :
    Ledger.decode b bytes = carried bytes >>= checked b := by
  simp only [Ledger.decode, carried, new_eq_checked, bind_assoc, pure_bind]

theorem decode_encode (b : Build) (l : Ledger) :
    Ledger.decode b l.encode = checked b l.exact := by
  rw [decode_eq_carried, carried_encode, ok_bind]

theorem decode_of_balanced (h : l.isBalanced b = .ok true) :
    Ledger.decode b l.encode = .ok l := by
  obtain ⟨he, hf⟩ := toLedger_exact h
  rw [decode_encode, checked_of_fits hf, he]

/-- What is decoded from the encoding of a ledger is that ledger. -/
theorem eq_of_decode {m : Ledger} (hl : l.exact.toLedger = l)
    (h : Ledger.decode b l.encode = .ok m) : m = l := by
  rw [decode_encode, checked] at h
  split at h
  · cases h
    exact hl
  · cases h

/-- Any 24 bytes are the encoding of a ledger. -/
theorem exists_encode (bytes : Vector UInt8 24) :
    ∃ l : Ledger, l.encode = bytes ∧ l.exact.toLedger = l := by
  have hlen : bytes.toList.length = 24 := bytes.length_toList
  have hs : ∃ s, (readLe UInt64 bytes.toList 0 : Exec Unit _) = .ok s := readLe_isOk (by simp)
  have hd : ∃ d, (readLe Int64 bytes.toList 8 : Exec Unit _) = .ok d := readLe_isOk (by simp)
  have ho : ∃ o, (readLe Int64 bytes.toList 16 : Exec Unit _) = .ok o := readLe_isOk (by simp)
  obtain ⟨s, hs⟩ := hs
  obtain ⟨delta, hd⟩ := hd
  obtain ⟨omega, ho⟩ := ho
  have hs := prefix_of_readLe hs List.nil_prefix rfl
  have hd := prefix_of_readLe hd hs (by simp)
  have ho := prefix_of_readLe ho hd (by simp)
  have hb := ho.eq_of_length (by simp [hlen])
  refine ⟨⟨s, delta, .ofInt (-delta.toInt), omega⟩, ?_, ?_⟩
  · apply Vector.toList_inj.mp
    rw [← hb]
    simp [Ledger.encode, Vector.toList]
  · simp [Ledger.exact, toLedger, debit]

end HyperKitty.Sla
