import HyperKitty.Sla.Exact

namespace HyperKitty.Sla

open Exec Bytes Checked Exact

/-- The ways in which ledgers are obtained. -/
inductive Built where
  | new (s : UInt64) (delta omega : Int64)
  | decode (bytes : Vector UInt8 24)
  | compose (l m : Built)
  | evolve (base increment : Built)

namespace Built

/-- An operation on two ledgers, if both have been obtained. -/
def both (f : Ledger → Ledger → Exec Unit (Option Ledger)) :
    Option Ledger → Option Ledger → Exec Unit (Option Ledger)
  | some l, some m => f l m
  | _, _ => pure none

def run (b : Build) : Built → Exec Unit (Option Ledger)
  | new s delta omega => some <$> Ledger.new b s delta omega
  | decode bytes => some <$> Ledger.decode b bytes
  | compose l m => do both (Ledger.compose b) (← l.run b) (← m.run b)
  | evolve base increment => do both (Ledger.evolve b) (← base.run b) (← increment.run b)

/-- The same on exact accounts. -/
def exact : Built → Option Exact
  | new s delta omega => some ⟨(s, delta.toInt), omega⟩
  | decode bytes => (carried bytes).toOption
  | compose l m => do (← l.exact).join (← m.exact)
  | evolve base increment => do (← base.exact).shift (← increment.exact)

/-- The debit of every account on the way has 64 bits, and so has its negative. -/
def Within : Built → Prop
  | new s delta omega => ∀ a ∈ (new s delta omega).exact, Fits .debug a.debit
  | decode bytes => ∀ a ∈ (decode bytes).exact, Fits .debug a.debit
  | compose l m => l.Within ∧ m.Within ∧ ∀ a ∈ (compose l m).exact, Fits .debug a.debit
  | evolve base increment => base.Within ∧ increment.Within ∧
      ∀ a ∈ (evolve base increment).exact, Fits .debug a.debit

variable {b : Build} {t : Built} {a : Exact} {r : Option Ledger}

theorem Within.fits (h : t.Within) : ∀ a ∈ t.exact, Fits .debug a.debit := by
  cases t with
  | new s delta omega => exact h
  | decode bytes => exact h
  | compose l m => exact h.2.2
  | evolve base increment => exact h.2.2

theorem forall_fits_iff {o : Option Exact} :
    (b = .debug → ∀ a ∈ o, Fits .debug a.debit) ↔ ∀ a ∈ o, Fits b a.debit := by
  cases b with
  | debug => exact forall_prop_of_true rfl
  | release => exact iff_of_true nofun fun a _ => fits_release a.debit

theorem checkedOption_eq_ok_iff {o : Option Exact} : checkedOption b o = .ok r ↔
    (b = .debug → ∀ a ∈ o, Fits .debug a.debit) ∧ r = o.map toLedger := by
  rw [checkedOption_eq_ok, forall_fits_iff]

/-- Each way to combine two ledgers combines their accounts. -/
theorem both_toLedger {f : Ledger → Ledger → Exec Unit (Option Ledger)}
    {g : Exact → Exact → Option Exact} {x y : Option Exact}
    (hfg : ∀ a c, Fits b a.debit → Fits b c.debit →
      f a.toLedger c.toLedger = checkedOption b (g a c))
    (hx : ∀ a ∈ x, Fits b a.debit) (hy : ∀ c ∈ y, Fits b c.debit) :
    both f (x.map toLedger) (y.map toLedger) = checkedOption b (do g (← x) (← y)) := by
  cases x with
  | none => rfl
  | some a =>
    cases y with
    | none => rfl
    | some c => exact hfg a c (hx a rfl) (hy c rfl)

/-- What `t` computes are the ledgers of its accounts, up to the first that does not fit. -/
def Computes (b : Build) (t : Built) : Prop :=
  ∀ r, t.run b = .ok r ↔ (b = .debug → t.Within) ∧ r = t.exact.map toLedger

theorem both_eq_ok {f : Ledger → Ledger → Exec Unit (Option Ledger)}
    {g : Exact → Exact → Option Exact} {l m : Built}
    (hfg : ∀ a c, Fits b a.debit → Fits b c.debit →
      f a.toLedger c.toLedger = checkedOption b (g a c))
    (hl : Computes b l) (hm : Computes b m) :
    (do both f (← l.run b) (← m.run b)) = .ok r ↔
      (b = .debug → l.Within ∧ m.Within ∧
        ∀ a ∈ (do g (← l.exact) (← m.exact)), Fits .debug a.debit) ∧
      r = Option.map toLedger (do g (← l.exact) (← m.exact)) := by
  have hboth : (b = .debug → l.Within) → (b = .debug → m.Within) →
      both f (l.exact.map toLedger) (m.exact.map toLedger) =
        checkedOption b (do g (← l.exact) (← m.exact)) := by
    intro hlw hmw
    exact both_toLedger hfg (forall_fits_iff.mp fun hb => (hlw hb).fits)
      (forall_fits_iff.mp fun hb => (hmw hb).fits)
  constructor
  · intro h
    obtain ⟨x, hx, h⟩ := (bind_ok _ _ _).mp h
    obtain ⟨y, hy, h⟩ := (bind_ok _ _ _).mp h
    obtain ⟨hlw, rfl⟩ := (hl x).mp hx
    obtain ⟨hmw, rfl⟩ := (hm y).mp hy
    rw [hboth hlw hmw, checkedOption_eq_ok_iff] at h
    exact ⟨fun hb => ⟨hlw hb, hmw hb, h.1 hb⟩, h.2⟩
  · intro h
    obtain ⟨hw, hr⟩ := h
    have hlw := fun hb => (hw hb).1
    have hmw := fun hb => (hw hb).2.1
    rw [(hl _).mpr ⟨hlw, rfl⟩, ok_bind, (hm _).mpr ⟨hmw, rfl⟩, ok_bind, hboth hlw hmw,
      checkedOption_eq_ok_iff]
    exact ⟨fun hb => (hw hb).2.2, hr⟩

theorem computes (b : Build) (t : Built) : Computes b t := by
  induction t with
  | new s delta omega =>
    intro r
    rw [run, new_eq_checked]
    exact checkedOption_eq_ok_iff (o := some ⟨(s, delta.toInt), omega⟩)
  | decode bytes =>
    intro r
    obtain ⟨l, rfl, -⟩ := exists_encode bytes
    have he : (decode l.encode).exact = some l.exact := by
      rw [exact, carried_encode]
      rfl
    rw [run, decode_encode, Within, he]
    exact checkedOption_eq_ok_iff (o := some l.exact)
  | compose l m hl hm => exact fun r => both_eq_ok (fun a c => compose_toLedger) hl hm
  | evolve base increment hbase hincrement =>
    exact fun r => both_eq_ok (fun a c => evolve_toLedger) hbase hincrement

end Built

/-- Push what is built, if anything; a point that is rejected is left out. -/
def pushOne (b : Build) (sum : LedgerSum) (t : Built) : Exec Unit LedgerSum := do
  match ← t.run b with
  | some l => Prod.snd <$> sum.push b l
  | none => pure sum

def pushBuilt (b : Build) (ts : List Built) : Exec Unit LedgerSum := ts.foldlM (pushOne b) .new

/-- The accounts that are taken in after `as`. -/
def taken (as : List Exact) (ts : List Built) : List Exact :=
  (ts.filterMap Built.exact).foldl Account.taking as

variable {b : Build} {as : List Exact} {a : Exact} {t : Built} {ts : List Built}
  {sum : LedgerSum}

theorem push_snd_toSum (hs : Fits b (Account.total as).2) (ha : Fits b a.debit) :
    Prod.snd <$> (toSum as).push b a.toLedger = checkedSum b (Account.taking as a) := by
  rw [push_toSum hs ha, Account.taking]
  split
  · rw [← comp_map]
    exact id_map _
  · rw [checkedSum_of_fits hs]
    rfl

theorem pushOne_toSum (hs : Fits b (Account.total as).2) (ht : b = .debug → t.Within) :
    pushOne b (toSum as) t = checkedSum b (taken as [t]) := by
  rw [pushOne, (Built.computes b t _).mpr ⟨ht, rfl⟩, ok_bind, taken]
  cases he : t.exact with
  | none =>
    rw [List.filterMap_cons_none he]
    exact (checkedSum_of_fits hs).symm
  | some a =>
    rw [List.filterMap_cons_some he]
    exact push_snd_toSum hs (Built.forall_fits_iff.mp (fun hb => (ht hb).fits) a he)

theorem within_of_pushOne {sum' : LedgerSum} (h : pushOne b sum t = .ok sum') :
    b = .debug → t.Within := by
  obtain ⟨r, hr, -⟩ := (bind_ok _ _ _).mp h
  exact ((Built.computes b t r).mp hr).1

theorem taken_cons (as : List Exact) (t : Built) (ts : List Built) :
    taken as (t :: ts) = taken (taken as [t]) ts := by
  rw [taken, taken, taken, ← List.foldl_append, ← List.filterMap_append]
  rfl

/-- All totals on the way fit, and what is pushed is within the range. -/
def FitsFrom (as : List Exact) (ts : List Built) : Prop :=
  (∀ t ∈ ts, t.Within) ∧ ∀ p, p <+: ts → Fits .debug (Account.total (taken as p)).2

theorem fitsFrom_cons : FitsFrom as (t :: ts) ↔
    Fits .debug (Account.total as).2 ∧ t.Within ∧ FitsFrom (taken as [t]) ts := by
  constructor
  · intro h
    obtain ⟨hts, hp⟩ := h
    obtain ⟨ht, hts⟩ := List.forall_mem_cons.mp hts
    refine ⟨hp [] List.nil_prefix, ht, hts, ?_⟩
    intro p hpre
    rw [← taken_cons]
    exact hp (t :: p) ((List.cons_prefix_cons).mpr ⟨rfl, hpre⟩)
  · intro h
    obtain ⟨has, ht, hts, hp⟩ := h
    refine ⟨List.forall_mem_cons.mpr ⟨ht, hts⟩, ?_⟩
    intro p hpre
    cases p with
    | nil => exact has
    | cons u p =>
      obtain ⟨hu, htail⟩ := (List.cons_prefix_cons).mp hpre
      rw [hu, taken_cons]
      exact hp p htail

theorem FitsFrom.fits (h : FitsFrom as ts) : Fits .debug (Account.total as).2 :=
  h.2 [] List.nil_prefix

/-- A run of pushes succeeds exactly where all totals on the way fit. -/
theorem foldlM_pushOne_eq_ok (hs : Fits b (Account.total as).2) :
    ts.foldlM (pushOne b) (toSum as) = .ok sum ↔
      (b = .debug → FitsFrom as ts) ∧ sum = toSum (taken as ts) := by
  induction ts generalizing as with
  | nil =>
    have hnil : b = .debug → FitsFrom as [] := by
      intro hb
      subst hb
      refine ⟨List.forall_mem_nil _, ?_⟩
      intro p hp
      rwa [List.prefix_nil.mp hp]
    rw [List.foldlM_nil, pure_eq, Except.ok.injEq, and_iff_right hnil]
    exact eq_comm
  | cons t ts ih =>
    rw [List.foldlM_cons, taken_cons]
    constructor
    · intro h
      obtain ⟨sum₁, h₁, h⟩ := (bind_ok _ _ _).mp h
      have ht := within_of_pushOne h₁
      rw [pushOne_toSum hs ht, checkedSum] at h₁
      split at h₁
      · rename_i hf
        cases h₁
        obtain ⟨hrest, hsum⟩ := (ih hf).mp h
        refine ⟨fun hb => ?_, hsum⟩
        subst hb
        exact fitsFrom_cons.mpr ⟨hs, ht rfl, hrest rfl⟩
      · cases h₁
    · intro h
      obtain ⟨hfit, hsum⟩ := h
      have ht : b = .debug → t.Within := fun hb => (fitsFrom_cons.mp (hfit hb)).2.1
      have hrest : b = .debug → FitsFrom (taken as [t]) ts :=
        fun hb => (fitsFrom_cons.mp (hfit hb)).2.2
      have hf : Fits b (Account.total (taken as [t])).2 := by
        cases b with
        | debug => exact (hrest rfl).fits
        | release => exact fits_release _
      rw [pushOne_toSum hs ht, checkedSum_of_fits hf, ok_bind]
      exact (ih hf).mpr ⟨hrest, hsum⟩

theorem pushBuilt_eq_ok : pushBuilt b ts = .ok sum ↔
    (b = .debug → FitsFrom [] ts) ∧ sum = toSum (taken [] ts) := by
  have h : Fits b (Account.total ([] : List Exact)).2 := fun _ => by decide
  exact foldlM_pushOne_eq_ok h

/-- Both builds obtain one ledger, or none, and its halves cancel out exactly. -/
def Built.NoOverflow (t : Built) : Prop :=
  ∃ r, t.run .debug = .ok r ∧ t.run .release = .ok r ∧
    ∀ l ∈ r, l.iota.toInt = -l.delta.toInt ∧ l.reconciliation .debug = .ok 0

/-- Both builds come to one sum, and its halves cancel out exactly. -/
def PushesAgree (ts : List Built) : Prop :=
  ∃ sum, pushBuilt .debug ts = .ok sum ∧ pushBuilt .release ts = .ok sum ∧
    sum.iotaAcc.toInt = -sum.deltaAcc.toInt ∧ sum.isBalanced .debug = .ok true

theorem toInt_halves {n : Int} (h : Fits .debug n) :
    (Int64.ofInt (-n)).toInt = -(Int64.ofInt n).toInt := by
  rw [toInt_ofInt (h rfl).1, toInt_ofInt (h rfl).2]

/-- Ledger arithmetic is exact if and only if every debit on the way, and every total that is
accumulated, has 64 bits together with its negative. -/
theorem exact_iff_within (t : Built) (ts : List Built) :
    (t.NoOverflow ↔ t.Within) ∧
      (PushesAgree ts ↔ (∀ t ∈ ts, t.Within) ∧
        ∀ p, p <+: ts → Fits .debug (Account.total (taken [] p)).2) := by
  constructor
  · constructor
    · intro h
      obtain ⟨r, hr, -⟩ := h
      exact ((Built.computes .debug t r).mp hr).1 rfl
    · intro h
      refine ⟨_, (Built.computes .debug t _).mpr ⟨fun _ => h, rfl⟩,
        (Built.computes .release t _).mpr ⟨nofun, rfl⟩, ?_⟩
      intro l hl
      obtain ⟨a, ha, rfl⟩ := Option.mem_map.mp hl
      exact ⟨toInt_halves (h.fits a ha), reconciliation_toLedger (h.fits a ha)⟩
  · constructor
    · intro h
      obtain ⟨sum, hsum, -⟩ := h
      exact (pushBuilt_eq_ok.mp hsum).1 rfl
    · intro h
      have hlast := h.2 ts (List.prefix_refl ts)
      exact ⟨_, pushBuilt_eq_ok.mpr ⟨fun _ => h, rfl⟩, pushBuilt_eq_ok.mpr ⟨nofun, rfl⟩,
        toInt_halves hlast, isBalanced_toSum hlast⟩

/-- The least integer has no negative: one build panics, the other keeps the sign. -/
theorem not_exact_least :
    Ledger.new .debug 0 Int64.minValue 0 = .error .panic ∧
      Ledger.new .release 0 Int64.minValue 0 =
        .ok ⟨0, Int64.minValue, Int64.minValue, 0⟩ ∧
      ¬ Built.NoOverflow (.new 0 Int64.minValue 0) := by
  refine ⟨rfl, rfl, ?_⟩
  intro h
  obtain ⟨r, hr, -⟩ := h
  cases hr

end HyperKitty.Sla
