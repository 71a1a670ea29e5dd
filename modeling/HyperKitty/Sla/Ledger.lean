import HyperKitty.Lib.LittleEndian
import HyperKitty.Qlg.Sphere

namespace HyperKitty.Sla

open Exec Bytes Checked

/-- The core object: a symbolic state hash, a debit, a credit and an invariant witness. -/
structure Ledger where
  s : UInt64
  delta : Int64
  iota : Int64
  omega : Int64
  deriving DecidableEq, Repr

namespace Ledger

/-- The canonical constructor negates the debit, which may overflow. -/
def new (b : Build) (s : UInt64) (delta omega : Int64) : Exec Unit Ledger := do
  pure ⟨s, delta, ← neg b delta, omega⟩

def identity (b : Build) (omega : Int64) : Exec Unit Ledger := new b 0 0 omega

def reconciliation (b : Build) (self : Ledger) : Exec Unit Int64 := add b self.delta self.iota

def isBalanced (b : Build) (self : Ledger) : Exec Unit Bool := do
  pure ((← self.reconciliation b) == 0)

/-- Binary composition, which requires one omega. -/
def compose (b : Build) (self other : Ledger) : Exec Unit (Option Ledger) := do
  if self.omega ≠ other.omega then pure none
  else
    let delta ← add b self.delta other.delta
    let iota ← add b self.iota other.iota
    pure (some ⟨self.s + other.s, delta, iota, self.omega⟩)

/-- Evolution step by an increment that is balanced and has no omega of its own. -/
def evolve (b : Build) (self increment : Ledger) : Exec Unit (Option Ledger) := do
  if (← add b increment.delta increment.iota) ≠ 0 then pure none
  else if increment.omega ≠ 0 then pure none
  else
    let newDelta ← add b self.delta increment.delta
    pure (some (← new b (self.s + increment.s) newDelta self.omega))

/-- The wire encoding leaves the credit out. -/
def encode (self : Ledger) : Vector UInt8 24 :=
  ⟨(toLe self.s ++ toLe self.delta ++ toLe self.omega).toArray, by simp⟩

def decode (b : Build) (bytes : Vector UInt8 24) : Exec Unit Ledger := do
  let s ← readLe UInt64 bytes.toList 0
  let delta ← readLe Int64 bytes.toList 8
  let omega ← readLe Int64 bytes.toList 16
  new b s delta omega

/-- Apply an operation to one ledger after another, as long as it gives a result. -/
def runAll (f : Ledger → Ledger → Exec Unit (Option Ledger)) (l : Ledger) :
    List Ledger → Exec Unit (Option Ledger)
  | [] => pure (some l)
  | m :: ms => do
    match ← f l m with
    | some r => runAll f r ms
    | none => pure none

/-- The left fold of composition. -/
def composeAll (b : Build) : Ledger → List Ledger → Exec Unit (Option Ledger) :=
  runAll (compose b)

/-- A sequence of evolution steps. -/
def evolveAll (b : Build) : Ledger → List Ledger → Exec Unit (Option Ledger) :=
  runAll (evolve b)

end Ledger

/-- The geometric accumulator. -/
structure LedgerSum where
  sAcc : UInt64
  deltaAcc : Int64
  iotaAcc : Int64
  omega : Int64
  count : Nat
  deriving DecidableEq, Repr

namespace LedgerSum

def new : LedgerSum := ⟨0, 0, 0, 0, 0⟩

/-- Take in a point that has passed the checks. -/
def take (b : Build) (self : LedgerSum) (p : Ledger) : Exec Unit (Option Unit × LedgerSum) := do
  let deltaAcc ← add b self.deltaAcc p.delta
  let iotaAcc ← neg b deltaAcc
  let sAcc := self.sAcc + p.s
  pure (some (), { self with sAcc, deltaAcc, iotaAcc, count := self.count + 1 })

/-- Push a ledger point into the accumulator, unless it is unbalanced or has another omega. -/
def push (b : Build) (self : LedgerSum) (p : Ledger) : Exec Unit (Option Unit × LedgerSum) := do
  if !(← p.isBalanced b) then pure (none, self)
  else if self.count = 0 then take b { self with omega := p.omega } p
  else if p.omega ≠ self.omega then pure (none, self)
  else take b self p

def isBalanced (b : Build) (self : LedgerSum) : Exec Unit Bool := do
  pure ((← add b self.deltaAcc self.iotaAcc) == 0)

/-- The compact wire frame. -/
def encodeWireFrame (self : LedgerSum) : Vector UInt8 4 :=
  let invFlag := (self.omega &&& 0xFF).toUInt64.toUInt8 <<< 4
  let terminal := 0x0A ||| invFlag
  let delta := self.deltaAcc.toUInt64.toUInt8
  let primitives := (delta &&& 0x0F) ||| (-delta &&& 0xF0)
  #v[primitives, 0x0F, 0xFF, terminal]

end LedgerSum

namespace Ledger

variable {b : Build} {s : UInt64} {delta omega : Int64} {l m r : Ledger} {z : Int64} {t : Bool}

theorem new_eq_ok : new b s delta omega = .ok r ↔
    r = ⟨s, delta, -delta, omega⟩ ∧ (b = .debug → InRange (-delta.toInt)) := by
  rw [new, bind_ok]
  constructor
  · intro h
    obtain ⟨z, hz, hr⟩ := h
    obtain ⟨rfl, hin⟩ := neg_eq_ok.mp hz
    cases hr
    exact ⟨rfl, hin⟩
  · intro h
    obtain ⟨rfl, hin⟩ := h
    exact ⟨-delta, neg_eq_ok.mpr ⟨rfl, hin⟩, rfl⟩

theorem isBalanced_eq_ok : l.isBalanced b = .ok t ↔
    t = (l.delta + l.iota == 0) ∧ (b = .debug → InRange (l.delta.toInt + l.iota.toInt)) := by
  rw [isBalanced, bind_ok]
  constructor
  · intro h
    obtain ⟨z, hz, ht⟩ := h
    obtain ⟨rfl, hin⟩ := add_eq_ok.mp hz
    cases ht
    exact ⟨rfl, hin⟩
  · intro h
    obtain ⟨rfl, hin⟩ := h
    exact ⟨_, add_eq_ok.mpr ⟨rfl, hin⟩, rfl⟩

theorem runAll_cons_eq_some {f : Ledger → Ledger → Exec Unit (Option Ledger)} {ms : List Ledger} :
    runAll f l (m :: ms) = .ok (some r) ↔
      ∃ k, f l m = .ok (some k) ∧ runAll f k ms = .ok (some r) := by
  rw [runAll, bind_ok]
  constructor
  · intro h
    obtain ⟨_ | k, hk, hr⟩ := h
    · cases hr
    · exact ⟨k, hk, hr⟩
  · intro h
    obtain ⟨k, hk, hr⟩ := h
    exact ⟨some k, hk, hr⟩

theorem compose_of_ne (h : l.omega ≠ m.omega) : l.compose b m = .ok none := if_pos h

theorem compose_of_eq (h : l.omega = m.omega) : l.compose b m = (do
    let delta ← add b l.delta m.delta
    let iota ← add b l.iota m.iota
    pure (some ⟨l.s + m.s, delta, iota, l.omega⟩)) := if_neg (not_not.mpr h)

/-- Evolution by a balanced increment without omega. -/
theorem evolve_of_balanced (h : m.reconciliation b = .ok 0) (ho : m.omega = 0) :
    l.evolve b m = (do
      let newDelta ← add b l.delta m.delta
      pure (some (← new b (l.s + m.s) newDelta l.omega))) := by
  rw [reconciliation] at h
  rw [evolve, h, ok_bind, if_neg (not_not.mpr rfl), if_neg (not_not.mpr ho)]

theorem evolve_of_ne (h : m.reconciliation b = .ok z) (ho : z ≠ 0 ∨ m.omega ≠ 0) :
    l.evolve b m = .ok none := by
  rw [reconciliation] at h
  rw [evolve, h, ok_bind]
  by_cases hz : z = 0
  · rw [if_neg (not_not.mpr hz), if_pos (ho.resolve_left (not_not.mpr hz))]
    rfl
  · rw [if_pos hz]
    rfl

/-- An increment that is accepted is balanced and has no omega. -/
theorem accepted_of_evolve (h : l.evolve b m = .ok (some r)) :
    m.isBalanced b = .ok true ∧ m.omega = 0 := by
  obtain ⟨z, hz, h⟩ := (bind_ok _ _ _).mp h
  split at h
  · cases h
  · rename_i hz0
    split at h
    · cases h
    · rename_i ho
      rw [isBalanced, reconciliation, hz, not_not.mp hz0]
      exact ⟨rfl, not_not.mp ho⟩

end Ledger

namespace LedgerSum

variable {b : Build} {sum : LedgerSum} {p : Ledger}

/-- A push that is rejected leaves the accumulator as it was. -/
theorem push_of_rejected {t : Bool} (h : p.isBalanced b = .ok t)
    (hr : t = false ∨ sum.count ≠ 0 ∧ p.omega ≠ sum.omega) :
    sum.push b p = .ok (none, sum) := by
  rw [push, h, ok_bind]
  cases t with
  | false => rfl
  | true =>
    obtain ⟨hc, ho⟩ := hr.resolve_left nofun
    rw [Bool.not_true, if_neg nofun, if_neg hc, if_pos ho]
    rfl

theorem push_of_empty (h : p.isBalanced b = .ok true) (hc : sum.count = 0) :
    sum.push b p = take b { sum with omega := p.omega } p := by
  rw [push, h, ok_bind, Bool.not_true, if_neg nofun, if_pos hc]

theorem push_of_omega (h : p.isBalanced b = .ok true) (hc : sum.count ≠ 0)
    (ho : p.omega = sum.omega) : sum.push b p = take b sum p := by
  rw [push, h, ok_bind, Bool.not_true, if_neg nofun, if_neg hc, if_neg (not_not.mpr ho)]

end LedgerSum

end HyperKitty.Sla
