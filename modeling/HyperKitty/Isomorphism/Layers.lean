import HyperKitty.Sla.Ledger

namespace HyperKitty.Isomorphism

open Exec Checked Qlg Sla

/-- The targets the code is built for, by the width of their `usize`. -/
inductive Target where
  | bits32 | bits64
  deriving DecidableEq, Repr

def Target.width : Target → Nat
  | bits32 => 32
  | bits64 => 64

/-- `as usize`, which keeps the low bits. -/
def Target.asUsize (t : Target) (x : Int64) : Nat := x.toUInt64.toNat % 2 ^ t.width

/-- Sphere point to ledger: the debit is the index of the glyph plus one. -/
def qlgToSla (b : Build) (v : Vec3) : Exec Unit (Option Ledger) := do
  if (← v.normSq b) ≠ kQlg then pure none
  else
    match glyphFromVec3 v with
    | none => pure none
    | some g =>
      let delta ← add b (.ofNat g.index) 1
      pure (some (← Ledger.new b (.ofNat g.index) delta kQlg))

def qraToQlg (g : Glyph) : Vec3 := vec3FromGlyph g

/-- Ledger to glyph. The symbolic state hash is not looked at. -/
def slaToQra (b : Build) (t : Target) (l : Ledger) : Exec Unit (Option Glyph) := do
  if !(← l.isBalanced b) then pure none
  else if l.omega ≠ kQlg then pure none
  else
    let idx := t.asUsize (← sub b l.delta 1)
    pure (Glyph.byIndex idx)

/-- The ledger of a glyph. -/
def image (g : Glyph) : Ledger :=
  ⟨.ofNat g.index, .ofNat (g.index + 1), -.ofNat (g.index + 1), 1⟩

theorem qlgToSla_qraToQlg (b : Build) (g : Glyph) :
    qlgToSla b (qraToQlg g) = .ok (some (image g)) := by
  cases b <;> cases g <;> rfl

end HyperKitty.Isomorphism
