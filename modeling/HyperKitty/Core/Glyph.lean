import HyperKitty.Lib.Floating

namespace HyperKitty

/-- Maximum allowed entropy for validity. -/
def maxEntropy {K : Type*} [Field K] : F64 K := .finite 0.20

/-- The six glyph symbols. -/
inductive Glyph where
  | pi | gamma | delta | omega | lambda | psi
  deriving DecidableEq, Repr

namespace Glyph

def toByte : Glyph → UInt8
  | pi => 0x01
  | gamma => 0x03
  | delta => 0x04
  | omega => 0x0A
  | lambda => 0xFF
  | psi => 0x0B

def fromByte : UInt8 → Option Glyph
  | 0x01 => some pi
  | 0x03 => some gamma
  | 0x04 => some delta
  | 0x0A => some omega
  | 0xFF => some lambda
  | 0x0B => some psi
  | _ => none

def index : Glyph → Nat
  | pi => 0
  | gamma => 1
  | delta => 2
  | omega => 3
  | lambda => 4
  | psi => 5

def byIndex : Nat → Option Glyph
  | 0 => some pi
  | 1 => some gamma
  | 2 => some delta
  | 3 => some omega
  | 4 => some lambda
  | 5 => some psi
  | _ => none

def isAbsorber (g : Glyph) : Bool := g = omega

def isIdentity (g : Glyph) : Bool := g = lambda

def name : Glyph → String
  | pi => "Pi"
  | gamma => "Gamma"
  | delta => "Delta"
  | omega => "Omega"
  | lambda => "Lambda"
  | psi => "Psi"

theorem index_lt (g : Glyph) : g.index < 6 := by
  cases g <;> decide

theorem byIndex_isSome (i : Fin 6) : (byIndex i).isSome = true := by
  revert i
  decide

@[simp] theorem byIndex_index (g : Glyph) : byIndex g.index = some g := by
  cases g <;> rfl

/-- The index of a glyph is that of no other one. -/
theorem byIndex_eq_some {n : Nat} {g : Glyph} : byIndex n = some g ↔ n = g.index := by
  constructor
  · intro h
    unfold byIndex at h
    split at h
    all_goals cases h
    all_goals rfl
  · intro h
    rw [h, byIndex_index]

@[simp] theorem fromByte_toByte (g : Glyph) : fromByte g.toByte = some g := by
  cases g <;> rfl

/-- The byte of a glyph, read as an index, is not that glyph. -/
theorem byIndex_toByte_ne (g : Glyph) : byIndex g.toByte.toNat ≠ some g := by
  cases g <;> decide

end Glyph

end HyperKitty
