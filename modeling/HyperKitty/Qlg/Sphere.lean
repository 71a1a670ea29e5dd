import HyperKitty.Core.Glyph
import HyperKitty.Lib.Checked

namespace HyperKitty.Qlg

open Exec Checked

structure Vec3 where
  x : Int64
  y : Int64
  z : Int64
  deriving DecidableEq, Repr

def kQlg : Int64 := 1

def Vec3.normSq (b : Build) (v : Vec3) : Exec Unit Int64 := do
  let xy ← add b (← mul b v.x v.x) (← mul b v.y v.y)
  add b xy (← mul b v.z v.z)

def vec3FromGlyph : Glyph → Vec3
  | .pi => ⟨1, 0, 0⟩
  | .gamma => ⟨-1, 0, 0⟩
  | .delta => ⟨0, 1, 0⟩
  | .psi => ⟨0, -1, 0⟩
  | .lambda => ⟨0, 0, 1⟩
  | .omega => ⟨0, 0, -1⟩

def glyphFromVec3 (v : Vec3) : Option Glyph :=
  if v = ⟨1, 0, 0⟩ then some .pi
  else if v = ⟨-1, 0, 0⟩ then some .gamma
  else if v = ⟨0, 1, 0⟩ then some .delta
  else if v = ⟨0, -1, 0⟩ then some .psi
  else if v = ⟨0, 0, 1⟩ then some .lambda
  else if v = ⟨0, 0, -1⟩ then some .omega
  else none

structure QLGCertificate where
  point : Vec3
  normSq : Int64
  isValid : Bool
  deriving DecidableEq, Repr

def QLGCertificate.new (b : Build) (p : Vec3) : Exec Unit QLGCertificate := do
  let ns ← p.normSq b
  pure ⟨p, ns, ns == kQlg⟩

def QLGCertificate.validate (c : QLGCertificate) : Bool := c.normSq == kQlg && c.isValid

/-- The sphere has a point for each glyph, and no two of them share one. -/
theorem glyphFromVec3_eq_some {v : Vec3} {g : Glyph} :
    glyphFromVec3 v = some g ↔ v = vec3FromGlyph g := by
  constructor
  · intro h
    unfold glyphFromVec3 at h
    repeat' split at h
    all_goals cases h
    all_goals assumption
  · intro h
    subst h
    cases g <;> rfl

end HyperKitty.Qlg
