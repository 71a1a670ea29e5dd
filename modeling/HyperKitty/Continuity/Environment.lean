import Mathlib

namespace HyperKitty.Continuity

/-- The name of the variable is kept and never read. -/
structure EnvironmentBitmask where
  mask : BitVec 64
  deriving DecidableEq

namespace EnvironmentBitmask

def new : EnvironmentBitmask := ⟨0⟩

def setBit (self : EnvironmentBitmask) (position : UInt8) (value : Bool) : EnvironmentBitmask :=
  if position < 64 then
    if value then ⟨self.mask ||| 1#64 <<< position.toNat⟩
    else ⟨self.mask &&& ~~~(1#64 <<< position.toNat)⟩
  else self

def getBit (self : EnvironmentBitmask) (position : UInt8) : Bool :=
  if position < 64 then self.mask &&& (1#64 <<< position.toNat) != 0#64 else false

end EnvironmentBitmask

end HyperKitty.Continuity
