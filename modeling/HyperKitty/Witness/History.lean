import HyperKitty.Lib.Exec
import HyperKitty.Routing.Qra

namespace HyperKitty

open Exec Routing

/-- Witness vector of exactly three glyphs. -/
structure Witness where
  g0 : Glyph
  g1 : Glyph
  g2 : Glyph
  deriving DecidableEq, Repr

/-- History of witness evolution. -/
structure WitnessHistory where
  states : List Witness
  exhausted : Bool
  fixedPoint : Bool
  deriving DecidableEq, Repr

namespace Witness

def asSlice (self : Witness) : List Glyph := [self.g0, self.g1, self.g2]

/-- An index beyond the end of a vector is a panic. -/
def index (gs : List Glyph) (i : Nat) : Exec Unit Glyph :=
  match gs[i]? with
  | some g => .ok g
  | none => .error .panic

def evolve (self : Witness) : Exec Unit Witness := do
  let evolved := evolveWitness self.asSlice
  pure ⟨← index evolved 0, ← index evolved 1, ← index evolved 2⟩

def isExhausted (self : Witness) : Bool := self.asSlice.all Glyph.isAbsorber

def isInvalidFixedPoint (self : Witness) : Bool := self.asSlice.all Glyph.isIdentity

/-- A pass of the loop, with the history so far. -/
def exhaustPass (s : Witness × List Witness) :
    Exec Unit (Step (Witness × List Witness) WitnessHistory) :=
  if s.1.isExhausted then
    pure (.done { states := s.2, exhausted := true, fixedPoint := false })
  else if s.1.isInvalidFixedPoint then
    pure (.done { states := s.2, exhausted := false, fixedPoint := true })
  else do
    let evolved ← s.1.evolve
    pure (.next (evolved, s.2 ++ [evolved]))

/-- The loop has no bound of its own; the fuel is one. -/
def exhaust (fuel : Nat) (self : Witness) : Exec Unit WitnessHistory :=
  loop fuel exhaustPass (self, [self])

end Witness

end HyperKitty
