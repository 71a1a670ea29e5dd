import HyperKitty.Lib.FirstHit

namespace HyperKitty.Routing

def glyphPi : Int := 0
def glyphGam : Int := 1
def glyphDel : Int := 2
def glyphOme : Int := 3
def glyphLam : Int := 4
def numGlyphs : Int := 6

/-- The next glyph for the current and the previous one; nothing bounds the entries. -/
structure RoutingTensor where
  Q : Fin 6 → Fin 6 → Int

/-- The tensor that `routing_tensor_alloc` sets up. -/
def RoutingTensor.alloc : RoutingTensor where
  Q i j :=
    if (i : Int) = glyphPi ∧ (j : Int) = glyphGam then glyphDel
    else if (i : Int) = glyphGam ∧ (j : Int) = glyphPi then glyphDel
    else if (i : Int) = glyphDel ∧ (j : Int) = glyphDel then glyphOme
    else if (i : Int) = glyphOme then glyphOme
    else if (i : Int) = glyphLam then j
    else i

/-- What is out of range goes to the absorber. -/
def qraStep (current previous : Int) (rt : RoutingTensor) : Int :=
  if h : current < 0 ∨ current ≥ numGlyphs ∨ previous < 0 ∨ previous ≥ numGlyphs then glyphOme
  else
    have hcurrent : current.toNat < 6 := by
      unfold numGlyphs at h
      omega
    have hprevious : previous.toNat < 6 := by
      unfold numGlyphs at h
      omega
    rt.Q ⟨current.toNat, hcurrent⟩ ⟨previous.toNat, hprevious⟩

structure Witness where
  w0 : Int
  w1 : Int
  w2 : Int
  deriving DecidableEq, Repr

def qraEvolveWitness (w : Witness) (rt : RoutingTensor) : Witness where
  w0 := qraStep w.w0 w.w1 rt
  w1 := qraStep w.w1 w.w2 rt
  w2 := qraStep w.w2 w.w0 rt

def qraIsAbsorbed (w : Witness) : Bool :=
  w.w0 == glyphOme && w.w1 == glyphOme && w.w2 == glyphOme

def qraIsFixed (w : Witness) : Bool :=
  w.w0 == glyphLam && w.w1 == glyphLam && w.w2 == glyphLam

/-- The loop returns its counter, which is one less than the number of evolutions. -/
def qraTokenLifetime (initial : Witness) (maxSteps : Int) : Option RoutingTensor → Int
  | none => -1
  | some rt =>
    if qraIsFixed initial then -1
    else FirstHit.run (qraEvolveWitness · rt) (fun _ w => qraIsAbsorbed w) maxSteps initial

end HyperKitty.Routing
