import HyperKitty.Core.Error
import HyperKitty.Core.Glyph

namespace HyperKitty.Routing

/-- The next glyph's index for the current and the previous one. -/
def Q : Vector (Vector (Fin 6) 6) 6 := #v[
  #v[2, 2, 3, 3, 2, 2],
  #v[2, 3, 3, 3, 2, 3],
  #v[3, 3, 3, 3, 2, 3],
  #v[3, 3, 3, 3, 3, 3],
  #v[0, 1, 2, 3, 4, 5],
  #v[2, 3, 3, 3, 2, 3]]

def nextGlyph (curr prev : Glyph) : Glyph :=
  let next := (Q.get ⟨curr.index, curr.index_lt⟩).get ⟨prev.index, prev.index_lt⟩
  (Glyph.byIndex next).get (Glyph.byIndex_isSome next)

/-- A witness is three glyphs; nothing else evolves. -/
def evolveWitness : List Glyph → List Glyph
  | [g0, g1, g2] => [nextGlyph g0 g1, nextGlyph g1 g2, nextGlyph g2 g0]
  | _ => []

structure QRADispatchResult where
  current : Glyph
  previous : Glyph
  next : Glyph
  isAbsorber : Bool
  isValid : Bool
  deriving DecidableEq

def QRADispatchResult.new (current previous : Glyph) : QRADispatchResult :=
  let next := nextGlyph current previous
  { current, previous, next, isAbsorber := next.isAbsorber, isValid := true }

namespace QRADispatcher

def isValidPair (current _previous : Glyph) : Bool := current.index < 6

def dispatch (current previous : Glyph) : Except Error QRADispatchResult :=
  if !isValidPair current previous then
    .error (.parseError s!"invalid glyph pair: {current.name}, {previous.name}")
  else .ok (.new current previous)

/-- The rounds of the loop that are left, with the states so far. -/
def routeRounds : Nat → List Glyph → Glyph → Glyph → Except Error (List Glyph)
  | 0, states, _, _ => .ok states
  | rounds + 1, states, current, previous =>
    if current.isAbsorber then .ok states
    else do
      let result ← dispatch current previous
      routeRounds rounds (states ++ [result.next]) result.next current

/-- Evolve until the absorber is reached. -/
def routeToConvergence (start : Glyph) : Except Error (List Glyph) :=
  routeRounds 100 [start] start .lambda

/-- Every pair of glyphs has a successor. -/
theorem dispatch_eq (current previous : Glyph) :
    dispatch current previous = .ok (.new current previous) := by
  have h : isValidPair current previous = true := decide_eq_true current.index_lt
  rw [dispatch, h]
  rfl

end QRADispatcher

end HyperKitty.Routing
