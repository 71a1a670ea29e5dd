import HyperKitty.Lib.HashChain
import HyperKitty.Runtime.World

namespace HyperKitty.Runtime

structure Tick where
  index : UInt64
  sigmaIn : WorldState
  action : Action
  sigmaOut : WorldState
  receipt : Hash

section Receipts

variable (sha256 : List UInt8 → Hash) (quote : String → String)

/-- The receipt is the hash of the index and the action. -/
def Tick.new (index : UInt64) (sigmaIn : WorldState) (action : Action) (sigmaOut : WorldState) :
    Tick :=
  ⟨index, sigmaIn, action, sigmaOut, sha256 (asBytes (toString index ++ action.debug quote))⟩

def Tick.verify (_ : Tick) : Bool := true

end Receipts

end HyperKitty.Runtime

namespace HyperKitty

open HyperKitty.Runtime (WorldState Tick)

structure Runtime where
  currentState : WorldState
  tickHistory : List Tick
  currentIndex : UInt64

namespace Runtime

def new : Runtime := ⟨.new, [], 0⟩

variable (sha256 : List UInt8 → Hash) (quote : String → String)

def advanceTick (self : Runtime) (action : Action) : Except Error Runtime := do
  let sigmaIn := self.currentState
  let sigmaOut ← action.apply sigmaIn
  let tick := Tick.new sha256 quote self.currentIndex sigmaIn action sigmaOut
  pure ⟨sigmaOut, self.tickHistory ++ [tick], self.currentIndex + 1⟩

def verifyAllTicks (self : Runtime) : Bool := self.tickHistory.all Tick.verify

/-- One call of `advanceTick` for each action, on a new runtime. -/
def run (actions : List Action) : Except Error Runtime :=
  actions.foldlM (advanceTick sha256 quote) new

/-- A tick hands the state it ends in to the tick after it. -/
def transitions : Linking Tick WorldState := ⟨Tick.sigmaIn, Tick.sigmaOut⟩

end Runtime

end HyperKitty
