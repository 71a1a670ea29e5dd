import HyperKitty.Core.Error
import HyperKitty.Core.Types

namespace HyperKitty.Runtime

/-- The facts are kept in the order of their keys. -/
structure WorldState where
  facts : Std.ExtTreeMap String String
  deriving DecidableEq

namespace WorldState

def new : WorldState := ⟨∅⟩

def get (w : WorldState) (key : String) : Option String := w.facts[key]?

def set (w : WorldState) (key value : String) : WorldState := ⟨w.facts.insert key value⟩

def remove (w : WorldState) (key : String) : WorldState := ⟨w.facts.erase key⟩

/-- The debug text of the facts, in the order of their keys. -/
def debug (quote : String → String) (w : WorldState) : String :=
  "\x7b" ++ ", ".intercalate (w.facts.toList.map fun f => quote f.1 ++ ": " ++ quote f.2) ++ "\x7d"

def hash (sha256 : List UInt8 → Hash) (quote : String → String) (w : WorldState) : Hash :=
  sha256 (asBytes (w.debug quote))

end WorldState

inductive Action where
  | setFact (key value : String)
  | removeFact (key : String)
  | batch (acts : List Action)

namespace Action

mutual

def apply : Action → WorldState → Except Error WorldState
  | setFact k v, world => .ok (world.set k v)
  | removeFact k, world => .ok (world.remove k)
  | batch acts, world => applyAll acts world

def applyAll : List Action → WorldState → Except Error WorldState
  | [], world => .ok world
  | a :: acts, world => do applyAll acts (← a.apply world)

end

/-- The debug text of an action, where `quote` is the one of a string. -/
def debug (quote : String → String) : Action → String
  | setFact k v => "SetFact(" ++ quote k ++ ", " ++ quote v ++ ")"
  | removeFact k => "RemoveFact(" ++ quote k ++ ")"
  | batch acts => "Batch([" ++ ", ".intercalate (acts.map (debug quote)) ++ "])"

end Action

/-- A single change of one fact. -/
inductive Update where
  | set (key value : String)
  | remove (key : String)

def Update.run (world : WorldState) : Update → WorldState
  | set k v => world.set k v
  | remove k => world.remove k

/-- The single changes of an action, in order. -/
def Action.flatten : Action → List Update
  | setFact k v => [.set k v]
  | removeFact k => [.remove k]
  | batch acts => acts.flatMap flatten

/-- Induction on actions, where the actions of a batch have been dealt with. -/
theorem Action.induction {motive : Action → Prop} (setFact : ∀ k v, motive (.setFact k v))
    (removeFact : ∀ k, motive (.removeFact k))
    (batch : ∀ acts, (∀ a ∈ acts, motive a) → motive (.batch acts)) : (a : Action) → motive a
  | .setFact k v => setFact k v
  | .removeFact k => removeFact k
  | .batch acts => batch acts fun a _ => Action.induction setFact removeFact batch a
termination_by a => sizeOf a
decreasing_by
  rename_i ha
  have h := List.sizeOf_lt_of_mem ha
  simp_wf
  omega

theorem Action.applyAll_eq {acts : List Action}
    (h : ∀ a ∈ acts, ∀ world, a.apply world = .ok (a.flatten.foldl Update.run world))
    (world : WorldState) :
    applyAll acts world = .ok ((acts.flatMap flatten).foldl Update.run world) := by
  induction acts generalizing world with
  | nil => rfl
  | cons a acts ih =>
    obtain ⟨ha, h⟩ := List.forall_mem_cons.mp h
    rw [applyAll, ha world, List.flatMap_cons, List.foldl_append]
    exact ih h _

/-- A batch of any depth does what its single changes do. -/
theorem Action.apply_eq (a : Action) (world : WorldState) :
    a.apply world = .ok (a.flatten.foldl Update.run world) := by
  induction a using Action.induction generalizing world with
  | setFact k v => rw [apply, flatten]; rfl
  | removeFact k => rw [apply, flatten]; rfl
  | batch acts ih =>
    rw [apply, flatten]
    exact applyAll_eq ih world

end HyperKitty.Runtime
