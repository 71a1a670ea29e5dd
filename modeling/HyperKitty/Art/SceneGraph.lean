import HyperKitty.Lib.Floating

namespace HyperKitty.Art

inductive TheoremKind where
  | qlgSphere | slaBalance | qraIdentity | qraAbsorber | witnessExhaustion
  | tripartiteIso | jordanCommutativity | nandCompleteness
  | custom (name : String)
  deriving DecidableEq, Repr

structure TheoremAst where
  name : String
  kind : TheoremKind
  deriving DecidableEq, Repr

structure Color where
  r : UInt8
  g : UInt8
  b : UInt8
  a : UInt8
  deriving DecidableEq

namespace Color

def rgb (r g b : UInt8) : Color := ⟨r, g, b, 255⟩

def theoremColor : TheoremKind → Color
  | .qlgSphere => rgb 70 130 180
  | .slaBalance => rgb 34 139 34
  | .qraIdentity => rgb 220 20 60
  | .qraAbsorber => rgb 139 69 19
  | .witnessExhaustion => rgb 255 165 0
  | .tripartiteIso => rgb 128 0 128
  | .jordanCommutativity => rgb 0 128 128
  | .nandCompleteness => rgb 255 20 147
  | .custom _ => rgb 128 128 128

end Color

structure Transform (K : Type) where
  x : F64 K
  y : F64 K
  z : F64 K
  scale : F64 K
  rotation : F64 K

inductive NodeGeometry (K : Type) where
  | sphere (radius : F64 K)
  | cube (size : F64 K)
  | plane (width height : F64 K)
  | point (radius : F64 K)
  | line (x1 y1 x2 y2 : F64 K)
  | text (content : String) (fontSize : F64 K)
  | group

structure Node (K : Type) where
  id : String
  geometry : NodeGeometry K
  transform : Transform K
  color : Color
  children : List (Node K)
  label : Option String

/-- The bounds are `x_min`, `y_min`, `x_max` and `y_max`. -/
structure SceneGraph (K : Type) where
  name : String
  root : Node K
  bounds : F64 K × F64 K × F64 K × F64 K

variable {K : Type} [Field K]

namespace Transform

def identity : Transform K := ⟨.finite 0, .finite 0, .finite 0, .finite 1, .finite 0⟩

def translated (x y : K) : Transform K := ⟨.finite x, .finite y, .finite 0, .finite 1, .finite 0⟩

end Transform

namespace SceneGraph

def new (name : String) : SceneGraph K where
  name := name
  root := ⟨"root", .group, .identity, .rgb 255 255 255, [], none⟩
  bounds := (.finite 0, .finite 0, .finite 100.0, .finite 100.0)

/-- The bounds from `-x` and `-y` to `x` and `y`. -/
def around (x y : K) : F64 K × F64 K × F64 K × F64 K :=
  (.finite (-x), .finite (-y), .finite x, .finite y)

def qlgSphereScene : SceneGraph K :=
  let scene := new "QLG Sphere"
  { scene with
    root := { scene.root with
      geometry := .sphere (.finite 50.0)
      color := .theoremColor .qlgSphere
      label := some "x² + y² + z² = 1" }
    bounds := around 60.0 60.0 }

def slaBalanceScene : SceneGraph K :=
  let scene := new "SLA Balance"
  let debit : Node K := ⟨"debit", .cube (.finite 20.0), .translated (-25.0) 0, .rgb 220 20 60, [],
    some "Debit (δ)"⟩
  let credit : Node K := ⟨"credit", .cube (.finite 20.0), .translated 25.0 0, .rgb 34 139 34, [],
    some "Credit (ι)"⟩
  { scene with root := { scene.root with children := [debit, credit] }, bounds := around 50.0 30.0 }

def witnessExhaustionScene : SceneGraph K :=
  let scene := new "Witness Exhaustion"
  let children := (List.range 3).map fun step : Nat =>
    (⟨"step_" ++ toString step, .point (.finite 8.0), .translated ((step - 1) * 30.0) 0,
      .rgb 255 165 0, [], some ("Step " ++ toString step)⟩ : Node K)
  { scene with root := { scene.root with children }, bounds := around 40.0 30.0 }

def nandCompletenessScene : SceneGraph K :=
  let scene := new "NAND Completeness"
  let children := ["NOT", "AND", "OR"].mapIdx fun (i : Nat) gate =>
    (⟨"gate_" ++ gate, .cube (.finite 15.0), .translated ((i - 1) * 30.0) 0, .rgb 255 20 147, [],
      some gate⟩ : Node K)
  { scene with root := { scene.root with children }, bounds := around 50.0 30.0 }

def genericTheoremScene (name : String) : SceneGraph K :=
  let scene := new name
  { scene with root := { scene.root with label := some name } }

def fromTheorem (thm : TheoremAst) : SceneGraph K :=
  match thm.kind with
  | .qlgSphere => qlgSphereScene
  | .slaBalance => slaBalanceScene
  | .witnessExhaustion => witnessExhaustionScene
  | .nandCompleteness => nandCompletenessScene
  | _ => genericTheoremScene thm.name

end SceneGraph
end HyperKitty.Art
