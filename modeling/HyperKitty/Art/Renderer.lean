import HyperKitty.Art.SceneGraph

namespace HyperKitty.Art

/-- The text of a number as `Display` writes it: digits, a sign, a point or letters. -/
structure Numerals (K : Type) where
  display : F64 K → String
  neutral : ∀ x, '<' ∉ (display x).toList ∧ '>' ∉ (display x).toList

namespace Renderer

section Numbers

variable {K : Type} [Field K] [LinearOrder K]

/-- `x / 2.0` -/
def half : F64 K → F64 K
  | .nan => .nan
  | .infinite negative => .infinite negative
  | .finite x => .finite (x / 2.0)

/-- `x as i32`, which cuts off the fraction and stays within the bounds of the type. -/
def asI32 [FloorRing K] : F64 K → Int
  | .nan => 0
  | .infinite true => -2 ^ 31
  | .infinite false => 2 ^ 31 - 1
  | .finite x => max (-2 ^ 31) (min (2 ^ 31 - 1) (if 0 ≤ x then ⌊x⌋ else ⌈x⌉))

/-- A number in the markup. -/
def i32 [FloorRing K] (x : F64 K) : String := toString (asI32 x)

end Numbers

variable {K : Type} [Field K] [LinearOrder K] [FloorRing K] (num : Numerals K)

def rgb (color : Color) : String :=
  "rgb(" ++ toString color.r ++ ", " ++ toString color.g ++ ", " ++ toString color.b ++ ")"

def opacity (color : Color) : String := num.display (.finite (color.a.toNat / 255.0))

/-- The tag of a `text` element, whose content comes from the scene. -/
def textTag (x y : F64 K) (size fill : String) : String :=
  "  <text x=\"" ++ i32 x ++ "\" y=\"" ++ i32 y ++ "\" font-size=\"" ++ size ++ "\" fill=\"" ++
    fill ++ "\">"

def textElement (x y : F64 K) (size fill content : String) : String :=
  textTag x y size fill ++ content ++ "</text>\n"

/-- The element of a geometry at a place. Groups don't render directly. -/
def renderGeometry (geometry : NodeGeometry K) (color : Color) (x y : F64 K) : String :=
  match geometry with
  | .sphere radius =>
    "  <circle cx=\"" ++ i32 x ++ "\" cy=\"" ++ i32 y ++ "\" r=\"" ++ i32 radius ++
      "\" fill=\"" ++ rgb color ++ "\" opacity=\"" ++ opacity num color ++
      "\" stroke=\"black\" stroke-width=\"1\"/>\n"
  | .cube size =>
    "  <rect x=\"" ++ i32 (x - half size) ++ "\" y=\"" ++ i32 (y - half size) ++ "\" width=\"" ++
      i32 size ++ "\" height=\"" ++ i32 size ++ "\" fill=\"" ++ rgb color ++ "\" opacity=\"" ++
      opacity num color ++ "\" stroke=\"black\" stroke-width=\"1\"/>\n"
  | .point radius =>
    "  <circle cx=\"" ++ i32 x ++ "\" cy=\"" ++ i32 y ++ "\" r=\"" ++ i32 radius ++
      "\" fill=\"" ++ rgb color ++ "\" opacity=\"" ++ opacity num color ++ "\"/>\n"
  | .plane width height =>
    "  <rect x=\"" ++ i32 (x - half width) ++ "\" y=\"" ++ i32 (y - half height) ++
      "\" width=\"" ++ i32 width ++ "\" height=\"" ++ i32 height ++ "\" fill=\"" ++ rgb color ++
      "\" opacity=\"" ++ opacity num color ++ "\" stroke=\"black\" stroke-width=\"1\"/>\n"
  | .line x1 y1 x2 y2 =>
    "  <line x1=\"" ++ i32 x1 ++ "\" y1=\"" ++ i32 y1 ++ "\" x2=\"" ++ i32 x2 ++ "\" y2=\"" ++
      i32 y2 ++ "\" stroke=\"" ++ rgb color ++ "\" stroke-width=\"2\"/>\n"
  | .text content fontSize => textElement x y (i32 fontSize) (rgb color) content
  | .group => ""

def renderLabel (label : Option String) (x y : F64 K) : String :=
  match label with
  | some label => textElement (x - .finite 10.0) (y - .finite 20.0) "12" "black" label
  | none => ""

mutual

/-- The node, its label and its children are written behind what is there. -/
def renderNodeSvg (xOffset yOffset : F64 K) : Node K → String → String
  | ⟨_, geometry, transform, color, children, label⟩, svg =>
    let x := transform.x - xOffset
    let y := transform.y - yOffset
    let svg := svg ++ renderGeometry num geometry color x y
    let svg := svg ++ renderLabel label x y
    renderChildrenSvg xOffset yOffset children svg

def renderChildrenSvg (xOffset yOffset : F64 K) : List (Node K) → String → String
  | [], svg => svg
  | child :: children, svg =>
    renderChildrenSvg xOffset yOffset children (renderNodeSvg xOffset yOffset child svg)

end

/-- The document up to the name of the scene. -/
def head (width height xMin yMin : String) : String :=
  "<?xml version=\"1.0\" encoding=\"UTF-8\"?>\n<svg xmlns=\"http://www.w3.org/2000/svg\" width=\"" ++
    width ++ "\" height=\"" ++ height ++ "\" viewBox=\"" ++ xMin ++ " " ++ yMin ++ " " ++ width ++
    " " ++ height ++ "\">\n  <title>"

/-- The document from the name of the scene to its nodes. -/
def background (width height : String) : String :=
  "</title>\n  <rect width=\"" ++ width ++ "\" height=\"" ++ height ++ "\" fill=\"white\"/>\n"

/-- The text of the document, of which the bytes are returned. -/
def renderSvg (scene : SceneGraph K) : String :=
  let (xMin, yMin, xMax, yMax) := scene.bounds
  let width := i32 (xMax - xMin)
  let height := i32 (yMax - yMin)
  let svg := head width height (i32 xMin) (i32 yMin) ++ scene.name ++ background width height
  renderNodeSvg num xMin yMin scene.root svg ++ "</svg>\n"

end Renderer
end HyperKitty.Art
