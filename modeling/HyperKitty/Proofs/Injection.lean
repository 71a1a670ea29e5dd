import HyperKitty.Art.Renderer
import HyperKitty.Lib.Markup

namespace HyperKitty.Art

open Markup

section Scenes

variable {K : Type}

namespace NodeGeometry

/-- The geometry with an empty text. -/
def blank : NodeGeometry K → NodeGeometry K
  | .text _ fontSize => .text "" fontSize
  | geometry => geometry

def texts : NodeGeometry K → List String
  | .text content _ => [content]
  | _ => []

end NodeGeometry

mutual

/-- The node with empty labels and texts. -/
def Node.blank : Node K → Node K
  | ⟨id, geometry, transform, color, children, label⟩ =>
    ⟨id, geometry.blank, transform, color, blankChildren children, label.map fun _ => ""⟩

def blankChildren : List (Node K) → List (Node K)
  | [] => []
  | child :: children => child.blank :: blankChildren children

end

mutual

/-- The texts and labels of a node and its children. -/
def Node.texts : Node K → List String
  | ⟨_, geometry, _, _, children, label⟩ =>
    geometry.texts ++ (label.toList ++ textsOfChildren children)

def textsOfChildren : List (Node K) → List String
  | [] => []
  | child :: children => child.texts ++ textsOfChildren children

end

namespace SceneGraph

def blank (scene : SceneGraph K) : SceneGraph K :=
  { scene with name := "", root := scene.root.blank }

def texts (scene : SceneGraph K) : List String := scene.name :: scene.root.texts

/-- The scenes differ in their names, labels and texts only. -/
def Alike (scene scene' : SceneGraph K) : Prop := scene.blank = scene'.blank

/-- Nothing that a scene says has an opening angle bracket. -/
def Plain (scene : SceneGraph K) : Prop := ∀ t ∈ scene.texts, '<' ∉ t.toList

end SceneGraph

theorem NodeGeometry.blank_blank (geometry : NodeGeometry K) :
    geometry.blank.blank = geometry.blank := by
  cases geometry <;> rfl

mutual

theorem Node.blank_blank : ∀ node : Node K, node.blank.blank = node.blank
  | ⟨_, geometry, _, _, children, label⟩ => by
    rw [Node.blank, Node.blank, geometry.blank_blank, blank_blankChildren children,
      Option.map_map]
    rfl

theorem blank_blankChildren :
    ∀ children : List (Node K), blankChildren (blankChildren children) = blankChildren children
  | [] => rfl
  | child :: children => by
    rw [blankChildren, blankChildren, child.blank_blank, blank_blankChildren children]

end

theorem SceneGraph.alike_blank (scene : SceneGraph K) : scene.Alike scene.blank := by
  unfold SceneGraph.Alike SceneGraph.blank
  rw [Node.blank_blank]

end Scenes

namespace Renderer

section Neutral

/-- The text has no angle brackets. -/
def Neutral (s : String) : Prop := '<' ∉ s.toList ∧ '>' ∉ s.toList

instance (s : String) : Decidable (Neutral s) := inferInstanceAs (Decidable (_ ∧ _))

theorem after_neutral {s : String} (h : Neutral s) (inside : Bool) :
    after '<' '>' inside s.toList = inside := after_of_neutral h.1 h.2

@[simp] theorem neutral_append {s t : String} : Neutral (s ++ t) ↔ Neutral s ∧ Neutral t := by
  simp only [Neutral, String.toList_append, List.mem_append, not_or]
  tauto

@[simp] theorem neutral_nat (n : Nat) : Neutral (toString n) := by
  have hdigit : ∀ c ∈ (toString n).toList, c.isDigit = true := by
    intro c hc
    rw [Nat.toString_eq_repr, Nat.repr, String.toList_ofList] at hc
    exact Nat.isDigit_of_mem_toDigits (by decide) (by decide) hc
  exact ⟨fun h => absurd (hdigit _ h) (by decide), fun h => absurd (hdigit _ h) (by decide)⟩

@[simp] theorem neutral_int (n : Int) : Neutral (toString n) := by
  cases n with
  | ofNat n => exact neutral_nat n
  | negSucc n => exact neutral_append.mpr ⟨by simp [Neutral], neutral_nat (n + 1)⟩

@[simp] theorem neutral_uint8 (n : UInt8) : Neutral (toString n) := neutral_nat n.toNat

theorem neutral_rgb (color : Color) : Neutral (rgb color) := by
  simp only [rgb, neutral_append, neutral_uint8, and_true]
  decide

end Neutral

variable {K : Type} [Field K] {num : Numerals K}

@[simp] theorem after_rgb (color : Color) (inside : Bool) :
    after '<' '>' inside (rgb color).toList = inside := after_neutral (neutral_rgb color) inside

@[simp] theorem after_opacity (num : Numerals K) (color : Color) (inside : Bool) :
    after '<' '>' inside (opacity num color).toList = inside := after_neutral (num.neutral _) inside

variable [LinearOrder K] [FloorRing K]

theorem neutral_i32 (x : F64 K) : Neutral (i32 x) := neutral_int _

@[simp] theorem after_i32 (x : F64 K) (inside : Bool) :
    after '<' '>' inside (i32 x).toList = inside := after_neutral (neutral_i32 x) inside

/-- The pieces of a `text` element. -/
def textPieces (x y : F64 K) (size fill content : String) : List (Piece Char) :=
  [.markup (textTag x y size fill).toList, .text content.toList, .markup "</text>\n".toList]

def geometryPieces (num : Numerals K) (geometry : NodeGeometry K) (color : Color) (x y : F64 K) :
    List (Piece Char) :=
  match geometry with
  | .text content fontSize => textPieces x y (i32 fontSize) (rgb color) content
  | .group => []
  | _ => [.markup (renderGeometry num geometry color x y).toList]

def labelPieces (label : Option String) (x y : F64 K) : List (Piece Char) :=
  match label with
  | some label => textPieces (x - .finite 10.0) (y - .finite 20.0) "12" "black" label
  | none => []

theorem document_textPieces (x y : F64 K) (size fill content : String) :
    document (textPieces x y size fill content) = (textElement x y size fill content).toList := by
  simp only [textPieces, textElement, document, List.flatMap_cons, List.flatMap_nil, Piece.chars,
    String.toList_append, List.append_nil, List.append_assoc]

theorem closed_textTag (x y : F64 K) {size fill : String} (hs : Neutral size) (hf : Neutral fill) :
    after '<' '>' false (textTag x y size fill).toList = false := by
  unfold textTag
  simp only [String.toList_append, after_append, after_i32, after_neutral hs, after_neutral hf]
  rfl

theorem closed_textPieces (x y : F64 K) {size fill : String} (hs : Neutral size)
    (hf : Neutral fill) (content : String) :
    Closed '<' '>' (textPieces x y size fill content) := by
  intro m hm
  simp only [textPieces, List.mem_cons, Piece.markup.injEq, reduceCtorEq, List.not_mem_nil,
    or_false, false_or] at hm
  rcases hm with rfl | rfl
  · exact closed_textTag x y hs hf
  · rfl

theorem document_geometryPieces (geometry : NodeGeometry K) (color : Color) (x y : F64 K) :
    document (geometryPieces num geometry color x y) =
      (renderGeometry num geometry color x y).toList := by
  cases geometry with
  | text content fontSize => exact document_textPieces x y _ _ content
  | group => rfl
  | _ => exact List.append_nil _

set_option maxRecDepth 2048 in
theorem closed_renderGeometry {geometry : NodeGeometry K} (color : Color) (x y : F64 K)
    (h : geometry.texts = []) :
    after '<' '>' false (renderGeometry num geometry color x y).toList = false := by
  cases geometry with
  | text content fontSize => cases h
  | _ =>
    unfold renderGeometry
    simp only [String.toList_append, after_append, after_i32, after_rgb, after_opacity]
    rfl

theorem closed_geometryPieces (geometry : NodeGeometry K) (color : Color) (x y : F64 K) :
    Closed '<' '>' (geometryPieces num geometry color x y) := by
  have hshape : ∀ g : NodeGeometry K, g.texts = [] →
      Closed '<' '>' [.markup (renderGeometry num g color x y).toList] := by
    intro g hg m hm
    cases List.mem_singleton.mp hm
    exact closed_renderGeometry color x y hg
  cases geometry with
  | text content fontSize =>
    exact closed_textPieces x y (neutral_i32 _) (neutral_rgb _) content
  | group => nofun
  | _ => exact hshape _ rfl

mutual

/-- The pieces of a node and of its children. -/
def nodePieces (num : Numerals K) (xOffset yOffset : F64 K) : Node K → List (Piece Char)
  | ⟨_, geometry, transform, color, children, label⟩ =>
    let x := transform.x - xOffset
    let y := transform.y - yOffset
    geometryPieces num geometry color x y ++
      (labelPieces label x y ++ childrenPieces num xOffset yOffset children)

def childrenPieces (num : Numerals K) (xOffset yOffset : F64 K) : List (Node K) → List (Piece Char)
  | [] => []
  | child :: children =>
    nodePieces num xOffset yOffset child ++ childrenPieces num xOffset yOffset children

end

theorem document_labelPieces (label : Option String) (x y : F64 K) :
    document (labelPieces label x y) = (renderLabel label x y).toList := by
  cases label with
  | none => rfl
  | some label => exact document_textPieces _ _ _ _ label

mutual

theorem document_nodePieces (num : Numerals K) (xOffset yOffset : F64 K) :
    ∀ (node : Node K) (svg : String), (renderNodeSvg num xOffset yOffset node svg).toList =
      svg.toList ++ document (nodePieces num xOffset yOffset node)
  | ⟨_, geometry, transform, color, children, label⟩, svg => by
    rw [renderNodeSvg, document_childrenPieces num xOffset yOffset children, nodePieces,
      document_append, document_append, document_geometryPieces, document_labelPieces]
    simp only [String.toList_append, List.append_assoc]

theorem document_childrenPieces (num : Numerals K) (xOffset yOffset : F64 K) :
    ∀ (children : List (Node K)) (svg : String),
      (renderChildrenSvg num xOffset yOffset children svg).toList =
        svg.toList ++ document (childrenPieces num xOffset yOffset children)
  | [], svg => (List.append_nil _).symm
  | child :: children, svg => by
    rw [renderChildrenSvg, document_childrenPieces num xOffset yOffset children,
      document_nodePieces num xOffset yOffset child, childrenPieces, document_append,
      List.append_assoc]

end

theorem closed_labelPieces (label : Option String) (x y : F64 K) :
    Closed '<' '>' (labelPieces label x y) := by
  cases label with
  | none => nofun
  | some label => exact closed_textPieces _ _ (by decide) (by decide) label

theorem blank_geometryPieces (geometry : NodeGeometry K) (color : Color) (x y : F64 K) :
    geometryPieces num geometry.blank color x y =
      (geometryPieces num geometry color x y).map Piece.blank := by
  cases geometry <;> rfl

theorem blank_labelPieces (label : Option String) (x y : F64 K) :
    labelPieces (label.map fun _ => "") x y = (labelPieces label x y).map Piece.blank := by
  cases label <;> rfl

theorem plain_textPieces {x y : F64 K} {size fill content : String} :
    Plain '<' (textPieces x y size fill content) ↔ '<' ∉ content.toList := by
  simp [Plain, textPieces]

theorem plain_geometryPieces {geometry : NodeGeometry K} {color : Color} {x y : F64 K} :
    Plain '<' (geometryPieces num geometry color x y) ↔
      ∀ t ∈ geometry.texts, '<' ∉ t.toList := by
  cases geometry with
  | text content fontSize =>
    rw [geometryPieces, plain_textPieces]
    simp [NodeGeometry.texts]
  | _ => simp [Plain, geometryPieces, NodeGeometry.texts]

theorem plain_labelPieces {label : Option String} {x y : F64 K} :
    Plain '<' (labelPieces label x y) ↔ ∀ t ∈ label.toList, '<' ∉ t.toList := by
  cases label with
  | none => simp [Plain, labelPieces]
  | some label =>
    rw [labelPieces, plain_textPieces]
    simp

section Nodes

variable (num : Numerals K) (xOffset yOffset : F64 K)

mutual

theorem closed_nodePieces :
    ∀ node : Node K, Closed '<' '>' (nodePieces num xOffset yOffset node)
  | ⟨_, geometry, _, color, children, label⟩ =>
    closed_append.mpr ⟨closed_geometryPieces geometry color _ _,
      closed_append.mpr ⟨closed_labelPieces label _ _, closed_childrenPieces children⟩⟩

theorem closed_childrenPieces :
    ∀ children : List (Node K), Closed '<' '>' (childrenPieces num xOffset yOffset children)
  | [] => nofun
  | child :: children =>
    closed_append.mpr ⟨closed_nodePieces child, closed_childrenPieces children⟩

end

mutual

theorem blank_nodePieces : ∀ node : Node K, nodePieces num xOffset yOffset node.blank =
    (nodePieces num xOffset yOffset node).map Piece.blank
  | ⟨_, geometry, _, color, children, label⟩ => by
    rw [Node.blank, nodePieces, nodePieces, blank_geometryPieces, blank_labelPieces,
      blank_childrenPieces children, List.map_append, List.map_append]

theorem blank_childrenPieces :
    ∀ children : List (Node K), childrenPieces num xOffset yOffset (blankChildren children) =
      (childrenPieces num xOffset yOffset children).map Piece.blank
  | [] => rfl
  | child :: children => by
    rw [blankChildren, childrenPieces, childrenPieces, blank_nodePieces child,
      blank_childrenPieces children, List.map_append]

end

mutual

theorem plain_nodePieces : ∀ node : Node K, Plain '<' (nodePieces num xOffset yOffset node) ↔
    ∀ t ∈ node.texts, '<' ∉ t.toList
  | ⟨_, geometry, _, color, children, label⟩ => by
    rw [nodePieces, plain_append, plain_append, plain_geometryPieces, plain_labelPieces,
      plain_childrenPieces children, Node.texts]
    simp only [List.mem_append, or_imp, forall_and]

theorem plain_childrenPieces :
    ∀ children : List (Node K), Plain '<' (childrenPieces num xOffset yOffset children) ↔
      ∀ t ∈ textsOfChildren children, '<' ∉ t.toList
  | [] => by simp [childrenPieces, textsOfChildren, Plain]
  | child :: children => by
    rw [childrenPieces, plain_append, plain_nodePieces child, plain_childrenPieces children,
      textsOfChildren]
    simp only [List.mem_append, or_imp, forall_and]

end

end Nodes

/-- The pieces up to the nodes. -/
def framePieces (name width height xMin yMin : String) : List (Piece Char) :=
  [.markup (head width height xMin yMin).toList, .text name.toList,
    .markup (background width height).toList]

/-- The pieces of the whole document. -/
def scenePieces (num : Numerals K) : SceneGraph K → List (Piece Char)
  | ⟨name, root, xMin, yMin, xMax, yMax⟩ =>
    framePieces name (i32 (xMax - xMin)) (i32 (yMax - yMin)) (i32 xMin) (i32 yMin) ++
      (nodePieces num xMin yMin root ++ [.markup "</svg>\n".toList])

theorem document_scenePieces (num : Numerals K) (scene : SceneGraph K) :
    (renderSvg num scene).toList = document (scenePieces num scene) := by
  obtain ⟨name, root, xMin, yMin, xMax, yMax⟩ := scene
  rw [scenePieces, document_append, document_append]
  unfold renderSvg
  rw [String.toList_append, document_nodePieces]
  simp only [framePieces, document, List.flatMap_cons, List.flatMap_nil, Piece.chars,
    String.toList_append, List.append_nil, List.append_assoc]

section Frame

variable {name width height xMin yMin : String}

set_option maxRecDepth 2048 in
theorem closed_head (hw : Neutral width) (hh : Neutral height) (hx : Neutral xMin)
    (hy : Neutral yMin) : after '<' '>' false (head width height xMin yMin).toList = false := by
  unfold head
  simp only [String.toList_append, after_append, after_neutral hw, after_neutral hh,
    after_neutral hx, after_neutral hy]
  rfl

theorem closed_background (hw : Neutral width) (hh : Neutral height) :
    after '<' '>' false (background width height).toList = false := by
  unfold background
  simp only [String.toList_append, after_append, after_neutral hw, after_neutral hh]
  rfl

theorem closed_framePieces (hw : Neutral width) (hh : Neutral height) (hx : Neutral xMin)
    (hy : Neutral yMin) : Closed '<' '>' (framePieces name width height xMin yMin) := by
  intro m hm
  simp only [framePieces, List.mem_cons, Piece.markup.injEq, reduceCtorEq, List.not_mem_nil,
    or_false, false_or] at hm
  rcases hm with hm | hm
  · rw [hm]
    exact closed_head hw hh hx hy
  · rw [hm]
    exact closed_background hw hh

theorem closed_end : Closed '<' '>' [.markup "</svg>\n".toList] := by
  intro m hm
  rw [List.mem_singleton, Piece.markup.injEq] at hm
  rw [hm]
  rfl

theorem plain_framePieces :
    Plain '<' (framePieces name width height xMin yMin) ↔ '<' ∉ name.toList := by
  simp [Plain, framePieces]

end Frame

theorem closed_scenePieces (num : Numerals K) (scene : SceneGraph K) :
    Closed '<' '>' (scenePieces num scene) := by
  obtain ⟨name, root, xMin, yMin, xMax, yMax⟩ := scene
  exact closed_append.mpr
    ⟨closed_framePieces (neutral_i32 _) (neutral_i32 _) (neutral_i32 _) (neutral_i32 _),
      closed_append.mpr ⟨closed_nodePieces num xMin yMin root, closed_end⟩⟩

theorem blank_scenePieces (num : Numerals K) (scene : SceneGraph K) :
    scenePieces num scene.blank = (scenePieces num scene).map Piece.blank := by
  obtain ⟨name, root, xMin, yMin, xMax, yMax⟩ := scene
  rw [SceneGraph.blank, scenePieces, scenePieces, blank_nodePieces, List.map_append,
    List.map_append]
  rfl

theorem plain_scenePieces (num : Numerals K) (scene : SceneGraph K) :
    Plain '<' (scenePieces num scene) ↔ scene.Plain := by
  obtain ⟨name, root, xMin, yMin, xMax, yMax⟩ := scene
  rw [scenePieces, plain_append, plain_append, plain_framePieces, plain_nodePieces,
    SceneGraph.Plain, SceneGraph.texts, List.forall_mem_cons]
  simp [Plain]

theorem plain_blank_scene (num : Numerals K) (scene : SceneGraph K) : scene.blank.Plain := by
  rw [← plain_scenePieces num, blank_scenePieces]
  exact plain_blank _

/-- The tags of a picture. -/
def tagsOf (num : Numerals K) (scene : SceneGraph K) : List (List Char) :=
  tags '<' '>' (renderSvg num scene).toList

/-- What the scene says leaves the tags alone: they are those of every scene that differs in
harmless names, labels and texts only. -/
def InjectionFree (num : Numerals K) (scene : SceneGraph K) : Prop :=
  ∀ scene', scene.Alike scene' → scene'.Plain → tagsOf num scene = tagsOf num scene'

theorem tagsOf_blank_iff (num : Numerals K) (scene : SceneGraph K) :
    tagsOf num scene = tagsOf num scene.blank ↔ scene.Plain := by
  rw [tagsOf, tagsOf, document_scenePieces, document_scenePieces, blank_scenePieces,
    tags_document_iff (by decide) (closed_scenePieces num scene), plain_scenePieces]

/-- A scene is injection-free exactly when nothing that it says has an opening angle bracket. -/
theorem injectionFree_iff (num : Numerals K) (scene : SceneGraph K) :
    InjectionFree num scene ↔ scene.Plain := by
  constructor
  · intro h
    rw [← tagsOf_blank_iff num]
    exact h scene.blank scene.alike_blank (plain_blank_scene num scene)
  · intro h scene' halike h'
    rw [(tagsOf_blank_iff num scene).mpr h, (tagsOf_blank_iff num scene').mpr h', halike]

/-- The name of a theorem without a scene of its own is a text of its picture. -/
theorem not_injectionFree_of_name : ¬ ∀ (num : Numerals ℚ) (scene scene' : SceneGraph ℚ),
    scene.Alike scene' → tagsOf num scene = tagsOf num scene' := by
  intro h
  let num : Numerals ℚ := ⟨fun _ => "1", by simp⟩
  let scene : SceneGraph ℚ := .fromTheorem ⟨"x<y/>", .custom "order"⟩
  have hplain := (tagsOf_blank_iff num scene).mp (h num scene scene.blank scene.alike_blank)
  exact hplain "x<y/>" List.mem_cons_self (by decide)

end Renderer

/-- The kinds of theorems with a scene of their own. -/
def TheoremKind.hasScene : TheoremKind → Bool
  | .qlgSphere | .slaBalance | .witnessExhaustion | .nandCompleteness => true
  | _ => false

theorem plain_genericTheoremScene {K : Type} [Field K] {name : String} :
    (SceneGraph.genericTheoremScene name : SceneGraph K).Plain ↔ '<' ∉ name.toList := by
  simp [SceneGraph.Plain, SceneGraph.texts, SceneGraph.genericTheoremScene, SceneGraph.new,
    Node.texts, textsOfChildren, NodeGeometry.texts]

theorem plain_of_texts {K : Type} {scene : SceneGraph K} (ts : List String)
    (ht : scene.texts = ts) (h : ∀ t ∈ ts, '<' ∉ t.toList) : scene.Plain := by
  rw [SceneGraph.Plain, ht]
  exact h

/-- Only the generic scene says what its caller chose. -/
theorem plain_fromTheorem {K : Type} [Field K] (thm : TheoremAst) :
    (SceneGraph.fromTheorem thm : SceneGraph K).Plain ↔
      thm.kind.hasScene = true ∨ '<' ∉ thm.name.toList := by
  obtain ⟨name, kind⟩ := thm
  cases kind with
  | qlgSphere =>
    let said : List String := ["QLG Sphere", "x² + y² + z² = 1"]
    exact iff_of_true (plain_of_texts said rfl (by decide)) (.inl rfl)
  | slaBalance =>
    let said : List String := ["SLA Balance", "Debit (δ)", "Credit (ι)"]
    exact iff_of_true (plain_of_texts said rfl (by decide)) (.inl rfl)
  | witnessExhaustion =>
    let said : List String := ["Witness Exhaustion", "Step 0", "Step 1", "Step 2"]
    exact iff_of_true (plain_of_texts said rfl (by decide)) (.inl rfl)
  | nandCompleteness =>
    let said : List String := ["NAND Completeness", "NOT", "AND", "OR"]
    exact iff_of_true (plain_of_texts said rfl (by decide)) (.inl rfl)
  | _ => simp [SceneGraph.fromTheorem, plain_genericTheoremScene, TheoremKind.hasScene]

end HyperKitty.Art
