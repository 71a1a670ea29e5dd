import HyperKitty.Lib.Elements
import HyperKitty.Proofs.Injection

namespace HyperKitty.Art

open Elements

section Scenes

variable {K : Type}

/-- The element of a geometry, with the text inside. -/
def NodeGeometry.elements : NodeGeometry K → List (List Char × List Char)
  | .sphere _ | .point _ => [("circle".toList, [])]
  | .cube _ | .plane _ _ => [("rect".toList, [])]
  | .line _ _ _ _ => [("line".toList, [])]
  | .text content _ => [("text".toList, content.toList)]
  | .group => []

def labelElements (label : Option String) : List (List Char × List Char) :=
  label.toList.map fun label => ("text".toList, label.toList)

mutual

/-- The elements of a node, of its label and of its children, in this order. -/
def Node.elements : Node K → List (List Char × List Char)
  | ⟨_, geometry, _, _, children, label⟩ =>
    geometry.elements ++ (labelElements label ++ elementsOfChildren children)

def elementsOfChildren : List (Node K) → List (List Char × List Char)
  | [] => []
  | child :: children => child.elements ++ elementsOfChildren children

end

/-- The name of the scene is the title, and its nodes stand side by side in front of the white
background. -/
def SceneGraph.elements (scene : SceneGraph K) : List Element :=
  (("title".toList, scene.name.toList) :: ("rect".toList, []) :: scene.root.elements).map
    (fun x => ⟨1, x.1, x.2⟩) ++ [⟨0, "svg".toList, []⟩]

theorem NodeGeometry.mem_texts {geometry : NodeGeometry K} {t : String} (h : t ∈ geometry.texts) :
    ("text".toList, t.toList) ∈ geometry.elements := by
  cases geometry with
  | text content fontSize =>
    cases List.mem_singleton.mp h
    exact List.mem_singleton.mpr rfl
  | _ => cases h

mutual

theorem Node.mem_texts {t : String} :
    ∀ node : Node K, t ∈ node.texts → ("text".toList, t.toList) ∈ node.elements
  | ⟨_, geometry, _, _, children, label⟩, h => by
    rw [Node.texts, List.mem_append, List.mem_append] at h
    rw [Node.elements, List.mem_append, List.mem_append]
    rcases h with h | h | h
    · exact .inl (geometry.mem_texts h)
    · exact .inr (.inl (List.mem_map_of_mem h))
    · exact .inr (.inr (mem_textsOfChildren children h))

theorem mem_textsOfChildren {t : String} : ∀ children : List (Node K),
    t ∈ textsOfChildren children → ("text".toList, t.toList) ∈ elementsOfChildren children
  | [], h => by cases h
  | child :: children, h => by
    rw [textsOfChildren, List.mem_append] at h
    rw [elementsOfChildren, List.mem_append]
    rcases h with h | h
    · exact .inl (child.mem_texts h)
    · exact .inr (mem_textsOfChildren children h)

end

/-- Every text of a scene is that of an element. -/
theorem SceneGraph.mem_texts {scene : SceneGraph K} {t : String} (h : t ∈ scene.texts) :
    ∃ e ∈ scene.elements, e.text = t.toList := by
  rcases List.mem_cons.mp h with rfl | h
  · exact ⟨⟨1, "title".toList, scene.name.toList⟩, List.mem_cons_self, rfl⟩
  · refine ⟨⟨1, "text".toList, t.toList⟩, List.mem_append_left _ ?_, rfl⟩
    exact List.mem_map.mpr ⟨("text".toList, t.toList),
      List.mem_cons_of_mem _ (List.mem_cons_of_mem _ (scene.root.mem_texts h)), rfl⟩

end Scenes

namespace Renderer

variable {K : Type} [Field K] {num : Numerals K}

section Tags

variable {pending : List Pending} {found : List Element} {n : List Char} {s t : String}

theorem neutral_opacity (color : Color) : Neutral (opacity num color) := num.neutral _

theorem skip_neutral (h : Neutral t) (last : Char) : ∃ last',
    scan ⟨.rest n last, pending, found⟩ t.toList = some ⟨.rest n last', pending, found⟩ :=
  scan_rest n last h.1 h.2

/-- The text has white space and the beginning of a tag of this name. -/
def Opens (n : List Char) (s : String) : Prop :=
  ∀ (e : Pending) (pending : List Pending) (found : List Element), ∃ last,
    scan ⟨.content, e :: pending, found⟩ s.toList =
      some ⟨.rest n last, { e with text := e.text ++ [' '] ++ [' '] } :: pending, found⟩

/-- What is skipped in the tag may come from the scene. -/
theorem scan_foldl {r : Reader} {l : List String}
    (h : ∃ last, scan r s.toList = some ⟨.rest n last, pending, found⟩)
    (ht : ∀ t ∈ l, Neutral t) :
    ∃ last, scan r (l.foldl (· ++ ·) s).toList = some ⟨.rest n last, pending, found⟩ := by
  induction l generalizing s with
  | nil => exact h
  | cons t l ih =>
    rw [List.forall_mem_cons] at ht
    obtain ⟨last, hs⟩ := h
    obtain ⟨last', hl⟩ := skip_neutral ht.1 last
    exact ih ⟨last', by rw [String.toList_append, scan_append_of hs, hl]⟩ ht.2

theorem Opens.foldl {l : List String} (h : Opens n s) (ht : ∀ t ∈ l, Neutral t) :
    Opens n (l.foldl (· ++ ·) s) := fun e pending found => scan_foldl (h e pending found) ht

/-- A tag that is an element of its own. -/
theorem reads_empty (h : Opens n s)
    (ht : ∀ (e : Pending) (pending : List Pending) (found : List Element) (last : Char),
      scan ⟨.rest n last, e :: pending, found⟩ t.toList =
        some ⟨.content, { e with text := e.text ++ ['\n'], parent := true } :: pending,
          found ++ [⟨pending.length + 1, n, []⟩]⟩) :
    Reads (s ++ t).toList [(n, [])] := by
  intro e pending found hb
  obtain ⟨last, hs⟩ := h e pending found
  refine ⟨{ e with text := e.text ++ [' '] ++ [' '] ++ ['\n'], parent := true }, rfl, ?_,
    fun _ => rfl, ?_⟩
  · simp only [blank_append, hb, true_and]
    exact ⟨⟨rfl, rfl⟩, rfl⟩
  · rw [String.toList_append, scan_append_of hs, ht]
    rfl

end Tags

variable [LinearOrder K] [FloorRing K]

theorem opens_textTag (x y : F64 K) {size fill : String} (hs : Neutral size) (hf : Neutral fill) :
    Opens "text".toList ("  <text x=\"" ++ i32 x ++ "\" y=\"" ++ i32 y ++ "\" font-size=\"" ++
      size ++ "\" fill=\"" ++ fill) := by
  have hopen : Opens "text".toList "  <text x=\"" := fun _ _ _ => ⟨'"', rfl⟩
  refine hopen.foldl (l := [i32 x, "\" y=\"", i32 y, "\" font-size=\"", size, "\" fill=\"",
    fill]) ?_
  simp only [List.forall_mem_cons, neutral_i32, hs, hf, true_and]
  decide

theorem reads_textElement (x y : F64 K) {size fill content : String} (hs : Neutral size)
    (hf : Neutral fill) (hc : Clean content.toList) :
    Reads (textElement x y size fill content).toList [("text".toList, content.toList)] := by
  intro e pending found hb
  obtain ⟨last, htag⟩ := opens_textTag x y hs hf e pending found
  refine ⟨{ e with text := e.text ++ [' '] ++ [' '] ++ ['\n'], parent := true }, rfl, ?_,
    fun _ => rfl, ?_⟩
  · simp only [blank_append, hb, true_and]
    exact ⟨⟨rfl, rfl⟩, rfl⟩
  · unfold textElement textTag
    have hend : scan ⟨.rest "text".toList last,
        { e with text := e.text ++ [' '] ++ [' '] } :: pending, found⟩ "\">".toList =
          some ⟨.content, ⟨"text".toList, [], false⟩ ::
            { e with text := e.text ++ [' '] ++ [' '] } :: pending, found⟩ := rfl
    rw [String.toList_append, scan_append, String.toList_append, scan_append, String.toList_append,
      scan_append_of htag, hend, Option.bind_some, scan_clean _ hc]
    rfl

/-- A shape has no text. -/
theorem reads_renderGeometry {geometry : NodeGeometry K} (color : Color) (x y : F64 K)
    (hc : ∀ t ∈ geometry.texts, Clean t.toList) :
    Reads (renderGeometry num geometry color x y).toList geometry.elements := by
  have hcircle : Opens "circle".toList "  <circle cx=\"" := fun _ _ _ => ⟨'"', rfl⟩
  have hrect : Opens "rect".toList "  <rect x=\"" := fun _ _ _ => ⟨'"', rfl⟩
  have hline : Opens "line".toList "  <line x1=\"" := fun _ _ _ => ⟨'"', rfl⟩
  cases geometry with
  | sphere radius =>
    refine reads_empty (hcircle.foldl (l := [i32 x, "\" cy=\"", i32 y, "\" r=\"", i32 radius,
      "\" fill=\"", rgb color, "\" opacity=\"", opacity num color]) ?_) fun _ _ _ _ => rfl
    simp only [List.forall_mem_cons, neutral_i32, neutral_rgb, neutral_opacity, true_and]
    decide
  | cube size =>
    refine reads_empty (hrect.foldl (l := [i32 (x - half size), "\" y=\"", i32 (y - half size),
      "\" width=\"", i32 size, "\" height=\"", i32 size, "\" fill=\"", rgb color, "\" opacity=\"",
      opacity num color]) ?_) fun _ _ _ _ => rfl
    simp only [List.forall_mem_cons, neutral_i32, neutral_rgb, neutral_opacity, true_and]
    decide
  | plane width height =>
    refine reads_empty (hrect.foldl (l := [i32 (x - half width), "\" y=\"", i32 (y - half height),
      "\" width=\"", i32 width, "\" height=\"", i32 height, "\" fill=\"", rgb color,
      "\" opacity=\"", opacity num color]) ?_) fun _ _ _ _ => rfl
    simp only [List.forall_mem_cons, neutral_i32, neutral_rgb, neutral_opacity, true_and]
    decide
  | point radius =>
    refine reads_empty (hcircle.foldl (l := [i32 x, "\" cy=\"", i32 y, "\" r=\"", i32 radius,
      "\" fill=\"", rgb color, "\" opacity=\"", opacity num color]) ?_) fun _ _ _ _ => rfl
    simp only [List.forall_mem_cons, neutral_i32, neutral_rgb, neutral_opacity, true_and]
    decide
  | line x1 y1 x2 y2 =>
    refine reads_empty (hline.foldl (l := [i32 x1, "\" y1=\"", i32 y1, "\" x2=\"", i32 x2,
      "\" y2=\"", i32 y2, "\" stroke=\"", rgb color]) ?_) fun _ _ _ _ => rfl
    simp only [List.forall_mem_cons, neutral_i32, neutral_rgb, true_and]
    decide
  | text content fontSize =>
    exact reads_textElement x y (neutral_i32 _) (neutral_rgb _) (hc content List.mem_cons_self)
  | group => exact .nil

theorem reads_renderLabel {label : Option String} (x y : F64 K)
    (hc : ∀ t ∈ label.toList, Clean t.toList) :
    Reads (renderLabel label x y).toList (labelElements label) := by
  cases label with
  | none => exact .nil
  | some label => exact reads_textElement _ _ (by decide) (by decide) (hc label List.mem_cons_self)

section Nodes

variable (num : Numerals K) (xOffset yOffset : F64 K)

mutual

theorem reads_nodePieces : ∀ node : Node K, (∀ t ∈ node.texts, Clean t.toList) →
    Reads (Markup.document (nodePieces num xOffset yOffset node)) node.elements
  | ⟨_, geometry, _, color, children, label⟩, hc => by
    rw [Node.texts, List.forall_mem_append, List.forall_mem_append] at hc
    rw [nodePieces, Markup.document_append, Markup.document_append, document_geometryPieces,
      document_labelPieces]
    exact (reads_renderGeometry color _ _ hc.1).append
      ((reads_renderLabel _ _ hc.2.1).append (reads_childrenPieces children hc.2.2))

theorem reads_childrenPieces : ∀ children : List (Node K),
    (∀ t ∈ textsOfChildren children, Clean t.toList) →
      Reads (Markup.document (childrenPieces num xOffset yOffset children))
        (elementsOfChildren children)
  | [], _ => .nil
  | child :: children, hc => by
    rw [textsOfChildren, List.forall_mem_append] at hc
    rw [childrenPieces, Markup.document_append]
    exact (reads_nodePieces child hc.1).append (reads_childrenPieces children hc.2)

end

end Nodes

section Frame

variable {name width height xMin yMin : String}

set_option maxRecDepth 2048 in
/-- The prolog, and the beginnings of the root element and of the title. -/
theorem scan_head (hw : Neutral width) (hh : Neutral height) (hx : Neutral xMin)
    (hy : Neutral yMin) : scan ⟨.content, [], []⟩ (head width height xMin yMin).toList =
      some ⟨.content, [⟨"title".toList, [], false⟩, ⟨"svg".toList, "\n  ".toList, false⟩], []⟩ := by
  obtain ⟨last, hs⟩ := scan_foldl (r := ⟨.content, [], []⟩) (n := "svg".toList)
    (s :=
      "<?xml version=\"1.0\" encoding=\"UTF-8\"?>\n<svg xmlns=\"http://www.w3.org/2000/svg\" width=\"")
    (l := [width, "\" height=\"", height, "\" viewBox=\"", xMin, " ", yMin, " ", width, " ",
      height])
    ⟨'"', rfl⟩ (by simp only [List.forall_mem_cons, hw, hh, hx, hy, true_and]; decide)
  unfold head
  rw [String.toList_append]
  exact (scan_append_of hs).trans rfl

set_option maxRecDepth 2048 in
/-- The end of the title, and the background. -/
theorem scan_background (hw : Neutral width) (hh : Neutral height) (name text : List Char) :
    scan ⟨.content, [⟨"title".toList, name, false⟩, ⟨"svg".toList, text, false⟩], []⟩
        (background width height).toList =
      some ⟨.content, [⟨"svg".toList, text ++ ['\n'] ++ [' '] ++ [' '] ++ ['\n'], true⟩],
        [⟨1, "title".toList, name⟩, ⟨1, "rect".toList, []⟩]⟩ := by
  obtain ⟨last, hs⟩ := scan_foldl (n := "rect".toList)
    (r := ⟨.content, [⟨"title".toList, name, false⟩, ⟨"svg".toList, text, false⟩], []⟩)
    (s := "</title>\n  <rect width=\"") (l := [width, "\" height=\"", height]) ⟨'"', rfl⟩
    (by simp only [List.forall_mem_cons, hw, hh, true_and]; decide)
  unfold background
  rw [String.toList_append]
  exact (scan_append_of hs).trans rfl

/-- The end of the root element, which has elements inside. -/
theorem scan_end {text : List Char} (hb : Blank text) (found : List Element) :
    scan ⟨.content, [⟨"svg".toList, text, true⟩], found⟩ "</svg>\n".toList =
      some ⟨.content, [], found ++ [⟨0, "svg".toList, []⟩]⟩ := by
  have hclose : close ⟨"svg".toList, text, true⟩ [] found =
      some ⟨.content, [], found ++ [⟨0, "svg".toList, []⟩]⟩ := by
    simp only [close, show text.all Char.isWhitespace = true from hb]
    rfl
  change (close ⟨"svg".toList, text, true⟩ [] found).bind (fun r => scan r ['\n']) = _
  rw [hclose]
  rfl

end Frame

theorem document_framed (num : Numerals K) (name : String) (root : Node K)
    (xMin yMin xMax yMax : F64 K) :
    (renderSvg num ⟨name, root, xMin, yMin, xMax, yMax⟩).toList =
      (head (i32 (xMax - xMin)) (i32 (yMax - yMin)) (i32 xMin) (i32 yMin)).toList ++
        (name.toList ++ ((background (i32 (xMax - xMin)) (i32 (yMax - yMin))).toList ++
          (Markup.document (nodePieces num xMin yMin root) ++ "</svg>\n".toList))) := by
  unfold renderSvg
  rw [String.toList_append, document_nodePieces]
  simp only [String.toList_append, List.append_assoc]

/-- The picture shows the elements of the scene and its texts, in order, exactly when a reader
takes none of these for markup or an entity. -/
theorem read_renderSvg_iff (num : Numerals K) (scene : SceneGraph K) :
    Elements.read (renderSvg num scene).toList = some scene.elements ↔
      ∀ t ∈ scene.texts, Clean t.toList := by
  constructor
  · intro h t ht
    obtain ⟨e, he, hte⟩ := SceneGraph.mem_texts ht
    rw [← hte]
    exact clean_of_read h e he
  · intro hc
    obtain ⟨name, root, xMin, yMin, xMax, yMax⟩ := scene
    rw [SceneGraph.texts, List.forall_mem_cons] at hc
    -- the root element stays open while its nodes are read
    obtain ⟨⟨_, text, _⟩, rfl, hblank, hparent, hnodes⟩ :=
      reads_nodePieces num xMin yMin root hc.2 ⟨"svg".toList, "\n  \n  \n".toList, true⟩ []
        [⟨1, "title".toList, name.toList⟩, ⟨1, "rect".toList, []⟩] rfl
    obtain rfl := hparent (.inl rfl)
    have hscan : scan ⟨.content, [], []⟩
        (renderSvg num ⟨name, root, xMin, yMin, xMax, yMax⟩).toList =
          some ⟨.content, [], SceneGraph.elements ⟨name, root, xMin, yMin, xMax, yMax⟩⟩ := by
      rw [document_framed, scan_append_of (scan_head (neutral_i32 _) (neutral_i32 _) (neutral_i32 _)
        (neutral_i32 _)), scan_append_of (scan_clean _ hc.1), List.nil_append,
        scan_append_of (scan_background (neutral_i32 _) (neutral_i32 _) _ _)]
      exact (scan_append_of hnodes).trans (scan_end hblank _)
    rw [Elements.read, hscan]

end Renderer
end HyperKitty.Art
