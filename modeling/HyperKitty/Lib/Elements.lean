import Mathlib

namespace Elements

/-- An element that was read to its end, and how many elements it stands in. -/
structure Element where
  depth : Nat
  name : List Char
  text : List Char
  deriving DecidableEq

/-- An element whose end is still to come, and whether it has elements inside. -/
structure Pending where
  name : List Char
  text : List Char
  parent : Bool
  deriving DecidableEq

/-- Where the reader is: outside of tags, in the name of a tag, or behind the name, with the
character read last. -/
inductive Mode where
  | content
  | name (n : List Char)
  | rest (n : List Char) (last : Char)
  deriving DecidableEq

/-- The innermost pending element is first, and the elements found are in the order of their
ends. -/
structure Reader where
  mode : Mode
  pending : List Pending
  found : List Element
  deriving DecidableEq

/-- An element has either elements or a text inside. -/
def close (e : Pending) (pending : List Pending) (found : List Element) : Option Reader :=
  if e.parent && !e.text.all Char.isWhitespace then none
  else
    let text := if e.parent then [] else e.text
    some ⟨.content, pending.modifyHead fun p => { p with parent := true },
      found ++ [⟨pending.length, e.name, text⟩]⟩

/-- The end of a tag: of an end tag, an instruction, an empty element or a start tag. -/
def finish (n : List Char) (last : Char) (pending : List Pending) (found : List Element) :
    Option Reader :=
  if n.head? = some '/' then
    match pending with
    | e :: pending => if e.name = n.tail then close e pending found else none
    | [] => none
  else if n.head? = some '?' then
    if last = '?' then some ⟨.content, pending, found⟩ else none
  else if last = '/' then close ⟨n, [], false⟩ pending found
  else some ⟨.content, ⟨n, [], false⟩ :: pending, found⟩

def Reader.step (r : Reader) (c : Char) : Option Reader :=
  match r.mode with
  | .content =>
    if c = '<' then some { r with mode := .name [] }
    else if c = '&' then none
    else
      match r.pending with
      | e :: pending => some { r with pending := { e with text := e.text ++ [c] } :: pending }
      | [] => if c.isWhitespace then some r else none
  | .name n =>
    if c = '<' then none
    else if c = '>' then finish n ' ' r.pending r.found
    else if c = ' ' ∨ c = '/' ∧ n ≠ [] then some { r with mode := .rest n c }
    else some { r with mode := .name (n ++ [c]) }
  | .rest n last =>
    if c = '<' then none
    else if c = '>' then finish n last r.pending r.found
    else some { r with mode := .rest n c }

def scan (r : Reader) (cs : List Char) : Option Reader := cs.foldlM Reader.step r

/-- What a document consists of, if it ends outside of tags and elements. -/
def read (cs : List Char) : Option (List Element) :=
  match scan ⟨.content, [], []⟩ cs with
  | some ⟨.content, [], found⟩ => some found
  | _ => none

/-- The text is one that the reader takes for nothing else. -/
def Clean (t : List Char) : Prop := '<' ∉ t ∧ '&' ∉ t

variable {cs ds t : List Char} {r r' : Reader} {pending : List Pending} {found : List Element}

theorem scan_append : scan r (cs ++ ds) = (scan r cs).bind fun r => scan r ds :=
  List.foldlM_append

theorem scan_append_of (h : scan r cs = some r') : scan r (cs ++ ds) = scan r' ds := by
  rw [scan_append, h, Option.bind_some]

/-- A clean text is added to that of the innermost element. -/
theorem scan_clean (e : Pending) (h : Clean t) :
    scan ⟨.content, e :: pending, found⟩ t =
      some ⟨.content, { e with text := e.text ++ t } :: pending, found⟩ := by
  induction t generalizing e with
  | nil => simp [scan]
  | cons c t ih =>
    obtain ⟨hopen, hentity⟩ := h
    rw [List.mem_cons, not_or] at hopen hentity
    have hstep : Reader.step ⟨.content, e :: pending, found⟩ c =
        some ⟨.content, { e with text := e.text ++ [c] } :: pending, found⟩ := by
      simp only [Reader.step, if_neg (Ne.symm hopen.1), if_neg (Ne.symm hentity.1)]
    have hrest := ih { e with text := e.text ++ [c] } ⟨hopen.2, hentity.2⟩
    simp only [List.append_assoc, List.singleton_append] at hrest
    rw [scan, List.foldlM_cons, hstep]
    exact hrest

/-- Behind the name of a tag, only the character in front of the end counts. -/
theorem scan_rest (n : List Char) (last : Char) (hopen : '<' ∉ t) (hclose : '>' ∉ t) :
    ∃ last', scan ⟨.rest n last, pending, found⟩ t = some ⟨.rest n last', pending, found⟩ := by
  induction t generalizing last with
  | nil => exact ⟨last, rfl⟩
  | cons c t ih =>
    rw [List.mem_cons, not_or] at hopen hclose
    have hstep : Reader.step ⟨.rest n last, pending, found⟩ c =
        some ⟨.rest n c, pending, found⟩ := by
      simp only [Reader.step, if_neg (Ne.symm hopen.1), if_neg (Ne.symm hclose.1)]
    obtain ⟨last', hrest⟩ := ih c hopen.2 hclose.2
    refine ⟨last', ?_⟩
    rw [scan, List.foldlM_cons, hstep]
    exact hrest

section Texts

/-- Every text that the reader holds is clean. -/
structure Reader.Clean (r : Reader) : Prop where
  pending : ∀ e ∈ r.pending, Elements.Clean e.text
  found : ∀ e ∈ r.found, Elements.Clean e.text

theorem clean_nil : Clean [] := ⟨List.not_mem_nil, List.not_mem_nil⟩

theorem clean_close {e : Pending} (he : Clean e.text) (hp : ∀ e ∈ pending, Clean e.text)
    (hf : ∀ e ∈ found, Clean e.text) (h : close e pending found = some r) : r.Clean := by
  unfold close at h
  split at h
  · cases h
  · cases h
    constructor
    · cases pending with
      | nil => exact hp
      | cons p pending =>
        rw [List.forall_mem_cons] at hp
        exact List.forall_mem_cons.mpr hp
    · refine List.forall_mem_append.mpr ⟨hf, List.forall_mem_singleton.mpr ?_⟩
      cases e.parent with
      | false => exact he
      | true => exact clean_nil

theorem clean_finish {n : List Char} {last : Char} (hp : ∀ e ∈ pending, Clean e.text)
    (hf : ∀ e ∈ found, Clean e.text) (h : finish n last pending found = some r) : r.Clean := by
  unfold finish at h
  split at h
  · cases pending with
    | nil => cases h
    | cons e pending =>
      rw [List.forall_mem_cons] at hp
      simp only at h
      split at h
      · exact clean_close hp.1 hp.2 hf h
      · cases h
  · split at h
    · split at h
      · cases h
        exact ⟨hp, hf⟩
      · cases h
    · split at h
      · exact clean_close clean_nil hp hf h
      · cases h
        exact ⟨List.forall_mem_cons.mpr ⟨clean_nil, hp⟩, hf⟩

theorem Reader.Clean.step (hr : r.Clean) {c : Char} (h : r.step c = some r') : r'.Clean := by
  obtain ⟨mode, pending, found⟩ := r
  obtain ⟨hp, hf⟩ := hr
  cases mode with
  | content =>
    simp only [Reader.step] at h
    split at h
    · cases h
      exact ⟨hp, hf⟩
    · rename_i hopen
      split at h
      · cases h
      · rename_i hentity
        cases pending with
        | nil =>
          simp only at h
          split at h
          · cases h
            exact ⟨hp, hf⟩
          · cases h
        | cons e pending =>
          cases h
          rw [List.forall_mem_cons] at hp
          refine ⟨List.forall_mem_cons.mpr ⟨?_, hp.2⟩, hf⟩
          constructor
          · simpa using ⟨hp.1.1, Ne.symm hopen⟩
          · simpa using ⟨hp.1.2, Ne.symm hentity⟩
  | name n =>
    simp only [Reader.step] at h
    split at h
    · cases h
    · split at h
      · exact clean_finish hp hf h
      · split at h
        · cases h
          exact ⟨hp, hf⟩
        · cases h
          exact ⟨hp, hf⟩
  | rest n last =>
    simp only [Reader.step] at h
    split at h
    · cases h
    · split at h
      · exact clean_finish hp hf h
      · cases h
        exact ⟨hp, hf⟩

theorem Reader.Clean.scan (hr : r.Clean) (h : scan r cs = some r') : r'.Clean := by
  induction cs generalizing r with
  | nil =>
    cases h
    exact hr
  | cons c cs ih =>
    rw [Elements.scan, List.foldlM_cons] at h
    obtain ⟨r₁, hstep, hrest⟩ := Option.bind_eq_some_iff.mp h
    exact ih (hr.step hstep) hrest

/-- What the reader says of a document, it can only have read from clean texts. -/
theorem clean_of_read {es : List Element} (h : read cs = some es) : ∀ e ∈ es, Clean e.text := by
  unfold read at h
  split at h
  · rename_i found hscan
    cases h
    have hstart : Reader.Clean ⟨.content, [], []⟩ := ⟨List.forall_mem_nil _, List.forall_mem_nil _⟩
    exact (hstart.scan hscan).found
  · cases h

end Texts

section Contents

def Blank (t : List Char) : Prop := t.all Char.isWhitespace = true

theorem blank_append : Blank (cs ++ ds) ↔ Blank cs ∧ Blank ds := by
  simp [Blank, List.all_append]

/-- The characters are read as elements, with nothing but white space between them. -/
def Reads (cs : List Char) (es : List (List Char × List Char)) : Prop :=
  ∀ (e : Pending) (pending : List Pending) (found : List Element), Blank e.text →
    ∃ e' : Pending, e'.name = e.name ∧ Blank e'.text ∧ (e.parent ∨ es ≠ [] → e'.parent) ∧
      scan ⟨.content, e :: pending, found⟩ cs =
        some ⟨.content, e' :: pending,
          found ++ es.map fun x => ⟨pending.length + 1, x.1, x.2⟩⟩

variable {es fs : List (List Char × List Char)}

theorem Reads.nil : Reads [] [] := by
  intro e pending found h
  refine ⟨e, rfl, h, ?_, ?_⟩
  · rintro (hp | hp)
    · exact hp
    · exact absurd rfl hp
  · rw [List.map_nil, List.append_nil]
    rfl

theorem Reads.append (h : Reads cs es) (h' : Reads ds fs) : Reads (cs ++ ds) (es ++ fs) := by
  intro e pending found hb
  obtain ⟨e₁, hname, hblank, hparent, hscan⟩ := h e pending found hb
  obtain ⟨e₂, hname', hblank', hparent', hscan'⟩ := h' e₁ pending _ hblank
  refine ⟨e₂, hname'.trans hname, hblank', ?_, ?_⟩
  · intro hp
    apply hparent'
    by_cases hf : fs = []
    · rw [hf, List.append_nil] at hp
      exact .inl (hparent hp)
    · exact .inr hf
  · rw [scan_append_of hscan, hscan', List.map_append, List.append_assoc]

end Contents

end Elements
