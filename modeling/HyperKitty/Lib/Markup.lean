import Mathlib

namespace Markup

/-- A document is put together from markup and texts. -/
inductive Piece (σ : Type*) where
  | markup (m : List σ)
  | text (t : List σ)

section Pieces

variable {σ : Type*}

def Piece.chars : Piece σ → List σ
  | markup m => m
  | text t => t

/-- The piece without its text. -/
def Piece.blank : Piece σ → Piece σ
  | markup m => markup m
  | text _ => text []

def document (ps : List (Piece σ)) : List σ := ps.flatMap Piece.chars

theorem document_cons (p : Piece σ) (ps : List (Piece σ)) :
    document (p :: ps) = p.chars ++ document ps := rfl

theorem document_append (ps qs : List (Piece σ)) :
    document (ps ++ qs) = document ps ++ document qs := List.flatMap_append

end Pieces

variable {σ : Type*} [DecidableEq σ] (opening closing : σ)

/-- The tags from a place on, with what has been read of the tag that the place is in. -/
def tagsFrom : Option (List σ) → List σ → List (List σ)
  | none, [] => []
  | some tag, [] => [tag]
  | none, c :: cs => if c = opening then tagsFrom (some []) cs else tagsFrom none cs
  | some tag, c :: cs =>
    if c = closing then tag :: tagsFrom none cs else tagsFrom (some (tag ++ [c])) cs

def tags (cs : List σ) : List (List σ) := tagsFrom opening closing none cs

/-- Whether the place behind a text is in a tag. -/
def after : Bool → List σ → Bool
  | inside, [] => inside
  | inside, c :: cs => after (if inside then decide (c ≠ closing) else decide (c = opening)) cs

/-- How many characters are in tags, each opening delimiter with its tag. -/
def inner : Bool → List σ → Nat
  | _, [] => 0
  | true, c :: cs => if c = closing then inner false cs else inner true cs + 1
  | false, c :: cs => if c = opening then inner true cs + 1 else inner false cs

/-- The characters of tags, each with its opening delimiter. -/
def weight (ts : List (List σ)) : Nat := (ts.map fun t => t.length + 1).sum

variable {opening closing} {xs ys : List σ} {inside : Bool}

@[simp] theorem after_append (inside : Bool) (xs ys : List σ) :
    after opening closing inside (xs ++ ys) =
      after opening closing (after opening closing inside xs) ys := by
  induction xs generalizing inside with
  | nil => rfl
  | cons c xs ih => exact ih _

/-- Without delimiters nothing changes. -/
theorem after_of_neutral (ho : opening ∉ xs) (hc : closing ∉ xs) :
    after opening closing inside xs = inside := by
  induction xs generalizing inside with
  | nil => rfl
  | cons c xs ih =>
    rw [List.mem_cons, not_or] at ho hc
    rw [after, ih ho.2 hc.2]
    cases inside with
    | false => simpa using Ne.symm ho.1
    | true => simpa using Ne.symm hc.1

theorem after_of_plain (ho : opening ∉ xs) : after opening closing false xs = false := by
  induction xs with
  | nil => rfl
  | cons c xs ih =>
    rw [List.mem_cons, not_or] at ho
    have hc : decide (c = opening) = false := decide_eq_false (Ne.symm ho.1)
    rw [after, if_neg (by simp), hc, ih ho.2]

/-- Behind a text that ends outside of tags, reading starts anew. -/
theorem tagsFrom_append (tag : Option (List σ)) (h : after opening closing tag.isSome xs = false) :
    tagsFrom opening closing tag (xs ++ ys) =
      tagsFrom opening closing tag xs ++ tags opening closing ys := by
  induction xs generalizing tag with
  | nil =>
    cases tag with
    | none => rfl
    | some tag => cases h
  | cons c xs ih =>
    cases tag with
    | none =>
      by_cases hc : c = opening
      · have hrest : after opening closing true xs = false := by simpa [after, hc] using h
        simp only [List.cons_append, tagsFrom, if_pos hc, ih (some []) hrest]
      · have hrest : after opening closing false xs = false := by simpa [after, hc] using h
        simp only [List.cons_append, tagsFrom, if_neg hc, ih none hrest]
    | some tag =>
      by_cases hc : c = closing
      · have hrest : after opening closing false xs = false := by simpa [after, hc] using h
        simp only [List.cons_append, tagsFrom, if_pos hc, ih none hrest]
      · have hrest : after opening closing true xs = false := by simpa [after, hc] using h
        simp only [List.cons_append, tagsFrom, if_neg hc, ih (some (tag ++ [c])) hrest]

theorem tags_append (h : after opening closing false xs = false) :
    tags opening closing (xs ++ ys) = tags opening closing xs ++ tags opening closing ys :=
  tagsFrom_append none h

theorem tags_of_plain (ho : opening ∉ xs) : tags opening closing xs = [] := by
  induction xs with
  | nil => rfl
  | cons c xs ih =>
    rw [List.mem_cons, not_or] at ho
    rw [tags, tagsFrom, if_neg (Ne.symm ho.1)]
    exact ih ho.2

theorem weight_tagsFrom (tag : Option (List σ)) (xs : List σ) :
    weight (tagsFrom opening closing tag xs) =
      (tag.elim 0 fun t => t.length + 1) + inner opening closing tag.isSome xs := by
  induction xs generalizing tag with
  | nil => cases tag <;> simp [tagsFrom, weight, inner]
  | cons c xs ih =>
    cases tag with
    | none =>
      rw [tagsFrom]
      split
      · rename_i hc
        simp [ih, inner, hc]
        omega
      · rename_i hc
        simp [ih, inner, hc]
    | some tag =>
      rw [tagsFrom]
      split
      · rename_i hc
        have hrest := ih none
        simp only [weight] at hrest
        simp [weight, hrest, inner, hc]
      · rename_i hc
        simp [ih, inner, hc]
        omega

theorem weight_tags (xs : List σ) :
    weight (tags opening closing xs) = inner opening closing false xs := by
  rw [tags, weight_tagsFrom]
  simp

theorem inner_append (inside : Bool) (xs ys : List σ) :
    inner opening closing inside (xs ++ ys) = inner opening closing inside xs +
      inner opening closing (after opening closing inside xs) ys := by
  induction xs generalizing inside with
  | nil => simp [inner, after]
  | cons c xs ih =>
    cases inside with
    | false =>
      by_cases hc : c = opening
      · simp [inner, after, hc, ih]
        omega
      · simp [inner, after, hc, ih]
    | true =>
      by_cases hc : c = closing
      · simp [inner, after, hc, ih]
      · simp [inner, after, hc, ih]
        omega

/-- An opening delimiter counts wherever it stands. -/
theorem inner_pos (hne : opening ≠ closing) (h : opening ∈ xs) :
    0 < inner opening closing inside xs := by
  induction xs generalizing inside with
  | nil => cases h
  | cons c xs ih =>
    rcases List.mem_cons.mp h with rfl | hm
    · cases inside with
      | false => simp [inner]
      | true => simp [inner, hne]
    · cases inside with
      | false =>
        rw [inner]
        split
        · exact Nat.succ_pos _
        · exact ih hm
      | true =>
        rw [inner]
        split
        · exact ih hm
        · exact Nat.succ_pos _

/-- Reading that starts in a tag has no less in tags. -/
theorem inner_le (hne : opening ≠ closing) (xs : List σ) :
    inner opening closing false xs ≤ inner opening closing true xs := by
  induction xs with
  | nil => exact le_rfl
  | cons c xs ih =>
    rw [inner, inner]
    by_cases ho : c = opening
    · subst ho
      rw [if_pos rfl, if_neg hne]
    · rw [if_neg ho]
      split
      · exact le_rfl
      · omega

section Documents

variable (opening closing) in
/-- Every piece of markup ends outside of tags. -/
def Closed (ps : List (Piece σ)) : Prop :=
  ∀ m, .markup m ∈ ps → after opening closing false m = false

variable (opening) in
/-- No text has an opening delimiter. -/
def Plain (ps : List (Piece σ)) : Prop := ∀ t, .text t ∈ ps → opening ∉ t

variable {ps : List (Piece σ)} {p : Piece σ}

theorem Closed.of_cons (h : Closed opening closing (p :: ps)) : Closed opening closing ps :=
  fun m hm => h m (List.mem_cons_of_mem p hm)

theorem closed_append {qs : List (Piece σ)} :
    Closed opening closing (ps ++ qs) ↔ Closed opening closing ps ∧ Closed opening closing qs := by
  simp only [Closed, List.mem_append, or_imp, forall_and]

omit [DecidableEq σ] in
theorem plain_append {qs : List (Piece σ)} :
    Plain opening (ps ++ qs) ↔ Plain opening ps ∧ Plain opening qs := by
  simp only [Plain, List.mem_append, or_imp, forall_and]

omit [DecidableEq σ] in
theorem plain_blank (ps : List (Piece σ)) : Plain opening (ps.map Piece.blank) := by
  intro t ht
  obtain ⟨p, -, hp⟩ := List.mem_map.mp ht
  cases p with
  | markup m => cases hp
  | text t =>
    cases hp
    exact List.not_mem_nil

theorem tags_document_of_plain (hc : Closed opening closing ps) (hp : Plain opening ps) :
    tags opening closing (document ps) =
      tags opening closing (document (ps.map Piece.blank)) := by
  induction ps with
  | nil => rfl
  | cons p ps ih =>
    have hrest := ih hc.of_cons fun t ht => hp t (List.mem_cons_of_mem p ht)
    rw [List.map_cons, document_cons, document_cons]
    cases p with
    | markup m =>
      have hm : after opening closing false m = false := hc m List.mem_cons_self
      rw [Piece.chars, Piece.blank, Piece.chars, tags_append hm, tags_append hm, hrest]
    | text t =>
      have ht : opening ∉ t := hp t List.mem_cons_self
      rw [Piece.chars, tags_append (after_of_plain ht), tags_of_plain ht, List.nil_append, hrest]
      rfl

theorem inner_blank_cons (hc : Closed opening closing (p :: ps)) :
    inner opening closing false (document ((p :: ps).map Piece.blank)) =
      inner opening closing false p.blank.chars +
        inner opening closing false (document (ps.map Piece.blank)) := by
  have hp : after opening closing false p.blank.chars = false := by
    cases p with
    | markup m => exact hc m List.mem_cons_self
    | text t => rfl
  rw [List.map_cons, document_cons, inner_append, hp]

theorem inner_blank_le (hne : opening ≠ closing) (p : Piece σ) (inside : Bool) :
    inner opening closing false p.blank.chars ≤ inner opening closing inside p.chars := by
  cases p with
  | text t => exact Nat.zero_le _
  | markup m =>
    cases inside with
    | false => exact le_rfl
    | true => exact inner_le hne m

/-- Texts never take anything out of the tags. -/
theorem inner_document_le (hne : opening ≠ closing) (hc : Closed opening closing ps)
    (inside : Bool) : inner opening closing false (document (ps.map Piece.blank)) ≤
      inner opening closing inside (document ps) := by
  induction ps generalizing inside with
  | nil => exact Nat.zero_le _
  | cons p ps ih =>
    rw [inner_blank_cons hc, document_cons, inner_append]
    exact Nat.add_le_add (inner_blank_le hne p inside) (ih hc.of_cons _)

/-- An opening delimiter in a text brings something into the tags. -/
theorem inner_document_lt (hne : opening ≠ closing) (hc : Closed opening closing ps)
    (hp : ¬ Plain opening ps) (inside : Bool) :
    inner opening closing false (document (ps.map Piece.blank)) <
      inner opening closing inside (document ps) := by
  induction ps generalizing inside with
  | nil => exact absurd nofun hp
  | cons p ps ih =>
    rw [inner_blank_cons hc, document_cons, inner_append]
    by_cases hrest : Plain opening ps
    · have htext : ∃ t, p = .text t ∧ opening ∈ t := by
        by_contra hno
        push Not at hno
        apply hp
        intro t ht
        rcases List.mem_cons.mp ht with he | ht
        · exact hno t he.symm
        · exact hrest t ht
      obtain ⟨t, rfl, ht⟩ := htext
      exact Nat.add_lt_add_of_lt_of_le (inner_pos hne ht) (inner_document_le hne hc.of_cons _)
    · exact Nat.add_lt_add_of_le_of_lt (inner_blank_le hne p inside) (ih hc.of_cons hrest _)

/-- The texts of a document leave its tags alone exactly when none has an opening delimiter. -/
theorem tags_document_iff (hne : opening ≠ closing) (hc : Closed opening closing ps) :
    tags opening closing (document ps) =
      tags opening closing (document (ps.map Piece.blank)) ↔ Plain opening ps := by
  constructor
  · intro h
    by_contra hp
    have hlt := inner_document_lt hne hc hp false
    rw [← weight_tags, ← weight_tags, h] at hlt
    exact lt_irrefl _ hlt
  · exact tags_document_of_plain hc

end Documents

end Markup
