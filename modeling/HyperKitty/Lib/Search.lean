import Mathlib

namespace Search

variable {α : Type*}

section Joints

variable {pat xs ys : List α} {c : α}

theorem prefix_append_cons (xs ys : List α) (hc : c ∉ pat) :
    pat <+: xs ++ c :: ys ↔ pat <+: xs := by
  constructor
  · intro h
    obtain ⟨t, ht⟩ := h
    rcases List.append_eq_append_iff.mp ht with ⟨more, rfl, -⟩ | ⟨more, rfl, hmore⟩
    · exact List.prefix_append _ _
    · cases more with
      | nil => simp
      | cons d more =>
        rw [List.cons_append, List.cons.injEq] at hmore
        exact absurd (by simp [hmore.1]) hc
  · intro h
    exact h.trans (List.prefix_append _ _)

/-- A text without `c` does not reach across a `c`. -/
theorem infix_append_cons (hc : c ∉ pat) : pat <:+: xs ++ c :: ys ↔ pat <:+: xs ∨ pat <:+: ys := by
  induction xs with
  | nil =>
    have hnil := prefix_append_cons [] ys hc
    simp_all [List.infix_cons_iff]
  | cons x xs ih =>
    have hcons := prefix_append_cons (x :: xs) ys hc
    rw [List.cons_append] at hcons ⊢
    rw [List.infix_cons_iff, List.infix_cons_iff, hcons, ih, or_assoc]

/-- A text without `c` stands in lines joined by `c` when it stands in one of them. -/
theorem infix_intercalate (xss : List (List α)) (hc : c ∉ pat) (hne : pat ≠ []) :
    pat <:+: [c].intercalate xss ↔ ∃ xs ∈ xss, pat <:+: xs := by
  induction xss with
  | nil => simp [hne]
  | cons xs xss ih =>
    cases xss with
    | nil => simp
    | cons ys xss =>
      have hcut : [c].intercalate (xs :: ys :: xss) = xs ++ c :: [c].intercalate (ys :: xss) := by
        simp [List.intercalate]
      rw [hcut, infix_append_cons hc, ih]
      simp only [List.mem_cons, exists_eq_or_imp]

end Joints

variable [DecidableEq α]

/-- The rest of the list from the first place where `pat` stands. -/
def findFrom (pat : List α) : List α → Option (List α)
  | [] => if pat = [] then some [] else none
  | x :: xs => if pat <+: x :: xs then some (x :: xs) else findFrom pat xs

/-- The pieces of a list, each with the `c` that ends it. -/
def splitInclusive (c : α) : List α → List (List α)
  | [] => []
  | x :: xs =>
    if x = c then [c] :: splitInclusive c xs
    else
      match splitInclusive c xs with
      | [] => [[x]]
      | piece :: pieces => (x :: piece) :: pieces

/-- The list without the `c` at its end. -/
def stripSuffix (c : α) (xs : List α) : Option (List α) :=
  if xs.getLast? = some c then some xs.dropLast else none

/-- A line without its line feed, nor the carriage return before that. -/
def stripEnding (line : List Char) : List Char :=
  match stripSuffix '\n' line with
  | none => line
  | some body => (stripSuffix '\r' body).getD body

def lines (cs : List Char) : List (List Char) := (splitInclusive '\n' cs).map stripEnding

section Places

variable {pat xs ys rest : List α} {c : α}

theorem findFrom_eq_none : findFrom pat xs = none ↔ ¬ pat <:+: xs := by
  induction xs with
  | nil => simp [findFrom]
  | cons x xs ih =>
    rw [findFrom, List.infix_cons_iff]
    by_cases hp : pat <+: x :: xs
    · simp [hp]
    · simp [hp, ih]

theorem findFrom_some (h : findFrom pat xs = some rest) :
    ∃ front, xs = front ++ rest ∧ pat <+: rest := by
  induction xs with
  | nil =>
    by_cases hp : pat = []
    · subst hp
      exact ⟨[], by simpa [findFrom] using h, List.nil_prefix⟩
    · simp [findFrom, hp] at h
  | cons x xs ih =>
    rw [findFrom] at h
    by_cases hp : pat <+: x :: xs
    · rw [if_pos hp, Option.some.injEq] at h
      exact ⟨[], h, h ▸ hp⟩
    · rw [if_neg hp] at h
      obtain ⟨front, hfront, hpre⟩ := ih h
      exact ⟨x :: front, by rw [hfront, List.cons_append], hpre⟩

/-- What is not found before `c` is looked for behind it. -/
theorem findFrom_append_none (hc : c ∉ pat) (h : findFrom pat xs = none) :
    findFrom pat (xs ++ c :: ys) = findFrom pat ys := by
  have hne : pat ≠ [] := fun hp => findFrom_eq_none.mp h (hp ▸ List.nil_infix)
  induction xs with
  | nil =>
    have hnil := prefix_append_cons [] ys hc
    rw [List.nil_append] at hnil ⊢
    rw [findFrom, if_neg fun hq => hne (List.prefix_nil.mp (hnil.mp hq))]
  | cons x xs ih =>
    have hcons := prefix_append_cons (x :: xs) ys hc
    rw [findFrom_eq_none, List.infix_cons_iff, not_or] at h
    rw [List.cons_append] at hcons ⊢
    rw [findFrom, if_neg (fun hq => h.1 (hcons.mp hq)), ih (findFrom_eq_none.mpr h.2)]

end Places

section Lines

variable {c : α} {xs ys : List α}

theorem splitInclusive_ne_nil (hx : xs ≠ []) : splitInclusive c xs ≠ [] := by
  cases xs with
  | nil => exact absurd rfl hx
  | cons x xs =>
    rw [splitInclusive]
    split
    · simp
    · split <;> simp

theorem splitInclusive_append : splitInclusive c (xs ++ c :: ys) =
    splitInclusive c (xs ++ [c]) ++ splitInclusive c ys := by
  induction xs with
  | nil => simp [splitInclusive]
  | cons x xs ih =>
    rw [List.cons_append, List.cons_append, splitInclusive, splitInclusive]
    by_cases hx : x = c
    · rw [if_pos hx, if_pos hx, ih, List.cons_append]
    · rw [if_neg hx, if_neg hx, ih]
      rcases hp : splitInclusive c (xs ++ [c]) with _ | ⟨piece, pieces⟩
      · exact absurd hp (splitInclusive_ne_nil (by simp))
      · rfl

theorem flatten_splitInclusive : (splitInclusive c xs).flatten = xs := by
  induction xs with
  | nil => rfl
  | cons x xs ih =>
    rw [splitInclusive]
    split
    · next hx => rw [List.flatten_cons, ih, hx, List.singleton_append]
    · split
      · next hs =>
        rw [hs] at ih
        rw [← ih]
        rfl
      · next piece pieces hs =>
        rw [hs] at ih
        rw [← ih]
        rfl

theorem prefix_stripSuffix {body : List α} (h : stripSuffix c xs = some body) : body <+: xs := by
  unfold stripSuffix at h
  split at h
  · cases h
    exact List.dropLast_prefix xs
  · cases h

theorem prefix_stripEnding (line : List Char) : stripEnding line <+: line := by
  unfold stripEnding
  split
  · exact List.prefix_rfl
  · next body hbody =>
    have hb := prefix_stripSuffix hbody
    cases hr : stripSuffix '\r' body with
    | none => exact hb
    | some inner => exact (prefix_stripSuffix hr).trans hb

theorem prefix_of_stripSuffix {body : List α} (hx : xs <+: ys)
    (hlast : xs.getLast? ≠ some c) (h : stripSuffix c ys = some body) : xs <+: body := by
  obtain ⟨more, rfl⟩ := hx
  unfold stripSuffix at h
  split at h
  · next hys =>
    cases h
    have hmore : more ≠ [] := by
      rintro rfl
      rw [List.append_nil] at hys
      exact hlast hys
    rw [List.dropLast_append_of_ne_nil hmore]
    exact List.prefix_append _ _
  · cases h

/-- What a line starts with is left when it loses its ending, unless it ends like a line. -/
theorem prefix_of_stripEnding {text line : List Char} (h : text <+: line)
    (hfeed : text.getLast? ≠ some '\n') (hreturn : text.getLast? ≠ some '\r') :
    text <+: stripEnding line := by
  unfold stripEnding
  split
  · exact h
  · next body hbody =>
    have hb := prefix_of_stripSuffix h hfeed hbody
    cases hr : stripSuffix '\r' body with
    | none => exact hb
    | some inner => exact prefix_of_stripSuffix hb hreturn hr

/-- A text without `c` stands at the start of the first piece. -/
theorem head_splitInclusive (ys : List α) (hc : c ∉ xs) (hne : xs ≠ []) :
    ∃ piece pieces, splitInclusive c (xs ++ ys) = piece :: pieces ∧ xs <+: piece := by
  induction xs with
  | nil => exact absurd rfl hne
  | cons x xs ih =>
    rw [List.mem_cons, not_or] at hc
    rw [List.cons_append, splitInclusive, if_neg (Ne.symm hc.1)]
    cases xs with
    | nil =>
      split
      · exact ⟨[x], [], rfl, List.prefix_rfl⟩
      · exact ⟨_, _, rfl, List.prefix_append [x] _⟩
    | cons y xs =>
      obtain ⟨piece, pieces, hsplit, hpre⟩ := ih hc.2 (List.cons_ne_nil y xs)
      rw [hsplit]
      exact ⟨x :: piece, pieces, rfl, List.cons_prefix_cons.mpr ⟨rfl, hpre⟩⟩

/-- What follows a line feed has its own lines. -/
theorem lines_append (cs ds : List Char) :
    lines (cs ++ '\n' :: ds) = lines (cs ++ ['\n']) ++ lines ds := by
  rw [lines, lines, lines, splitInclusive_append, List.map_append]

theorem infix_of_mem_lines {cs line : List Char} (h : line ∈ lines cs) : line <:+: cs := by
  obtain ⟨piece, hpiece, rfl⟩ := List.mem_map.mp h
  have hin := List.infix_of_mem_flatten hpiece
  rw [flatten_splitInclusive] at hin
  exact (prefix_stripEnding piece).isInfix.trans hin

/-- A text within a line is read there, with the same character before it or none. -/
theorem mem_lines_of_infix (front back : List Char) {text : List Char} (hfeed : '\n' ∉ text)
    (hne : text ≠ []) (hreturn : text.getLast? ≠ some '\r') :
    ∃ before behind, before ++ (text ++ behind) ∈ lines (front ++ (text ++ back)) ∧
      (before = [] ∨ before.getLast? = front.getLast?) := by
  have hfirst : ∀ before : List Char, '\n' ∉ before → ∃ behind,
      before ++ (text ++ behind) ∈ lines (before ++ (text ++ back)) := by
    intro before hbefore
    have hnext : before ++ text ≠ [] := by simp [hne]
    have hlast : (before ++ text).getLast? = text.getLast? := List.getLast?_append_of_ne_nil _ hne
    have hnofeed : (before ++ text).getLast? ≠ some '\n' := by
      intro h
      rw [hlast] at h
      exact hfeed (List.mem_of_getLast? h)
    obtain ⟨piece, pieces, hsplit, hpre⟩ :=
      head_splitInclusive back (List.not_mem_append hbefore hfeed) hnext
    obtain ⟨behind, hbehind⟩ := prefix_of_stripEnding hpre hnofeed (hlast ▸ hreturn)
    refine ⟨behind, ?_⟩
    rw [lines, ← List.append_assoc, ← List.append_assoc, hsplit, hbehind]
    exact List.mem_map_of_mem List.mem_cons_self
  by_cases hfront : '\n' ∈ front
  · -- the line starts behind the last line feed
    obtain ⟨later, earlier, hrev, hlater⟩ :=
      List.eq_append_cons_of_mem (List.mem_reverse.mpr hfront)
    have hcut : front = earlier.reverse ++ '\n' :: later.reverse := by
      rw [← List.reverse_reverse front, hrev]
      simp
    obtain ⟨behind, hmem⟩ := hfirst later.reverse (by simpa using hlater)
    refine ⟨later.reverse, behind, ?_, ?_⟩
    · rw [hcut, List.append_assoc, List.cons_append, lines_append]
      exact List.mem_append_right _ hmem
    · by_cases hnil : later.reverse = []
      · exact Or.inl hnil
      · right
        rw [hcut, List.getLast?_append_of_ne_nil _ (List.cons_ne_nil _ _),
          List.getLast?_cons_of_ne_nil hnil]
  · obtain ⟨behind, hmem⟩ := hfirst front hfront
    exact ⟨front, behind, hmem, Or.inr rfl⟩

end Lines

end Search
