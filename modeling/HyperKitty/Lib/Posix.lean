import Mathlib

namespace Posix

open RegularExpression

abbrev Expr := RegularExpression UInt8

def lower (b : UInt8) : UInt8 := if 65 ≤ b ∧ b ≤ 90 then b + 32 else b

def upper (b : UInt8) : UInt8 := if 97 ≤ b ∧ b ≤ 122 then b - 32 else b

def blanks : List UInt8 := [32, 9, 10, 11, 12, 13]

def byte (c : Char) : UInt8 := c.toNat.toUInt8

def oneOf (bs : List UInt8) : Expr := (bs.map char).foldr (· + ·) 0

/-- The character in either case. -/
def caseless (c : Char) : List UInt8 := [lower (byte c), upper (byte c)]

def seq : List Expr → Expr
  | [] => 1
  | [r] => r
  | r :: rs => r * seq rs

def choice : List (List Expr) → Expr
  | [] => 0
  | [rs] => seq rs
  | rs :: rss => seq rs + choice rss

/-- The characters that stand for themselves only behind a backslash. -/
def special : List Char := ['*', '?', '+', '|', '(', ')', '[', '{', '^', '$', '.', '\\']

def ascii (c : Char) : Bool := c.toNat < 128

/-- A character that stands for itself, in either case. -/
def literal (c : Char) : Option Expr := if ascii c then some (oneOf (caseless c)) else none

/-- The set of the characters between the brackets. There is none for a complement, and where a
range or a class stands for characters that are not listed. -/
def oneListed (cs : List Char) : Option Expr :=
  if cs = [] ∨ cs.head? = some '^' ∨ '[' ∈ cs ∨ '-' ∈ cs.tail.dropLast ∨ !cs.all ascii then none
  else some (oneOf (cs.flatMap caseless))

/-- An atom with the operator behind it. -/
def repeated (r : Expr) : List Char → Expr × List Char
  | '*' :: cs => (r.star, cs)
  | '+' :: cs => (r * r.star, cs)
  | '?' :: cs => (r + 1, cs)
  | cs => (r, cs)

/-- The branches of an expression, and what follows them. There are none where an operator has
nothing to repeat, or more than one stands behind an atom, nor for an interval, an anchor, any
character at all, and a backslash before anything but an operator or the `s` of the blanks. -/
def parse : Nat → List Char → Option (List (List Expr) × List Char)
  | 0, _ => none
  | n + 1, cs => do
    let (a, rest) ← match cs with
      | '\\' :: 's' :: cs => some (oneOf blanks, cs)
      | '\\' :: c :: cs => if c ∈ special then (literal c).map (·, cs) else none
      | '[' :: cs =>
        match cs.dropWhile (· ≠ ']') with
        | ']' :: rest => (oneListed (cs.takeWhile (· ≠ ']'))).map (·, rest)
        | _ => none
      | '(' :: cs =>
        match parse n cs with
        | some (rss, ')' :: rest) => some (choice rss, rest)
        | _ => none
      | c :: cs => if c ∈ special then none else (literal c).map (·, cs)
      | [] => none
    let (p, rest) := repeated a rest
    match rest with
    | [] => some ([[p]], [])
    | ')' :: rest => some ([[p]], ')' :: rest)
    | '|' :: rest => do
      let (rss, rest) ← parse n rest
      some ([p] :: rss, rest)
    | rest => do
      match ← parse n rest with
      | (rs :: rss, rest) => some ((p :: rs) :: rss, rest)
      | _ => none

/-- The expression that a pattern stands for, if it is one of those that are read. -/
def meaning (pattern : String) : Option Expr :=
  match parse (pattern.length + 1) pattern.toList with
  | some (rss, []) => some (choice rss)
  | _ => none

example : ["a\x7b2\x7d", "[a-z]", "[^a]", "[[:alpha:]]", "\\w", "a**", "a||b"].map meaning =
    List.replicate 7 none := by
  rfl

/-- The expression matches somewhere in the text. -/
def search (r : Expr) (text : List UInt8) : Bool :=
  text.tails.any fun rest => rest.inits.any r.rmatch

theorem search_iff {r : Expr} {text : List UInt8} :
    search r text = true ↔ ∃ u v w, text = u ++ v ++ w ∧ v ∈ r.matches' := by
  simp only [search, List.any_eq_true, List.mem_tails, List.mem_inits, rmatch_iff_matches']
  constructor
  · intro h
    obtain ⟨rest, ⟨u, hu⟩, v, ⟨w, hw⟩, hv⟩ := h
    exact ⟨u, v, w, by rw [← hu, ← hw, List.append_assoc], hv⟩
  · intro h
    obtain ⟨u, v, w, rfl, hv⟩ := h
    exact ⟨v ++ w, ⟨u, by simp⟩, v, ⟨w, rfl⟩, hv⟩

theorem mem_oneOf {bs : List UInt8} {v : List UInt8} :
    v ∈ (oneOf bs).matches' ↔ ∃ b ∈ bs, v = [b] := by
  induction bs with
  | nil => simp [oneOf, Language.notMem_zero]
  | cons b bs ih =>
    have hcons : oneOf (b :: bs) = char b + oneOf bs := rfl
    rw [hcons, matches'_add, Language.mem_add, ih, matches'_char, List.exists_mem_cons_iff]
    exact Iff.rfl

theorem lower_eq_lower_iff {a b : UInt8} : lower a = lower b ↔ a = lower b ∨ a = upper b := by
  have hup : ∀ b : UInt8, (65 ≤ b ∧ b ≤ 90) ↔ 65 ≤ b.toNat ∧ b.toNat ≤ 90 := by
    intro b
    simp [UInt8.le_iff_toNat_le]
  have hlo : ∀ b : UInt8, (97 ≤ b ∧ b ≤ 122) ↔ 97 ≤ b.toNat ∧ b.toNat ≤ 122 := by
    intro b
    simp [UInt8.le_iff_toNat_le]
  simp only [lower, upper, hup, hlo]
  grind [UInt8.toNat_inj, UInt8.toNat_add, UInt8.toNat_sub]

theorem mem_caseless {b : UInt8} {c : Char} : b ∈ caseless c ↔ lower b = lower (byte c) := by
  rw [lower_eq_lower_iff, caseless, List.mem_cons, List.mem_singleton]

section Words

variable {v : List UInt8} {rs : List Expr}

theorem matches'_seq (rs : List Expr) : (seq rs).matches' = (rs.map matches').prod := by
  induction rs with
  | nil => rfl
  | cons r rs ih =>
    cases rs with
    | nil => simp [seq]
    | cons r' rs =>
      have hseq : seq (r :: r' :: rs) = r * seq (r' :: rs) := rfl
      rw [hseq, matches'_mul, ih]
      simp

/-- The letters of a word, in either case. -/
def word (s : String) : List Expr := s.toList.map fun c => oneOf (caseless c)

/-- Words with any blanks between them. -/
def phrase : List String → List Expr
  | [] => []
  | [s] => word s
  | s :: ss => word s ++ (oneOf blanks).star :: phrase ss

/-- The text is the word, whatever the case of its letters. -/
def Reads (s : String) (v : List UInt8) : Prop := v.map lower = s.toList.map (lower ∘ byte)

instance (s : String) (v : List UInt8) : Decidable (Reads s v) :=
  inferInstanceAs (Decidable (_ = _))

/-- The text is made of the words, with nothing but blanks between them. -/
def Spoken : List String → List UInt8 → Prop
  | [], v => v = []
  | [s], v => Reads s v
  | s :: ss, v => ∃ front gap rest, v = front ++ gap ++ rest ∧ Reads s front ∧
      (∀ b ∈ gap, b ∈ blanks) ∧ Spoken ss rest

theorem spoken_singleton {s : String} : Spoken [s] v ↔ Reads s v := Iff.rfl

theorem spoken_cons {s t : String} {ss : List String} : Spoken (s :: t :: ss) v ↔
    ∃ front gap rest, v = front ++ gap ++ rest ∧ Reads s front ∧ (∀ b ∈ gap, b ∈ blanks) ∧
      Spoken (t :: ss) rest :=
  Iff.rfl

theorem mem_word {s : String} : v ∈ ((word s).map matches').prod ↔ Reads s v := by
  rw [word, Reads, List.map_map]
  induction s.toList generalizing v with
  | nil =>
    simp only [List.map_nil, List.prod_nil, Language.mem_one, List.map_eq_nil_iff]
  | cons c cs ih =>
    rw [List.map_cons, List.prod_cons, Language.mem_mul]
    constructor
    · intro h
      obtain ⟨a, ha, b, hb, rfl⟩ := h
      obtain ⟨x, hx, rfl⟩ := mem_oneOf.mp ha
      simp [mem_caseless.mp hx, ih.mp hb]
    · intro h
      cases v with
      | nil => simp at h
      | cons x v =>
        rw [List.map_cons, List.map_cons, List.cons.injEq] at h
        exact ⟨[x], mem_oneOf.mpr ⟨x, mem_caseless.mpr h.1, rfl⟩, v, ih.mpr h.2, rfl⟩

theorem reads_append_iff {s t : String} :
    Reads (s ++ t) v ↔ ∃ a b, v = a ++ b ∧ Reads s a ∧ Reads t b := by
  rw [Reads, String.toList_append, List.map_append, List.map_eq_append_iff]
  exact Iff.rfl

/-- A word of one letter is that letter, in either case. -/
theorem reads_singleton {s : String} {c : Char} (hs : s.toList = [c]) :
    Reads s v ↔ ∃ b ∈ caseless c, v = [b] := by
  rw [← mem_word, word, hs, List.map_singleton, List.map_singleton, List.prod_singleton, mem_oneOf]

theorem mem_star_oneOf {bs : List UInt8} :
    v ∈ (oneOf bs).star.matches' ↔ ∀ b ∈ v, b ∈ bs := by
  rw [matches'_star, Language.mem_kstar]
  constructor
  · intro h
    obtain ⟨parts, rfl, hparts⟩ := h
    intro b hb
    obtain ⟨part, hp, hb⟩ := List.mem_flatten.mp hb
    obtain ⟨x, hx, rfl⟩ := mem_oneOf.mp (hparts part hp)
    rwa [List.mem_singleton.mp hb]
  · intro h
    refine ⟨v.map fun b => [b], ?_, ?_⟩
    · rw [← List.flatMap_def, List.flatMap_singleton']
    · intro part hp
      obtain ⟨b, hb, rfl⟩ := List.mem_map.mp hp
      exact mem_oneOf.mpr ⟨b, h b hb, rfl⟩

theorem mem_seq_append {rs' : List Expr} : v ∈ (seq (rs ++ rs')).matches' ↔
    ∃ a ∈ (rs.map matches').prod, ∃ b ∈ (rs'.map matches').prod, a ++ b = v := by
  rw [matches'_seq, List.map_append, List.prod_append, Language.mem_mul]

/-- A phrase matches exactly the texts in which it is spoken. -/
theorem mem_phrase {ss : List String} : v ∈ (seq (phrase ss)).matches' ↔ Spoken ss v := by
  rw [matches'_seq]
  induction ss generalizing v with
  | nil => exact Iff.rfl
  | cons s ss ih =>
    cases ss with
    | nil => exact mem_word
    | cons s' ss =>
      have hphrase : phrase (s :: s' :: ss) = word s ++ (oneOf blanks).star :: phrase (s' :: ss) :=
        rfl
      rw [hphrase, List.map_append, List.prod_append, Language.mem_mul]
      constructor
      · intro h
        obtain ⟨front, hf, back, hb, rfl⟩ := h
        rw [List.map_cons, List.prod_cons] at hb
        obtain ⟨gap, hg, rest, hr, rfl⟩ := Language.mem_mul.mp hb
        exact ⟨front, gap, rest, by simp, mem_word.mp hf, mem_star_oneOf.mp hg, ih.mp hr⟩
      · intro h
        obtain ⟨front, gap, rest, rfl, hf, hg, hr⟩ := h
        refine ⟨front, mem_word.mpr hf, gap ++ rest, ?_, by simp⟩
        rw [List.map_cons, List.prod_cons]
        exact Language.mem_mul.mpr ⟨gap, mem_star_oneOf.mpr hg, rest, ih.mpr hr, rfl⟩

/-- The words stand somewhere in the text. -/
def Says (ss : List String) (text : List UInt8) : Prop :=
  ∃ u v w, text = u ++ v ++ w ∧ Spoken ss v

theorem search_phrase {ss : List String} {text : List UInt8} :
    search (seq (phrase ss)) text = true ↔ Says ss text := by
  simp only [search_iff, mem_phrase, Says]

end Words

end Posix
