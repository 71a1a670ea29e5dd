import Mathlib

/-- A place in a text: what stands before it, backwards, and what follows. -/
structure Cursor where
  before : List Char
  after : List Char
  deriving DecidableEq

/-- The text `cs` is read on the way from one place to the other. -/
def Cursor.Reads (cs : List Char) (p q : Cursor) : Prop :=
  p.after = cs ++ q.after ∧ q.before = cs.reverse ++ p.before

/-- The characters that one place of a pattern admits. -/
inductive Symbols where
  | char (c : Char)
  | among (cs : List Char)
  | space
  | any
  deriving DecidableEq

inductive Regex where
  | one (s : Symbols)
  | empty
  | start
  | boundary
  | seq (r s : Regex)
  | alt (r s : Regex)
  | star (r : Regex)
  deriving DecidableEq

namespace Regex

/-- Which characters are white space, and which belong to words. -/
structure Tables where
  space : Char → Bool
  word : Char → Bool

variable (t : Tables)

/-- A dot does not admit a line feed. -/
def admits : Symbols → Char → Bool
  | .char d, c => c = d
  | .among cs, c => cs.contains c
  | .space, c => t.space c
  | .any, c => c ≠ '\n'

/-- A word begins or ends here. -/
def atBoundary (p : Cursor) : Bool := p.before.head?.any t.word != p.after.head?.any t.word

def Matches : Regex → Cursor → Cursor → Prop
  | one s => fun p q => ∃ c, admits t s c = true ∧ Cursor.Reads [c] p q
  | empty => Eq
  | start => fun p q => p.before = [] ∧ p = q
  | boundary => fun p q => atBoundary t p = true ∧ p = q
  | seq r s => Relation.Comp (Matches r) (Matches s)
  | alt r s => fun p q => Matches r p q ∨ Matches s p q
  | star r => Relation.ReflTransGen (Matches r)

/-- A match begins at `p`. -/
def Begins (r : Regex) (p : Cursor) : Prop := ∃ q, Matches t r p q

/-- The pattern matches somewhere in the text. -/
def Found (r : Regex) (cs : List Char) : Prop :=
  ∃ front back, cs = front ++ back ∧ Begins t r ⟨front.reverse, back⟩

/-- The places that `f` leads to, taken again and again while it moves, at most `n` times. -/
def repeated (f : Cursor → List Cursor) : Nat → Cursor → List Cursor
  | 0, p => [p]
  | n + 1, p => p :: ((f p).filter (· ≠ p)).flatMap (repeated f n)

/-- The places where a match that begins at `p` can end. -/
def ends : Regex → Cursor → List Cursor
  | one s, p =>
    match p.after with
    | c :: rest => if admits t s c then [⟨c :: p.before, rest⟩] else []
    | [] => []
  | empty, p => [p]
  | start, p => if p.before = [] then [p] else []
  | boundary, p => if atBoundary t p then [p] else []
  | seq r s, p => (ends r p).flatMap (ends s)
  | alt r s, p => ends r p ++ ends s p
  | star r, p => repeated (ends r) p.after.length p

def search (r : Regex) (cs : List Char) : Bool :=
  (List.range (cs.length + 1)).any fun n => !(ends t r ⟨(cs.take n).reverse, cs.drop n⟩).isEmpty

section Matcher

variable {t} {r : Regex} {p q m : Cursor} {cs ds : List Char}

theorem reads_nil : Cursor.Reads [] p q ↔ p = q := by
  cases p
  cases q
  simp only [Cursor.Reads, List.nil_append, List.reverse_nil, Cursor.mk.injEq]
  grind

theorem reads_append (hp : Cursor.Reads cs p m) (hq : Cursor.Reads ds m q) :
    Cursor.Reads (cs ++ ds) p q := by
  constructor
  · rw [hp.1, hq.1, List.append_assoc]
  · rw [hq.2, hp.2, List.reverse_append, List.append_assoc]

/-- A match reads on. -/
theorem reads_of_matches (h : Matches t r p q) : ∃ cs, Cursor.Reads cs p q := by
  induction r generalizing p q with
  | one s =>
    obtain ⟨c, -, hread⟩ := h
    exact ⟨[c], hread⟩
  | empty => exact ⟨[], reads_nil.mpr h⟩
  | start => exact ⟨[], reads_nil.mpr h.2⟩
  | boundary => exact ⟨[], reads_nil.mpr h.2⟩
  | seq r s ihr ihs =>
    obtain ⟨m, hr, hs⟩ := h
    obtain ⟨cs, hcs⟩ := ihr hr
    obtain ⟨ds, hds⟩ := ihs hs
    exact ⟨cs ++ ds, reads_append hcs hds⟩
  | alt r s ihr ihs =>
    rcases h with h | h
    · exact ihr h
    · exact ihs h
  | star r ih =>
    induction h with
    | refl => exact ⟨[], reads_nil.mpr rfl⟩
    | tail _ hstep ihrun =>
      obtain ⟨cs, hcs⟩ := ihrun
      obtain ⟨ds, hds⟩ := ih hstep
      exact ⟨cs ++ ds, reads_append hcs hds⟩

theorem length_lt_of_matches (h : Matches t r p q) (hne : q ≠ p) :
    q.after.length < p.after.length := by
  obtain ⟨cs, hcs⟩ := reads_of_matches h
  have hpos : 0 < cs.length := by
    apply List.length_pos_of_ne_nil
    rintro rfl
    exact hne (reads_nil.mp hcs).symm
  rw [hcs.1, List.length_append]
  omega

/-- Steps that stay where they are can be left out. -/
theorem moving_head {α : Type*} {R : α → α → Prop} {a b : α} (h : Relation.ReflTransGen R a b) :
    b = a ∨ ∃ m, R a m ∧ m ≠ a ∧ Relation.ReflTransGen R m b := by
  induction h using Relation.ReflTransGen.head_induction_on with
  | refl => exact Or.inl rfl
  | head hstep hrun ih =>
    next a m =>
    by_cases hm : m = a
    · subst hm
      exact ih
    · exact Or.inr ⟨m, hstep, hm, hrun⟩

theorem mem_repeated {f : Cursor → List Cursor} {R : Cursor → Cursor → Prop} {n : Nat}
    (hf : ∀ p q, q ∈ f p ↔ R p q)
    (hR : ∀ p q, R p q → q ≠ p → q.after.length < p.after.length) (hn : p.after.length ≤ n) :
    q ∈ repeated f n p ↔ Relation.ReflTransGen R p q := by
  induction n generalizing p with
  | zero =>
    rw [repeated, List.mem_singleton]
    constructor
    · rintro rfl
      exact .refl
    · intro h
      rcases moving_head h with hq | ⟨m, hstep, hm, -⟩
      · exact hq
      · have hlt := hR p m hstep hm
        omega
  | succ n ih =>
    rw [repeated, List.mem_cons, List.mem_flatMap]
    constructor
    · rintro (rfl | ⟨m, hm, hq⟩)
      · exact .refl
      · obtain ⟨hmem, hne⟩ := List.mem_filter.mp hm
        have hstep := (hf p m).mp hmem
        have hlt := hR p m hstep (of_decide_eq_true hne)
        exact .head hstep ((ih (by omega)).mp hq)
    · intro h
      rcases moving_head h with hq | ⟨m, hstep, hne, hrun⟩
      · exact Or.inl hq
      · have hlt := hR p m hstep hne
        have hmem : m ∈ (f p).filter (· ≠ p) :=
          List.mem_filter.mpr ⟨(hf p m).mpr hstep, decide_eq_true hne⟩
        exact Or.inr ⟨m, hmem, (ih (by omega)).mpr hrun⟩

theorem mem_guard {P : Prop} [Decidable P] : q ∈ (if P then [p] else []) ↔ P ∧ p = q := by
  by_cases h : P
  · rw [if_pos h, List.mem_singleton, eq_comm, and_iff_right h]
  · rw [if_neg h, iff_false_right (fun hq => h hq.1)]
    exact List.not_mem_nil

theorem mem_one {s : Symbols} : q ∈ ends t (one s) p ↔ Matches t (one s) p q := by
  obtain ⟨before, after⟩ := p
  obtain ⟨before', after'⟩ := q
  cases after with
  | nil => simp [ends, Matches, Cursor.Reads]
  | cons c rest =>
    rw [ends, mem_guard, Cursor.mk.injEq]
    constructor
    · rintro ⟨hc, rfl, rfl⟩
      exact ⟨c, hc, rfl, rfl⟩
    · rintro ⟨d, hd, hafter, hbefore⟩
      obtain ⟨rfl, rfl⟩ := List.cons.inj hafter
      exact ⟨hd, hbefore.symm, rfl⟩

/-- The matcher finds exactly the ends of the matches. -/
theorem mem_ends : q ∈ ends t r p ↔ Matches t r p q := by
  induction r generalizing p q with
  | one s =>
    exact mem_one
  | empty => rw [ends, Matches, List.mem_singleton, eq_comm]
  | start => rw [ends, Matches, mem_guard]
  | boundary => rw [ends, Matches, mem_guard]
  | seq r s ihr ihs => simp [ends, Matches, Relation.Comp, ihr, ihs]
  | alt r s ihr ihs => simp [ends, Matches, ihr, ihs]
  | star r ih =>
    rw [ends, Matches]
    exact mem_repeated (fun _ _ => ih) (fun _ _ => length_lt_of_matches) le_rfl

theorem search_iff : search t r cs = true ↔ Found t r cs := by
  rw [search, List.any_eq_true]
  constructor
  · rintro ⟨n, -, hn⟩
    obtain ⟨q, hq⟩ := List.exists_mem_of_ne_nil _ (by simpa using hn)
    exact ⟨cs.take n, cs.drop n, (List.take_append_drop n cs).symm, q, mem_ends.mp hq⟩
  · rintro ⟨front, back, rfl, q, hq⟩
    refine ⟨front.length, ?_, ?_⟩
    · rw [List.mem_range, List.length_append]
      omega
    · rw [List.take_left', List.drop_left']
      · have hmem := List.ne_nil_of_mem (mem_ends.mpr hq)
        simpa using hmem
      · rfl
      · rfl

end Matcher

section Places

variable {t} {r : Regex} {before after cs : List Char} {c : Char} {p : Cursor}

theorem matches_one {symbols : Symbols} (h : admits t symbols c = true) :
    Matches t (one symbols) ⟨before, c :: after⟩ ⟨c :: before, after⟩ := ⟨c, h, rfl, rfl⟩

/-- Any run of white space is read by a starred one. -/
theorem matches_spaces (hcs : ∀ c ∈ cs, t.space c = true) :
    Matches t (star (one .space)) ⟨before, cs ++ after⟩ ⟨cs.reverse ++ before, after⟩ := by
  induction cs generalizing before with
  | nil => exact .refl
  | cons c cs ih =>
    obtain ⟨hc, hcs⟩ := List.forall_mem_cons.mp hcs
    rw [List.reverse_cons, List.append_assoc]
    exact .head (matches_one hc) (ih hcs)

theorem begins_empty : Begins t empty p := ⟨p, rfl⟩

theorem begins_boundary (hp : atBoundary t p = true) (h : Begins t r p) :
    Begins t (seq boundary r) p := by
  obtain ⟨q, hq⟩ := h
  exact ⟨q, p, ⟨hp, rfl⟩, hq⟩

theorem begins_spaces (hcs : ∀ c ∈ cs, t.space c = true)
    (h : Begins t r ⟨cs.reverse ++ before, after⟩) :
    Begins t (seq (star (one .space)) r) ⟨before, cs ++ after⟩ := by
  obtain ⟨q, hq⟩ := h
  exact ⟨q, _, matches_spaces hcs, hq⟩

theorem begins_spaces_plus (hcs : ∀ c ∈ cs, t.space c = true) (hne : cs ≠ [])
    (h : Begins t r ⟨cs.reverse ++ before, after⟩) :
    Begins t (seq (seq (one .space) (star (one .space))) r) ⟨before, cs ++ after⟩ := by
  obtain ⟨q, hq⟩ := h
  obtain ⟨c, cs, rfl⟩ := List.exists_cons_of_ne_nil hne
  obtain ⟨hc, hcs⟩ := List.forall_mem_cons.mp hcs
  rw [List.reverse_cons, List.append_assoc] at hq
  exact ⟨q, _, ⟨_, matches_one hc, matches_spaces hcs⟩, hq⟩

/-- A pattern of fixed characters, and then `r`. -/
def literal (cs : List Char) (r : Regex) : Regex := cs.foldr (fun c r => seq (one (.char c)) r) r

theorem begins_literal (h : Begins t r ⟨cs.reverse ++ before, after⟩) :
    Begins t (literal cs r) ⟨before, cs ++ after⟩ := by
  induction cs generalizing before with
  | nil => exact h
  | cons c cs ih =>
    rw [List.reverse_cons, List.append_assoc] at h
    obtain ⟨q, hq⟩ := ih h
    exact ⟨q, _, matches_one (decide_eq_true rfl), hq⟩

end Places

section Notation

/-- The parts of a written pattern. -/
inductive Token where
  | atom (r : Regex)
  | opening
  | closing
  | bar
  | star
  | plus

/-- The characters that have a meaning of their own. -/
def metacharacters : List Char := "\\.+*?()|[]\x7b\x7d^$".toList

/-- What a backslash makes of the character behind it. -/
def escaped (c : Char) : Option Regex :=
  if c = 'b' then some boundary
  else if c = 's' then some (one .space)
  else if c ∈ metacharacters then some (one (.char c))
  else none

/-- The part that a single character stands for. -/
def single (c : Char) : Option Token :=
  if c = '.' then some (.atom (one .any))
  else if c = '^' then some (.atom start)
  else if c = ')' then some .closing
  else if c = '|' then some .bar
  else if c = '*' then some .star
  else if c = '+' then some .plus
  else if c ∈ metacharacters then none
  else some (.atom (one (.char c)))

/-- The characters of a set up to its bracket, backwards behind those in `cs`. Ranges, negations
and operations on sets are not read. -/
def setFrom (cs : List Char) : List Char → Option (List Char × List Char)
  | [] => none
  | c :: rest =>
    if c = ']' then if cs = [] then none else some (cs.reverse, rest)
    else if c ∈ "\\[^-&~".toList then none
    else setFrom (c :: cs) rest

/-- The parts of a pattern; `none` where it is written in a way that is not read here. -/
def tokens : Nat → List Char → Option (List Token)
  | 0, _ => none
  | _ + 1, [] => some []
  | _ + 1, ['\\'] => none
  | n + 1, '\\' :: c :: rest => do return .atom (← escaped c) :: (← tokens n rest)
  | n + 1, '[' :: rest => do
    let (cs, rest) ← setFrom [] rest
    return .atom (one (.among cs)) :: (← tokens n rest)
  | n + 1, '(' :: rest => do
    guard ("?:".toList <+: rest)
    return .opening :: (← tokens n (rest.drop 2))
  | n + 1, c :: rest => do return (← single c) :: (← tokens n rest)

/-- A group that is being read: the branches before the last bar, and the parts of the branch
behind it, backwards. -/
structure Group where
  left : Option Regex := none
  parts : List Regex := []

namespace Group

def push (g : Group) (r : Regex) : Group := { g with parts := r :: g.parts }

def close (g : Group) : Regex :=
  let branch := g.parts.foldl (fun r part => seq part r) empty
  match g.left with
  | some r => alt r branch
  | none => branch

/-- The last part is repeated. -/
def repeated (g : Group) (f : Regex → Regex) : Option Group :=
  match g.parts with
  | r :: parts => some { g with parts := f r :: parts }
  | [] => none

end Group

/-- The pattern of the parts inside the groups `gs`, the innermost of which is `g`. -/
def assemble : List Group → Group → List Token → Option Regex
  | [], g, [] => some g.close
  | _ :: _, _, [] => none
  | gs, g, .opening :: ts => assemble (g :: gs) {} ts
  | [], _, .closing :: _ => none
  | outer :: gs, g, .closing :: ts => assemble gs (outer.push g.close) ts
  | gs, g, .bar :: ts => assemble gs { left := some g.close } ts
  | gs, g, .star :: ts => do assemble gs (← g.repeated star) ts
  | gs, g, .plus :: ts => do assemble gs (← g.repeated fun r => seq r (star r)) ts
  | gs, g, .atom r :: ts => assemble gs (g.push r) ts

/-- The regular expression that a pattern denotes. -/
def ofPattern (pattern : String) : Option Regex := do
  assemble [] {} (← tokens (pattern.length + 1) pattern.toList)

end Notation

section Library

variable (t : Tables)

/-- A regular expression library that finds what its patterns denote. -/
def Documented (isMatch : String → List Char → Bool) : Prop :=
  ∀ pattern r, ofPattern pattern = some r → ∀ cs, isMatch pattern cs = true ↔ Found t r cs

/-- The library of the matcher above, which finds nothing for the other patterns. -/
def matcher (pattern : String) (cs : List Char) : Bool :=
  match ofPattern pattern with
  | some r => search t r cs
  | none => false

theorem documented_matcher : Documented t (matcher t) := by
  intro pattern r hr cs
  rw [matcher, hr]
  exact search_iff

end Library

end Regex
