import HyperKitty.Proofs.Lexing
import HyperKitty.Dsl.Layout

namespace HyperKitty.Dsl

open Exec
open Constraints (Unicode isAsciiDigit between isIdentStart_not_digit)

variable {u : Unicode} {c d : Char} {cs text rest : List Char} {t : Token} {ts : List Token}

section Characters

/-- The characters that the lexer tells apart by themselves. -/
def marks : List Char :=
  [' ', '\t', '\n', '\r', '(', ')', '\x7b', '\x7d', ';', ',', '=', '<', '"']

theorem isIdentPart_mark (hc : c ∈ marks) : u.isIdentPart c = false := by
  have hall : marks.all (fun c => decide (c.toNat ≤ 0x7F) &&
      !(between 'a' 'z' c || between 'A' 'Z' c || between '0' '9' c || c == '_')) = true := rfl
  have h := List.all_eq_true.mp hall c hc
  simp only [Bool.and_eq_true, decide_eq_true_eq, Bool.not_eq_true'] at h
  exact Unicode.isIdentPart_other h.1 h.2

theorem isBlank_iff : isBlank c = true ↔ c ∈ [' ', '\t', '\n', '\r'] := by
  simp [isBlank, or_assoc]

theorem punctuation_mem (h : punctuation c = some t) :
    c ∈ ['(', ')', '\x7b', '\x7d', ';', ','] := by
  unfold punctuation at h
  split at h <;> simp_all

theorem not_blank_of_punctuation (h : punctuation c = some t) : isBlank c = false := by
  have hall : ['(', ')', '\x7b', '\x7d', ';', ','].all (fun c => !isBlank c) = true := rfl
  simpa using List.all_eq_true.mp hall c (punctuation_mem h)

theorem not_blank_of_notMem (h : c ∉ marks) : isBlank c = false := by
  rw [Bool.eq_false_iff, Ne, isBlank_iff]
  intro hm
  exact h (List.mem_append_left _ hm)

theorem not_punctuation_of_notMem (h : c ∉ marks) : punctuation c = none := by
  rw [Option.eq_none_iff_forall_ne_some]
  intro t ht
  exact h (List.mem_append_right [' ', '\t', '\n', '\r']
    (List.mem_append_left ['=', '<', '"'] (punctuation_mem ht)))

/-- A character outside the marks gets as far as the arms for numbers and names. -/
theorem scan_other (h : c ∉ marks) (cs : List Char) : scan u c cs =
    if isAsciiDigit c then
      ((parseI64 ((c :: cs).takeWhile isAsciiDigit)).map .number, (c :: cs).dropWhile isAsciiDigit)
    else if u.isIdentStart c then
      (some (keyword (.ofList ((c :: cs).takeWhile u.isIdentPart))),
        (c :: cs).dropWhile u.isIdentPart)
    else (none, cs) := by
  have hb := not_blank_of_notMem h
  have hp := not_punctuation_of_notMem h
  have h1 : c ≠ '=' := fun he => h (by simp [marks, he])
  have h2 : c ≠ '<' := fun he => h (by simp [marks, he])
  have h3 : c ≠ '"' := fun he => h (by simp [marks, he])
  simp only [scan, hb, hp, h1, h2, h3, if_false, Bool.false_eq_true]

theorem notMem_marks (h : u.isIdentPart c = true) : c ∉ marks := by
  intro hm
  rw [isIdentPart_mark hm] at h
  cases h

end Characters

section Scanning

theorem scan_blank (h : isBlank c = true) (cs : List Char) : scan u c cs = (none, cs) := by
  simp only [scan, h, if_true]

theorem scan_punctuation (h : punctuation c = some t) (cs : List Char) :
    scan u c cs = (some t, cs) := by
  simp only [scan, not_blank_of_punctuation h, h, Bool.false_eq_true, if_false]

theorem scan_equals (cs : List Char) :
    scan u '=' cs = if cs.head? = some '=' then (some .equals, cs.tail) else (some .equals, cs) :=
  rfl

theorem scan_less (cs : List Char) :
    scan u '<' cs = if cs.head? = some '=' then (some .lessThanEq, cs.tail) else (none, cs) :=
  rfl

theorem scan_quote (cs : List Char) : scan u '"' cs =
    (some (.string (.ofList (cs.takeWhile (· != '"')))), (cs.dropWhile (· != '"')).tail) :=
  rfl

theorem scan_string {s : List Char} (hs : '"' ∉ s) (text : List Char) :
    scan u '"' (s ++ '"' :: text) = (some (.string (.ofList s)), text) := by
  have hp : ∀ e ∈ s, (e != '"') = true := by
    intro e he
    rw [bne_iff_ne]
    rintro rfl
    exact hs he
  have hstop : ∀ e ∈ ('"' :: text).head?, (e != '"') = false := by simp
  rw [scan_quote, Text.takeWhile_append_stop hp hstop, Text.dropWhile_append_stop hp hstop]
  rfl

theorem scan_number (hd : ∀ e ∈ d :: cs, isAsciiDigit e = true)
    (hstop : ∀ e ∈ text.head?, isAsciiDigit e = false) :
    scan u d (cs ++ text) = ((parseI64 (d :: cs)).map .number, text) := by
  have hdigit := hd d List.mem_cons_self
  rw [scan_other (notMem_marks (Unicode.isIdentPart_of_digit (u := u) hdigit)), if_pos hdigit,
    ← List.cons_append, Text.takeWhile_append_stop hd hstop, Text.dropWhile_append_stop hd hstop]

theorem scan_name (hc : u.isIdentStart c = true) (hs : ∀ d ∈ cs, u.isIdentPart d = true)
    (hstop : ∀ e ∈ text.head?, u.isIdentPart e = false) :
    scan u c (cs ++ text) = (some (keyword (.ofList (c :: cs))), text) := by
  have hpart := Unicode.isIdentPart_of_start hc
  have hall : ∀ d ∈ c :: cs, u.isIdentPart d = true := List.forall_mem_cons.mpr ⟨hpart, hs⟩
  rw [scan_other (notMem_marks hpart), isIdentStart_not_digit hc, if_neg Bool.false_ne_true,
    if_pos hc, ← List.cons_append, Text.takeWhile_append_stop hall hstop,
    Text.dropWhile_append_stop hall hstop]

theorem isDigit_of_ascii (h : isAsciiDigit c = true) : Decimal.IsDigit c := by
  unfold Decimal.IsDigit
  simpa [isAsciiDigit, between] using h

theorem parseI64_eq_some {ds : List Char} (h : Decimal.value ds < 2 ^ 63) :
    ∃ n : Int64, parseI64 ds = some n ∧ n.toInt = Decimal.value ds :=
  ⟨_, if_pos h, Int64.toInt_ofNat_of_lt h⟩

theorem parseI64_eq_none {ds : List Char} (h : ¬ Decimal.value ds < 2 ^ 63) :
    parseI64 ds = none := if_neg h

/-- A character that counts the same in every spelling of a token. -/
def Ordinary (c : Char) : Prop := isBlank c = false ∧ c ≠ '=' ∧ c ≠ '0'

/-- What one pass can make of a text: it skips a blank, reads a token as it is spelled, drops
something, or makes a string of a text without its closing quote. -/
inductive Scanned (u : Unicode) : Char → List Char → Option Token × List Char → Prop
  | blank {c : Char} {cs : List Char} : isBlank c = true → Scanned u c cs (none, cs)
  | spelled {c : Char} {l rest : List Char} {t : Token} : Spells u t (c :: l) →
      (Clean u rest → Clean u (c :: (l ++ rest))) → Scanned u c (l ++ rest) (some t, rest)
  | dropped {c d : Char} {l rest : List Char} : d ∈ c :: l → Ordinary d → '"' ∉ c :: l →
      Scanned u c (l ++ rest) (none, rest)
  | unclosed {s : List Char} : '"' ∉ s → Scanned u '"' s (some (.string (.ofList s)), [])

theorem scan_equals_scanned (cs : List Char) : Scanned u '=' cs (scan u '=' cs) := by
  rw [scan_equals]
  split
  · rename_i h
    obtain ⟨rest, rfl⟩ := List.head?_eq_some_iff.mp h
    exact Scanned.spelled (l := ['=']) .doubleEquals Clean.doubleEquals
  · rename_i h
    exact Scanned.spelled (l := []) .equals (Clean.equals h)

theorem scan_less_scanned (cs : List Char) : Scanned u '<' cs (scan u '<' cs) := by
  rw [scan_less]
  split
  · rename_i h
    obtain ⟨rest, rfl⟩ := List.head?_eq_some_iff.mp h
    exact Scanned.spelled (l := ['=']) .lessThanEq Clean.lessThanEq
  · have ho : Ordinary '<' := by
      unfold Ordinary
      decide
    exact Scanned.dropped (l := []) List.mem_cons_self ho (by decide)

theorem scan_quote_scanned (cs : List Char) : Scanned u '"' cs (scan u '"' cs) := by
  by_cases hq : '"' ∈ cs
  · obtain ⟨s, rest, rfl, hs⟩ := List.eq_append_cons_of_mem hq
    rw [scan_string hs]
    have hclean : Clean u rest → Clean u ('"' :: ((s ++ ['"']) ++ rest)) := by
      rw [List.append_assoc, List.singleton_append]
      exact Clean.string hs
    have h := Scanned.spelled (Spells.string hs) hclean
    rwa [List.append_assoc, List.singleton_append] at h
  · have hp : ∀ e ∈ cs, (e != '"') = true := by
      intro e he
      rw [bne_iff_ne]
      rintro rfl
      exact hq he
    rw [scan_quote, List.takeWhile_eq_self_iff.mpr hp, List.dropWhile_eq_nil_iff.mpr hp]
    exact Scanned.unclosed hq

theorem scan_digits_scanned {ds : List Char} (hd : ∀ e ∈ d :: ds, isAsciiDigit e = true)
    (hstop : ∀ e ∈ rest.head?, isAsciiDigit e = false) :
    Scanned u d (ds ++ rest) (scan u d (ds ++ rest)) := by
  rw [scan_number hd hstop]
  by_cases hv : Decimal.value (d :: ds) < 2 ^ 63
  · obtain ⟨n, hn, hval⟩ := parseI64_eq_some hv
    rw [hn]
    exact Scanned.spelled (.number (List.cons_ne_nil d ds) hd hval) (Clean.number hd hstop hv)
  · rw [parseI64_eq_none hv]
    have hpos : 0 < Decimal.value (d :: ds) := by omega
    obtain ⟨e, he, hne⟩ := Decimal.exists_nonzero hpos
    have hm : ∀ e ∈ d :: ds, e ∉ marks := fun e he =>
      notMem_marks (Unicode.isIdentPart_of_digit (u := u) (hd e he))
    have ho : Ordinary e := by
      refine ⟨not_blank_of_notMem (hm e he), ?_, hne⟩
      rintro rfl
      exact hm _ he (by decide)
    exact Scanned.dropped he ho fun hq => hm _ hq (by decide)

theorem scan_scanned (u : Unicode) (c : Char) (cs : List Char) : Scanned u c cs (scan u c cs) := by
  by_cases hb : isBlank c = true
  · rw [scan_blank hb]
    exact Scanned.blank hb
  cases hp : punctuation c with
  | some t =>
    rw [scan_punctuation hp]
    exact Scanned.spelled (l := []) (.punctuation hp) (Clean.punctuation hp)
  | none =>
    by_cases h1 : c = '='
    · subst h1
      exact scan_equals_scanned cs
    by_cases h2 : c = '<'
    · subst h2
      exact scan_less_scanned cs
    by_cases h3 : c = '"'
    · subst h3
      exact scan_quote_scanned cs
    by_cases hd : isAsciiDigit c = true
    · have hall : ∀ e ∈ c :: cs.takeWhile isAsciiDigit, isAsciiDigit e = true :=
        List.forall_mem_cons.mpr ⟨hd, fun _ he => List.mem_takeWhile_imp he⟩
      have hstop : ∀ e ∈ (cs.dropWhile isAsciiDigit).head?, isAsciiDigit e = false :=
        Text.head?_dropWhile_not
      have h := scan_digits_scanned (u := u) hall hstop
      rwa [List.takeWhile_append_dropWhile] at h
    by_cases hi : u.isIdentStart c = true
    · have hall : ∀ e ∈ cs.takeWhile u.isIdentPart, u.isIdentPart e = true :=
        fun _ he => List.mem_takeWhile_imp he
      have hstop : ∀ e ∈ (cs.dropWhile u.isIdentPart).head?, u.isIdentPart e = false :=
        Text.head?_dropWhile_not
      have h := Scanned.spelled (.name hi hall) (Clean.name hi hall hstop)
      rwa [← scan_name hi hall hstop, List.takeWhile_append_dropWhile] at h
    · have hnone : scan u c cs = (none, cs) := by
        simp only [scan, hb, hp, h1, h2, h3, hd, hi, if_false, Bool.false_eq_true]
      have ho : Ordinary c := by
        refine ⟨by simpa using hb, h1, ?_⟩
        rintro rfl
        exact hd rfl
      rw [hnone]
      exact Scanned.dropped (l := []) List.mem_cons_self ho (by simpa using Ne.symm h3)

theorem Scanned.length_le {r : Option Token × List Char} (h : Scanned u c cs r) :
    r.2.length ≤ cs.length := by
  cases h with
  | blank _ => exact le_rfl
  | spelled _ _ => simp
  | dropped _ _ _ => simp
  | unclosed _ => simp

end Scanning

section Runs

/-- The tokens that are pushed while a text is read. -/
inductive Emits (u : Unicode) : List Char → List Token → Prop
  | nil : Emits u [] []
  | step {c : Char} {cs rest : List Char} {t : Option Token} {ts : List Token} :
      scan u c cs = (t, rest) → Emits u rest ts → Emits u (c :: cs) (t.toList ++ ts)

theorem exists_emits (u : Unicode) (text : List Char) : ∃ ts, Emits u text ts := by
  induction h : text.length using Nat.strongRecOn generalizing text with
  | ind k ih =>
    cases text with
    | nil => exact ⟨[], .nil⟩
    | cons c cs =>
      have hlen := (scan_scanned u c cs).length_le
      rw [List.length_cons] at h
      obtain ⟨ts, hts⟩ := ih _ (by omega) (scan u c cs).2 rfl
      exact ⟨_, .step rfl hts⟩

theorem loop_emits (h : Emits u text ts) (acc : List Token) {n : Nat} (hn : text.length < n) :
    loop n (lexPass u) (acc, text) = .ok (acc ++ ts ++ [.eof]) := by
  induction h generalizing acc n with
  | nil =>
    obtain ⟨n, rfl⟩ : ∃ k, n = k + 1 := ⟨n - 1, by omega⟩
    rw [List.append_nil]
    exact loop_done rfl
  | @step c cs rest t ts hscan _ ih =>
    obtain ⟨n, rfl⟩ : ∃ k, n = k + 1 := ⟨n - 1, by omega⟩
    have hlen := (scan_scanned u c cs).length_le
    simp only [hscan] at hlen
    rw [List.length_cons] at hn
    have hpass : lexPass u (acc, c :: cs) = .ok (.next (acc ++ t.toList, rest)) := by
      rw [lexPass, hscan]
      rfl
    rw [loop_next hpass, ih _ (by omega), List.append_assoc acc]

theorem lex_eq {input : String} (h : Emits u input.toList ts) :
    lex u input = .ok (ts ++ [.eof]) :=
  loop_emits h [] (Nat.lt_succ_self _)

/-- A clean text is read as it is laid out. -/
theorem Clean.emits (h : Clean u text) : ∃ ts, Emits u text ts ∧ Lays u ts text := by
  induction h with
  | nil => exact ⟨[], .nil, .nil⟩
  | blank hc _ ih =>
    obtain ⟨ts, he, hl⟩ := ih
    exact ⟨ts, .step (scan_blank hc _) he, .blank hc hl⟩
  | punctuation hc _ ih =>
    obtain ⟨ts, he, hl⟩ := ih
    exact ⟨_, .step (scan_punctuation hc _) he, .token (.punctuation hc) hl⟩
  | equals hn _ ih =>
    obtain ⟨ts, he, hl⟩ := ih
    exact ⟨_, .step ((scan_equals _).trans (if_neg hn)) he, .token .equals hl⟩
  | doubleEquals _ ih =>
    obtain ⟨ts, he, hl⟩ := ih
    exact ⟨_, .step rfl he, .token .doubleEquals hl⟩
  | lessThanEq _ ih =>
    obtain ⟨ts, he, hl⟩ := ih
    exact ⟨_, .step rfl he, .token .lessThanEq hl⟩
  | @string s text hs _ ih =>
    obtain ⟨ts, he, hl⟩ := ih
    have h := Lays.token (.string hs) hl
    rw [List.cons_append, List.append_assoc, List.singleton_append] at h
    exact ⟨_, .step (scan_string hs text) he, h⟩
  | number hd hstop hv _ ih =>
    obtain ⟨ts, he, hl⟩ := ih
    obtain ⟨n, hn, hval⟩ := parseI64_eq_some hv
    have hscan := scan_number (u := u) hd hstop
    rw [hn] at hscan
    exact ⟨_, .step hscan he, .token (.number (List.cons_ne_nil _ _) hd hval) hl⟩
  | name hc hs hstop _ ih =>
    obtain ⟨ts, he, hl⟩ := ih
    exact ⟨_, .step (scan_name hc hs hstop) he, .token (.name hc hs) hl⟩

end Runs

section Counting

/-- The text of a token other than a number. -/
def Token.lexeme : Token → List Char
  | .require => "require".toList
  | .balance => "balance".toList
  | .invariant => "invariant".toList
  | .entropy => "entropy".toList
  | .proof => "proof".toList
  | .runtime => "runtime".toList
  | .identity => "identity".toList
  | .phase => "phase".toList
  | .otherwise => "otherwise".toList
  | .reject => "reject".toList
  | .identifier name => name.toList
  | .number _ => []
  | .string s => '"' :: (s.toList ++ ['"'])
  | .lessThanEq => ['<', '=']
  | .equals => ['=']
  | .leftParen => ['(']
  | .rightParen => [')']
  | .leftBrace => ['{']
  | .rightBrace => ['}']
  | .semicolon => [';']
  | .comma => [',']
  | .eof => []

/-- How often an ordinary character occurs in the spellings of a token. -/
def Token.occurrences (c : Char) : Token → Nat
  | .number n => Decimal.occurrences c n.toInt.toNat
  | t => t.lexeme.count c

/-- One test of a word in the chain that tells the keywords apart. -/
theorem occurrences_ite {w s : String} {e : Token} (ht : t.occurrences c = w.toList.count c)
    (he : e.occurrences c = s.toList.count c) :
    (if s = w then t else e).occurrences c = s.toList.count c := by
  split
  · rename_i h
    rw [ht, h]
  · exact he

theorem keyword_occurrences (s : String) (c : Char) :
    (keyword s).occurrences c = s.toList.count c := by
  unfold keyword
  iterate 10 refine occurrences_ite rfl ?_
  rfl

theorem string_occurrences (s : List Char) (c : Char) :
    (Token.string (.ofList s)).occurrences c = ('"' :: (s ++ ['"'])).count c := by
  change ('"' :: ((String.ofList s).toList ++ ['"'])).count c = _
  rw [String.toList_ofList]

theorem punctuation_occurrences (h : punctuation c = some t) (d : Char) :
    t.occurrences d = [c].count d := by
  unfold punctuation at h
  split at h <;> cases h <;> rfl

theorem Spells.count_eq (h : Spells u t cs) (hc : Ordinary c) :
    cs.count c = t.occurrences c := by
  cases h with
  | punctuation hp => exact (punctuation_occurrences hp c).symm
  | equals => rfl
  | doubleEquals =>
    change ['=', '='].count c = ['='].count c
    rw [List.count_cons_of_ne hc.2.1.symm]
  | lessThanEq => rfl
  | @string s hs => exact (string_occurrences s c).symm
  | @number _ n hne hd hv =>
    have hn : n.toInt.toNat = Decimal.value cs := by rw [hv, Int.toNat_natCast]
    rw [Token.occurrences, hn]
    exact Decimal.count_eq_occurrences (fun d hm => isDigit_of_ascii (hd d hm)) hc.2.2
  | name hc hs => rw [keyword_occurrences, String.toList_ofList]

/-- How often an ordinary character occurs in the spellings of tokens. -/
def occurrences (c : Char) (ts : List Token) : Nat := (ts.map (Token.occurrences c)).sum

theorem Lays.count_eq (h : Lays u ts text) (hc : Ordinary c) : text.count c = occurrences c ts := by
  induction h with
  | nil => rfl
  | @blank d ts text hd _ ih =>
    have hne : d ≠ c := by
      rintro rfl
      rw [hc.1] at hd
      cases hd
    rw [List.count_cons_of_ne hne, ih]
  | token ht _ ih =>
    rw [List.count_append, ht.count_eq hc, ih]
    rfl

theorem occurrences_append (c : Char) (ts ts' : List Token) :
    occurrences c (ts ++ ts') = occurrences c ts + occurrences c ts' := by
  rw [occurrences, List.map_append, List.sum_append]
  rfl

/-- The tokens have no more of any character than the text, but for the quotes: of these they
have no fewer. -/
structure Covered (text : List Char) (ts : List Token) : Prop where
  le : ∀ c, Ordinary c → c ≠ '"' → occurrences c ts ≤ text.count c
  quotes : text.count '"' ≤ occurrences '"' ts

/-- Something in the text is missing from its tokens, or they have a quote too many. -/
structure Lossy (text : List Char) (ts : List Token) : Prop extends Covered text ts where
  strict : (∃ c, Ordinary c ∧ c ≠ '"' ∧ occurrences c ts < text.count c) ∨
    text.count '"' < occurrences '"' ts

theorem ordinary_quote : Ordinary '"' := by
  unfold Ordinary
  decide

theorem Lays.covered (h : Lays u ts text) : Covered text ts :=
  ⟨fun _ hc _ => (h.count_eq hc).ge, (h.count_eq ordinary_quote).le⟩

theorem Lays.not_lossy (h : Lays u ts text) : ¬ Lossy text ts := by
  intro hl
  rcases hl.strict with ⟨c, hc, _, hlt⟩ | hlt
  · rw [h.count_eq hc] at hlt
    exact lt_irrefl _ hlt
  · rw [h.count_eq ordinary_quote] at hlt
    exact lt_irrefl _ hlt

/-- Tokens that are read as they are spelled make up for no loss after them. -/
theorem Lossy.append (h : Lossy text ts) (pre : List Char) (read : List Token)
    (hpre : ∀ c, Ordinary c → pre.count c = occurrences c read) :
    Lossy (pre ++ text) (read ++ ts) := by
  have hq := hpre '"' ordinary_quote
  refine ⟨⟨?_, ?_⟩, ?_⟩
  · intro c hc hne
    rw [occurrences_append, List.count_append, hpre c hc]
    have hle := h.le c hc hne
    omega
  · rw [occurrences_append, List.count_append, hq]
    have hle := h.quotes
    omega
  · rcases h.strict with ⟨c, hc, hne, hlt⟩ | hlt
    · left
      refine ⟨c, hc, hne, ?_⟩
      rw [occurrences_append, List.count_append, hpre c hc]
      omega
    · right
      rw [occurrences_append, List.count_append, hq]
      omega

theorem Covered.dropped {lexeme : List Char} (h : Covered text ts) (hm : c ∈ lexeme)
    (hc : Ordinary c) (hq : '"' ∉ lexeme) : Lossy (lexeme ++ text) ts := by
  refine ⟨⟨?_, ?_⟩, .inl ⟨c, hc, fun he => hq (he ▸ hm), ?_⟩⟩
  · intro e he hne
    rw [List.count_append]
    have hle := h.le e he hne
    omega
  · rw [List.count_append, List.count_eq_zero.mpr hq, Nat.zero_add]
    exact h.quotes
  · rw [List.count_append]
    have hle := h.le c hc fun he => hq (he ▸ hm)
    have hpos := List.count_pos_iff.mpr hm
    omega

/-- A string that is never closed has a quote more than the text. -/
theorem lossy_unclosed {s : List Char} (hs : '"' ∉ s) :
    Lossy ('"' :: s) [.string (.ofList s)] := by
  have hocc : ∀ c, occurrences c [.string (.ofList s)] = ('"' :: (s ++ ['"'])).count c := by
    intro c
    rw [← string_occurrences]
    exact List.sum_singleton
  have hzero : s.count '"' = 0 := List.count_eq_zero.mpr hs
  refine ⟨⟨?_, ?_⟩, .inr ?_⟩
  · intro c hc hne
    rw [hocc, List.count_cons_of_ne hne.symm, List.count_cons_of_ne hne.symm, List.count_append,
      List.count_singleton, if_neg (by simpa using hne.symm)]
    exact le_rfl
  · rw [hocc]
    simp [hzero]
  · rw [hocc]
    simp [hzero]

/-- The tokens of a text lay it out and the text is clean, or something was lost. -/
theorem Emits.clean_or_lossy (h : Emits u text ts) :
    (Clean u text ∧ Lays u ts text) ∨ Lossy text ts := by
  induction h with
  | nil => exact .inl ⟨.nil, .nil⟩
  | @step c cs rest t ts hscan he ih =>
    have hs := scan_scanned u c cs
    rw [hscan] at hs
    generalize hr : (t, rest) = r at hs
    cases hs with
    | blank hb =>
      cases hr
      rcases ih with ⟨hclean, hl⟩ | hlossy
      · exact .inl ⟨.blank hb hclean, .blank hb hl⟩
      · right
        refine hlossy.append [c] [] ?_
        intro d hd
        have hne : c ≠ d := by
          rintro rfl
          rw [hd.1] at hb
          cases hb
        rw [List.count_cons_of_ne hne]
        rfl
    | @spelled _ l _ t ht hclean =>
      cases hr
      rcases ih with ⟨hc, hl⟩ | hlossy
      · exact .inl ⟨hclean hc, .token ht hl⟩
      · right
        refine hlossy.append (c :: l) [t] ?_
        intro d hd
        rw [ht.count_eq hd]
        simp [occurrences]
    | dropped hm ho hq =>
      cases hr
      have hcov : Covered rest ts := by
        rcases ih with ⟨_, hl⟩ | hlossy
        · exact hl.covered
        · exact hlossy.toCovered
      exact .inr (hcov.dropped hm ho hq)
    | unclosed hq =>
      cases hr
      cases he
      exact .inr (lossy_unclosed hq)

end Counting

/-- Where something is read, the text is laid out from what was read, and a text that cannot be
laid out is an error. -/
def LosesNothing (u : Unicode) (input : String) : Prop :=
  (∀ tokens, lex u input = .ok tokens →
    ∃ ts, tokens = ts ++ [.eof] ∧ Lays u ts input.toList) ∧
  ((¬ ∃ ts, Lays u ts input.toList) → ∃ e, lex u input = fail e)

/-- Nothing is lost exactly where the text is clean. -/
theorem losesNothing_iff (u : Unicode) (input : String) :
    LosesNothing u input ↔ Clean u input.toList := by
  constructor
  · intro h
    obtain ⟨ts, he⟩ := exists_emits u input.toList
    obtain ⟨ts', heq, hl⟩ := h.1 _ (lex_eq he)
    obtain rfl := (List.append_left_inj _).mp heq
    exact (he.clean_or_lossy.resolve_right hl.not_lossy).1
  · intro h
    obtain ⟨ts, he, hl⟩ := h.emits
    refine ⟨?_, fun hno => absurd ⟨ts, hl⟩ hno⟩
    intro tokens htokens
    rw [lex_eq he] at htokens
    cases htokens
    exact ⟨ts, rfl, hl⟩

/-- A `<` on its own is dropped, and `x < 5` is read as `x 5`. -/
theorem lone_less_lost : ¬ LosesNothing Unicode.ascii "x < 5" := by
  intro h
  have hlex : lex Unicode.ascii "x < 5" = .ok [.identifier "x", .number 5, .eof] := rfl
  obtain ⟨ts, heq, hl⟩ := h.1 _ hlex
  have hts : ts = [.identifier "x", .number 5] := ((List.append_left_inj [.eof]).mp heq).symm
  have hless : Ordinary '<' := by
    unfold Ordinary
    decide
  have hcount := hl.count_eq hless
  rw [hts] at hcount
  exact absurd hcount (by decide +kernel)

end HyperKitty.Dsl
