import HyperKitty.Proofs.Cursor

namespace HyperKitty.Constraints

open Exec Lexer

/-- The characters the lexer tells apart by themselves. -/
def delimiters : List Char := ['(', ')', '{', '}', ';', ':', ',', '=', '"', '\'', '#', '.']

/-- No delimiter is a part of a name. -/
theorem isIdentPart_delimiter (u : Unicode) (hc : c ∈ delimiters) : u.isIdentPart c = false := by
  have hall : delimiters.all (fun c => decide (c.toNat ≤ 0x7F) &&
      !(between 'a' 'z' c || between 'A' 'Z' c || between '0' '9' c || c == '_')) = true := by
    decide
  have h := List.all_eq_true.mp hall c hc
  simp only [Bool.and_eq_true, decide_eq_true_eq, Bool.not_eq_true'] at h
  exact Unicode.isIdentPart_other h.1 h.2

theorem punctuation_mem (hc : punctuation c = some t) :
    c ∈ ['(', ')', '{', '}', ';', ':', ','] := by
  unfold punctuation at hc
  split at hc <;> simp_all

theorem punctuation_none (hc : c ∉ ['(', ')', '{', '}', ';', ':', ',']) :
    punctuation c = none := by
  unfold punctuation
  split <;> simp_all

theorem punctuation_kind (hc : punctuation c = some t) :
    t.isWord = false ∧ t.isNumber = false := by
  unfold punctuation at hc
  split at hc <;> cases hc <;> exact ⟨rfl, rfl⟩

/-- A character of a name opens none of the tokens that are tried before names. -/
theorem isIdentPart_other_arms {u : Unicode} (hc : u.isIdentPart c = true) :
    punctuation c = none ∧ c ≠ '=' ∧ c ≠ '"' ∧ c ≠ '\'' ∧ c ≠ '#' ∧ c ≠ '.' := by
  have hd : c ∉ delimiters := by
    intro h
    rw [isIdentPart_delimiter u h] at hc
    cases hc
  simp only [delimiters, List.mem_cons, not_or] at hd
  refine ⟨punctuation_none ?_, ?_⟩
  · simp only [List.mem_cons, not_or]
    tauto
  · tauto

/-- A name does not start with a digit. -/
theorem isIdentStart_not_digit {u : Unicode} (hc : u.isIdentStart c = true) :
    isAsciiDigit c = false := by
  by_contra hd
  rw [Bool.not_eq_false] at hd
  simp [isAsciiDigit, between] at hd
  have hn : ¬ 0x7F < c.toNat := by omega
  simp [Unicode.isIdentStart, Unicode.isAlphabetic, between, hn, ← Char.toNat_inj] at hc
  omega

theorem keyword_isWord (s : String) : (keyword s).isWord = true ∧ (keyword s).isNumber = false := by
  unfold keyword
  split_ifs <;> simp [Token.isWord, Token.isNumber]

/-- What the first character of a spelling tells about its token. -/
theorem Spells.head {u : Unicode} (ht : Spells u t (c :: cs)) :
    u.isIdentPart c = (t.isWord || t.isNumber) ∧ isNumberPart c = t.isNumber ∧ ¬ startsBlank c := by
  cases ht with
  | punctuation hc =>
    have hm := punctuation_mem hc
    have hi := isIdentPart_delimiter u (c := c) (by simp [delimiters] at hm ⊢; tauto)
    have ht := punctuation_kind hc
    have hall : ['(', ')', '{', '}', ';', ':', ','].all (fun c =>
        !isNumberPart c && !isWhitespace c && c != '#') = true := by decide
    have hb := List.all_eq_true.mp hall c hm
    simp only [Bool.and_eq_true, Bool.not_eq_true', bne_iff_ne] at hb
    simp [hi, ht, hb, startsBlank]
  | arrow => exact ⟨isIdentPart_delimiter u (by decide), by decide, by decide⟩
  | string hq hs =>
    rcases hq with rfl | rfl
    · exact ⟨isIdentPart_delimiter u (by decide), (by decide : isNumberPart '"' = false), by decide⟩
    · exact ⟨isIdentPart_delimiter u (by decide), (by decide : isNumberPart '\'' = false),
        by decide⟩
  | number hc hd =>
    have hi := Unicode.isIdentPart_of_digit (u := u) hc
    have ha := isIdentPart_other_arms hi
    have hw := Unicode.not_isWhitespace_of_isIdentPart hi
    simp [hi, hc, hw, ha, isNumberPart, Token.isNumber, startsBlank]
  | word hc hd =>
    have hi := Unicode.isIdentPart_of_start hc
    have ha := isIdentPart_other_arms hi
    obtain ⟨hk, hn⟩ := keyword_isWord (String.ofList (c :: cs))
    have hw := Unicode.not_isWhitespace_of_isIdentPart hi
    rw [hk, hn]
    simp [hi, hw, ha, isIdentStart_not_digit hc, isNumberPart, startsBlank]

theorem Spells.ne_nil {u : Unicode} (ht : Spells u t cs) : ∃ c cs', cs = c :: cs' := by
  cases ht <;> exact ⟨_, _, rfl⟩

theorem Spells.ne_eof (h : Spells u t cs) : t ≠ .eof := by
  cases h with
  | @punctuation c _ hc =>
    rintro rfl
    simp only [Lexer.punctuation] at hc
    split at hc <;> cases hc
  | arrow | string | number =>
    intro h
    cases h
  | @word c cs _ _ =>
    intro h
    have hw := (keyword_isWord (String.ofList (c :: cs))).1
    rw [h] at hw
    cases hw

theorem Layout.no_eof (h : Layout u prev ts text) : .eof ∉ ts := by
  induction h with
  | nil _ => simp
  | cons _ _ ht _ ih => simp [ih, ht.ne_eof.symm]

/-- A spelling directly after a token is read as a part of it exactly when the
two tokens stick. -/
theorem Spells.continues {u : Unicode} (ht : Spells u t (c :: cs)) (p : Token) :
    p.continues u c = p.sticks t := by
  obtain ⟨hi, hn, _⟩ := ht.head
  simp [Token.continues, Token.sticks, hi, hn]

/-- No token goes on into a blank. -/
theorem startsBlank_continues {u : Unicode} (hc : startsBlank c) (p : Token) :
    p.continues u c = false := by
  have hi : u.isIdentPart c = false := by
    rcases hc with hc | rfl
    · exact Unicode.isIdentPart_whitespace hc
    · exact isIdentPart_delimiter u (by simp [delimiters])
  have hn : isNumberPart c = false := by
    by_contra hn
    rw [Bool.not_eq_false] at hn
    simp only [isNumberPart, Bool.or_eq_true, beq_iff_eq] at hn
    rcases hn with hd | rfl
    · rw [Unicode.isIdentPart_of_digit hd] at hi
      cases hi
    · simp [startsBlank] at hc
      exact absurd hc (by decide)
  simp [Token.continues, hi, hn]

/-- What follows a token in a layout is no part of the token. -/
theorem Layout.follow {u : Unicode} (hl : Layout u (some p) ts text) :
    ∀ d ∈ text.head?, p.continues u d = false := by
  cases hl with
  | nil hw =>
    intro d hd
    exact startsBlank_continues (hw.head d hd) p
  | @cons _ w t cs ts text gap hw ht hl =>
    intro d hd
    cases w with
    | cons c w => exact startsBlank_continues (hw.head d (by simpa using hd)) p
    | nil =>
      obtain ⟨c, cs', rfl⟩ := ht.ne_nil
      simp only [List.nil_append, List.cons_append, List.head?_cons, Option.mem_def,
        Option.some.injEq] at hd
      subst d
      rw [ht.continues]
      by_contra hs
      exact gap p rfl (by simpa using hs) rfl

namespace Lexer

variable {u : Unicode}

/-- A token is read in full, and nothing after it, where no part of it follows. -/
theorem readToken_spells (ht : Spells u t (c :: cs)) (pre : List Char)
    (hf : ∀ d ∈ rest.head?, t.continues u d = false) :
    (cursor pre (c :: (cs ++ rest))).readToken u c = .ok (t, cursor (pre ++ c :: cs) rest) := by
  have ne_arrow : c ≠ '=' → (cursor pre (c :: (cs ++ rest))).arrowAhead c = .ok false := by
    intro hc
    simp [arrowAhead, hc]
  cases ht with
  | punctuation hc => simp [readToken, hc]
  | arrow =>
    have hp := peekChar_cursor pre ('>' :: rest) '=' (by decide)
    simp [readToken, punctuation, arrowAhead, hp]
  | @string s _ body hq hs =>
    have hp : punctuation c = none := by rcases hq with rfl | rfl <;> rfl
    have hb : c ≠ '\\' := by rcases hq with rfl | rfl <;> decide
    have he : c ≠ '=' := by rcases hq with rfl | rfl <;> decide
    rw [List.append_assoc, List.singleton_append] at ne_arrow ⊢
    simp [readToken, hp, ne_arrow he, hq, readString_quoted hs hb]
  | number hc hd =>
    obtain ⟨hp, he, hq, hq', _⟩ := isIdentPart_other_arms (Unicode.isIdentPart_of_digit (u := u) hc)
    have hn : ∀ d ∈ c :: cs, isNumberPart d = true := by
      simpa [isNumberPart, hc] using hd
    have hf' : ∀ d ∈ rest.head?, isNumberPart d = false := by
      simpa [Token.continues, Token.isWord, Token.isNumber] using hf
    have ht := Text.takeWhile_append_stop hn hf'
    have hr := Text.dropWhile_append_stop hn hf'
    rw [List.cons_append] at ht hr
    simp only [readToken, hp, ne_arrow he, hq, hq', hc, readNumber, readWhile_cursor, ht, hr,
      ok_bind, pure_eq, or_self, if_true, if_false, Bool.false_eq_true]
  | word hc hd =>
    obtain ⟨hp, he, hq, hq', _⟩ := isIdentPart_other_arms (Unicode.isIdentPart_of_start hc)
    have hi : ∀ d ∈ c :: cs, u.isIdentPart d = true := by
      simpa [Unicode.isIdentPart_of_start hc] using hd
    have hf' : ∀ d ∈ rest.head?, u.isIdentPart d = false := by
      simpa [Token.continues, keyword_isWord] using hf
    have ht := Text.takeWhile_append_stop hi hf'
    have hr := Text.dropWhile_append_stop hi hf'
    rw [List.cons_append] at ht hr
    simp only [readToken, hp, ne_arrow he, hq, hq', hc, isIdentStart_not_digit hc, readIdent,
      readWhile_cursor, ht, hr, ok_bind, pure_eq, or_self, if_true, if_false, Bool.false_eq_true]

/-- Reading a token from any text spells one off its front, or is an error. -/
theorem readToken_split (u : Unicode) (pre text : List Char) (c : Char) :
    (∃ t cs rest, text = cs ++ rest ∧ Spells u t (c :: cs) ∧
      ∀ d ∈ rest.head?, t.continues u d = false) ∨
      ∃ e, (cursor pre (c :: text)).readToken u c = fail e := by
  cases hp : punctuation c with
  | some t =>
    obtain ⟨hw, hn⟩ := punctuation_kind hp
    exact Or.inl ⟨t, [], text, rfl, .punctuation hp, by simp [Token.continues, hw, hn]⟩
  | none =>
    by_cases ha : c = '=' ∧ text.head? = some '>'
    · obtain ⟨rfl, ha⟩ := ha
      obtain ⟨rest, rfl⟩ := List.head?_eq_some_iff.mp ha
      exact Or.inl ⟨.arrow, ['>'], rest, rfl, .arrow, by
        simp [Token.continues, Token.isWord, Token.isNumber]⟩
    have har : (cursor pre (c :: text)).arrowAhead c = .ok false := by
      by_cases he : c = '='
      · subst c
        have hs : text.head? ≠ some '>' := fun h => ha ⟨rfl, h⟩
        simp [arrowAhead, peekChar_cursor pre text '=' (by decide), hs]
      · simp [arrowAhead, he]
    by_cases hq : c = '"' ∨ c = '\''
    · rcases readString_split c pre text with ⟨s, cs, rest, rfl, hs⟩ | ⟨e, he⟩
      · exact Or.inl ⟨_, cs ++ [c], rest, by simp, .string hq hs, by
          simp [Token.continues, Token.isWord, Token.isNumber]⟩
      · exact Or.inr ⟨e, by simp [readToken, hp, har, hq, he]⟩
    by_cases hd : isAsciiDigit c = true
    · exact Or.inl ⟨_, text.takeWhile isNumberPart, text.dropWhile isNumberPart,
        List.takeWhile_append_dropWhile.symm, .number hd (fun d => List.mem_takeWhile_imp), by
          simpa [Token.continues, Token.isWord, Token.isNumber] using Text.head?_dropWhile_not⟩
    by_cases hi : u.isIdentStart c = true
    · exact Or.inl ⟨_, text.takeWhile u.isIdentPart, text.dropWhile u.isIdentPart,
        List.takeWhile_append_dropWhile.symm, .word hi (fun d => List.mem_takeWhile_imp), by
          simpa [Token.continues, keyword_isWord] using Text.head?_dropWhile_not⟩
    exact Or.inr ⟨_, by
      simp only [readToken, hp, har, hq, hd, hi, ok_bind, if_false, Bool.false_eq_true]
      rfl⟩

/-- A laid-out text yields its tokens, and none but these. -/
theorem tokenizeLoop_layout (hl : Layout u prev ts text) (acc : List Token) (pre : List Char)
    (hn : text.length < n) :
    loop n (tokenizePass u) (acc, cursor pre text) = .ok (acc ++ ts ++ [.eof]) := by
  induction hl generalizing n acc pre with
  | nil hw =>
    cases n with
    | zero => simp at hn
    | succ n => exact loop_done (by simp [tokenizePass, skipWhitespace_trailing hw])
  | @cons _ w t cs ts text gap hw ht hl ih =>
    cases n with
    | zero => simp at hn
    | succ n =>
      obtain ⟨c, cs, rfl⟩ := ht.ne_nil
      have hs := skipWhitespace_blank pre (cs ++ text) hw ht.head.2.2
      have hr := readToken_spells ht (pre ++ w) hl.follow
      rw [List.cons_append, loop_next (t := (acc ++ [t], cursor (pre ++ w ++ c :: cs) text))
        (by simp [tokenizePass, hs, hr]), ih _ _ (by simp at hn; omega)]
      simp

/-- Every text is laid out from tokens, which are then what is read, or is an error. -/
theorem tokenizeLoop_split (u : Unicode) (text : List Char) (prev : Option Token)
    (hp : ∀ p ∈ prev, ∀ d ∈ text.head?, p.continues u d = false) (acc : List Token)
    (pre : List Char) (hn : text.length < n) : (∃ ts, Layout u prev ts text) ∨
      ∃ e, loop n (tokenizePass u) (acc, cursor pre text) = fail e := by
  induction h : text.length using Nat.strongRecOn generalizing text prev n acc pre with
  | ind k ih =>
    cases n with
    | zero => omega
    | succ n =>
      rcases blank_split text with hw | ⟨w, c, text, rfl, hw, hc⟩
      · exact Or.inl ⟨[], .nil hw⟩
      · have hs := skipWhitespace_blank pre text hw hc
        rcases readToken_split u (pre ++ w) text c with ⟨t, cs, rest, rfl, ht, hf⟩ | ⟨e, he⟩
        · have hr := readToken_spells ht (pre ++ w) hf
          have gap : ∀ p ∈ prev, p.sticks t = true → w ≠ [] := by
            intro p hm hk hw
            subst hw
            have h := hp p hm c rfl
            rw [ht.continues, hk] at h
            cases h
          rcases ih rest.length (by simp at h; omega) rest (some t) (by simpa using hf)
            (acc ++ [t]) (pre ++ w ++ c :: cs) (n := n) (by simp at hn; omega) rfl with
            ⟨ts, hl⟩ | ⟨e, he⟩
          · exact Or.inl ⟨t :: ts, .cons gap hw ht hl⟩
          · exact Or.inr ⟨e, (loop_next (by simp [tokenizePass, hs, hr])).trans he⟩
        · exact Or.inr ⟨e, loop_error (by simp [tokenizePass, hs, he]; rfl)⟩

variable {text : String}

theorem tokenize_layout (hl : Layout u none ts text.toList) :
    (new text).tokenize u = .ok (ts ++ [.eof]) := by
  simpa [tokenize, new_cursor] using tokenizeLoop_layout hl [] []
    (n := (cursor [] text.toList).fuel) (by simp)

/-- The lexer accepts exactly the texts laid out from tokens. -/
theorem tokenize_ok_iff : (new text).tokenize u = .ok out ↔
    ∃ ts, Layout u none ts text.toList ∧ out = ts ++ [.eof] := by
  constructor
  · intro h
    rcases tokenizeLoop_split u text.toList none (by simp) [] []
      (n := (cursor [] text.toList).fuel) (by simp) with ⟨ts, hl⟩ | ⟨e, he⟩
    · rw [tokenize_layout hl] at h
      cases h
      exact ⟨ts, hl, rfl⟩
    · rw [new_cursor, tokenize, he] at h
      cases h
  · intro h
    obtain ⟨ts, hl, rfl⟩ := h
    exact tokenize_layout hl

/-- Reading any text ends without a panic, in tokens or in an error. -/
theorem tokenize_returns (u : Unicode) (text : String) :
    Returns ((new text).tokenize u) := by
  rcases tokenizeLoop_split u text.toList none (by simp) [] []
    (n := (cursor [] text.toList).fuel) (by simp) with ⟨ts, hl⟩ | ⟨e, he⟩
  · rw [tokenize_layout hl]
    exact returns_ok _
  · rw [new_cursor, tokenize, he]
    exact returns_fail e

end Lexer

end HyperKitty.Constraints
