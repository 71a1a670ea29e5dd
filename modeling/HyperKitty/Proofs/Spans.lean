import HyperKitty.Lib.Strides
import HyperKitty.Parser.Danger

namespace HyperKitty.Parser

open CString

variable {input : List UInt8} {b : UInt8} {i j k room : Nat} {p : UInt8 → Bool}
variable {ts us : List Token}

section Characters

theorem drop_eq_cons (h : i < input.length) :
    input.drop i = charAt input i :: input.drop (i + 1) := by
  rw [List.drop_eq_getElem_cons h, charAt, List.getElem?_eq_getElem h, Option.getD_some]

theorem charAt_end (h : input.length ≤ i) : charAt input i = 0 := by
  rw [charAt, List.getElem?_eq_none h, Option.getD_none]

theorem lt_length_of_charAt (h : charAt input i ≠ 0) : i < input.length := by
  by_contra hn
  exact h (charAt_end (not_lt.mp hn))

theorem le_runEnd : i ≤ runEnd p input i := Nat.le_add_right _ _

theorem runEnd_eq : runEnd p input i = i + (input.drop i).findIdx fun b => !p b := by
  unfold runEnd
  rw [List.takeWhile_eq_take_findIdx_not, List.length_take, min_eq_left List.findIdx_le_length]

theorem runEnd_le (h : i ≤ input.length) : runEnd p input i ≤ input.length := by
  have hle : (input.drop i).findIdx (fun b => !p b) ≤ (input.drop i).length :=
    List.findIdx_le_length
  rw [List.length_drop] at hle
  rw [runEnd_eq]
  omega

theorem charAt_drop (m : Nat) (h : m < (input.drop i).length) :
    charAt input (i + m) = (input.drop i)[m] := by
  rw [charAt, ← List.getElem?_drop, List.getElem?_eq_getElem h, Option.getD_some]

theorem of_lt_runEnd (hk : i ≤ k) (h : k < runEnd p input i) : p (charAt input k) = true := by
  rw [runEnd_eq] at h
  obtain ⟨m, rfl⟩ := Nat.exists_eq_add_of_le hk
  have hm : m < (input.drop i).findIdx fun b => !p b := by omega
  have hrun := List.not_of_lt_findIdx hm
  rw [charAt_drop m (hm.trans_le List.findIdx_le_length)]
  simpa using hrun

theorem not_at_runEnd (h0 : p 0 = false) : p (charAt input (runEnd p input i)) = false := by
  rw [runEnd_eq]
  by_cases hm : (input.drop i).findIdx (fun b => !p b) < (input.drop i).length
  · have hstop := List.findIdx_getElem (w := hm)
    rw [charAt_drop _ hm]
    simpa using hstop
  · rw [charAt_end, h0]
    rw [List.length_drop] at hm
    omega

theorem lt_runEnd (h : i < input.length) (hp : p (charAt input i) = true) :
    i < runEnd p input i := by
  unfold runEnd
  rw [drop_eq_cons h, List.takeWhile_cons_of_pos hp]
  simp

end Characters

section Tokens

theorem quotedLength_le (quote : UInt8) (bs : List UInt8) : quotedLength quote bs ≤ bs.length := by
  fun_induction quotedLength quote bs with
  | case1 => simp
  | case2 => simp
  | case3 => simp
  | case4 => simp
  | case5 c rest _ ih =>
    simp only [List.length_cons]
    omega
  | case6 b c rest _ _ ih =>
    simp only [List.length_cons] at ih ⊢
    omega

theorem charAt_of_startsWith {keyword : String} (h : startsWith input i keyword = true)
    (hk : (ascii keyword)[k]? = some b) : charAt input (i + k) = b := by
  have hp : ascii keyword <+: input.drop i := by simpa [startsWith] using h
  obtain ⟨hlt, he⟩ := List.getElem?_eq_some_iff.mp hk
  rw [charAt, ← List.getElem?_drop, List.prefix_iff_getElem?.mp hp k hlt, he, Option.getD_some]

theorem length_le_of_startsWith {keyword : String} (h : startsWith input i keyword = true) :
    i + (ascii keyword).length ≤ input.length ∨ (ascii keyword).length = 0 := by
  have hp : ascii keyword <+: input.drop i := by simpa [startsWith] using h
  have hle := hp.length_le
  rw [List.length_drop] at hle
  omega

def isWordStart (b : UInt8) : Bool := isalpha b || b = underscore

def isWordByte (b : UInt8) : Bool := isalnum b || b = underscore

def isNumberByte (b : UInt8) : Bool := isdigit b || b = 0x2E

def isQuote (b : UInt8) : Bool := b = 0x22 || b = 0x27

def keywordAt (input : List UInt8) (i : Nat) : Bool :=
  startsWith input i "if" || startsWith input i "for" || startsWith input i "while"

def keywordLength (input : List UInt8) (i : Nat) : Nat :=
  if charAt input (i + 2) = 0 || !isalnum (charAt input (i + 3)) then 2 else 3

/-- Where the string literal that opens at a quote ends. -/
def literalEnd (input : List UInt8) (i : Nat) : Nat :=
  let stop := i + 1 + quotedLength (charAt input i) (input.drop (i + 1))
  if stop < input.length then stop + 1 else stop

/-- What the token at a position can be. -/
inductive Scanned (input : List UInt8) (i : Nat) : Token → Prop
  | space : isspace (charAt input i) = true →
      Scanned input i (cut .whitespace input i (runEnd isspace input i))
  | keyword : keywordAt input i = true →
      Scanned input i (cut .structural input i (i + keywordLength input i))
  | word : isWordStart (charAt input i) = true → keywordAt input i = false →
      Scanned input i (cut .identifier input i (runEnd isWordByte input i))
  | quoted : isQuote (charAt input i) = true →
      Scanned input i (cut .literal input i (literalEnd input i))
  | number : isdigit (charAt input i) = true →
      Scanned input i (cut .literal input i (runEnd isNumberByte input i))
  | single (type : TokenType) : type ≠ .structural → isWordByte (charAt input i) = false →
      isQuote (charAt input i) = false → Scanned input i (cut type input i (i + 1))

theorem scanned (input : List UInt8) (i : Nat) : Scanned input i (nextToken input i) := by
  unfold nextToken
  dsimp only
  split
  · rename_i hb
    exact .space hb
  split
  · rename_i hk
    exact .keyword hk
  rename_i hk
  split
  · rename_i hb
    exact .word hb (by simpa [keywordAt] using hk)
  rename_i hw
  split
  · rename_i hq
    exact .quoted hq
  rename_i hq
  split
  · rename_i hd
    exact .number hd
  rename_i hd
  have hword : isWordByte (charAt input i) = false := by
    simp only [Bool.or_eq_true, not_or, Bool.not_eq_true] at hw hd
    simp [isWordByte, isalnum, hw, hd]
  split
  · exact .single _ nofun hword (by simpa [isQuote] using hq)
  · exact .single _ nofun hword (by simpa [isQuote] using hq)

theorem lt_literalEnd : i < literalEnd input i := by
  unfold literalEnd
  dsimp only
  split
  · omega
  · omega

theorem literalEnd_le (h : i < input.length) : literalEnd input i ≤ input.length := by
  have hle := quotedLength_le (charAt input i) (input.drop (i + 1))
  rw [List.length_drop] at hle
  unfold literalEnd
  dsimp only
  split
  · omega
  · omega

theorem keyword_fits (h : keywordAt input i = true) : i + 2 ≤ input.length := by
  simp only [keywordAt, Bool.or_eq_true] at h
  rcases h with (h | h) | h
  · have hle := length_le_of_startsWith h
    have he : (ascii "if").length = 2 := rfl
    omega
  · have hle := length_le_of_startsWith h
    have he : (ascii "for").length = 3 := rfl
    omega
  · have hle := length_le_of_startsWith h
    have he : (ascii "while").length = 5 := rfl
    omega

theorem keywordLength_le (h : keywordAt input i = true) :
    0 < keywordLength input i ∧ i + keywordLength input i ≤ input.length := by
  unfold keywordLength
  split
  · exact ⟨by omega, keyword_fits h⟩
  · rename_i hn
    have hne : charAt input (i + 2) ≠ 0 := by
      intro he
      exact hn (by simp [he])
    have hlt := lt_length_of_charAt hne
    omega

theorem isWordByte_of_isWordStart {b : UInt8} (h : isWordStart b = true) :
    isWordByte b = true := by
  simp only [isWordStart, Bool.or_eq_true] at h
  simp only [isWordByte, isalnum, Bool.or_eq_true]
  exact h.imp .inl id

theorem isWordStart_of_keywordAt (h : keywordAt input i = true) :
    isWordStart (charAt input i) = true := by
  simp only [keywordAt, Bool.or_eq_true] at h
  rcases h with (h | h) | h
  · have hb : charAt input i = 0x69 := charAt_of_startsWith (k := 0) h rfl
    rw [hb]
    rfl
  · have hb : charAt input i = 0x66 := charAt_of_startsWith (k := 0) h rfl
    rw [hb]
    rfl
  · have hb : charAt input i = 0x77 := charAt_of_startsWith (k := 0) h rfl
    rw [hb]
    rfl

/-- Every token is cut out of the input at its position. -/
theorem nextToken_cut (h : i < input.length) :
    ∃ type stop, nextToken input i = cut type input i stop ∧ i < stop ∧ stop ≤ input.length := by
  have hs := scanned input i
  generalize nextToken input i = t at hs ⊢
  cases hs with
  | space hb => exact ⟨_, _, rfl, lt_runEnd h hb, runEnd_le h.le⟩
  | keyword hk =>
    obtain ⟨hpos, hle⟩ := keywordLength_le hk
    exact ⟨_, _, rfl, by omega, hle⟩
  | word hb _ => exact ⟨_, _, rfl, lt_runEnd h (isWordByte_of_isWordStart hb), runEnd_le h.le⟩
  | quoted _ => exact ⟨_, _, rfl, lt_literalEnd, literalEnd_le h⟩
  | number hd => exact ⟨_, _, rfl, lt_runEnd h (by simp [isNumberByte, hd]), runEnd_le h.le⟩
  | single type _ _ _ => exact ⟨_, _, rfl, Nat.lt_succ_self i, h⟩

end Tokens

/-- Tokens that follow each other from one position to another. -/
inductive Spans : Nat → List Token → Nat → Prop
  | nil {i : Nat} : Spans i [] i
  | cons {i j : Nat} {t : Token} {ts : List Token} : t.start = i → i < t.stop →
      Spans t.stop ts j → Spans i (t :: ts) j

theorem Spans.unique (h : Spans i ts j) (h' : Spans i ts k) : j = k := by
  induction h with
  | nil =>
    cases h'
    rfl
  | cons _ _ _ ih =>
    cases h' with
    | cons _ _ h' => exact ih h'

theorem Spans.le (h : Spans i ts j) : i + ts.length ≤ j := by
  induction h with
  | nil => simp
  | cons _ hlt _ ih =>
    rw [List.length_cons]
    omega

theorem Spans.split (h : Spans i (ts ++ us) k) : ∃ j, Spans i ts j ∧ Spans j us k := by
  induction ts generalizing i with
  | nil => exact ⟨i, .nil, h⟩
  | cons t ts ih =>
    cases h with
    | cons he hlt h =>
      obtain ⟨j, hts, hus⟩ := ih h
      exact ⟨j, .cons he hlt hts, hus⟩

/-- A token whose value is the text of its span. -/
def Verbatim (input : List UInt8) (t : Token) : Prop :=
  t.value = (input.drop t.start).take (t.stop - t.start)

theorem Spans.flatten_values (h : Spans i ts j) (hv : ∀ t ∈ ts, Verbatim input t) :
    (ts.map Token.value).flatten = (input.drop i).take (j - i) := by
  induction h with
  | nil => simp
  | @cons i j t ts he hlt h ih =>
    subst he
    have hle := h.le
    rw [List.map_cons, List.flatten_cons, ih fun u hu => hv u (List.mem_cons_of_mem _ hu),
      hv t List.mem_cons_self]
    have hsplit : j - t.start = (t.stop - t.start) + (j - t.stop) := by omega
    have hdrop : input.drop t.stop = (input.drop t.start).drop (t.stop - t.start) := by
      rw [List.drop_drop]
      congr 1
      omega
    rw [hsplit, List.take_add, hdrop]

/-- The loop cuts the input from where it stands, to its end or until there is no room. -/
theorem tokenizeLoop_spans (room : Nat) (h : i ≤ input.length) :
    ∃ j, Spans i (tokenizeLoop input room i) j ∧ j ≤ input.length ∧
      (∀ t ∈ tokenizeLoop input room i, Verbatim input t) ∧
      (j < input.length → (tokenizeLoop input room i).length = room) := by
  induction room generalizing i with
  | zero => exact ⟨i, .nil, h, nofun, fun _ => rfl⟩
  | succ room ih =>
    rw [tokenizeLoop]
    split
    · rename_i hi
      obtain ⟨type, stop, he, hlt, hle⟩ := nextToken_cut hi
      rw [he]
      obtain ⟨j, hs, hj, hv, hroom⟩ := ih hle
      refine ⟨j, .cons rfl hlt hs, hj, ?_, ?_⟩
      · rw [List.forall_mem_cons]
        exact ⟨rfl, hv⟩
      · intro hj
        rw [List.length_cons]
        exact congrArg (· + 1) (hroom hj)
    · rename_i hi
      exact ⟨i, .nil, h, nofun, fun hlt => absurd hlt hi⟩

/-- The tokens of an input if there is room for all of them. -/
def allTokens (input : List UInt8) : List Token := tokenizeLoop input input.length 0

theorem tokenizeLoop_take (h : room ≤ k) :
    tokenizeLoop input room i = (tokenizeLoop input k i).take room := by
  induction room generalizing i k with
  | zero => simp [tokenizeLoop]
  | succ room ih =>
    obtain ⟨k, rfl⟩ : ∃ m, k = m + 1 := ⟨k - 1, by omega⟩
    rw [tokenizeLoop, tokenizeLoop]
    split
    · dsimp only
      rw [List.take_succ_cons, ih (Nat.le_of_succ_le_succ h)]
    · rfl

theorem allTokens_spans (input : List UInt8) :
    Spans 0 (allTokens input) input.length ∧ ∀ t ∈ allTokens input, Verbatim input t := by
  obtain ⟨j, hs, hj, hv, hroom⟩ := tokenizeLoop_spans input.length (Nat.zero_le input.length)
  refine ⟨?_, hv⟩
  rcases hj.lt_or_eq with hlt | rfl
  · have hle := hs.le
    rw [hroom hlt] at hle
    omega
  · exact hs

/-- Where there is no room for all tokens the first ones are kept. -/
theorem tokenize_eq_take (input : List UInt8) :
    tokenize input = (allTokens input).take maxTokens := by
  unfold tokenize allTokens
  rcases le_total maxTokens input.length with h | h
  · exact tokenizeLoop_take h
  · have hall := (allTokens_spans input).1.le
    have hshort : tokenizeLoop input input.length 0 =
        (tokenizeLoop input maxTokens 0).take input.length := tokenizeLoop_take h
    obtain ⟨j, hs, hj, _⟩ := tokenizeLoop_spans maxTokens (Nat.zero_le input.length)
    have hle := hs.le
    rw [hshort, List.take_take, min_eq_right h, List.take_of_length_le (by omega)]

/-- The tokens cover the input and say what it says. -/
structure Lossless (input : List UInt8) (result : ParseResult) : Prop where
  counted : ∃ tokens, result.tokens = some tokens ∧ result.tokenCount = tokens.length
  contiguous : ∀ tokens, result.tokens = some tokens → Spans 0 tokens input.length
  verbatim : ∀ tokens, result.tokens = some tokens → ∀ t ∈ tokens, Verbatim input t
  joined : ∀ tokens, result.tokens = some tokens → (tokens.map Token.value).flatten = input

/-- What the parser accepts it hands on in tokens. -/
theorem tokens_of_accepted {lib : RegexLibrary} {s s' : Compiled} {result : ParseResult}
    (h : parseInput lib s (some input) = (.ok result, s')) (hok : result.status = .ok) :
    result.tokens = some (tokenize input) ∧ result.tokenCount = (tokenize input).length := by
  rw [parseInput] at h
  generalize detectDanger lib s input = detected at h
  obtain ⟨danger, t⟩ := detected
  cases danger with
  | error e => cases (Prod.ext_iff.mp h).1
  | ok danger =>
    cases danger with
    | some reason =>
      cases (Prod.ext_iff.mp h).1
      cases hok
    | none =>
      cases (Prod.ext_iff.mp h).1
      exact ⟨rfl, rfl⟩

/-- Tokens that reach the end of the input are all tokens. -/
theorem length_le_of_spans (h : Spans 0 (tokenize input) input.length) :
    (allTokens input).length ≤ maxTokens := by
  have hall := (allTokens_spans input).1
  rw [tokenize_eq_take] at h
  rw [← List.take_append_drop maxTokens (allTokens input)] at hall
  obtain ⟨j, hfront, hback⟩ := hall.split
  have hj := hfront.unique h
  have hle := hback.le
  rw [hj, List.length_drop] at hle
  omega

/-- Nothing is lost exactly where there is room for all tokens. -/
theorem lossless_iff {lib : RegexLibrary} {s s' : Compiled} {result : ParseResult}
    (h : parseInput lib s (some input) = (.ok result, s')) (hok : result.status = .ok) :
    Lossless input result ↔ (allTokens input).length ≤ maxTokens := by
  obtain ⟨htokens, hcount⟩ := tokens_of_accepted h hok
  obtain ⟨hall, hverbatim⟩ := allTokens_spans input
  constructor
  · intro hl
    exact length_le_of_spans (hl.contiguous _ htokens)
  · intro hle
    have he : tokenize input = allTokens input := by
      rw [tokenize_eq_take, List.take_of_length_le hle]
    rw [he] at htokens hcount
    refine ⟨⟨_, htokens, hcount⟩, ?_, ?_, ?_⟩
    · intro tokens ht
      cases htokens.symm.trans ht
      exact hall
    · intro tokens ht
      cases htokens.symm.trans ht
      exact hverbatim
    · intro tokens ht
      cases htokens.symm.trans ht
      rw [hall.flatten_values hverbatim]
      simp

/-- A library that compiles every pattern, over a text in which none has a match. -/
def silentLibrary : RegexLibrary where
  regcomp _ := true
  regexec _ _ := false

theorem parseInput_silent (input : List UInt8) :
    parseInput silentLibrary .initial (some input) =
      (.ok
        { tokens := some (tokenize input)
          tokenCount := (tokenize input).length
          status := .ok
          error := none }, compilePatterns silentLibrary .initial) := by
  rfl

/-- A text with a keyword, names, blanks, a string, numbers and operators. -/
def statement : List UInt8 := ascii "while x1 = \"a b\" + 3.5;"

theorem lossless_iff_statement : (allTokens statement).length = 13 ∧
    (Lossless statement
        { tokens := some (tokenize statement)
          tokenCount := (tokenize statement).length
          status := .ok
          error := none } ↔
      (allTokens statement).length ≤ maxTokens) :=
  ⟨by decide +kernel, lossless_iff (parseInput_silent statement) rfl⟩

section Semicolons

theorem nextToken_semicolon (h : charAt input i = 0x3B) : (nextToken input i).stop = i + 1 := by
  have hs := scanned input i
  generalize nextToken input i = t at hs ⊢
  cases hs with
  | space hb =>
    rw [h] at hb
    cases hb
  | keyword hk =>
    have hb := isWordStart_of_keywordAt hk
    rw [h] at hb
    cases hb
  | word hb _ =>
    rw [h] at hb
    cases hb
  | quoted hb =>
    rw [h] at hb
    cases hb
  | number hb =>
    rw [h] at hb
    cases hb
  | single _ _ _ _ => rfl

theorem length_tokenizeLoop_semicolons (n : Nat) :
    (tokenizeLoop (List.replicate n 0x3B) room i).length = min room (n - i) := by
  induction room generalizing i with
  | zero => simp [tokenizeLoop]
  | succ room ih =>
    rw [tokenizeLoop, List.length_replicate]
    split
    · rename_i hi
      have hb : charAt (List.replicate n 0x3B) i = 0x3B := by
        simp [charAt, hi]
      dsimp only
      rw [List.length_cons, nextToken_semicolon hb, ih]
      omega
    · simp only [List.length_nil]
      omega

/-- Of 1025 semicolons the last one is in no token. -/
theorem semicolon_lost : ¬ ∀ lib s s' input result, (∀ b ∈ input, b ≠ 0 ∧ b < 128) →
    parseInput lib s (some input) = (.ok result, s') → result.status = .ok →
      Lossless input result := by
  intro h
  have hascii : ∀ b ∈ List.replicate 1025 (0x3B : UInt8), b ≠ 0 ∧ b < 128 := by
    intro b hb
    rw [List.eq_of_mem_replicate hb]
    decide
  have hl := h silentLibrary .initial _ _ _ hascii (parseInput_silent _) rfl
  have hle := length_le_of_spans (hl.contiguous _ rfl)
  rw [allTokens, length_tokenizeLoop_semicolons, List.length_replicate] at hle
  exact absurd hle (by decide)

end Semicolons

end HyperKitty.Parser
