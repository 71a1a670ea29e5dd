import HyperKitty.Lib.Strides
import HyperKitty.Proofs.Spans

namespace HyperKitty.Parser

open CString Strides

variable {input : List UInt8} {b : UInt8} {i j k n p start stop : Nat} {t : Token}

section Bytes

theorem isWordByte_iff : isWordByte b = true ↔
    48 ≤ b.toNat ∧ b.toNat ≤ 57 ∨ 65 ≤ b.toNat ∧ b.toNat ≤ 90 ∨ 97 ≤ b.toNat ∧ b.toNat ≤ 122 ∨
      b.toNat = 95 := by
  simp only [isWordByte, isalnum, isalpha, isdigit, underscore, Bool.or_eq_true, Bool.and_eq_true,
    decide_eq_true_eq, UInt8.le_iff_toNat_le, ← UInt8.toNat_inj]
  change (_ ∨ 48 ≤ b.toNat ∧ b.toNat ≤ 57) ∨ b.toNat = 95 ↔ _
  change ((65 ≤ b.toNat ∧ b.toNat ≤ 90 ∨ 97 ≤ b.toNat ∧ b.toNat ≤ 122) ∨ _) ∨ _ ↔ _
  omega

theorem isWordStart_iff : isWordStart b = true ↔
    65 ≤ b.toNat ∧ b.toNat ≤ 90 ∨ 97 ≤ b.toNat ∧ b.toNat ≤ 122 ∨ b.toNat = 95 := by
  simp only [isWordStart, isalpha, underscore, Bool.or_eq_true, Bool.and_eq_true,
    decide_eq_true_eq, UInt8.le_iff_toNat_le, ← UInt8.toNat_inj]
  exact or_assoc

theorem isQuote_iff : isQuote b = true ↔ b.toNat = 34 ∨ b.toNat = 39 := by
  simp only [isQuote, Bool.or_eq_true, decide_eq_true_eq, ← UInt8.toNat_inj]
  exact Iff.rfl

theorem isNumberByte_iff : isNumberByte b = true ↔
    48 ≤ b.toNat ∧ b.toNat ≤ 57 ∨ b.toNat = 46 := by
  simp only [isNumberByte, isdigit, Bool.or_eq_true, Bool.and_eq_true, decide_eq_true_eq,
    UInt8.le_iff_toNat_le, ← UInt8.toNat_inj]
  exact Iff.rfl

theorem isspace_iff : isspace b = true ↔ b.toNat = 32 ∨ 9 ≤ b.toNat ∧ b.toNat ≤ 13 := by
  simp only [isspace, Bool.or_eq_true, Bool.and_eq_true, decide_eq_true_eq,
    UInt8.le_iff_toNat_le, ← UInt8.toNat_inj]
  exact Iff.rfl

theorem not_isQuote_of_isWordByte (h : isWordByte b = true) : isQuote b = false := by
  rw [isWordByte_iff] at h
  rw [Bool.eq_false_iff, Ne, isQuote_iff]
  omega

theorem not_isQuote_of_isspace (h : isspace b = true) : isQuote b = false := by
  rw [isspace_iff] at h
  rw [Bool.eq_false_iff, Ne, isQuote_iff]
  omega

theorem not_isWordByte_of_isspace (h : isspace b = true) : isWordByte b = false := by
  rw [isspace_iff] at h
  rw [Bool.eq_false_iff, Ne, isWordByte_iff]
  omega

theorem not_isQuote_of_isNumberByte (h : isNumberByte b = true) : isQuote b = false := by
  rw [isNumberByte_iff] at h
  rw [Bool.eq_false_iff, Ne, isQuote_iff]
  omega

theorem not_isWordStart_of_isNumberByte (h : isNumberByte b = true) : isWordStart b = false := by
  rw [isNumberByte_iff] at h
  rw [Bool.eq_false_iff, Ne, isWordStart_iff]
  omega

theorem isNumberByte_of_isdigit (h : isdigit b = true) : isNumberByte b = true := by
  simp [isNumberByte, h]

theorem isWordByte_of_isdigit (h : isdigit b = true) : isWordByte b = true := by
  simp [isWordByte, isalnum, h]

end Bytes

section Words

/-- The next position outside of string literals. -/
def outerNext (input : List UInt8) (i : Nat) : Nat :=
  if isQuote (charAt input i) then literalEnd input i else i + 1

def Outside (input : List UInt8) (i : Nat) : Prop := Lands (outerNext input) i

/-- No identifier runs up to a position and over it. -/
def Boundary (input : List UInt8) (i : Nat) : Prop :=
  isWordByte (charAt input i) = true → ∀ q < i, isWordStart (charAt input q) = true →
    ∃ k, q ≤ k ∧ k < i ∧ isWordByte (charAt input k) = false

/-- An identifier that no byte before or behind it makes longer. -/
structure Word (input : List UInt8) (start stop : Nat) : Prop where
  nonempty : start < stop
  first : isWordStart (charAt input start) = true
  bytes : ∀ k, start ≤ k → k < stop → isWordByte (charAt input k) = true
  left : Boundary input start
  right : isWordByte (charAt input stop) = false

def Keyword (input : List UInt8) (start stop : Nat) : Prop :=
  (input.drop start).take (stop - start) ∈ [ascii "if", ascii "for", ascii "while"]

/-- The structural tokens are the keywords, and every other word is an identifier. -/
structure KeywordsOnly (input : List UInt8) : Prop where
  structural : ∀ t, t ∈ tokenize input ∧ t.type = .structural ↔
    ∃ start stop, Outside input start ∧ Word input start stop ∧ Keyword input start stop ∧
      t = cut .structural input start stop
  identifier : ∀ start stop, Outside input start → Word input start stop →
    ¬ Keyword input start stop → cut .identifier input start stop ∈ tokenize input

/-- A word that begins like a keyword is the keyword `if`, and two bytes behind its last
one there is no letter and no digit unless it ends the input. -/
def Regular (input : List UInt8) (start stop : Nat) : Prop :=
  keywordAt input start = true → stop = start + 2 ∧
    (charAt input (start + 2) = 0 ∨ isalnum (charAt input (start + 3)) = false)

theorem Word.stop_eq (h : Word input start stop) : stop = runEnd isWordByte input start := by
  apply le_antisymm
  · by_contra hlt
    have hrun : isWordByte (charAt input (runEnd isWordByte input start)) = false :=
      not_at_runEnd rfl
    rw [h.bytes _ le_runEnd (not_le.mp hlt)] at hrun
    cases hrun
  · by_contra hlt
    have hrun := of_lt_runEnd h.nonempty.le (not_le.mp hlt)
    rw [h.right] at hrun
    cases hrun

theorem Boundary.word (hb : Boundary input i) (h : isWordStart (charAt input i) = true) :
    Word input i (runEnd isWordByte input i) where
  nonempty := lt_runEnd (lt_length_of_charAt fun h0 => by simp [h0, isWordStart_iff] at h)
    (isWordByte_of_isWordStart h)
  first := h
  bytes _ hk hlt := of_lt_runEnd hk hlt
  left := hb
  right := not_at_runEnd rfl

theorem Word.lt_length (h : Word input start stop) : start < input.length :=
  lt_length_of_charAt fun h0 => by simpa [h0, isWordStart_iff] using h.first

theorem Boundary.after (h : isWordByte (charAt input i) = false) : Boundary input (i + 1) :=
  fun _ _ hq _ => ⟨i, Nat.le_of_lt_succ hq, Nat.lt_succ_self i, h⟩

theorem Boundary.here (h : isWordByte (charAt input i) = false) : Boundary input i := by
  intro hw
  rw [h] at hw
  cases hw

theorem lt_outerNext (i : Nat) : i < outerNext input i := by
  unfold outerNext
  split
  · exact lt_literalEnd
  · exact Nat.lt_succ_self i

/-- Where no literal opens one comes from one position to the other. -/
theorem Outside.skip (h : Outside input i) (hle : i ≤ j)
    (hq : ∀ k, i ≤ k → k < j → isQuote (charAt input k) = false) : Outside input j := by
  induction j, hle using Nat.le_induction with
  | base => exact h
  | succ j hle ih =>
    have hj := ih fun k hk hlt => hq k hk (hlt.trans (Nat.lt_succ_self j))
    have hnext : outerNext input j = j + 1 := by
      rw [outerNext, hq j hle (Nat.lt_succ_self j)]
      rfl
    exact hnext ▸ hj.next

end Words

section Positions

/-- Where the next token begins. -/
def tokenEnd (input : List UInt8) (i : Nat) : Nat :=
  if i < input.length then (nextToken input i).stop else i + 1

theorem lt_tokenEnd (i : Nat) : i < tokenEnd input i := by
  unfold tokenEnd
  split
  · rename_i h
    obtain ⟨type, stop, he, hlt, -⟩ := nextToken_cut h
    rw [he]
    exact hlt
  · exact Nat.lt_succ_self i

/-- With room enough the loop finds the tokens at all positions it comes to. -/
theorem mem_tokenizeLoop (room i : Nat) (h : input.length ≤ i + room) :
    t ∈ tokenizeLoop input room i ↔
      ∃ k, (tokenEnd input)^[k] i < input.length ∧
        t = nextToken input ((tokenEnd input)^[k] i) := by
  have hbehind : ∀ i, input.length ≤ i → ∀ k, input.length ≤ (tokenEnd input)^[k] i := by
    intro i hi k
    exact hi.trans (Function.id_le_iterate_of_id_le (fun i => (lt_tokenEnd i).le) k i)
  induction room generalizing i with
  | zero =>
    simp only [tokenizeLoop, List.not_mem_nil, false_iff, not_exists, not_and]
    intro k hk
    exact absurd hk (not_lt.mpr (hbehind i h k))
  | succ room ih =>
    rw [tokenizeLoop, ← Nat.or_exists_add_one]
    split
    · rename_i hi
      have hend : (nextToken input i).stop = tokenEnd input i := by rw [tokenEnd, if_pos hi]
      have hlt : i < tokenEnd input i := lt_tokenEnd i
      have hrest : t ∈ tokenizeLoop input room (tokenEnd input i) ↔ _ :=
        ih (tokenEnd input i) (by omega)
      dsimp only
      rw [List.mem_cons, hend, hrest]
      simp only [Function.iterate_zero, id_eq, hi, true_and, Function.iterate_succ_apply]
    · rename_i hi
      simp only [List.not_mem_nil, false_iff, not_or, not_exists, not_and]
      exact ⟨fun h0 => absurd h0 hi, fun k hk =>
        absurd hk (not_lt.mpr (hbehind i (not_lt.mp hi) (k + 1)))⟩

theorem mem_allTokens : t ∈ allTokens input ↔
    ∃ i, Lands (tokenEnd input) i ∧ i < input.length ∧ t = nextToken input i := by
  rw [allTokens, mem_tokenizeLoop _ _ (by omega)]
  constructor
  · intro h
    obtain ⟨k, hlt, he⟩ := h
    exact ⟨_, ⟨k, rfl⟩, hlt, he⟩
  · intro h
    obtain ⟨i, ⟨k, rfl⟩, hlt, he⟩ := h
    exact ⟨k, hlt, he⟩

end Positions

section Scanning

theorem nextToken_keyword (h : keywordAt input i = true) :
    nextToken input i = cut .structural input i (i + keywordLength input i) := by
  have hword := isWordByte_of_isWordStart (isWordStart_of_keywordAt h)
  have hspace : ¬ isspace (charAt input i) = true := by
    intro hb
    rw [not_isWordByte_of_isspace hb] at hword
    cases hword
  have hk : (startsWith input i "if" || startsWith input i "for" ||
      startsWith input i "while") = true := h
  unfold nextToken
  dsimp only
  rw [if_neg hspace, if_pos hk]
  rfl

theorem Word.nextToken_eq (hw : Word input i stop) (hr : Regular input i stop) :
    nextToken input i =
      cut (if keywordAt input i then .structural else .identifier) input i stop := by
  have hb := isWordByte_of_isWordStart hw.first
  have hs := scanned input i
  generalize nextToken input i = t at hs ⊢
  cases hs with
  | space h =>
    rw [not_isWordByte_of_isspace h] at hb
    cases hb
  | keyword h =>
    obtain ⟨hstop, hshort⟩ := hr h
    rw [if_pos h, hstop, keywordLength, if_pos]
    simpa using hshort
  | word _ h => rw [h, if_neg nofun, hw.stop_eq]
  | quoted h =>
    rw [not_isQuote_of_isWordByte hb] at h
    cases h
  | number h =>
    have hn := not_isWordStart_of_isNumberByte (isNumberByte_of_isdigit h)
    rw [hw.first] at hn
    cases hn
  | single _ _ h _ =>
    rw [h] at hb
    cases hb

theorem getElem?_quotedLength (quote : UInt8) (bs : List UInt8)
    (h : quotedLength quote bs < bs.length) : bs[quotedLength quote bs]? = some quote := by
  fun_induction quotedLength quote bs with
  | case1 => simp at h
  | case2 => rfl
  | case3 => simp at h
  | case4 => rfl
  | case5 c rest _ ih =>
    simp only [List.length_cons] at h
    exact ih (by omega)
  | case6 b c rest _ _ ih =>
    simp only [List.length_cons] at h ih
    exact ih (by omega)

/-- A literal ends with its quote or with the input. -/
theorem boundary_literalEnd (h : isQuote (charAt input i) = true) :
    Boundary input (literalEnd input i) := by
  unfold literalEnd
  dsimp only
  split
  · rename_i hlt
    apply Boundary.after
    have hclose := getElem?_quotedLength (charAt input i) (input.drop (i + 1)) (by
      rw [List.length_drop]
      omega)
    rw [List.getElem?_drop] at hclose
    rw [charAt, hclose, Option.getD_some, Bool.eq_false_iff]
    intro hw
    rw [not_isQuote_of_isWordByte hw] at h
    cases h
  · rename_i hge
    apply Boundary.here
    rw [charAt_end (not_lt.mp hge)]
    rfl

/-- A run whose bytes are no word bytes is followed by a boundary. -/
theorem Boundary.step (hi : i < input.length) (ho : Outside input i) (hb : Boundary input i)
    (hr : ∀ stop, Word input i stop → Regular input i stop) :
    Outside input (nextToken input i).stop ∧ Boundary input (nextToken input i).stop := by
  by_cases hfirst : isWordStart (charAt input i) = true
  · have hw := hb.word hfirst
    rw [hw.nextToken_eq (hr _ hw)]
    exact ⟨ho.skip hw.nonempty.le fun k hk hlt => not_isQuote_of_isWordByte (hw.bytes k hk hlt),
      .here hw.right⟩
  have hs := scanned input i
  generalize nextToken input i = t at hs ⊢
  cases hs with
  | space h =>
    have hlt := lt_runEnd hi h
    obtain ⟨m, hm⟩ := Nat.exists_eq_add_of_lt hlt
    refine ⟨ho.skip hlt.le fun k hk hlt => not_isQuote_of_isspace (of_lt_runEnd hk hlt), ?_⟩
    change Boundary input (runEnd isspace input i)
    rw [hm]
    apply Boundary.after
    exact not_isWordByte_of_isspace (of_lt_runEnd (Nat.le_add_right i m) (by omega))
  | keyword h => exact absurd (isWordStart_of_keywordAt h) hfirst
  | word h _ => exact absurd h hfirst
  | quoted h =>
    have hnext : outerNext input i = literalEnd input i := if_pos h
    exact ⟨hnext ▸ ho.next, boundary_literalEnd h⟩
  | number h =>
    have hlt := lt_runEnd hi (isNumberByte_of_isdigit h)
    refine ⟨ho.skip hlt.le fun k hk hlt => not_isQuote_of_isNumberByte (of_lt_runEnd hk hlt), ?_⟩
    -- what begins inside of a number is no word, and no word that began before goes on in it
    intro _ q hq hstart
    by_cases hqi : q < i
    · obtain ⟨k, hk, hki, hgap⟩ := hb (isWordByte_of_isdigit h) q hqi hstart
      exact ⟨k, hk, hki.trans hlt, hgap⟩
    · rw [not_isWordStart_of_isNumberByte (of_lt_runEnd (not_lt.mp hqi) hq)] at hstart
      cases hstart
  | single type _ h hq =>
    have hnext : outerNext input i = i + 1 := by
      rw [outerNext, hq]
      rfl
    exact ⟨hnext ▸ ho.next, .after h⟩

/-- Every word that begins before a position is regular. -/
def Good (input : List UInt8) (n : Nat) : Prop :=
  ∀ start stop, start < n → Outside input start → Word input start stop → Regular input start stop

theorem boundary_of_lands (h : Lands (tokenEnd input) i) :
    Good input i → Outside input i ∧ Boundary input i := by
  apply h.rule
  · intro _
    exact ⟨lands_zero, fun _ q hq => absurd hq (Nat.not_lt_zero q)⟩
  · intro i _ ih hg
    have hlt : i < tokenEnd input i := lt_tokenEnd i
    obtain ⟨ho, hb⟩ := ih fun start stop hs => hg start stop (hs.trans hlt)
    by_cases hi : i < input.length
    · have hend : tokenEnd input i = (nextToken input i).stop := if_pos hi
      rw [hend] at hlt ⊢
      exact hb.step hi ho fun stop hw => hg i stop (hend ▸ hlt) ho hw
    · have hend : tokenEnd input i = i + 1 := if_neg hi
      have hzero := charAt_end (not_lt.mp hi)
      rw [hend]
      refine ⟨ho.skip (Nat.le_succ i) fun k hk hlt => ?_, .after (by rw [hzero]; rfl)⟩
      obtain rfl : k = i := by omega
      rw [hzero]
      rfl

/-- Behind good words every word begins a token. -/
theorem lands_of_word (hg : Good input p) (ho : Outside input p) (hw : Word input p stop) :
    Lands (tokenEnd input) p := by
  obtain ⟨i, hi, hle, hlt⟩ := exists_stride (@lt_tokenEnd input) p
  rcases hle.eq_or_lt with rfl | hip
  · exact hi
  exfalso
  obtain ⟨hoi, hb⟩ := boundary_of_lands hi fun start stop hs => hg start stop (hs.trans hip)
  have hend : tokenEnd input i = (nextToken input i).stop := if_pos (hip.trans hw.lt_length)
  rw [hend] at hlt
  by_cases hfirst : isWordStart (charAt input i) = true
  · have hwi := hb.word hfirst
    rw [hwi.nextToken_eq (hg i _ hip hoi hwi)] at hlt
    obtain ⟨k, hk, hkp, hgap⟩ := hw.left (isWordByte_of_isWordStart hw.first) i hip hfirst
    rw [hwi.bytes k hk (hkp.trans hlt)] at hgap
    cases hgap
  have hs := scanned input i
  generalize nextToken input i = t at hs hlt
  cases hs with
  | space h =>
    have hgap := not_isWordByte_of_isspace (of_lt_runEnd hle hlt)
    rw [isWordByte_of_isWordStart hw.first] at hgap
    cases hgap
  | keyword h => exact hfirst (isWordStart_of_keywordAt h)
  | word h _ => exact hfirst h
  | quoted h =>
    have hnext : outerNext input i = literalEnd input i := if_pos h
    rcases hoi.eq_or_ge lt_outerNext ho hle with rfl | hge
    · exact absurd hip (lt_irrefl p)
    · rw [hnext] at hge
      exact absurd hlt (not_lt.mpr hge)
  | number h =>
    have hgap := not_isWordStart_of_isNumberByte (of_lt_runEnd hle hlt)
    rw [hw.first] at hgap
    cases hgap
  | single _ _ _ _ => exact absurd hlt (not_lt.mpr hip)

end Scanning

section Authority

theorem keywordAt_of_keyword (h : Keyword input start stop) : keywordAt input start = true := by
  have hprefix := List.take_prefix (stop - start) (input.drop start)
  simp only [Keyword, List.mem_cons, List.not_mem_nil, or_false] at h
  simp only [keywordAt, startsWith, Bool.or_eq_true, decide_eq_true_eq]
  rcases h with h | h | h
  · exact .inl (.inl (h ▸ hprefix))
  · exact .inl (.inr (h ▸ hprefix))
  · exact .inr (h ▸ hprefix)

/-- Of the keywords only `if` has a word of two bytes. -/
theorem Word.keyword_iff (hw : Word input start stop) (hr : Regular input start stop) :
    Keyword input start stop ↔ keywordAt input start = true := by
  constructor
  · exact keywordAt_of_keyword
  · intro h
    obtain ⟨hstop, -⟩ := hr h
    have hright := hw.right
    rw [hstop] at hright
    simp only [keywordAt, Bool.or_eq_true] at h
    rcases h with (h | h) | h
    · have hprefix : ascii "if" <+: input.drop start := by simpa [startsWith] using h
      rw [Keyword, hstop, Nat.add_sub_cancel_left]
      exact List.mem_cons.mpr (.inl (List.prefix_iff_eq_take.mp hprefix).symm)
    · rw [charAt_of_startsWith (b := 0x72) h rfl] at hright
      cases hright
    · rw [charAt_of_startsWith (b := 0x69) h rfl] at hright
      cases hright

theorem keywordAt_of_structural (h : (nextToken input i).type = .structural) :
    keywordAt input i = true := by
  have hs := scanned input i
  generalize nextToken input i = t at hs h
  cases hs with
  | space => cases h
  | keyword hk => exact hk
  | word => cases h
  | quoted => cases h
  | number => cases h
  | single type hne => exact absurd h hne

theorem tokenize_eq_allTokens (h : (allTokens input).length ≤ maxTokens) :
    tokenize input = allTokens input := by
  rw [tokenize_eq_take, List.take_of_length_le h]

/-- Where every word is regular the tokenizer gives each word its own token. -/
theorem keywordsOnly_of_good (h : (allTokens input).length ≤ maxTokens)
    (hg : ∀ n, Good input n) : KeywordsOnly input := by
  have hregular : ∀ start stop, Outside input start → Word input start stop →
      Regular input start stop := fun start stop => hg (start + 1) start stop (Nat.lt_succ_self _)
  have hmem : ∀ start stop, Outside input start → Word input start stop →
      nextToken input start ∈ tokenize input := by
    intro start stop ho hw
    rw [tokenize_eq_allTokens h]
    exact mem_allTokens.mpr ⟨start, lands_of_word (hg start) ho hw, hw.lt_length, rfl⟩
  constructor
  · intro t
    constructor
    · intro ht
      obtain ⟨ht, htype⟩ := ht
      rw [tokenize_eq_allTokens h] at ht
      obtain ⟨i, hi, hlt, rfl⟩ := mem_allTokens.mp ht
      obtain ⟨ho, hb⟩ := boundary_of_lands hi (hg i)
      have hk := keywordAt_of_structural htype
      have hw := hb.word (isWordStart_of_keywordAt hk)
      have hr := hregular i _ ho hw
      exact ⟨i, _, ho, hw, (hw.keyword_iff hr).mpr hk, by rw [hw.nextToken_eq hr, if_pos hk]⟩
    · intro ht
      obtain ⟨start, stop, ho, hw, hk, rfl⟩ := ht
      have hr := hregular start stop ho hw
      have hm := hmem start stop ho hw
      rw [hw.nextToken_eq hr, if_pos ((hw.keyword_iff hr).mp hk)] at hm
      exact ⟨hm, rfl⟩
  · intro start stop ho hw hk
    have hr := hregular start stop ho hw
    have hm := hmem start stop ho hw
    rwa [hw.nextToken_eq hr, if_neg fun hat => hk ((hw.keyword_iff hr).mpr hat)] at hm

/-- The first word that is not regular would be a structural token and no word. -/
theorem good_of_keywordsOnly (h : (allTokens input).length ≤ maxTokens)
    (hk : KeywordsOnly input) (n : Nat) : Good input n := by
  induction n with
  | zero => exact fun start stop hs => absurd hs (Nat.not_lt_zero start)
  | succ n ih =>
    intro start stop hs ho hw
    rcases (Nat.le_of_lt_succ hs).lt_or_eq with hlt | rfl
    · exact ih start stop hlt ho hw
    intro hat
    have hmem : nextToken input start ∈ tokenize input := by
      rw [tokenize_eq_allTokens h]
      exact mem_allTokens.mpr ⟨start, lands_of_word ih ho hw, hw.lt_length, rfl⟩
    rw [nextToken_keyword hat] at hmem
    obtain ⟨p, e, -, hword, -, he⟩ := (hk.structural _).mp ⟨hmem, rfl⟩
    obtain rfl : start = p := congrArg Token.start he
    have hstop : start + keywordLength input start = e := congrArg Token.stop he
    rw [← hstop] at hword
    have hsame : stop = start + keywordLength input start := hw.stop_eq.trans hword.stop_eq.symm
    have hright := hword.right
    unfold keywordLength at hsame hright
    split at hsame
    · rename_i hshort
      exact ⟨hsame, by simpa using hshort⟩
    · rename_i hlong
      rw [if_neg hlong] at hright
      simp only [Bool.or_eq_true, decide_eq_true_eq, not_or, Bool.not_eq_true'] at hlong
      simp [isWordByte, hlong] at hright

/-- The keywords and no others are structural exactly where no word but `if` begins like
a keyword, and `if` is followed by what the look-ahead expects. -/
theorem keywordsOnly_iff (h : (allTokens input).length ≤ maxTokens) :
    KeywordsOnly input ↔ ∀ start stop, Outside input start → Word input start stop →
      Regular input start stop := by
  constructor
  · intro hk start stop
    exact good_of_keywordsOnly h hk (start + 1) start stop (Nat.lt_succ_self start)
  · intro hr
    exact keywordsOnly_of_good h fun _ start stop _ => hr start stop

theorem keywordsOnly_iff_if : KeywordsOnly (ascii "if (x)") ↔
    ∀ start stop, Outside (ascii "if (x)") start → Word (ascii "if (x)") start stop →
      Regular (ascii "if (x)") start stop :=
  keywordsOnly_iff (by decide +kernel)

/-- The structural token of `for` is `fo`. -/
theorem for_cut_short : ¬ ∀ input, (∀ b ∈ input, b ≠ 0 ∧ b < 128) →
    (allTokens input).length ≤ maxTokens → KeywordsOnly input := by
  intro h
  have hk := h (ascii "for") (by decide +kernel) (by decide +kernel)
  have hmem : cut .structural (ascii "for") 0 2 ∈ tokenize (ascii "for") := by decide +kernel
  obtain ⟨start, stop, -, hword, -, he⟩ := (hk.structural _).mp ⟨hmem, rfl⟩
  obtain rfl : 2 = stop := congrArg Token.stop he
  exact absurd hword.right (by decide +kernel)

end Authority

end HyperKitty.Parser
