import HyperKitty.Constraints.Layout

namespace HyperKitty.Constraints.Lexer

open Exec

/-- The lexer that has read `pre` and has `rest` to read. Its position is the
boundary between the two, and its line counts the newlines read. -/
def cursor (pre rest : List Char) : Lexer :=
  ⟨pre ++ rest, String.utf8Len pre, 1 + pre.count '\n'⟩

theorem new_cursor (source : String) : new source = cursor [] source.toList := rfl

/-- Moving the cursor within a text leaves the number of passes alone. -/
@[simp] theorem fuel_cursor (pre rest : List Char) :
    (cursor pre rest).fuel = pre.length + rest.length + 1 := by
  simp [fuel, cursor]

@[simp] theorem currentChar_cursor (pre rest : List Char) :
    (cursor pre rest).currentChar = .ok rest.head? := by
  simp [currentChar, charAt, cursor, Text.sliceFrom_append]

/-- Looking one byte past a character of one byte sees the next character. -/
theorem peekChar_cursor (pre rest : List Char) (c : Char) (hc : c.utf8Size = 1) :
    (cursor pre (c :: rest)).peekChar 1 = .ok rest.head? := by
  have h := Text.sliceFrom_append_add pre (c :: rest) (c.utf8Size + 0)
  rw [Text.sliceFrom_cons_add, Text.sliceFrom_zero, hc] at h
  simp [peekChar, charAt, cursor, h]

@[simp] theorem advance_cursor (pre rest : List Char) (c : Char) :
    (cursor pre (c :: rest)).advance = .ok (cursor (pre ++ [c]) rest) := by
  by_cases h : c = '\n' <;>
    simp [advance, cursor, h, currentChar, charAt, Text.sliceFrom_append, List.count_append,
      Nat.add_assoc]

/-- The loop passes over a comment body. -/
theorem commentLoop_body (pre rest : List Char) (n : Nat) (hb : '\n' ∉ body) :
    loop (body.length + n) commentPass (cursor pre (body ++ rest)) =
      loop n commentPass (cursor (pre ++ body) rest) := by
  induction body generalizing pre with
  | nil => simp
  | cons c body ih =>
    rw [List.mem_cons, not_or] at hb
    have hpass : commentPass (cursor pre (c :: (body ++ rest))) =
        .ok (.next (cursor (pre ++ [c]) (body ++ rest))) := by
      simp [commentPass, Ne.symm hb.1]
    rw [List.length_cons, Nat.add_right_comm, List.cons_append, loop_next hpass, ih _ hb.2,
      List.append_assoc, List.singleton_append]

/-- A comment body ends at a newline, which is read as well. -/
theorem commentLoop_line (pre rest : List Char) (hb : '\n' ∉ body) (hn : body.length < n) :
    loop n commentPass (cursor pre (body ++ '\n' :: rest)) =
      .ok (cursor (pre ++ (body ++ ['\n'])) rest) := by
  obtain ⟨k, rfl⟩ := Nat.exists_eq_add_of_lt hn
  rw [Nat.add_assoc, commentLoop_body pre _ _ hb, ← List.append_assoc]
  exact loop_done (by simp [commentPass])

/-- A comment body without a newline reaches the end of the text. -/
theorem commentLoop_end (hb : '\n' ∉ body) (hn : body.length < n) :
    loop n commentPass (cursor pre body) = .ok (cursor (pre ++ body) []) := by
  obtain ⟨k, rfl⟩ := Nat.exists_eq_add_of_lt hn
  have hbody := commentLoop_body pre [] (k + 1) hb
  rw [List.append_nil] at hbody
  rw [Nat.add_assoc, hbody]
  exact loop_done (by simp [commentPass])

theorem skipComment_line (pre rest : List Char) (hb : '\n' ∉ body) :
    (cursor pre ('#' :: (body ++ '\n' :: rest))).skipComment =
      .ok (cursor (pre ++ '#' :: (body ++ ['\n'])) rest) := by
  have h : '\n' ∉ '#' :: body := by simp [hb]
  have := commentLoop_line pre rest h
    (n := (cursor pre ('#' :: (body ++ '\n' :: rest))).fuel) (by simp; omega)
  simpa [skipComment] using this

theorem skipComment_end (pre : List Char) (hb : '\n' ∉ body) :
    (cursor pre ('#' :: body)).skipComment = .ok (cursor (pre ++ '#' :: body) []) := by
  have h : '\n' ∉ '#' :: body := by simp [hb]
  exact commentLoop_end h (by simp)

/-- A blank is skipped and leaves passes for what follows it. -/
theorem whitespaceLoop_skip (pre rest : List Char) (hw : Blank w) (n : Nat) : ∃ m, n ≤ m ∧
    loop (n + w.length) whitespacePass (cursor pre (w ++ rest)) =
      loop m whitespacePass (cursor (pre ++ w) rest) := by
  induction hw generalizing n pre with
  | nil => exact ⟨n, Nat.le_refl n, by simp⟩
  | @space c w hc _ ih =>
    obtain ⟨m, hm, he⟩ := ih (pre ++ [c]) n
    refine ⟨m, hm, ?_⟩
    rw [List.length_cons, ← Nat.add_assoc,
      loop_next (t := cursor (pre ++ [c]) (w ++ rest)) (by simp [whitespacePass, hc]), he]
    simp
  | @comment body w hb _ ih =>
    obtain ⟨m, hm, he⟩ := ih (pre ++ '#' :: (body ++ ['\n'])) (n + body.length + 1)
    have hs := skipComment_line pre (w ++ rest) hb
    have hp : isWhitespace '#' = false := by decide
    have hl : n + ('#' :: (body ++ '\n' :: w)).length = n + body.length + 1 + w.length + 1 := by
      simp; omega
    refine ⟨m, by omega, ?_⟩
    rw [hl, loop_next (t := cursor (pre ++ '#' :: (body ++ ['\n'])) (w ++ rest))
      (by simp [whitespacePass, hp, hs]), he]
    simp

/-- Blanks are skipped up to the first character that does not begin one. -/
theorem skipWhitespace_blank (pre rest : List Char) (hw : Blank w) (hc : ¬ startsBlank c) :
    (cursor pre (w ++ c :: rest)).skipWhitespace = .ok (cursor (pre ++ w) (c :: rest)) := by
  obtain ⟨m, hm, he⟩ := whitespaceLoop_skip pre (c :: rest) hw
    (pre.length + rest.length + 2)
  have hf : (cursor pre (w ++ c :: rest)).fuel = pre.length + rest.length + 2 + w.length := by
    simp; omega
  rw [skipWhitespace, hf, he]
  cases m with
  | zero => omega
  | succ m =>
    simp only [startsBlank, not_or, Bool.not_eq_true] at hc
    exact loop_done (by simp [whitespacePass, hc])

/-- After the last token the blanks reach the end, finished or not. -/
theorem skipWhitespace_trailing (hw : Trailing w) :
    (cursor pre w).skipWhitespace = .ok (cursor (pre ++ w) []) := by
  cases hw with
  | blank hw =>
    obtain ⟨m, hm, he⟩ := whitespaceLoop_skip pre [] hw (pre.length + 1)
    have hf : (cursor pre w).fuel = pre.length + 1 + w.length := by simp; omega
    rw [List.append_nil] at he
    rw [skipWhitespace, hf, he]
    cases m with
    | zero => omega
    | succ m => exact loop_done (by simp [whitespacePass])
  | @comment w body hw hb =>
    obtain ⟨m, hm, he⟩ := whitespaceLoop_skip pre ('#' :: body) hw
      (pre.length + body.length + 2)
    have hf : (cursor pre (w ++ '#' :: body)).fuel = pre.length + body.length + 2 + w.length := by
      simp; omega
    have hs := skipComment_end (pre ++ w) hb
    have hp : isWhitespace '#' = false := by decide
    rw [skipWhitespace, hf, he]
    match m with
    | 0 | 1 => omega
    | m + 2 =>
      rw [loop_next (t := cursor (pre ++ w ++ '#' :: body) []) (by simp [whitespacePass, hp, hs])]
      simpa using loop_done (n := m) (by simp [whitespacePass])

/-- The loop of numbers and names takes the longest run of its characters. -/
theorem whileLoop (p : Char → Bool) (acc : String) (pre text : List Char) (hn : text.length < n) :
    loop n (whilePass p) (acc, cursor pre text) = .ok (acc ++ String.ofList (text.takeWhile p),
      cursor (pre ++ text.takeWhile p) (text.dropWhile p)) := by
  induction text generalizing n acc pre with
  | nil =>
    cases n with
    | zero => simp at hn
    | succ n => exact loop_done (by simp [whilePass])
  | cons c text ih =>
    cases n with
    | zero => simp at hn
    | succ n =>
      by_cases hc : p c = true
      · rw [loop_next (t := (acc.push c, cursor (pre ++ [c]) text)) (by simp [whilePass, hc]),
          ih _ _ (by simpa using hn), Text.push_append_ofList]
        simp [hc]
      · exact loop_done (by simp [whilePass, hc])

theorem readWhile_cursor (p : Char → Bool) (pre text : List Char) :
    (cursor pre text).readWhile p = .ok (String.ofList (text.takeWhile p),
      cursor (pre ++ text.takeWhile p) (text.dropWhile p)) := by
  rw [readWhile, whileLoop p "" pre text (by simp), String.empty_append]

/-- The inside of a literal is read up to its closing quote. -/
theorem stringLoop_quoted (hs : Quoted quote s cs) (hq : quote ≠ '\\') (acc : String)
    (pre rest : List Char) (hn : cs.length < n) :
    loop n (stringPass quote) (acc, cursor pre (cs ++ quote :: rest)) =
      .ok (acc ++ String.ofList s, cursor (pre ++ (cs ++ [quote])) rest) := by
  induction hs generalizing n acc pre with
  | nil =>
    cases n with
    | zero => simp at hn
    | succ n => exact loop_done (by simp [stringPass])
  | @plain c s cs hc hb _ ih =>
    cases n with
    | zero => simp at hn
    | succ n =>
      rw [loop_next (t := (acc.push c, cursor (pre ++ [c]) (cs ++ quote :: rest)))
        (by simp [stringPass, hc, hb]), ih _ _ (by simpa using hn), Text.push_append_ofList]
      simp
  | @escape s cs c _ ih =>
    cases n with
    | zero => simp at hn
    | succ n =>
      rw [loop_next (t := (acc.push (unescape c), cursor (pre ++ ['\\', c]) (cs ++ quote :: rest)))
        (by simp [stringPass, Ne.symm hq]), ih _ _ (by simp at hn; omega), Text.push_append_ofList]
      simp

theorem readString_quoted (hs : Quoted quote s cs) (hq : quote ≠ '\\') (pre rest : List Char) :
    (cursor pre (quote :: (cs ++ quote :: rest))).readString quote =
      .ok (String.ofList s, cursor (pre ++ quote :: (cs ++ [quote])) rest) := by
  rw [readString, advance_cursor, ok_bind, stringLoop_quoted hs hq _ _ _ (by simp; omega)]
  simp

/-- A text that the loop cannot read as the inside of a literal is an error. -/
theorem stringLoop_split (text : List Char) (acc : String) (pre : List Char)
    (hn : text.length < n) : (∃ s cs rest, text = cs ++ quote :: rest ∧ Quoted quote s cs) ∨
      ∃ e, loop n (stringPass quote) (acc, cursor pre text) = fail e := by
  induction h : text.length using Nat.strongRecOn generalizing text n acc pre with
  | ind k ih =>
    cases n with
    | zero => omega
    | succ n =>
      match text with
      | [] => exact Or.inr ⟨_, loop_error (by simp [stringPass]; rfl)⟩
      | c :: t =>
        by_cases hc : c = quote
        · subst c
          exact Or.inl ⟨[], [], t, rfl, .nil⟩
        · by_cases hb : c = '\\'
          · subst c
            match t with
            | [] => exact Or.inr ⟨_, loop_error (by simp [stringPass, hc]; rfl)⟩
            | d :: t =>
              rcases ih t.length (by simp at h; omega) t (acc.push (unescape d))
                (pre ++ ['\\', d]) (n := n) (by simp at hn; omega) rfl with
                ⟨s, cs, rest, rfl, hs⟩ | ⟨e, he⟩
              · exact Or.inl ⟨_, '\\' :: d :: cs, rest, rfl, .escape hs⟩
              · exact Or.inr ⟨e, (loop_next (by simp [stringPass, hc])).trans he⟩
          · rcases ih t.length (by simp at h; omega) t (acc.push c) (pre ++ [c]) (n := n)
              (by simp at hn; omega) rfl with ⟨s, cs, rest, rfl, hs⟩ | ⟨e, he⟩
            · exact Or.inl ⟨_, c :: cs, rest, rfl, .plain hc hb hs⟩
            · exact Or.inr ⟨e, (loop_next (by simp [stringPass, hc, hb])).trans he⟩

/-- After an opening quote the lexer reads a literal or reports an error. -/
theorem readString_split (quote : Char) (pre text : List Char) :
    (∃ s cs rest, text = cs ++ quote :: rest ∧ Quoted quote s cs) ∨
      ∃ e, (cursor pre (quote :: text)).readString quote = fail e := by
  rcases stringLoop_split text "" (pre ++ [quote]) (n := (cursor (pre ++ [quote]) text).fuel)
    (by simp) with h | ⟨e, he⟩
  · exact Or.inl h
  · exact Or.inr ⟨e, by rw [readString, advance_cursor, ok_bind, he]⟩

end HyperKitty.Constraints.Lexer
