import HyperKitty.Lib.Text

variable {α σ : Type*} {f : α → List σ} {as bs : List α} {x y : List σ}

/-- Whatever stands behind it, the text of `a` is not read as that of another value. -/
def ReadableAt (f : α → List σ) (a : α) : Prop := ∀ b x y, f a ++ x = f b ++ y → a = b ∧ x = y

def Readable (f : α → List σ) : Prop := ∀ a, ReadableAt f a

theorem Readable.injective (h : Readable f) : f.Injective := by
  intro a b hab
  exact (h a b [] [] (by rw [hab])).1

theorem ReadableAt.append_left {a : α} (h : ReadableAt f a) (xs : List σ) :
    ReadableAt (fun a => xs ++ f a) a := by
  intro b x y hxy
  simp only [List.append_assoc] at hxy
  exact h b x y (List.append_cancel_left hxy)

/-- No text of `f` begins with `stop`. -/
def Avoids (f : α → List σ) (stop : σ) : Prop := ∀ a, ∃ c cs, f a = c :: cs ∧ c ≠ stop

/-- One item after another is read up to the character that none begins with. -/
theorem flatMap_readable {stop : σ} (hstop : Avoids f stop) (has : ∀ a ∈ as, ReadableAt f a)
    (h : as.flatMap f ++ stop :: x = bs.flatMap f ++ stop :: y) : as = bs ∧ x = y := by
  induction as generalizing bs with
  | nil =>
    cases bs with
    | nil => exact ⟨rfl, (List.cons.inj h).2⟩
    | cons b bs =>
      obtain ⟨c, cs, hb, hc⟩ := hstop b
      rw [List.flatMap_cons, hb] at h
      exact absurd (List.cons.inj h).1.symm hc
  | cons a as ih =>
    obtain ⟨ha, has⟩ := List.forall_mem_cons.mp has
    cases bs with
    | nil =>
      obtain ⟨c, cs, hb, hc⟩ := hstop a
      rw [List.flatMap_cons, hb] at h
      exact absurd (List.cons.inj h).1 hc
    | cons b bs =>
      rw [List.flatMap_cons, List.flatMap_cons, List.append_assoc, List.append_assoc] at h
      obtain ⟨hab, htail⟩ := ha b _ _ h
      obtain ⟨hbs, hxy⟩ := ih has htail
      exact ⟨by rw [hab, hbs], hxy⟩

theorem intercalate_cons_eq_flatMap (seps : List σ) (a : α) (as : List α) :
    seps.intercalate ((a :: as).map f) = f a ++ as.flatMap fun b => seps ++ f b := by
  induction as generalizing a with
  | nil => rw [List.map_singleton, List.intercalate_singleton, List.flatMap_nil, List.append_nil]
  | cons b as ih =>
    rw [List.map_cons, List.map_cons, List.intercalate_cons_cons, ← List.map_cons, ih,
      List.flatMap_cons, List.append_assoc, List.append_assoc]

/-- A list between separators is read up to the character that no item begins with. -/
theorem intercalate_readable {sep stop : σ} {seps : List σ} (hne : sep ≠ stop)
    (hstop : Avoids f stop) (has : ∀ a ∈ as, ReadableAt f a)
    (h : (sep :: seps).intercalate (as.map f) ++ stop :: x =
      (sep :: seps).intercalate (bs.map f) ++ stop :: y) : as = bs ∧ x = y := by
  cases as with
  | nil =>
    cases bs with
    | nil => exact ⟨rfl, (List.cons.inj h).2⟩
    | cons b bs =>
      obtain ⟨c, cs, hb, hc⟩ := hstop b
      rw [intercalate_cons_eq_flatMap, hb] at h
      exact absurd (List.cons.inj h).1.symm hc
  | cons a as =>
    obtain ⟨ha, has⟩ := List.forall_mem_cons.mp has
    cases bs with
    | nil =>
      obtain ⟨c, cs, hb, hc⟩ := hstop a
      rw [intercalate_cons_eq_flatMap, hb] at h
      exact absurd (List.cons.inj h).1 hc
    | cons b bs =>
      rw [intercalate_cons_eq_flatMap, intercalate_cons_eq_flatMap, List.append_assoc,
        List.append_assoc] at h
      obtain ⟨hab, htail⟩ := ha b _ _ h
      have hsep : Avoids (fun b => sep :: seps ++ f b) stop := fun b => ⟨sep, _, rfl, hne⟩
      obtain ⟨hbs, hxy⟩ := flatMap_readable hsep (fun a ha => (has a ha).append_left _) htail
      exact ⟨by rw [hab, hbs], hxy⟩

section Quoted

variable [DecidableEq σ] {q e : σ}

/-- A quote or an escape inside the text has an escape put before it. -/
def escaped (q e c : σ) : List σ := if c = q ∨ c = e then [e, c] else [c]

def quoted (q e : σ) (cs : List σ) : List σ := q :: (cs.flatMap (escaped q e) ++ [q])

theorem escaped_readable (q e : σ) : Readable (escaped q e) := by
  intro c d x y h
  unfold escaped at h
  split at h <;> split at h
  all_goals simp_all

theorem escaped_avoids (hne : q ≠ e) : Avoids (escaped q e) q := by
  intro c
  unfold escaped
  split
  · exact ⟨e, [c], rfl, hne.symm⟩
  · rename_i hc
    exact ⟨c, [], rfl, fun hq => hc (.inl hq)⟩

theorem quoted_readable (hne : q ≠ e) : Readable (quoted q e) := by
  intro cs ds x y h
  rw [quoted, quoted, List.cons_append, List.cons_append, List.append_assoc, List.append_assoc] at h
  exact flatMap_readable (escaped_avoids hne) (fun c _ => escaped_readable q e c)
    (List.cons.inj h).2

end Quoted

/-- A number is read up to the first character that is no digit. -/
theorem toDigits_readable {m n : Nat} {x y : List Char} (hx : ∀ c ∈ x.head?, c.isDigit = false)
    (hy : ∀ c ∈ y.head?, c.isDigit = false)
    (h : Nat.toDigits 10 m ++ x = Nat.toDigits 10 n ++ y) : m = n ∧ x = y := by
  have hdigits : ∀ k, ∀ c ∈ Nat.toDigits 10 k, c.isDigit = true :=
    fun k c => Nat.isDigit_of_mem_toDigits (by decide) (by decide)
  have hmn := congrArg (List.takeWhile Char.isDigit) h
  rw [Text.takeWhile_append_stop (hdigits m) hx, Text.takeWhile_append_stop (hdigits n) hy] at hmn
  rw [hmn] at h
  refine ⟨?_, List.append_cancel_left h⟩
  rw [← Nat.ofDigitChars_ten_toDigits (n := m), hmn, Nat.ofDigitChars_ten_toDigits]

/-- A number behind a character that is no digit is cut off where that character last stands. -/
theorem toDigits_cut {c : Char} (hc : c.isDigit = false) {m n : Nat} {x y : List Char}
    (h : x ++ c :: Nat.toDigits 10 m = y ++ c :: Nat.toDigits 10 n) : x = y ∧ m = n := by
  have hdigits : ∀ k, ∀ d ∈ (Nat.toDigits 10 k).reverse, d.isDigit = true :=
    fun k d hd => Nat.isDigit_of_mem_toDigits (by decide) (by decide) (List.mem_reverse.mp hd)
  have hstop : ∀ z : List Char, ∀ d ∈ (c :: z.reverse).head?, d.isDigit = false := by
    intro z d hd
    rw [List.head?_cons, Option.mem_some_iff] at hd
    exact hd ▸ hc
  have hrev : (Nat.toDigits 10 m).reverse ++ c :: x.reverse =
      (Nat.toDigits 10 n).reverse ++ c :: y.reverse := by
    simpa using congrArg List.reverse h
  have hmn := congrArg (List.takeWhile Char.isDigit) hrev
  rw [Text.takeWhile_append_stop (hdigits m) (hstop x),
    Text.takeWhile_append_stop (hdigits n) (hstop y), List.reverse_inj] at hmn
  rw [hmn] at h
  refine ⟨List.append_cancel_right h, ?_⟩
  rw [← Nat.ofDigitChars_ten_toDigits (n := m), hmn, Nat.ofDigitChars_ten_toDigits]
