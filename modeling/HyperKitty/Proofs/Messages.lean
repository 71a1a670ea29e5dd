import HyperKitty.Bus.Message

namespace HyperKitty.Bus

open Exec CString

variable {cap : Nat} {stop : Int} {b : UInt8} {key tail u v rest mem : List UInt8}
  {fs : List (List UInt8 × List UInt8)}

theorem quote_ne_zero : quote ≠ 0 := by decide

theorem backslash_ne_zero : backslash ≠ 0 := by decide

theorem backslash_ne_quote : backslash ≠ quote := by decide

/-- The text has a field of a string as its quoted key, a colon, the quoted value
and a comma. -/
def field (key v rest : List UInt8) : List UInt8 :=
  quote :: (key ++ quote :: 0x3A :: quote :: (v ++ quote :: 0x2C :: rest))

def fields (fs : List (List UInt8 × List UInt8)) (rest : List UInt8) : List UInt8 :=
  fs.foldr (fun f rest => field f.1 f.2 rest) rest

/-- What a key is searched by: the key in its quotes and the colon. -/
def needle (key tail : List UInt8) : List UInt8 := quote :: (key ++ quote :: 0x3A :: tail)

/-- The text neither ends a string nor a quoted one. -/
def Plain (v : List UInt8) : Prop := quote ∉ v ∧ 0 ∉ v

instance (v : List UInt8) : Decidable (Plain v) := inferInstanceAs (Decidable (_ ∧ _))

theorem plain_colon : Plain [0x3A] := by decide

theorem plain_comma : Plain [0x2C] := by decide

/-- The key can be told from the text between two quoted ones. -/
def IsKey (key : List UInt8) : Prop := Plain key ∧ key ≠ [0x3A] ∧ key ≠ [0x2C]

instance (key : List UInt8) : Decidable (IsKey key) := inferInstanceAs (Decidable (_ ∧ _))

/-- At a plain quoted text the search goes on, unless the text is the key and what
follows is what follows the key. -/
theorem strstr_plain (hkey : Plain key) (hv : Plain v)
    (hne : ¬ (key = v ∧ 0x3A :: tail <+: rest)) :
    (strstr (needle key tail) (quote :: (v ++ quote :: rest)) : Exec Unit _) =
      strstr (needle key tail) (quote :: rest) :=
  strstr_quoted quote_ne_zero hkey.1 hv.1 hv.2 hne

/-- A field with another key is passed over, whatever its plain value is. -/
theorem strstr_field (hkey : IsKey key) (hu : Plain u) (hv : Plain v) (hne : key ≠ u) :
    (strstr (needle key tail) (field u v (quote :: rest)) : Exec Unit _) =
      strstr (needle key tail) (quote :: rest) := by
  obtain ⟨hplain, hcolon, hcomma⟩ := hkey
  have hopening : ¬ (key = v ∧ 0x3A :: tail <+: 0x2C :: quote :: rest) := by
    intro h
    exact absurd (List.cons_prefix_cons.mp h.2).1 (by decide)
  apply (strstr_plain hplain hu fun h => hne h.1).trans
  apply (strstr_plain hplain plain_colon fun h => hcolon h.1).trans
  apply (strstr_plain hplain hv hopening).trans
  exact strstr_plain hplain plain_comma fun h => hcomma h.1

/-- The fields have other keys, and their values are plain. -/
def Others (key : List UInt8) (fs : List (List UInt8 × List UInt8)) : Prop :=
  ∀ f ∈ fs, Plain f.1 ∧ Plain f.2 ∧ key ≠ f.1

theorem Others.nil : Others key [] := nofun

theorem Others.cons {t : CString cap} (hu : Plain u ∧ key ≠ u) (ht : quote ∉ t.bytes)
    (hfs : Others key fs) : Others key ((u, t.bytes) :: fs) :=
  List.forall_mem_cons.mpr ⟨⟨hu.1, ⟨ht, t.terminated⟩, hu.2⟩, hfs⟩

theorem fields_quote (fs : List (List UInt8 × List UInt8)) (rest : List UInt8) :
    ∃ rest', fields fs (quote :: rest) = quote :: rest' := by
  cases fs with
  | nil => exact ⟨rest, rfl⟩
  | cons f fs => exact ⟨_, rfl⟩

theorem strstr_fields (hkey : IsKey key)
    (hfs : Others key fs) :
    (strstr (needle key tail) (fields fs (quote :: rest)) : Exec Unit _) =
      strstr (needle key tail) (quote :: rest) := by
  induction fs with
  | nil => rfl
  | cons f fs ih =>
    obtain ⟨⟨hu, hv, hne⟩, hfs⟩ := List.forall_mem_cons.mp hfs
    obtain ⟨rest', hrest⟩ := fields_quote fs rest
    have ih := ih hfs
    rw [hrest] at ih
    change strstr _ (field f.1 f.2 (fields fs (quote :: rest))) = _
    rw [hrest, strstr_field hkey hu hv hne, ih]

/-- The bytes from one pointer to another. -/
theorem take_between (u w : List UInt8) : (u ++ w).take ((u ++ w).length - w.length) = u := by
  rw [List.length_append, Nat.add_sub_cancel, List.take_left]

/-- Where a field is found, its value goes up to the first quote in it. -/
theorem value_split (v rest : List UInt8) : ∃ x, v ++ quote :: rest =
    v.takeWhile (· ≠ quote) ++ quote :: x ∧ rest.length ≤ x.length := by
  induction v with
  | nil => exact ⟨rest, rfl, Nat.le_refl _⟩
  | cons b v ih =>
    by_cases hb : b = quote
    · exact ⟨v ++ quote :: rest, by simp [hb], by simp; omega⟩
    · obtain ⟨x, hx, hl⟩ := ih
      exact ⟨x, by simp [hb, hx], hl⟩

theorem plain_takeWhile (h0 : 0 ∉ v) : Plain (v.takeWhile (· ≠ quote)) := by
  constructor
  · intro h
    simpa using List.mem_takeWhile_imp h
  · intro h
    exact h0 ((List.takeWhile_prefix _).subset h)

/-- A value that fits its array is copied whole exactly if it has no quote. -/
theorem copy_takeWhile_eq_iff [NeZero cap] (t : CString cap) :
    copy cap (t.bytes.takeWhile (· ≠ quote)) = t ↔ quote ∉ t.bytes := by
  have hfits : (t.bytes.takeWhile (· ≠ quote)).length ≤ cap - 1 := by
    have h := (List.takeWhile_prefix (p := (· ≠ quote)) (l := t.bytes)).length_le
    have ht := t.fits
    omega
  rw [copy_eq_iff (plain_takeWhile t.terminated).2, List.take_of_length_le hfits,
    List.takeWhile_eq_self_iff]
  constructor
  · intro h hq
    simpa using h quote hq
  · intro h b hb
    simp only [ne_eq, decide_eq_true_eq]
    intro he
    exact h (he ▸ hb)

/-- The memory that a message is read from, up to where the sought field is. -/
def memory (fs : List (List UInt8 × List UInt8)) (rest : List UInt8) : List UInt8 :=
  0x7B :: fields fs rest

theorem strstr_memory (hkey : IsKey key) (hfs : Others key fs) :
    (strstr (needle key tail) (memory fs (quote :: rest)) : Exec Unit _) =
      strstr (needle key tail) (quote :: rest) := by
  have hbrace : ¬ needle key tail <+: 0x7B :: fields fs (quote :: rest) := by
    intro h
    exact absurd (List.cons_prefix_cons.mp h).1 (by decide)
  rw [memory, strstr_skip (by decide) hbrace, strstr_fields hkey hfs]

theorem extractStr_memory [NeZero cap] (hkey : IsKey key)
    (hfs : Others key fs) (t : CString cap)
    (hstop : stop ≤ rest.length) :
    ∃ p, extractStr (memory fs (field key t.bytes rest)) stop key cap =
      .ok (some (copy cap (t.bytes.takeWhile (· ≠ quote)), p)) := by
  have hneedle : ascii "\"" ++ key ++ ascii "\":\"" = needle key [quote] := rfl
  have hfield : field key t.bytes rest =
      needle key [quote] ++ (t.bytes ++ quote :: 0x2C :: rest) := by
    simp [field, needle]
  have hfound : ¬ ((field key t.bytes rest).length : Int) ≤ stop := by
    simp only [field, List.length_cons, List.length_append]
    omega
  obtain ⟨x, hx, hl⟩ := value_split t.bytes (0x2C :: rest)
  have hplain := plain_takeWhile t.terminated
  have hclosing : ¬ ((quote :: x).length : Int) ≤ stop := by
    rw [List.length_cons] at hl ⊢
    omega
  have hstrstr : (strstr (needle key [quote]) (memory fs (field key t.bytes rest)) : Exec Unit _) =
      .ok (some (field key t.bytes rest)) :=
    (strstr_memory hkey hfs).trans (strstr_here ⟨_, hfield.symm⟩)
  refine ⟨x, ?_⟩
  unfold extractStr
  simp only [hneedle, hstrstr, ok_bind, if_neg hfound]
  simp only [hfield, List.drop_left, hx, strchr_append hplain.1 hplain.2, ok_bind,
    if_neg hclosing, take_between]
  rfl

/-- The field of the number, which is not quoted. -/
def corrField (n : Nat) (rest : List UInt8) : List UInt8 :=
  quote :: (ascii "corr" ++ quote :: 0x3A :: (decimal n ++ 0x2C :: rest))

theorem extractU64_memory (hfs : Others (ascii "corr") fs)
    (n : UInt64) (hstop : stop ≤ rest.length) :
    extractU64 (memory fs (corrField n.toNat rest)) stop (ascii "corr") =
      .ok (some (n, 0x2C :: rest)) := by
  have hneedle : ascii "\"" ++ ascii "corr" ++ ascii "\":" = needle (ascii "corr") [] := rfl
  have hfield : corrField n.toNat rest =
      needle (ascii "corr") [] ++ (decimal n.toNat ++ 0x2C :: rest) := by
    simp [corrField, needle]
  have hfound : ¬ ((corrField n.toNat rest).length : Int) ≤ stop := by
    simp only [corrField, List.length_cons, List.length_append]
    omega
  have hstrstr : (strstr (needle (ascii "corr") []) (memory fs (corrField n.toNat rest)) :
      Exec Unit _) = .ok (some (corrField n.toNat rest)) :=
    (strstr_memory (by decide) hfs).trans (strstr_here ⟨_, hfield.symm⟩)
  unfold extractU64
  simp only [hneedle, hstrstr, ok_bind, if_neg hfound]
  simp only [hfield, List.drop_left, strtoull_decimal n (by decide : isdigit 0x2C = false),
    ok_bind, pure_eq]

/-- The number and its comma are plain, so the field is passed over like the others. -/
theorem strstr_corrField (n : Nat) : (strstr (needle (ascii "body") tail)
    (corrField n (quote :: rest)) : Exec Unit _) =
      strstr (needle (ascii "body") tail) (quote :: rest) := by
  have hdigit (b : UInt8) (hb : isdigit b = false) : b ∉ decimal n := by
    intro h
    rw [isdigit_of_mem_decimal h] at hb
    cases hb
  have hkey : Plain (ascii "body") := by decide
  have hnumber : Plain (0x3A :: (decimal n ++ [0x2C])) := by
    constructor
    · simpa [hdigit quote (by decide)] using And.intro plain_colon.1 plain_comma.1
    · simp [hdigit 0 (by decide)]
  have hne : ¬ (ascii "body" = 0x3A :: (decimal n ++ [0x2C]) ∧ 0x3A :: tail <+: rest) := by
    intro h
    exact absurd (List.cons.inj h.1).1 (by decide)
  have hcorr : Plain (ascii "corr") := by decide
  apply (strstr_plain hkey hcorr fun h => absurd h.1 (by decide)).trans
  simpa using strstr_plain hkey hnumber hne

/-- Every quote stands directly behind a backslash. -/
def Escaped (v : List UInt8) : Prop :=
  ∀ u w, v = u ++ quote :: w → u.getLast? = some backslash

theorem escaped_nil : Escaped [] := by
  intro u w h
  simp at h

theorem not_escaped_quote : ¬ Escaped (quote :: v) := by
  intro h
  exact absurd (h [] v rfl) (by simp)

theorem escaped_cons (hb : b ≠ quote) (hpair : ¬ (b = backslash ∧ v.head? = some quote)) :
    Escaped (b :: v) ↔ Escaped v := by
  constructor
  · intro h u w hv
    have hlast := h (b :: u) w (by rw [hv, List.cons_append])
    cases u with
    | nil => exact absurd ⟨by simpa using hlast, by simp [hv]⟩ hpair
    | cons c u => rwa [List.getLast?_cons_cons] at hlast
  · intro h u w hv
    cases u with
    | nil => exact absurd (List.cons.inj hv).1 hb
    | cons c u =>
      have hlast := h u w (List.cons.inj hv).2
      rw [List.getLast?_cons, hlast]
      rfl

theorem escaped_pair : Escaped (backslash :: quote :: v) ↔ Escaped v := by
  constructor
  · intro h u w hv
    have hlast := h (backslash :: quote :: u) w (by simp [hv])
    rw [List.getLast?_cons_cons] at hlast
    cases u with
    | nil => exact absurd hlast (by decide)
    | cons c u => rwa [List.getLast?_cons_cons] at hlast
  · intro h u w hv
    rcases u with _ | ⟨a, _ | ⟨c, u⟩⟩
    · exact absurd (List.cons.inj hv).1 backslash_ne_quote
    · rw [← (List.cons.inj hv).1]
      rfl
    · have hlast := h u w (List.cons.inj (List.cons.inj hv).2).2
      rw [List.getLast?_cons_cons, List.getLast?_cons, hlast]
      rfl

/-- The data do not end at a byte of theirs. -/
theorem not_past (h0 : b ≠ 0) (hstop : stop ≤ v.length) :
    ¬ (((b :: v).length : Int) ≤ stop ∨ b = 0) := by
  rw [List.length_cons]
  simp only [h0, or_false]
  omega

/-- A byte inside of the data that is no quote and ends nothing is passed over. -/
theorem scanBody_cons (hb : b ≠ quote) (h0 : b ≠ 0)
    (hpair : ¬ (b = backslash ∧ v.head? = some quote)) (hv : v ≠ []) (hstop : stop ≤ v.length) :
    scanBody stop (b :: v) = scanBody stop v := by
  obtain ⟨c, cs, rfl⟩ := List.exists_cons_of_ne_nil hv
  rw [scanBody, if_neg (not_past h0 hstop)]
  by_cases hbackslash : b = backslash
  · have hc : c ≠ quote := fun hc => hpair ⟨hbackslash, by simp [hc]⟩
    rw [if_pos hbackslash, if_neg hc]
  · rw [if_neg hbackslash, if_neg hb]

theorem scanBody_pair (hstop : stop ≤ v.length) :
    scanBody stop (backslash :: quote :: v) = scanBody stop v := by
  have hin : stop ≤ (quote :: v).length := by
    rw [List.length_cons]
    omega
  rw [scanBody, if_neg (not_past backslash_ne_zero hin), if_pos rfl, if_pos rfl]

theorem scanBody_quote (hstop : stop ≤ v.length) :
    scanBody stop (quote :: v) = .ok (quote :: v) := by
  have hin := not_past quote_ne_zero hstop
  have hne := backslash_ne_quote.symm
  cases v with
  | nil => rw [scanBody, if_neg hin, if_neg hne, if_pos rfl, pure_eq]
  | cons c v => rw [scanBody, if_neg hin, if_neg hne, if_pos rfl, pure_eq]

theorem scanBody_stop (hv : v ≠ []) : scanBody v.length v = .ok v := by
  rcases v with _ | ⟨b, _ | ⟨c, v⟩⟩
  · exact absurd rfl hv
  · rw [scanBody, if_pos (Or.inl (le_refl _)), pure_eq]
  · rw [scanBody, if_pos (Or.inl (le_refl _)), pure_eq]

/-- A text is read as the scan reads it: an escaped quote at once, other bytes one
by one up to a quote. -/
theorem scan_induction {P : List UInt8 → Prop} (nil : P [])
    (pair : ∀ v, P v → P (backslash :: quote :: v)) (closing : ∀ v, P (quote :: v))
    (cons : ∀ b v, b ≠ quote → ¬ (b = backslash ∧ v.head? = some quote) → P v → P (b :: v)) :
    ∀ v, P v
  | [] => nil
  | [b] => by
    by_cases hb : b = quote
    · exact hb ▸ closing []
    · exact cons b [] hb (by simp) nil
  | b :: c :: v => by
    by_cases hb : b = quote
    · exact hb ▸ closing (c :: v)
    · by_cases hpair : b = backslash ∧ c = quote
      · rw [hpair.1, hpair.2]
        exact pair v (scan_induction nil pair closing cons v)
      · exact cons b (c :: v) hb (by simpa using hpair)
          (scan_induction nil pair closing cons (c :: v))

/-- The scan of an escaped body ends at the quote behind it, except that a backslash
at its end hides that quote. -/
theorem scanBody_of_escaped (h0 : 0 ∉ v) (h : Escaped v) (hstop : stop ≤ rest.length) :
    scanBody stop (v ++ quote :: rest) =
      if v.getLast? = some backslash then scanBody stop rest else .ok (quote :: rest) := by
  have hin (v : List UInt8) : stop ≤ (v ++ quote :: rest).length := by
    simp only [List.length_append, List.length_cons]
    omega
  induction v using scan_induction with
  | nil => rw [List.nil_append, scanBody_quote hstop, if_neg (by simp)]
  | closing v => exact absurd h not_escaped_quote
  | pair v ih =>
    rw [List.mem_cons, List.mem_cons, not_or, not_or] at h0
    have hlast : (backslash :: quote :: v).getLast? = some backslash ↔
        v.getLast? = some backslash := by
      cases v with
      | nil => decide
      | cons c v => rw [List.getLast?_cons_cons, List.getLast?_cons_cons]
    rw [List.cons_append, List.cons_append, scanBody_pair (hin v), ih h0.2.2 (escaped_pair.mp h)]
    simp only [hlast]
  | cons b v hb hpair ih =>
    rw [List.mem_cons, not_or] at h0
    have ih := ih h0.2 ((escaped_cons hb hpair).mp h)
    cases v with
    | nil =>
      by_cases hbackslash : b = backslash
      · rw [hbackslash, if_pos (by rfl)]
        exact scanBody_pair hstop
      · have hskip : scanBody stop (b :: quote :: rest) = scanBody stop (quote :: rest) :=
          scanBody_cons hb (Ne.symm h0.1) (fun hp => hbackslash hp.1) (by simp) (hin [])
        rw [if_neg (by simpa using hbackslash), List.singleton_append, hskip,
          scanBody_quote hstop]
    | cons c v =>
      have hskip : scanBody stop (b :: (c :: v ++ quote :: rest)) =
          scanBody stop (c :: v ++ quote :: rest) :=
        scanBody_cons hb (Ne.symm h0.1) hpair (by simp) (hin (c :: v))
      rw [List.cons_append, hskip, ih, List.getLast?_cons_cons]

/-- A quote that is not escaped ends the scan inside of the body. -/
theorem scanBody_of_not_escaped (h0 : 0 ∉ v) (h : ¬ Escaped v) (hstop : stop ≤ rest.length) :
    ∃ u w, v = u ++ quote :: w ∧ scanBody stop (v ++ rest) = .ok (quote :: w ++ rest) := by
  have hin (v : List UInt8) : stop ≤ (v ++ rest).length := by
    rw [List.length_append]
    omega
  induction v using scan_induction with
  | nil => exact absurd escaped_nil h
  | closing v => exact ⟨[], v, rfl, scanBody_quote (hin v)⟩
  | pair v ih =>
    rw [List.mem_cons, List.mem_cons, not_or, not_or] at h0
    obtain ⟨u, w, hv, hscan⟩ := ih h0.2.2 fun hv => h (escaped_pair.mpr hv)
    refine ⟨backslash :: quote :: u, w, by rw [hv]; rfl, ?_⟩
    rw [List.cons_append, List.cons_append, scanBody_pair (hin v), hscan]
  | cons b v hb hpair ih =>
    rw [List.mem_cons, not_or] at h0
    obtain ⟨u, w, hv, hscan⟩ := ih h0.2 fun hv => h ((escaped_cons hb hpair).mpr hv)
    refine ⟨b :: u, w, by rw [hv]; rfl, ?_⟩
    have hne : v ++ rest ≠ [] := by simp [hv]
    have hhead : (v ++ rest).head? = v.head? := by
      rw [hv]
      cases u <;> rfl
    rw [List.cons_append, scanBody_cons hb (Ne.symm h0.1) (by rwa [hhead]) hne (hin v), hscan]

/-- The field of the body, which ends the text. -/
def bodyField (v rest : List UInt8) : List UInt8 :=
  quote :: (ascii "body" ++ quote :: 0x3A :: quote :: (v ++ quote :: 0x7D :: rest))

/-- A body comes back whole if its quotes are escaped and no backslash at its end
hides the closing quote. Such a backslash does no harm where what follows is cut off. -/
structure CleanBody (body : CString maxBody) : Prop where
  escaped : Escaped body.bytes
  ending : body.bytes.getLast? = some backslash → body.bytes.length = maxBody - 1

/-- The body is what the scan has passed, as far as it fits. -/
theorem extractBody_of_scan (hfs : Others (ascii "body") fs) (n : Nat) (t : CString maxBody)
    (hsplit : t.bytes ++ quote :: 0x7D :: mem = u ++ rest)
    (hscan : scanBody mem.length (t.bytes ++ quote :: 0x7D :: mem) = .ok rest) :
    extractBody (memory fs (corrField n (bodyField t.bytes mem))) mem.length =
      .ok (some (copy maxBody u)) := by
  have hneedle : ascii "\"body\":\"" = needle (ascii "body") [quote] := rfl
  have hfield : bodyField t.bytes mem =
      needle (ascii "body") [quote] ++ (t.bytes ++ quote :: 0x7D :: mem) := by
    simp [bodyField, needle]
  have hfound : ¬ ((bodyField t.bytes mem).length : Int) ≤ mem.length := by
    simp only [bodyField, List.length_cons, List.length_append]
    omega
  have hstrstr : (strstr (needle (ascii "body") [quote])
      (memory fs (corrField n (bodyField t.bytes mem))) : Exec Unit _) =
        .ok (some (bodyField t.bytes mem)) :=
    ((strstr_memory (by decide) hfs).trans (strstr_corrField n)).trans
      (strstr_here ⟨_, hfield.symm⟩)
  unfold extractBody
  simp only [hneedle, hstrstr, ok_bind, if_neg hfound]
  simp only [hfield, List.drop_left, hscan, ok_bind, pure_eq]
  rw [hsplit, take_between]

/-- A backslash at the end brings the closing quote and the brace into the body, which is
cut off again only where the body has no room for them. -/
theorem copy_closing_iff {t : CString maxBody} (hescaped : Escaped t.bytes)
    (hlast : t.bytes.getLast? = some backslash) :
    copy maxBody (t.bytes ++ [quote, 0x7D]) = t ↔ CleanBody t := by
  have hcap : t.bytes.length < maxBody := t.fits
  have h0 : 0 ∉ t.bytes ++ [quote, 0x7D] := by
    simp [t.terminated, quote]
  rw [copy_eq_iff h0]
  constructor
  · intro h
    have hl := congrArg List.length h
    simp only [List.length_take, List.length_append, List.length_cons, List.length_nil] at hl
    exact ⟨hescaped, fun _ => by omega⟩
  · intro h
    exact List.take_left' (h.ending hlast)

theorem copy_ne_of_quote {t : CString maxBody} {u w : List UInt8}
    (hv : t.bytes = u ++ quote :: w) : copy maxBody u ≠ t := by
  have hcap : t.bytes.length < maxBody := t.fits
  rw [Ne, copy_eq_iff fun h => t.terminated (by simp [hv, h])]
  intro h
  have hl := congrArg List.length h
  simp only [hv, List.length_take, List.length_append, List.length_cons] at hl hcap
  omega

theorem extractBody_memory (hfs : Others (ascii "body") fs)
    (n : Nat) (t : CString maxBody) (hmem : mem ≠ []) :
    ∃ u, extractBody (memory fs (corrField n (bodyField t.bytes mem))) mem.length =
      .ok (some u) ∧ (u = t ↔ CleanBody t) := by
  by_cases hescaped : Escaped t.bytes
  · have hin : (mem.length : Int) ≤ (0x7D :: mem).length := by
      rw [List.length_cons]
      omega
    have hscan := scanBody_of_escaped t.terminated hescaped hin
    by_cases hlast : t.bytes.getLast? = some backslash
    · have hbrace : scanBody mem.length (0x7D :: mem) = scanBody mem.length mem :=
        scanBody_cons (by decide) (by decide) (by simp [backslash]) hmem (le_refl _)
      rw [if_pos hlast, hbrace, scanBody_stop hmem] at hscan
      have hsplit : t.bytes ++ quote :: 0x7D :: mem = (t.bytes ++ [quote, 0x7D]) ++ mem := by simp
      exact ⟨_, extractBody_of_scan hfs n t hsplit hscan, copy_closing_iff hescaped hlast⟩
    · rw [if_neg hlast] at hscan
      refine ⟨_, extractBody_of_scan hfs n t rfl hscan, ?_⟩
      rw [copy_eq_iff t.terminated]
      exact iff_of_true (List.take_of_length_le (Nat.le_sub_one_of_lt t.fits))
        ⟨hescaped, fun h => absurd h hlast⟩
  · have hin : (mem.length : Int) ≤ (quote :: 0x7D :: mem).length := by
      rw [List.length_cons, List.length_cons]
      omega
    obtain ⟨u, w, hv, hscan⟩ := scanBody_of_not_escaped t.terminated hescaped hin
    have hsplit : t.bytes ++ quote :: 0x7D :: mem =
        u ++ (quote :: w ++ quote :: 0x7D :: mem) := by
      simp [hv]
    exact ⟨_, extractBody_of_scan hfs n t hsplit hscan,
      iff_of_false (copy_ne_of_quote hv) fun h => hescaped h.escaped⟩

/-- The first four fields of the text. -/
def stringFields (m : Message) : List (List UInt8 × List UInt8) :=
  [(ascii "type", m.msgType.bytes), (ascii "from", m.msgFrom.bytes),
    (ascii "to", m.msgTo.bytes), (ascii "topic", m.topic.bytes)]

theorem text_eq (m : Message) (mem : List UInt8) : m.text ++ mem =
    memory (stringFields m) (corrField m.corr.toNat (bodyField m.body.bytes mem)) := by
  unfold Message.text
  simp only [List.append_assoc]
  rfl

/-- The search for a string comes back with `t`, or without anything where `t` is empty. -/
def Reads [NeZero cap] (x : Exec Unit (Option (CString cap × List UInt8))) (t : CString cap) :
    Prop :=
  ∃ a, x = .ok a ∧ (a.map Prod.fst).getD (empty cap) = t

theorem msgDecode_ok_iff {data : List UInt8} {len : Nat} {m : Message} (hlen : len ≠ 0) :
    msgDecode (some data) len = .ok m ↔
      Reads (extractStr data (data.length - len) (ascii "type") 32) m.msgType ∧
      Reads (extractStr data (data.length - len) (ascii "from") 64) m.msgFrom ∧
      Reads (extractStr data (data.length - len) (ascii "to") 64) m.msgTo ∧
      Reads (extractStr data (data.length - len) (ascii "topic") 128) m.topic ∧
      (∃ a, extractU64 data (data.length - len) (ascii "corr") = .ok a ∧
        (a.map Prod.fst).getD 0 = m.corr) ∧
      ∃ a, extractBody data (data.length - len) = .ok a ∧ a.getD (empty maxBody) = m.body := by
  cases m
  simp only [msgDecode, if_neg hlen, bind_ok, pure_eq, Except.ok.injEq, Message.mk.injEq]
  constructor
  · intro h
    obtain ⟨a₁, h₁, a₂, h₂, a₃, h₃, a₄, h₄, a₅, h₅, a₆, h₆, e₁, e₂, e₃, e₄, e₅, e₆⟩ := h
    exact ⟨⟨a₁, h₁, e₁⟩, ⟨a₂, h₂, e₂⟩, ⟨a₃, h₃, e₃⟩, ⟨a₄, h₄, e₄⟩, ⟨a₅, h₅, e₅⟩, a₆, h₆, e₆⟩
  · intro h
    obtain ⟨⟨a₁, h₁, e₁⟩, ⟨a₂, h₂, e₂⟩, ⟨a₃, h₃, e₃⟩, ⟨a₄, h₄, e₄⟩, ⟨a₅, h₅, e₅⟩, a₆, h₆, e₆⟩ := h
    exact ⟨a₁, h₁, a₂, h₂, a₃, h₃, a₄, h₄, a₅, h₅, a₆, h₆, e₁, e₂, e₃, e₄, e₅, e₆⟩

theorem length_le_body (v mem : List UInt8) : mem.length ≤ (bodyField v mem).length := by
  simp only [bodyField, List.length_cons, List.length_append]
  omega

theorem length_le_corr (n : Nat) (rest : List UInt8) :
    rest.length ≤ (corrField n rest).length := by
  simp only [corrField, List.length_cons, List.length_append]
  omega

theorem length_le_fields (fs : List (List UInt8 × List UInt8)) (rest : List UInt8) :
    rest.length ≤ (fields fs rest).length := by
  induction fs with
  | nil => exact Nat.le_refl _
  | cons f fs ih =>
    change _ ≤ (field f.1 f.2 (fields fs rest)).length
    simp only [field, List.length_cons, List.length_append]
    omega

/-- A string behind plain fields comes back exactly if it has no quote. -/
theorem reads_iff [NeZero cap] (fs gs : List (List UInt8 × List UInt8)) (t : CString cap)
    (hkey : IsKey key) (hfs : Others key fs) (hstop : stop ≤ rest.length) :
    Reads (extractStr (memory (fs ++ (key, t.bytes) :: gs) rest) stop key cap) t ↔
      quote ∉ t.bytes := by
  have hle := length_le_fields gs rest
  have hmemory : memory (fs ++ (key, t.bytes) :: gs) rest =
      memory fs (field key t.bytes (fields gs rest)) := by
    simp [memory, fields]
  obtain ⟨p, hp⟩ := extractStr_memory hkey hfs t (hstop.trans (Int.ofNat_le.mpr hle))
  rw [hmemory, hp, ← copy_takeWhile_eq_iff t]
  constructor
  · intro h
    obtain ⟨a, ha, h⟩ := h
    cases ha
    exact h
  · intro h
    exact ⟨_, rfl, h⟩

section Fields

variable {m : Message}

theorem type_reads_iff (hstop : stop ≤ rest.length) :
    Reads (extractStr (memory (stringFields m) rest) stop (ascii "type") 32) m.msgType ↔
      quote ∉ m.msgType.bytes :=
  reads_iff [] [_, _, _] m.msgType (by decide) Others.nil hstop

theorem from_reads_iff (hstop : stop ≤ rest.length) (h₁ : quote ∉ m.msgType.bytes) :
    Reads (extractStr (memory (stringFields m) rest) stop (ascii "from") 64) m.msgFrom ↔
      quote ∉ m.msgFrom.bytes :=
  reads_iff [(ascii "type", m.msgType.bytes)] [_, _] m.msgFrom (by decide)
    (Others.nil.cons (by decide) h₁) hstop

theorem to_reads_iff (hstop : stop ≤ rest.length) (h₁ : quote ∉ m.msgType.bytes)
    (h₂ : quote ∉ m.msgFrom.bytes) :
    Reads (extractStr (memory (stringFields m) rest) stop (ascii "to") 64) m.msgTo ↔
      quote ∉ m.msgTo.bytes :=
  reads_iff [(ascii "type", m.msgType.bytes), (ascii "from", m.msgFrom.bytes)] [_] m.msgTo
    (by decide) ((Others.nil.cons (by decide) h₂).cons (by decide) h₁) hstop

theorem topic_reads_iff (hstop : stop ≤ rest.length) (h₁ : quote ∉ m.msgType.bytes)
    (h₂ : quote ∉ m.msgFrom.bytes) (h₃ : quote ∉ m.msgTo.bytes) :
    Reads (extractStr (memory (stringFields m) rest) stop (ascii "topic") 128) m.topic ↔
      quote ∉ m.topic.bytes :=
  reads_iff [(ascii "type", m.msgType.bytes), (ascii "from", m.msgFrom.bytes),
      (ascii "to", m.msgTo.bytes)] [] m.topic (by decide)
    (((Others.nil.cons (by decide) h₃).cons (by decide) h₂).cons (by decide) h₁) hstop

end Fields

/-- A message comes back whole if its body does and no other string has a quote. -/
structure Clean (m : Message) : Prop where
  msgType : quote ∉ m.msgType.bytes
  msgFrom : quote ∉ m.msgFrom.bytes
  msgTo : quote ∉ m.msgTo.bytes
  topic : quote ∉ m.topic.bytes
  body : CleanBody m.body

/-- Behind unquoted strings every other key is found where it was written. -/
theorem others_stringFields {m : Message} (h₁ : quote ∉ m.msgType.bytes)
    (h₂ : quote ∉ m.msgFrom.bytes) (h₃ : quote ∉ m.msgTo.bytes) (h₄ : quote ∉ m.topic.bytes)
    (hkey : key ≠ ascii "type" ∧ key ≠ ascii "from" ∧ key ≠ ascii "to" ∧ key ≠ ascii "topic") :
    Others key (stringFields m) := by
  obtain ⟨k₁, k₂, k₃, k₄⟩ := hkey
  exact (((Others.nil.cons ⟨by decide, k₄⟩ h₄).cons ⟨by decide, k₃⟩ h₃).cons ⟨by decide, k₂⟩
    h₂).cons ⟨by decide, k₁⟩ h₁

theorem msgDecode_text_iff (m : Message) (hmem : mem ≠ []) :
    msgDecode (some (m.text ++ mem)) m.text.length = .ok m ↔ Clean m := by
  have hlen : m.text.length ≠ 0 := by
    have h := congrArg List.length (text_eq m [])
    rw [List.append_nil, memory, List.length_cons] at h
    omega
  have hend : ((m.text ++ mem).length : Int) - m.text.length = mem.length := by
    rw [List.length_append]
    omega
  have hbody := length_le_body m.body.bytes mem
  have hcorr := length_le_corr m.corr.toNat (bodyField m.body.bytes mem)
  have hstop := Int.ofNat_le.mpr (hbody.trans hcorr)
  rw [msgDecode_ok_iff hlen, hend, text_eq]
  constructor
  · intro h
    obtain ⟨r₁, r₂, r₃, r₄, _, r₆⟩ := h
    have h₁ := (type_reads_iff hstop).mp r₁
    have h₂ := (from_reads_iff hstop h₁).mp r₂
    have h₃ := (to_reads_iff hstop h₁ h₂).mp r₃
    have h₄ := (topic_reads_iff hstop h₁ h₂ h₃).mp r₄
    obtain ⟨u, hu, hiff⟩ := extractBody_memory (others_stringFields h₁ h₂ h₃ h₄ (by decide))
      m.corr.toNat m.body hmem
    obtain ⟨a, ha, h₆⟩ := r₆
    rw [hu] at ha
    cases ha
    exact ⟨h₁, h₂, h₃, h₄, hiff.mp h₆⟩
  · intro h
    obtain ⟨h₁, h₂, h₃, h₄, h₆⟩ := h
    obtain ⟨u, hu, hiff⟩ := extractBody_memory (others_stringFields h₁ h₂ h₃ h₄ (by decide))
      m.corr.toNat m.body hmem
    refine ⟨(type_reads_iff hstop).mpr h₁, (from_reads_iff hstop h₁).mpr h₂,
      (to_reads_iff hstop h₁ h₂).mpr h₃, (topic_reads_iff hstop h₁ h₂ h₃).mpr h₄, ?_, ?_⟩
    · exact ⟨_, extractU64_memory (others_stringFields h₁ h₂ h₃ h₄ (by decide)) m.corr
        (Int.ofNat_le.mpr hbody), rfl⟩
    · exact ⟨_, hu, hiff.mpr h₆⟩

/-- A message that was written with its zero byte is read back exactly if it is
clean: nothing that is written is escaped, and the keys are searched for in all of it. -/
theorem msgDecode_msgEncode_iff (m : Message) (out out' : List UInt8) (n : Nat)
    (h : msgEncode (some m) (some out) = .ok (n, out')) (hn : n < out.length) :
    msgDecode (some out') n = .ok m ↔ Clean m := by
  rw [msgEncode, if_neg (by omega), pure_eq, Except.ok.injEq] at h
  obtain rfl : m.text.length = n := congrArg Prod.fst h
  rw [snprintf_of_lt hn] at h
  obtain rfl := congrArg Prod.snd h
  exact msgDecode_text_iff m (List.cons_ne_nil _ _)

/-- A buffer for the texts of two small messages. -/
def buffer : List UInt8 := List.replicate 128 0

def greeting : Message where
  msgType := literal "event" (by decide)
  msgFrom := literal "alice" (by decide)
  msgTo := literal "bob" (by decide)
  topic := literal "agents.bob" (by decide)
  corr := 7
  body := literal "say \\\"hello\\\"" (by decide)

theorem msgDecode_msgEncode_greeting :
    msgDecode (some (snprintf buffer greeting.text).2) greeting.text.length = .ok greeting ↔
      Clean greeting :=
  msgDecode_msgEncode_iff greeting buffer _ _ (by decide +kernel) (by decide +kernel)

/-- The sender's name carries an addressee of its own. -/
def forgery : Message :=
  { greeting with msgFrom := literal "alice\",\"to\":\"root" (by decide) }

theorem msgDecode_forgery :
    (msgEncode (some forgery) (some buffer) =
      .ok (forgery.text.length, (snprintf buffer forgery.text).2)) ∧
    forgery.text.length < buffer.length ∧ forgery.msgTo.bytes = ascii "bob" ∧
    (msgDecode (some (snprintf buffer forgery.text).2) forgery.text.length).map
      (fun m => m.msgTo.bytes) = .ok (ascii "root") := by
  decide +kernel

end HyperKitty.Bus
