import HyperKitty.Proofs.Messages

namespace HyperKitty.Bus

open Exec CString Buffer

variable {cap : Nat} {stop : Int} {p u v rest : List UInt8}

/-- The string goes up to its first `c`. -/
theorem strchr_ok {c : UInt8} (h : (strchr c p : Exec Unit _) = .ok (some rest)) :
    ∃ v, p = v ++ rest ∧ c ∉ v := by
  induction p with
  | nil => cases h
  | cons b bs ih =>
    unfold strchr at h
    split_ifs at h with hb h0
    · cases h
      exact ⟨[], rfl, List.not_mem_nil⟩
    · cases h
    · obtain ⟨v, rfl, hv⟩ := ih h
      exact ⟨b :: v, rfl, List.not_mem_cons_of_ne_of_not_mem (Ne.symm hb) hv⟩

theorem copy_initial [NeZero cap] (v : List UInt8) : (copy cap v).bytes <+: v :=
  (prefix_cString _).trans (List.take_prefix _ _)

/-- No string that is read out has a quote in it. -/
theorem quote_not_mem_of_extractStr [NeZero cap] {t : CString cap} {key : List UInt8}
    (h : extractStr p stop key cap = .ok (some (t, rest))) : quote ∉ t.bytes := by
  simp only [extractStr, bind_ok] at h
  obtain ⟨found, -, h⟩ := h
  cases found with
  | none => cases h
  | some found =>
    dsimp only at h
    split_ifs at h
    · cases h
    · simp only [bind_ok] at h
      obtain ⟨closing, hclosing, h⟩ := h
      cases closing with
      | none => cases h
      | some closing =>
        dsimp only at h
        split_ifs at h
        · cases h
        · cases h
          obtain ⟨v, hv, hquote⟩ := strchr_ok hclosing
          rw [hv, take_between]
          exact fun hmem => hquote ((copy_initial v).subset hmem)

theorem Escaped.of_prefix (h : Escaped v) (hu : u <+: v) : Escaped u := by
  obtain ⟨x, rfl⟩ := hu
  intro a w ha
  exact h a (w ++ x) (by rw [ha, List.append_assoc, List.cons_append])

/-- Whatever ends the scan of a body, what it has passed is escaped. -/
theorem escaped_of_scanBody (h : scanBody stop v = .ok rest) :
    ∃ u, v = u ++ rest ∧ Escaped u := by
  fun_induction scanBody stop v with
  | case1 | case3 | case7 =>
    cases h
    exact ⟨[], rfl, escaped_nil⟩
  | case2 | case4 => cases h
  | case5 cs _ ih =>
    obtain ⟨u, rfl, hu⟩ := ih h
    exact ⟨backslash :: quote :: u, rfl, escaped_pair.mpr hu⟩
  | case6 c cs hc _ ih =>
    obtain ⟨u, hv, hu⟩ := ih h
    have hpair : ¬ (backslash = backslash ∧ u.head? = some quote) := by
      rintro ⟨-, hhead⟩
      obtain ⟨u', rfl⟩ := List.head?_eq_some_iff.mp hhead
      exact hc (List.cons.inj hv).1
    exact ⟨backslash :: u, by rw [hv, List.cons_append],
      (escaped_cons backslash_ne_quote hpair).mpr hu⟩
  | case8 b bs _ hbackslash hquote ih =>
    obtain ⟨u, rfl, hu⟩ := ih h
    exact ⟨b :: u, rfl, (escaped_cons hquote fun hp => hbackslash hp.1).mpr hu⟩

theorem escaped_of_extractBody {t : CString maxBody} (h : extractBody p stop = .ok (some t)) :
    Escaped t.bytes := by
  simp only [extractBody, bind_ok] at h
  obtain ⟨found, -, h⟩ := h
  cases found with
  | none => cases h
  | some found =>
    dsimp only at h
    split_ifs at h
    · cases h
    · simp only [bind_ok] at h
      obtain ⟨be, hscan, h⟩ := h
      obtain ⟨u, hu, hescaped⟩ := escaped_of_scanBody hscan
      cases h
      rw [hu, take_between]
      exact hescaped.of_prefix (copy_initial u)

theorem quote_not_mem_of_reads [NeZero cap] {t : CString cap} {key : List UInt8}
    (h : Reads (extractStr p stop key cap) t) : quote ∉ t.bytes := by
  obtain ⟨a, ha, rfl⟩ := h
  cases a with
  | none => exact fun h => List.not_mem_nil ((copy_initial []).subset h)
  | some a => exact quote_not_mem_of_extractStr ha

/-- No quote stands in the strings of a message, and none in its body without a backslash. -/
structure Unquoted (m : Message) : Prop where
  msgType : quote ∉ m.msgType.bytes
  msgFrom : quote ∉ m.msgFrom.bytes
  msgTo : quote ∉ m.msgTo.bytes
  topic : quote ∉ m.topic.bytes
  body : Escaped m.body.bytes

theorem unquoted_of_msgDecode {data : List UInt8} {len : Nat} {m : Message}
    (h : msgDecode (some data) len = .ok m) : Unquoted m := by
  have hlen : len ≠ 0 := by
    rintro rfl
    cases h
  obtain ⟨r₁, r₂, r₃, r₄, -, body, hbody, hm⟩ := (msgDecode_ok_iff hlen).mp h
  refine ⟨quote_not_mem_of_reads r₁, quote_not_mem_of_reads r₂, quote_not_mem_of_reads r₃,
    quote_not_mem_of_reads r₄, ?_⟩
  rw [← hm]
  cases body with
  | none => exact escaped_nil
  | some body => exact escaped_of_extractBody hbody

/-- A message without open quotes is clean, unless its body ends in a backslash. -/
theorem Unquoted.clean_iff {m : Message} (h : Unquoted m) : Clean m ↔
    (m.body.bytes.getLast? = some backslash → m.body.bytes.length = maxBody - 1) :=
  ⟨fun hclean => hclean.body.ending,
    fun hending => ⟨h.msgType, h.msgFrom, h.msgTo, h.topic, h.body, hending⟩⟩

/-- Whatever bytes a message was read out of, it has no open quotes, and comes back when it is
written and read again, unless its body breaks off behind a backslash before it is full. -/
theorem msgDecode_again (data : List UInt8) (len : Nat) (m : Message)
    (h : msgDecode (some data) len = .ok m) : Unquoted m ∧
      ∀ out out' n, msgEncode (some m) (some out) = .ok (n, out') → n < out.length →
        (msgDecode (some out') n = .ok m ↔
          (m.body.bytes.getLast? = some backslash → m.body.bytes.length = maxBody - 1)) := by
  have hunquoted := unquoted_of_msgDecode h
  refine ⟨hunquoted, fun out out' n he hn => ?_⟩
  rw [msgEncode, if_neg (by omega), pure_eq, Except.ok.injEq] at he
  obtain rfl : m.text.length = n := congrArg Prod.fst he
  rw [snprintf_of_lt hn] at he
  obtain rfl := congrArg Prod.snd he
  rw [← hunquoted.clean_iff]
  exact msgDecode_text_iff m (List.cons_ne_nil _ _)

/-- Bytes that are no message, in which a name and a body are found all the same. -/
def scrap : List UInt8 := ascii "\x7b\"body\":\"a\\\"b\",,\"from\":\"eve\"" ++ [0]

def salvaged : Message where
  msgType := empty 32
  msgFrom := literal "eve" (by decide)
  msgTo := empty 64
  topic := empty 128
  corr := 0
  body := literal "a\\\"b" (by decide)

theorem msgDecode_again_scrap : Unquoted salvaged ∧
    (msgDecode (some (snprintf buffer salvaged.text).2) salvaged.text.length = .ok salvaged ↔
      (salvaged.body.bytes.getLast? = some backslash →
        salvaged.body.bytes.length = maxBody - 1)) := by
  obtain ⟨hunquoted, hagain⟩ := msgDecode_again scrap 29 salvaged (by decide +kernel)
  exact ⟨hunquoted, hagain buffer _ _ (by decide +kernel) (by decide +kernel)⟩

end HyperKitty.Bus
