import HyperKitty.Lib.Buffer
import HyperKitty.Lib.Text

/-- The string that an array of `cap` bytes holds, in front of its zero byte. -/
structure CString (cap : Nat) where
  bytes : List UInt8
  terminated : 0 ∉ bytes
  fits : bytes.length < cap
  deriving DecidableEq

namespace CString

open Exec Buffer

variable {ε : Type} {cap : Nat} {c q b : UInt8} {p s u v key tail rest needle : List UInt8}

@[ext] theorem ext {s t : CString cap} (h : s.bytes = t.bytes) : s = t := by
  cases s
  cases t
  simpa using h

/-- Copy the bytes into the array as far as they fit, and end them with a zero byte. -/
def copy (cap : Nat) [NeZero cap] (bs : List UInt8) : CString cap where
  bytes := cString (bs.take (cap - 1))
  terminated := by
    intro h
    simpa using List.mem_takeWhile_imp h
  fits := by
    have h := (prefix_cString (bs.take (cap - 1))).length_le
    have hcap := NeZero.pos cap
    rw [List.length_take] at h
    omega

theorem copy_eq_iff [NeZero cap] {s : CString cap} (h0 : 0 ∉ v) :
    copy cap v = s ↔ v.take (cap - 1) = s.bytes := by
  have hv : cString (v.take (cap - 1)) = v.take (cap - 1) :=
    cString_eq_self.mpr fun h => h0 (List.mem_of_mem_take h)
  rw [CString.ext_iff]
  change cString (v.take (cap - 1)) = s.bytes ↔ _
  rw [hv]

def empty (cap : Nat) [NeZero cap] : CString cap := copy cap []

/-- The bytes of an ASCII text. -/
def ascii (s : String) : List UInt8 := s.toList.map fun c => c.toNat.toUInt8

def literal (s : String) (h : 0 ∉ ascii s ∧ (ascii s).length < cap) : CString cap :=
  ⟨ascii s, h.1, h.2⟩

/-- The pointer to the first `c` of a string. A pointer is the memory from it on, and reading past
the end of that is a panic. -/
def strchr (c : UInt8) : List UInt8 → Exec ε (Option (List UInt8))
  | [] => .error .panic
  | b :: bs =>
    if b = c then .ok (some (b :: bs))
    else if b = 0 then .ok none
    else strchr c bs

/-- The pointer to the first occurrence of `needle` in a string. -/
def strstr (needle : List UInt8) : List UInt8 → Exec ε (Option (List UInt8))
  | [] => .error .panic
  | b :: bs =>
    if needle <+: b :: bs then .ok (some (b :: bs))
    else if b = 0 then .ok none
    else strstr needle bs

theorem strchr_append (hc : c ∉ v) (h0 : 0 ∉ v) :
    (strchr c (v ++ c :: rest) : Exec ε _) = .ok (some (c :: rest)) := by
  induction v with
  | nil => simp [strchr]
  | cons b v ih =>
    rw [List.mem_cons, not_or] at hc h0
    rw [List.cons_append, strchr, if_neg (Ne.symm hc.1), if_neg (Ne.symm h0.1)]
    exact ih hc.2 h0.2

theorem strstr_here (h : needle <+: b :: rest) :
    (strstr needle (b :: rest) : Exec ε _) = .ok (some (b :: rest)) := by
  rw [strstr, if_pos h]

theorem strstr_skip (hb : b ≠ 0) (h : ¬ needle <+: b :: rest) :
    (strstr needle (b :: rest) : Exec ε _) = strstr needle rest := by
  rw [strstr, if_neg h, if_neg hb]

/-- A needle is not found in what lacks its first byte. -/
theorem strstr_append (hq : q ∉ v) (h0 : 0 ∉ v) :
    (strstr (q :: needle) (v ++ rest) : Exec ε _) = strstr (q :: needle) rest := by
  induction v with
  | nil => rfl
  | cons b v ih =>
    rw [List.mem_cons, not_or] at hq h0
    have hb : ¬ q :: needle <+: b :: (v ++ rest) := by
      rw [List.cons_prefix_cons]
      exact fun h => hq.1 h.1
    rw [List.cons_append, strstr_skip (Ne.symm h0.1) hb]
    exact ih hq.2 h0.2

/-- What stands in front of the first `q` decides whether one text can begin another. -/
theorem append_cons_prefix_iff (hu : q ∉ u) (hv : q ∉ v) :
    u ++ q :: s <+: v ++ q :: rest ↔ u = v ∧ s <+: rest := by
  induction u generalizing v with
  | nil =>
    cases v with
    | nil => simp
    | cons b v =>
      have hb : q ≠ b := fun h => hv (h ▸ List.mem_cons_self)
      simp [hb]
  | cons a u ih =>
    cases v with
    | nil =>
      have ha : a ≠ q := fun h => hu (h ▸ List.mem_cons_self)
      simp [ha]
    | cons b v =>
      rw [List.mem_cons, not_or] at hu hv
      rw [List.cons_append, List.cons_append, List.cons_prefix_cons, ih hu.2 hv.2,
        List.cons.injEq, and_assoc]

/-- A quoted key is not found at a quoted text other than the key. -/
theorem strstr_quoted (hq : q ≠ 0) (hkey : q ∉ key) (hv : q ∉ v) (h0 : 0 ∉ v)
    (hne : ¬ (key = v ∧ tail <+: rest)) :
    (strstr (q :: (key ++ q :: tail)) (q :: (v ++ q :: rest)) : Exec ε _) =
      strstr (q :: (key ++ q :: tail)) (q :: rest) := by
  have hskip : ¬ q :: (key ++ q :: tail) <+: q :: (v ++ q :: rest) := by
    rw [List.cons_prefix_cons, append_cons_prefix_iff hkey hv]
    exact fun h => hne h.2
  rw [strstr_skip hq hskip, strstr_append hv h0]

section Numbers

/-- The decimal digits of a number. -/
def decimal (n : Nat) : List UInt8 := (Nat.toDigits 10 n).map fun c => c.toNat.toUInt8

def isspace (b : UInt8) : Bool := b = 32 || (9 ≤ b && b ≤ 13)

def isdigit (b : UInt8) : Bool := 48 ≤ b && b ≤ 57

/-- The value of the digits in front, and the pointer past them. -/
def digits (acc : Nat) : List UInt8 → Exec ε (Nat × List UInt8)
  | [] => .error .panic
  | b :: bs =>
    if isdigit b then digits (10 * acc + (b.toNat - 48)) bs else .ok (acc, b :: bs)

/-- The number in base 10 and the pointer past it: blanks, a sign and digits. What
is too large becomes the largest number, and without a digit nothing is read. -/
def strtoull (p : List UInt8) : Exec ε (UInt64 × List UInt8) := do
  match p.dropWhile isspace with
  | [] => .error .panic
  | b :: bs =>
    let start := if b = 43 ∨ b = 45 then bs else b :: bs
    let (n, stop) ← digits 0 start
    if stop.length = start.length then pure (0, p)
    else if n ≥ 2 ^ 64 then pure (.ofNat (2 ^ 64 - 1), stop)
    else if b = 45 then pure (- .ofNat n, stop)
    else pure (.ofNat n, stop)

theorem isspace_of_isdigit (h : isdigit b = true) : isspace b = false := by
  simp only [isdigit, Bool.and_eq_true, decide_eq_true_eq, UInt8.le_iff_toNat_le] at h
  have h48 : 48 ≤ b.toNat := h.1
  have hne : b ≠ 32 := by
    intro he
    rw [he] at h48
    exact absurd h48 (by decide)
  have hle : ¬ b ≤ 13 := by
    rw [UInt8.le_iff_toNat_le]
    exact fun hb => absurd (Nat.le_trans h48 hb) (by decide)
  simp [isspace, hne, hle]

theorem isdigit_of_isDigit {c : Char} (h : c.isDigit = true) :
    isdigit c.toNat.toUInt8 = true ∧ c.toNat.toUInt8.toNat = c.toNat := by
  have hc : 48 ≤ c.toNat ∧ c.toNat ≤ 57 := by
    simpa [Char.isDigit, UInt32.le_iff_toNat_le] using h
  have hn : c.toNat.toUInt8.toNat = c.toNat := by
    simp only [Nat.toUInt8, UInt8.toNat_ofNat']
    omega
  refine ⟨?_, hn⟩
  simp only [isdigit, Bool.and_eq_true, decide_eq_true_eq, UInt8.le_iff_toNat_le, hn]
  exact hc

theorem digits_append {cs : List Char} (h : ∀ c ∈ cs, c.isDigit = true) (hb : isdigit b = false)
    (acc : Nat) : (digits acc (cs.map (fun c => c.toNat.toUInt8) ++ b :: rest) : Exec ε _) =
      .ok (Nat.ofDigitChars 10 cs acc, b :: rest) := by
  induction cs generalizing acc with
  | nil => simp [digits, hb, Nat.ofDigitChars]
  | cons c cs ih =>
    obtain ⟨hd, hn⟩ := isdigit_of_isDigit (h c (by simp))
    rw [List.map_cons, List.cons_append, digits, if_pos hd, hn, ih fun c hc => h c (by simp [hc])]
    rfl

theorem isdigit_of_mem_decimal {n : Nat} (h : b ∈ decimal n) : isdigit b = true := by
  obtain ⟨c, hc, rfl⟩ := List.mem_map.mp h
  exact (isdigit_of_isDigit (Nat.isDigit_of_mem_toDigits (by decide) (by decide) hc)).1

/-- A number that is written in decimal is read back. -/
theorem strtoull_decimal (n : UInt64) (hb : isdigit b = false) :
    (strtoull (decimal n.toNat ++ b :: rest) : Exec ε _) = .ok (n, b :: rest) := by
  have hdigits : (digits 0 (decimal n.toNat ++ b :: rest) : Exec ε _) =
      .ok (n.toNat, b :: rest) := by
    rw [decimal, digits_append (fun c => Nat.isDigit_of_mem_toDigits (by decide) (by decide)) hb,
      Nat.ofDigitChars_ten_toDigits]
  obtain ⟨d, ds, hd⟩ : ∃ d ds, decimal n.toNat = d :: ds :=
    List.exists_cons_of_ne_nil (by simp [decimal])
  have hdigit : isdigit d = true := isdigit_of_mem_decimal (n := n.toNat) (by simp [hd])
  rw [hd] at hdigits ⊢
  have hspace : isspace d = false := isspace_of_isdigit hdigit
  have hsign : ¬ (d = 43 ∨ d = 45) := by
    intro h
    rcases h with rfl | rfl
    · exact absurd hdigit (by decide)
    · exact absurd hdigit (by decide)
  rw [strtoull, List.cons_append, List.dropWhile_cons_of_neg (by simp [hspace])]
  simp only [if_neg hsign, ← List.cons_append, hdigits, ok_bind]
  have hread : (b :: rest).length ≠ (d :: ds ++ b :: rest).length := by
    simp only [List.length_append, List.length_cons]
    omega
  rw [if_neg hread, if_neg (Nat.not_le.mpr n.toNat_lt), if_neg (fun h => hsign (Or.inr h)),
    UInt64.ofNat_toNat, pure_eq]

end Numbers

/-- Write the text and its zero byte, as far as both fit into the block. The text's
full length is returned. -/
def snprintf (block text : List UInt8) : Nat × List UInt8 :=
  let written := text.take (block.length - 1) ++ [0]
  (text.length, written.take block.length ++ block.drop written.length)

theorem snprintf_of_lt {block text : List UInt8} (h : text.length < block.length) :
    snprintf block text = (text.length, text ++ 0 :: block.drop (text.length + 1)) := by
  have htake : text.take (block.length - 1) = text := List.take_of_length_le (by omega)
  have hwritten : (text ++ [0]).take block.length = text ++ [0] :=
    List.take_of_length_le (by simpa using h)
  simp [snprintf, htake, hwritten]

end CString
