import Mathlib

namespace HyperKitty.Constraints

/-- Membership in an inclusive range of characters. -/
def between (lo hi c : Char) : Bool := lo.toNat ≤ c.toNat && c.toNat ≤ hi.toNat

/-- The characters beyond ASCII with the White_Space property. -/
def whiteSpaceTable (c : Char) : Bool :=
  c.toNat == 0x85 || c.toNat == 0xA0 || c.toNat == 0x1680 ||
    (0x2000 ≤ c.toNat && c.toNat ≤ 0x200A) || c.toNat == 0x2028 || c.toNat == 0x2029 ||
    c.toNat == 0x202F || c.toNat == 0x205F || c.toNat == 0x3000

def isWhitespace (c : Char) : Bool :=
  c == ' ' || between '\t' '\r' c || (0x7F < c.toNat && whiteSpaceTable c)

def isAsciiDigit (c : Char) : Bool := between '0' '9' c

/-- The tables of the standard library that depend on its version of Unicode:
the Alphabetic and numeric properties beyond ASCII, and the escapes of debug
output. In every version white space is neither alphabetic nor numeric. -/
structure Unicode where
  alphabetic : Char → Bool
  numeric : Char → Bool
  escapeDebug : Char → String
  whiteSpace_alphabetic : ∀ c, whiteSpaceTable c = true → alphabetic c = false
  whiteSpace_numeric : ∀ c, whiteSpaceTable c = true → numeric c = false

namespace Unicode

variable (u : Unicode)

def isAlphabetic (c : Char) : Bool :=
  between 'a' 'z' c || between 'A' 'Z' c || (0x7F < c.toNat && u.alphabetic c)

def isNumeric (c : Char) : Bool :=
  between '0' '9' c || (0x7F < c.toNat && u.numeric c)

def isAlphanumeric (c : Char) : Bool := u.isAlphabetic c || u.isNumeric c

/-- A character that may start a name. -/
def isIdentStart (c : Char) : Bool := u.isAlphabetic c || c == '_'

/-- A character that may continue a name. -/
def isIdentPart (c : Char) : Bool := u.isAlphanumeric c || c == '_'

/-- Tables that know ASCII only. -/
def ascii : Unicode where
  alphabetic _ := false
  numeric _ := false
  escapeDebug c := c.toString
  whiteSpace_alphabetic _ _ := rfl
  whiteSpace_numeric _ _ := rfl

variable {u} {c : Char}

theorem isIdentPart_of_start (h : u.isIdentStart c = true) : u.isIdentPart c = true := by
  simp only [isIdentStart, isIdentPart, isAlphanumeric, Bool.or_eq_true] at h ⊢
  tauto

theorem isIdentPart_of_digit (h : isAsciiDigit c = true) : u.isIdentPart c = true := by
  simp only [isAsciiDigit] at h
  simp [isIdentPart, isAlphanumeric, isNumeric, h]

/-- An ASCII character of a name is a letter, a digit or the underscore. -/
theorem isIdentPart_ascii (h : u.isIdentPart c = true) (ha : c.toNat ≤ 0x7F) :
    between 'a' 'z' c = true ∨ between 'A' 'Z' c = true ∨ between '0' '9' c = true ∨ c = '_' := by
  have hn : ¬ 0x7F < c.toNat := by omega
  simpa [isIdentPart, isAlphanumeric, isAlphabetic, isNumeric, hn, or_assoc] using h

/-- White space never belongs to a name. -/
theorem isIdentPart_whitespace (h : isWhitespace c = true) : u.isIdentPart c = false := by
  by_contra hp
  rw [Bool.not_eq_false] at hp
  by_cases ha : c.toNat ≤ 0x7F
  · have hn : ¬ 0x7F < c.toNat := by omega
    have hr := isIdentPart_ascii hp ha
    simp [isWhitespace, between, hn, ← Char.toNat_inj] at h hr
    omega
  · have hw : whiteSpaceTable c = true := by
      simp [isWhitespace, between, ← Char.toNat_inj] at h
      rcases h with (h | h) | h
      · omega
      · omega
      · exact h.2
    have hu : c ≠ '_' := by
      rintro rfl
      exact ha (by decide)
    simp [isIdentPart, isAlphanumeric, isAlphabetic, isNumeric, between, hu,
      u.whiteSpace_alphabetic c hw, u.whiteSpace_numeric c hw] at hp
    omega

theorem not_isWhitespace_of_isIdentPart (h : u.isIdentPart c = true) : isWhitespace c = false := by
  by_contra hw
  rw [Bool.not_eq_false] at hw
  rw [isIdentPart_whitespace hw] at h
  cases h

/-- An ASCII character outside letters, digits and the underscore ends a name. -/
theorem isIdentPart_other (ha : c.toNat ≤ 0x7F)
    (h : (between 'a' 'z' c || between 'A' 'Z' c || between '0' '9' c || c == '_') = false) :
    u.isIdentPart c = false := by
  by_contra hp
  rw [Bool.not_eq_false] at hp
  have hr := isIdentPart_ascii hp ha
  simp [← or_assoc] at h hr
  simp_all

end Unicode

end HyperKitty.Constraints
