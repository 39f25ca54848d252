import Mathlib.Data.List.Basic

/-!
# Lib/Bytes — strings of bytes
-/

namespace Shish

/-- A string of bytes. -/
abbrev Bytes := List UInt8

/-- `'\n'`. -/
def newline : UInt8 := '\n'.toUInt8

/-- The bytes of an ASCII text. -/
def ascii (s : String) : Bytes := s.toList.map Char.toUInt8

/-- A decimal digit. -/
def isDigit (c : UInt8) : Bool := '0'.toUInt8 ≤ c && c ≤ '9'.toUInt8

/-- A digit's value. -/
def digit (c : UInt8) : UInt8 := c - '0'.toUInt8

/-- `' '` or a tab. -/
def isBlankByte (c : UInt8) : Bool := c == ' '.toUInt8 || c == '\t'.toUInt8

theorem digit_le {c : UInt8} (h : isDigit c = true) : (digit c).toNat ≤ 9 := by
  simp only [isDigit, digit, Bool.and_eq_true, decide_eq_true_eq, UInt8.le_iff_toNat_le] at h ⊢
  have h48 : '0'.toUInt8.toNat = 48 := rfl
  have h57 : '9'.toUInt8.toNat = 57 := rfl
  rw [UInt8.toNat_sub_of_le _ _ (UInt8.le_iff_toNat_le.2 h.1)]
  omega

end Shish
