import Mathlib.Data.List.Basic

/-!
# Chartable — the character classes of the shell's scanner

`parse_chartable` gives every byte a set of class bits and `parse.h` reads them through small
predicates.  Each predicate is stated here by the bytes whose table entry carries the class; a byte
above `0x7f` carries none, so `Char` may stand for a byte throughout.
-/

namespace Shish

/-- A C string, without its terminating NUL. -/
abbrev Str := List Char

/-- `C_SPACE`. -/
def parseIsspace (c : Char) : Bool := c == ' ' || c == '\t' || c == '\n' || c == '\r'

/-- `C_DIGIT`. -/
def parseIsdigit (c : Char) : Bool := '0' ≤ c && c ≤ '9'

/-- `C_UPPER`. -/
def parseIsupper (c : Char) : Bool := 'A' ≤ c && c ≤ 'Z'

/-- `C_LOWER`. -/
def parseIslower (c : Char) : Bool := 'a' ≤ c && c ≤ 'z'

/-- `C_LOWER | C_UPPER`. -/
def parseIsalpha (c : Char) : Bool := parseIslower c || parseIsupper c

/-- `C_HEX`. -/
def parseIsxdigit (c : Char) : Bool :=
  parseIsdigit c || ('a' ≤ c && c ≤ 'f') || ('A' ≤ c && c ≤ 'F')

/-- `C_OCTAL`. -/
def parseIsodigit (c : Char) : Bool := '0' ≤ c && c ≤ '7'

/-- `C_SPCL`: the special parameters. -/
def parseIsspcl (c : Char) : Bool := c ∈ ['!', '#', '$', '*', '-', '?', '@']

/-- `C_CTRL`: the first characters of the control operators. -/
def parseIsctrl (c : Char) : Bool := c ∈ ['&', '(', ')', ';', '|']

/-- `C_ESC`: stored behind a backslash when quoted. -/
def parseIsesc (c : Char) : Bool := c ∈ [' ', '*', '?', '[', '\\', ']']

/-- `C_DESC`: escapable inside double quotes. -/
def parseIsdesc (c : Char) : Bool := c ∈ ['"', '$', '`']

/-- `C_LOWER | C_UPPER | C_NAME`, and a digit anywhere but in front. -/
def parseIsname (c : Char) (pos : ℕ) : Bool :=
  parseIsalpha c || c == '_' || (0 < pos && parseIsdigit c)

/-- As `parse_isname`, with `-` behind the first character. -/
def parseIsfname (c : Char) (pos : ℕ) : Bool :=
  parseIsalpha c || c == '_' || (0 < pos && (parseIsdigit c || c == '-'))

/-- A name character, a digit or a special parameter. -/
def parseIsparam (c : Char) : Bool :=
  parseIsalpha c || c == '_' || parseIsdigit c || parseIsspcl c

end Shish
