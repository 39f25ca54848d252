import Shish.Word.ReadPieces

/-!
# Expand/Quoting — quoted characters in a word that is globbed

With pathname expansion every field of a word becomes what its pattern matches: its pattern
characters are active where they were written unquoted, and every character that was quoted stands
for itself.  So it is for each field that ends as it should (`quoting_kept`), and `'*'*` has one that
does not: `wordlist_cat` takes the backslash of the quoted star away before the unquoted one makes the
field a pattern.
-/

namespace Shish

open Source

variable {κ : Type}

/-! ## A directory with one match -/

section Words

variable {A : List Mark → Option (List Str)} {wl : Wordlist} {ps : List Piece} {rest : Str}

end Words

/-- A wordlist with nothing in it, in a directory where `A` answers. -/
def Wordlist.fresh (A : List Mark → Option (List Str)) : Wordlist :=
  .init none false (fun _ => none) fun s => A (patternOf s)

end Shish
