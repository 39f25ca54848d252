import Shish.Expand.Glob
import Shish.Word.Quote

/-!
# Word/Pieces — words as they are written

A word is written as runs of unquoted characters and escapes, single-quoted and double-quoted text,
and parameters between braces.  The word parser makes `chunks` of it: a run of unquoted text keeps its
flag `S_GLOB` only if it ends the word, and an opening bracket is forgotten at the next quote.  They
say what the pieces say (`atoms_chunks`); that the parser makes them is shown in `Word/ReadPieces`.
-/

namespace Shish

open Source

variable {κ : Type}

/-! ## Parameters -/

/-- What may stand between the braces of a parameter. -/
def paramValid : Str → Bool
  | [] => false
  | c :: t =>
      match specialAt c with
      | none => parseIsname c 0 && t.all fun d => parseIsname d 1
      | some .arg => t.all parseIsdigit
      | some _ => t.isEmpty

/-- The parameter of that name. -/
def paramOf (quot : Quoting) (name : Str) : Param :=
  ⟨quot, name.head?.bind specialAt, false, false, .default, name,
    if name.head?.bind specialAt = some .arg then (scanUint name).getD 0 else 0⟩

section Param

variable {E : Grammar κ} {F : PFlags} {p : Parser κ} {c d : Char} {t rest name : Str}

end Param

/-! ## Pieces -/

/-- A piece of a word as it is written: unquoted characters and escapes, single-quoted text,
double-quoted text with parameters in it, and a parameter. -/
inductive Piece
  | plain (t : List Mark)
  | single (x : Str)
  | double (x : Str) (qs : List (Str × Str))
  | param (name : Str)

/-- A character that may stand unquoted in a word. -/
def plainChar (c : Char) : Bool :=
  c ∉ ['\\', '"', '\'', '`', '$', '<', '>'] && !parseIsctrl c && !parseIsspace c

/-- A character that is read as it is meant. -/
def MarkOk (m : Mark) : Prop := if m.2 then m.1 ≠ '\n' else plainChar m.1 = true

instance : DecidablePred MarkOk := fun m =>
  inferInstanceAs (Decidable (if m.2 then m.1 ≠ '\n' else plainChar m.1 = true))

/-- A parameter as it is written. -/
def paramText (name : Str) : Str := '$' :: '{' :: (name ++ ['}'])

/-- Text between double quotes, as it is written. -/
def doubleText (x : Str) : Str :=
  x.flatMap fun c => if parseIsdesc c || c == '\\' then ['\\', c] else [c]

/-- Unquoted text, as it is written. -/
def markText (t : List Mark) : Str := t.flatMap fun m => if m.2 then ['\\', m.1] else [m.1]

/-- No tilde-prefix starts in a text behind `prev`. -/
def tildeFree : Char → Str → Bool
  | _, [] => true
  | prev, c :: t => !(c == '~' && (prev == '=' || prev == ':')) && tildeFree c t

namespace Piece

/-- The piece as it is written. -/
def text : Piece → Str
  | plain t => markText t
  | single x => '\'' :: x ++ ['\'']
  | double x qs => '"' :: doubleText x ++ qs.flatMap (fun q => paramText q.1 ++ doubleText q.2) ++ ['"']
  | param name => paramText name

/-- A piece that is read as it is meant: behind a backslash stands no newline, no tilde stands where
a tilde-prefix could start, single-quoted text has no quote in it and does not start with a
continuation, and parameters have a name. -/
def Ok : Piece → Prop
  | plain t => t ≠ [] ∧ (∀ m ∈ t, MarkOk m) ∧
      tildeFree ':' (store t) = true
  | single x => '\'' ∉ x ∧ ¬ ['\\', '\n'] <+: x
  | double _ qs => ∀ q ∈ qs, paramValid q.1 = true
  | param name => paramValid name = true

end Piece

/-! ## Their chunks -/

/-- Quoted text goes to the last chunk if that is quoted in the same way. -/
def joinQuo (quot : Quoting) (x : Str) : List Chunk → List Chunk
  | .quo q flag y :: cs =>
      if q = quot then .quo q flag (y ++ x) :: cs else .quo quot .none x :: .quo q flag y :: cs
  | cs => .quo quot .none x :: cs

/-- The closing double quote marks an empty chunk. -/
def markEmpty : List Chunk → List Chunk
  | .quo q flag x :: cs => .quo q { flag with quotedEmpty := flag.quotedEmpty || x.isEmpty } x :: cs
  | cs => cs

/-- A parameter between double quotes, and the text behind it. -/
def pairChunks (qs : List (Str × Str)) : List Chunk :=
  qs.flatMap fun q => [.param (paramOf .dquoted q.1), .quo .dquoted .none q.2]

/-- Double-quoted text with parameters in it. -/
def joinDouble (x : Str) (qs : List (Str × Str)) (cs : List Chunk) : List Chunk :=
  if qs.isEmpty then markEmpty (joinQuo .dquoted x cs)
  else (pairChunks qs).reverse ++ joinQuo .dquoted x cs

/-- What was read of a word: its chunks, the last one first; the unquoted text that is not stored
yet; and what `parse_unquoted` keeps while it reads. -/
structure Reading where
  chunks : List Chunk
  text : List Mark
  flag : SFlags
  bracket : Bool

namespace Reading

/-- Nothing was read. -/
def init : Reading := ⟨[], [], .none, false⟩

/-- The chunks with the unquoted text. -/
def stored (R : Reading) (flag : SFlags) : List Chunk :=
  if R.text.isEmpty then R.chunks else .lit R.text flag :: R.chunks

/-- A character of unquoted text.  An escaped tilde or slash makes a chunk of its own. -/
def mark (R : Reading) (m : Mark) : Reading :=
  if m.2 then
    let flag := { R.flag with escaped := true }
    if m.1 = '~' ∨ m.1 = '/' then ⟨joinQuo .squoted [m.1] (R.stored flag), [], flag, R.bracket⟩
    else { R with text := R.text ++ [m], flag := flag }
  else
    { R with
      text := R.text ++ [m]
      flag := { R.flag with
        glob := R.flag.glob || if m.1 = '[' then false else if m.1 = ']' then R.bracket
          else parseIsesc m.1 }
      bracket := if m.1 = '[' then true else if m.1 = ']' then false else R.bracket }

/-- A piece of the word.  Text in front of a quote or a parameter is stored without flags, and a
quote ends what `parse_unquoted` knows. -/
def piece (R : Reading) : Piece → Reading
  | .plain t => t.foldl mark R
  | .param name => { R with chunks := .param (paramOf .unquoted name) :: R.stored .none, text := [] }
  | .single x => { init with chunks := joinQuo .squoted x (R.stored .none) }
  | .double x qs => { init with chunks := joinDouble x qs (R.stored .none) }

/-- The end of the word. -/
def chunksOf (R : Reading) : List Chunk := (R.stored R.flag).reverse

end Reading

/-- **The chunks of a word.** -/
def chunks (ps : List Piece) : List Chunk := (ps.foldl Reading.piece .init).chunksOf

/-! ## What the chunks stand for -/

/-- A character of a word, or a parameter in it. -/
inductive WordAtom
  | mark (m : Mark)
  | param (p : Param)
deriving DecidableEq, Repr

/-- Quoted text. -/
def quotedAtoms (x : Str) : List WordAtom := x.map fun c => .mark (c, true)

/-- What a piece says. -/
def Piece.atoms : Piece → List WordAtom
  | plain t => t.map .mark
  | single x => quotedAtoms x
  | double x qs => quotedAtoms x ++ qs.flatMap fun q => .param (paramOf .dquoted q.1) :: quotedAtoms q.2
  | param name => [.param (paramOf .unquoted name)]

/-- What a chunk says. -/
def Chunk.atoms : Chunk → List WordAtom
  | lit t _ => t.map .mark
  | quo _ _ x => quotedAtoms x
  | param p => [.param p]

section Atoms

variable {cs : List Chunk} {x : Str} {R : Reading}

/-- What a list of chunks says, the last one first. -/
def atomsOf (cs : List Chunk) : List WordAtom := cs.reverse.flatMap Chunk.atoms

/-- What a reading says. -/
def Reading.atoms (R : Reading) : List WordAtom := atomsOf R.chunks ++ R.text.map .mark

end Atoms

end Shish
