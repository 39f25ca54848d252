import Mathlib.Algebra.Order.Ring.Nat
import Shish.Source

/-!
# Word/Parse — the word parser

`parse_word` reads one word and leaves its chunks in a tree: literal text, of which a character of
`C_ESC` stands behind a backslash when it was quoted, and substitutions.  `parse_unquoted`,
`parse_squoted` and `parse_dquoted` take turns; each has a loop and returns nonzero when the word is
over.  The word of `${name-word}` is read by `parse_word` again, so all take a bound on the depth of
calls.  Command substitutions, arithmetic, `$'…'` and redirections need the rest of the grammar
(`Grammar`).
-/

namespace Shish

/-! ## Trees -/

/-- `enum quoting`, and the quoting nibble of a chunk's flags. -/
inductive Quoting
  | unquoted
  | dquoted
  | squoted
deriving DecidableEq, Repr

/-- The flags of an `N_ARGSTR` besides its quoting. -/
structure SFlags where
  nosplit : Bool
  escaped : Bool
  glob : Bool
  heredoc : Bool
  quotedEmpty : Bool
deriving DecidableEq, Repr

namespace SFlags

/-- No flags. -/
def none : SFlags := ⟨false, false, false, false, false⟩

/-- `a | b`. -/
def or (a b : SFlags) : SFlags where
  nosplit := a.nosplit || b.nosplit
  escaped := a.escaped || b.escaped
  glob := a.glob || b.glob
  heredoc := a.heredoc || b.heredoc
  quotedEmpty := a.quotedEmpty || b.quotedEmpty

@[simp] theorem or_none (a : SFlags) : a.or none = a := by
  simp [or, none]

@[simp] theorem none_or (a : SFlags) : none.or a = a := by
  simp [or, none]

end SFlags

/-- `S_SPECIAL`: `$#`, `$*`, `$@`, `$?`, `$-`, `$!`, a positional parameter and `$$`. -/
inductive Special
  | argc
  | argv
  | argvs
  | exitcode
  | flags
  | bgexcode
  | arg
  | pid
deriving DecidableEq, Repr

/-- `S_VAR`. -/
inductive VarOp
  | default
  | asgndef
  | errnull
  | alternat
  | rssfx
  | rlsfx
  | rspfx
  | rlpfx
  | range
deriving DecidableEq, Repr

/-- An `N_ARGPARAM` without its word. -/
structure Param where
  quot : Quoting
  special : Option Special
  strlen : Bool
  null : Bool
  op : VarOp
  name : Str
  numb : ℕ
deriving DecidableEq, Repr

/-- A chunk of a word.  `κ` are command and arithmetic substitutions. -/
inductive Part (κ : Type)
  | str (quot : Quoting) (flag : SFlags) (s : Str)
  | param (p : Param) (word : Option (List (Part κ)))
  | subst (quot : Quoting) (k : κ)

/-! ## The parser -/

/-- The keywords of `parse_tokens`. -/
inductive Keyword
  | not
  | case
  | do
  | done
  | elif
  | else
  | esac
  | fi
  | for
  | if
  | in
  | then
  | until
  | while
  | begin
  | end
deriving DecidableEq, Repr

/-- The tokens a word may turn out to be. -/
inductive Tok
  | name
  | word
  | assign
  | redir
  | keyword (k : Keyword)
deriving DecidableEq, Repr

/-- The `P_*` flags the word parser looks at. -/
structure PFlags where
  nokeywd : Bool
  noredir : Bool
  substw : Bool
  bquote : Bool
  here : Bool
  dqsubst : Bool
deriving DecidableEq, Repr

/-- `P_DEFAULT`. -/
def PFlags.default : PFlags := ⟨false, false, false, false, false, false⟩

/-- A `struct parser`; the last node of the tree comes first. -/
structure Parser (κ : Type) where
  quot : Quoting
  tok : Tok
  sa : Str
  tree : List (Part κ)

/-- What is left of the grammar, on a parser that has come to it: whether the word is over. -/
structure Grammar (κ : Type) where
  bquoted : PFlags → Parser κ → Source → Option (Bool × Parser κ × Source)
  arith : PFlags → Parser κ → Source → Option (Bool × Parser κ × Source)
  ansiquoted : PFlags → Parser κ → Source → Option (Bool × Parser κ × Source)
  redir : PFlags → Char → ℕ → Parser κ → Source → Option (Bool × Parser κ × Source)

/-- The keywords that are names. -/
def keywords : List (Str × Keyword) :=
  [("case".toList, .case), ("do".toList, .do), ("done".toList, .done), ("elif".toList, .elif),
    ("else".toList, .else), ("esac".toList, .esac), ("fi".toList, .fi), ("for".toList, .for),
    ("if".toList, .if), ("in".toList, .in), ("then".toList, .then), ("until".toList, .until),
    ("while".toList, .while)]

/-- Text as it is stored: behind a backslash what is of `C_ESC`. -/
def escape (x : Str) : Str := x.flatMap fun c => if parseIsesc c then ['\\', c] else [c]

@[simp] theorem escape_nil : escape [] = [] := rfl

theorem escape_append (x y : Str) : escape (x ++ y) = escape x ++ escape y := by
  simp [escape]

theorem escape_cons (c : Char) (x : Str) : escape (c :: x) = escape [c] ++ escape x :=
  escape_append [c] x

variable {κ : Type}

namespace Parser

/-- The parser `parse_word` starts with. -/
def init : Parser κ := ⟨.unquoted, .name, [], []⟩

/-- `stralloc_catc(&p->sa, c)`. -/
def catc (p : Parser κ) (c : Char) : Parser κ := { p with sa := p.sa ++ [c] }

/-- The same, behind a backslash if the character is of `C_ESC`. -/
def catEsc (p : Parser κ) (c : Char) : Parser κ :=
  if parseIsesc c then (p.catc '\\').catc c else p.catc c

/-- `parse_string`. -/
def string (p : Parser κ) (flags : SFlags) : Parser κ :=
  if p.sa.isEmpty && p.quot = .unquoted then p
  else
    match p.tree with
    | .str quot flag s :: tree =>
        if quot = p.quot then
          { p with sa := [], tree := .str quot (flag.or flags) (s ++ p.sa) :: tree }
        else { p with sa := [], tree := .str p.quot flags p.sa :: p.tree }
    | _ => { p with sa := [], tree := .str p.quot flags p.sa :: p.tree }

/-- `parse_keyword`: whether the text is one.  A name longer than any counts as one, too. -/
def keyword (p : Parser κ) : Bool × Parser κ :=
  if p.tok ≠ .name then
    match p.sa with
    | ['{'] => (true, { p with tok := .keyword .begin })
    | ['}'] => (true, { p with tok := .keyword .end })
    | ['!'] => (true, { p with tok := .keyword .not })
    | _ => (false, p)
  else if 5 < p.sa.length then (true, p)
  else
    match keywords.lookup p.sa with
    | some k => (true, { p with tok := .keyword k })
    | none => (false, p)

/-- At a delimiter: the text is a keyword, or goes to the tree. -/
def delimit (p : Parser κ) (F : PFlags) (flags : SFlags) : Parser κ :=
  if F.nokeywd || !p.tree.isEmpty then p.string flags
  else
    match p.keyword with
    | (true, p) => p
    | (false, p) => p.string flags

/-- The end of `parse_word`. -/
def finish (p : Parser κ) (F : PFlags) : Parser κ :=
  (if p.quot = .unquoted && !F.nokeywd && p.tree.isEmpty then p.keyword.2 else p).string .none

/-- `parse_in_tilde_prefix`: the text read so far ends in the start of a tilde-prefix. -/
def inTildePrefix (p : Parser κ) : Bool :=
  let stops := fun c => c == '/' || c == ':' || c == '='
  let name := (p.sa.reverse.takeWhile (!stops ·)).reverse
  p.tree.isEmpty && name.head? == some '~' &&
    (match (p.sa.reverse.dropWhile (!stops ·)).head? with
    | none => true
    | some c => c == '=' || c == ':')

/-- `if(p->tok == T_NAME) p->tok = T_WORD`. -/
def noName (p : Parser κ) : Parser κ := if p.tok = .name then { p with tok := .word } else p

/-- A quoted chunk of its own for an escaped character. -/
def quoteChar (p : Parser κ) (c : Char) : Parser κ :=
  { ({ p with quot := .squoted }.catc c).string .none with quot := .unquoted }

end Parser

/-- `source_peekn` drops a continuation at the very front for good. -/
def Source.settle (s : Source) : Source :=
  if s.raw then s else { s with buf := front s.bs s.buf }

/-- `FD_MAX`. -/
def fdMax : ℕ := 1024

/-- `scan_uint` of the whole text. -/
def scanUint (s : Str) : Option ℕ :=
  let val := s.foldl (fun l c => l * 10 + (c.toNat - '0'.toNat)) 0
  if s.all parseIsdigit && val < 2 ^ 32 then some val else none

/-! ## Single quotes -/

/-- The loop of `parse_squoted`. -/
def squotedLoop (F : PFlags) : ℕ → Parser κ → Source → Option (Bool × Parser κ × Source)
  | 0, _, _ => none
  | n + 1, p, s =>
      match s.peek with
      | none =>
          let s := { s with squoted := false }
          if F.here then some (false, p.catc '\n', s) else some (true, p, s)
      | some c =>
          let s := s.skip
          if !F.here && c == '\'' then
            some (false, { p.string .none with quot := .unquoted }.string .none,
              { s with squoted := false })
          else
            let p := if F.here then p.catc c else p.catEsc c
            if F.here && c == '\n' then some (false, p, { s with squoted := false })
            else squotedLoop F n p s

/-- `parse_squoted`. -/
def parseSquoted (F : PFlags) (n : ℕ) (p : Parser κ) (s : Source) :
    Option (Bool × Parser κ × Source) :=
  squotedLoop F n { p.noName with quot := .squoted } { s with squoted := true }

/-! ## Words -/

/-- `c` is taken as it is by `parse_unquoted`; a `=` behind a name makes an assignment. -/
def Parser.plain (p : Parser κ) (c : Char) : Parser κ :=
  let p := if p.tok = .name && !p.sa.isEmpty && c == '=' then { p with tok := .assign } else p
  let p := if p.tok = .name && !parseIsfname c p.sa.length then { p with tok := .word } else p
  p.catc c

/-- The special parameter a character stands for. -/
def specialAt (c : Char) : Option Special :=
  match c with
  | '#' => some .argc
  | '*' => some .argv
  | '@' => some .argvs
  | '?' => some .exitcode
  | '-' => some .flags
  | '!' => some .bgexcode
  | '$' => some .pid
  | c => if parseIsdigit c then some .arg else none

/-- The characters of a class at the front. -/
def nameLoop (pred : Char → Bool) : ℕ → Str → Source → Str × Source
  | 0, name, s => (name, s)
  | n + 1, name, s =>
      match s.peek with
      | some c => if pred c then nameLoop pred n (name ++ [c]) s.skip else (name, s)
      | none => (name, s)

/-- The blanks in front of the operator of `${name op word}`. -/
def blankLoop : ℕ → Source → Source
  | 0, s => s
  | n + 1, s =>
      match s.peek with
      | some c => if parseIsspace c then blankLoop n s.skip else s
      | none => s

/-- A new node for a parameter; an empty unquoted one is used up. -/
def Parser.paramNode (p : Parser κ) (node : Part κ) : Parser κ :=
  match p.tree with
  | .str .unquoted _ [] :: tree => { p with tree := node :: tree }
  | tree => { p with tree := node :: tree }

/-- The name of a parameter, behind its first character. -/
def paramName (braces : Bool) (c : Char) (s : Source) : Str × Source :=
  match specialAt c with
  | none => nameLoop (fun d => parseIsname d 1) s.buf.length [c] s
  | some .arg => if braces then nameLoop parseIsdigit s.buf.length [c] s else ([c], s)
  | some _ => ([c], s)

/-- The operator of `${name op word}`, and what is behind it. -/
def paramOp (c : Option Char) (s : Source) : Bool × VarOp × Source :=
  match c with
  | some '%' => let s := s.skip
      if s.peek = some '%' then (false, .rlsfx, s.skip) else (false, .rssfx, s)
  | some '#' => let s := s.skip
      if s.peek = some '#' then (false, .rlpfx, s.skip) else (false, .rspfx, s)
  | _ =>
      let null := c == some ':'
      let s := if null then s.skip else s
      match if null then s.peek else c with
      | some '-' => (null, .default, s.skip)
      | some '=' => (null, .asgndef, s.skip)
      | some '?' => (null, .errnull, s.skip)
      | some '+' => (null, .alternat, s.skip)
      | _ => if null then (false, .range, s) else (false, .default, s)

/-- An operator whose word is a pattern. -/
def VarOp.trims : VarOp → Bool
  | .rssfx | .rlsfx | .rspfx | .rlpfx => true
  | _ => false

section

variable (E : Grammar κ) (F : PFlags)

mutual

/-- `parse_word`. -/
def parseWord : ℕ → PFlags → Source → Option (Parser κ × Source)
  | 0, _, _ => none
  | n + 1, F, s => wordLoop n F .init s

/-- The loop of `parse_word`. -/
def wordLoop : ℕ → PFlags → Parser κ → Source → Option (Parser κ × Source)
  | 0, _, _, _ => none
  | n + 1, F, p, s =>
      let s := s.settle
      match s.peek with
      | none => some (p.finish F, s)
      | some _ => do
          let (stop, p, s) ← (match p.quot with
            | .dquoted => parseDquoted n F p s
            | .squoted => parseSquoted F n p s
            | .unquoted => parseUnquoted n F .none false p s)
          if stop then some (p.finish F, s) else wordLoop n F p s

/-- `parse_dquoted`, each round of its loop a call. -/
def parseDquoted : ℕ → PFlags → Parser κ → Source → Option (Bool × Parser κ × Source)
  | 0, _, _, _ => none
  | n + 1, F, p, s =>
      let p := { p.noName with quot := .dquoted }
      let s := s.settle
      match s.peek with
      | none => if F.here then some (false, p.catc '\n', s) else some (true, p, s)
      | some c =>
          if c = '\\' then
            let s' := s.skip
            match s'.peek with
            | none => some (true, p, s')
            | some nextc =>
                -- a continuation behind the backslash: the line number has changed
                if s'.buf.count '\n' ≠ s.buf.count '\n' then parseDquoted n F p s'
                else if (parseIsdesc nextc && !(F.here && nextc == '"')) || nextc == '\\' then
                  dquotedChar n F nextc p s'.skip
                else dquotedChar n F c p s'
          else if c = '`' then
            if F.bquote then some (false, if F.here then p else p.string .none, s)
            else do
              let (stop, p, s) ← E.bquoted F (p.string .none) s
              if stop then some (false, if F.here then p else p.string .none, s)
              else parseDquoted n F p s
          else if c = '$' then do
            let (stop, p, s) ← parseSubst n F (p.string .none) s
            if stop then some (false, if F.here then p else p.string .none, s)
            else parseDquoted n F p s
          else if !F.here && c == '"' then
            let q := p.string .none
            -- the closing quote of a pair that lands on an empty chunk
            let q := match p.sa, p.tree, q.tree with
              | [], .str _ _ [] :: _, .str quot flag [] :: tree =>
                  if q.tree.length = p.tree.length then
                    { q with tree := .str quot { flag with quotedEmpty := true } [] :: tree }
                  else q
              | _, _, _ => q
            some (false, { q with quot := .unquoted }, s.skip)
          else dquotedChar n F c p s.skip

/-- The end of a round of `parse_dquoted`. -/
def dquotedChar : ℕ → PFlags → Char → Parser κ → Source → Option (Bool × Parser κ × Source)
  | 0, _, _, _, _ => none
  | n + 1, F, c, p, s =>
      let p := if F.here then p.catc c else p.catEsc c
      if F.here && c == '\n' then some (false, p, s) else parseDquoted n F p s

/-- `parse_unquoted`, each round of its loop a call; `flags` and `inBracket` are its variables. -/
def parseUnquoted : ℕ → PFlags → SFlags → Bool → Parser κ → Source →
    Option (Bool × Parser κ × Source)
  | 0, _, _, _, _, _ => none
  | n + 1, F, flags, inBracket, p, s =>
      let p := { p with quot := .unquoted }
      let s := s.settle
      match s.peek with
      | none => some (true, p.delimit F flags, s)
      | some c =>
          if c = '\\' then
            let p := if p.tok = .assign then p else { p with tok := .word }
            let s := s.skip
            match s.peek with
            | none => some (true, p, s)
            | some c =>
                let p := if F.dqsubst && !(c == '$' || c == '`' || c == '"' || c == '\\') then
                  (p.catc '\\').catc '\\' else p
                let flags := { flags with escaped := true }
                if (F.substw && !F.dqsubst && (c == ' ' || c == '\t')) ||
                    (c == '~' && !(F.dqsubst || F.here)) ||
                    ((c == '/' || (if parseIsesc c then p.catc '\\' else p).inTildePrefix) &&
                      !(F.substw || F.dqsubst || F.here)) then
                  parseUnquoted n F flags inBracket ((p.string flags).quoteChar c) s.skip
                else
                  parseUnquoted n F flags inBracket
                    ((if parseIsesc c then p.catc '\\' else p).plain c) s.skip
          else if c = '"' then
            some (false, { p.string .none with quot := .dquoted }.string .none, s.skip)
          else if c = '\'' && !F.dqsubst then
            some (false, { p.string .none with quot := .squoted }.string .none, s.skip)
          else if c = '`' then
            if F.bquote then some (true, p, s)
            else do
              let (stop, p, s) ← E.bquoted F (p.string .none) s
              if stop then some (false, p, s) else parseUnquoted n F flags inBracket p s
          else if c = '$' then do
            let (stop, p, s) ← parseSubst n F (p.string .none) s
            if stop then some (false, p, s) else parseUnquoted n F flags inBracket p s
          else if !F.noredir && (c == '<' || c == '>') then
            let fd := if p.tree.isEmpty && !flags.escaped && !p.sa.isEmpty then scanUint p.sa
              else none
            if (p.sa.isEmpty && p.tree.isEmpty) || fd.any (· < fdMax) then
              E.redir F c (fd.getD (if c = '<' then 0 else 1)) p s
            else if fd.isNone && !(F.substw || F.dqsubst) then some (true, p.delimit F flags, s)
            else parseUnquoted n F flags inBracket (p.plain c) s.skip
          else if F.substw then
            if c = '}' then some (true, p.string flags, s.skip)
            else parseUnquoted n F flags inBracket (p.plain c) s.skip
          else if parseIsctrl c || parseIsspace c then some (true, p.delimit F flags, s)
          else
            let glob := if c = '[' then false else if c = ']' then inBracket else parseIsesc c
            let inBracket := if c = '[' then true else if c = ']' then false else inBracket
            parseUnquoted n F { flags with glob := flags.glob || glob } inBracket (p.plain c) s.skip

/-- `parse_subst`. -/
def parseSubst : ℕ → PFlags → Parser κ → Source → Option (Bool × Parser κ × Source)
  | 0, _, _, _ => none
  | n + 1, F, p, s =>
      let s := s.skip
      match s.peek with
      | some '(' =>
          match s.peekn 1 with
          | none => some (true, p, s)
          | some c => if c = '(' then E.arith F p s.skip else E.bquoted F p s
      | some c =>
          if parseIsparam c || c == '{' then parseParam n F p s
          else if c = '\'' && p.quot ≠ .dquoted then E.ansiquoted F p s.skip
          else some (false, p.catc '$', s)
      -- the character peeked at before is still the dollar, and parse_param finds nothing
      | none => some (true, p, s)

/-- `parse_param`. -/
def parseParam : ℕ → PFlags → Parser κ → Source → Option (Bool × Parser κ × Source)
  | 0, _, _, _ => none
  | n + 1, _, p, s =>
      let braces := s.peek == some '{'
      let s := if braces then s.skip else s
      match s.peek with
      | none => some (true, p.paramNode
          (.param ⟨p.quot, none, false, false, .default, [], 0⟩ none), s)
      | some c =>
          let s := s.skip
          let strlen := c == '#' && braces && (match s.peek with
            | none => false
            | some d => parseIsparam d && (!(['-', '+', '=', '?', ':'].contains d) ||
                ((d == '-' || d == '?') && s.peekn 1 == some '}')))
          let c := if strlen then s.peek.getD c else c
          let s := if strlen then s.skip else s
          let (name, s) := paramName braces c s
          let param : Param := ⟨p.quot, specialAt c, strlen, false, .default, name,
            if specialAt c = some .arg then (scanUint name).getD 0 else 0⟩
          if !braces then some (false, p.paramNode (.param param none), s)
          else
            let s := blankLoop s.buf.length s
            if s.peek = some '}' then some (false, p.paramNode (.param param none), s.skip)
            else
              let (null, op, s) := paramOp s.peek s
              match parseWord n { PFlags.default with
                  substw := true, dqsubst := p.quot = .dquoted && !op.trims } s with
              | none => none
              | some (newp, s) => some (false, p.paramNode (.param { param with null := null, op := op }
                  (if newp.tree.isEmpty then none else some newp.tree.reverse)), s)

end

end

end Shish
