import Shish.Fmt
import Shish.Word.Parse
import Shish.Wordlist.Cat

/-!
# Expand/Arg — expanding words

`expand_arg` hands the chunks of a word to a wordlist, each with the flags that say where it came
from.  `expand_args` does so for the words of a command and `expand_vars` for its assignments.

Parameters without an operator are expanded here.  What the rest of the shell does is given by a
`Shell`: the values of parameters, what an operator or a substitution adds to the wordlist, and
brace and tilde expansion, which rewrite a word before it is expanded.
-/

namespace Shish

variable {κ : Type}

/-- The state of the shell, as far as words are concerned.  An expansion that fails has no result. -/
structure Shell (κ : Type) where
  args : List Str
  var : Str → Option Str
  value : Special → Option Str
  ifs : Str
  nounset : Bool
  braceexpand : Bool
  oper : Param → Option (List (Part κ)) → XFlags → Wordlist → Option Wordlist
  subst : κ → XFlags → Wordlist → Option Wordlist
  rewriteWord : List (Part κ) → List (List (Part κ))
  rewriteVar : List (Part κ) → List (Part κ)

namespace Part

/-- The `S_TABLE` bits of a chunk. -/
def quot : Part κ → Quoting
  | .str quot _ _ => quot
  | .param p _ => p.quot
  | .subst quot _ => quot

/-- `id == N_ARGPARAM`. -/
def isParam : Part κ → Bool
  | .param .. => true
  | _ => false

/-- The unquoted literal text of a chunk. -/
def unquoted : Part κ → Option Str
  | .str .unquoted _ s => some s
  | _ => none

end Part

/-! ## Parameters -/

/-- `$*`: the positional parameters with the first character of `IFS` between them. -/
def joinArgs (ifs : Str) : List Str → Str
  | [] => []
  | [a] => a
  | a :: as => a ++ ifs.take 1 ++ joinArgs ifs as

/-- `$@`: a field for each positional parameter. -/
def catArgs (flags : XFlags) : List Str → Wordlist → Wordlist
  | [], wl => wl
  | [a], wl => wl.cat a flags
  | a :: as, wl => catArgs flags as (wl.cat a flags).brk

/-- The value of a parameter. -/
def Shell.param (S : Shell κ) (p : Param) : Option Str :=
  match p.special with
  | none => S.var p.name
  | some .arg => if p.numb = 0 then S.value .arg else S.args[p.numb - 1]?
  | some .argv => some (joinArgs S.ifs S.args)
  | some special => S.value special

/-- `expand_param`. -/
def expandParam (S : Shell κ) (p : Param) (word : Option (List (Part κ))) (flags : XFlags)
    (wl : Wordlist) : Option Wordlist :=
  let many := p.special = some .argvs || (p.special = some .argv && p.quot = .unquoted &&
    !flags.nosplit && S.ifs.isEmpty)
  if word.isSome || p.op ≠ .default then S.oper p word flags wl
  else if p.strlen && (p.special = some .argv || p.special = some .argvs) then
    some (wl.cat (fmtUlong S.args.length) flags)
  else if many then some (catArgs flags S.args wl)
  else
    match S.param p with
    | none =>
        if S.nounset && p.special = none then none
        else some (if p.strlen then wl.cat (fmtUlong 0) flags else wl)
    | some v => some (wl.cat (if p.strlen then fmtUlong v.length else v) flags)

/-! ## Words -/

/-- `expand_globres_ok`: the results of the word may be globbed as they are. -/
def expandGlobresOk (parts : List (Part κ)) : Bool :=
  parts.all fun
    | .str quot _ s => quot = .unquoted || !s.any fun c => c == '*' || c == '?' || c == '['
    | .param p word => p.quot = .unquoted && word.isNone
    | .subst quot _ => quot = .unquoted

/-- The flags of a chunk. -/
def partFlags (globres : Bool) (flags : XFlags) : Part κ → XFlags
  | .str quot flag s =>
      { flags with
        nosplit := flags.nosplit || flag.nosplit
        quoted := flags.quoted || quot ≠ .unquoted
        glob := flags.glob || flag.glob
        literal := flags.literal || (!s.isEmpty && !flag.heredoc) }
  | .param p _ => result p.quot
  | .subst quot _ => result quot
where
  /-- The result of an expansion. -/
  result (quot : Quoting) : XFlags :=
    let quoted := flags.quoted || quot ≠ .unquoted
    { flags with quoted := quoted, globres := flags.globres || (globres && !quoted) }

/-- One chunk of a word. -/
def expandPart (S : Shell κ) (globres : Bool) (flags : XFlags) (wl : Wordlist) (part : Part κ) :
    Option Wordlist :=
  let flags := partFlags globres flags part
  match part with
  | .str _ _ s => some (wl.cat s flags)
  | .param p word => expandParam S p word flags wl
  | .subst _ k => S.subst k flags wl

/-- `expand_arg`. -/
def expandArg (S : Shell κ) (parts : List (Part κ)) (flags : XFlags) (wl : Wordlist) :
    Option Wordlist :=
  parts.foldlM (expandPart S (expandGlobresOk parts) flags) wl

/-- `expand_is_empty_at`: a quoted `$@` without positional parameters, and nothing else. -/
def expandIsEmptyAt (S : Shell κ) (parts : List (Part κ)) : Bool :=
  S.args.isEmpty && parts.any Part.isParam && parts.all fun
    | .str quot flag s => s.isEmpty && !flag.quotedEmpty && quot ≠ .squoted
    | .param p word => p.special = some .argvs && p.op = .default && p.quot = .dquoted &&
        !p.strlen && word.isNone
    | .subst .. => false

/-- `expand_brace_needed`: the word is one unquoted chunk with a brace. -/
def expandBraceNeeded (S : Shell κ) : List (Part κ) → Bool
  | [part] => S.braceexpand && part.unquoted.any (·.contains '{')
  | _ => false

/-- `expand_tilde_needed`. -/
def expandTildeNeeded (parts : List (Part κ)) : Bool :=
  (parts.head?.bind Part.unquoted).any fun s => s.head? == some '~'

/-- The words of `expand_args`, rewritten. -/
def expandWords (S : Shell κ) (wl : Wordlist) : List (List (Part κ)) → Option Wordlist
  | [] => some wl
  | parts :: words =>
      if expandIsEmptyAt S parts then expandWords S wl words
      else (expandArg S parts .default wl).bind fun wl => expandWords S wl.close.1 words

/-- `expand_args`, for one word. -/
def expandArgs (S : Shell κ) (parts : List (Part κ)) (wl : Wordlist) : Option Wordlist :=
  expandWords S wl (if expandBraceNeeded S parts || expandTildeNeeded parts then S.rewriteWord parts
    else [parts])

/-- `expand_tilde_assign_needed`. -/
def expandTildeAssignNeeded (parts : List (Part κ)) : Bool :=
  (parts.head?.bind Part.unquoted).isSome && parts.any fun part => part.unquoted.any (·.contains '~')

/-- `expand_vars`, for one assignment: never split and never globbed. -/
def expandVars (S : Shell κ) (parts : List (Part κ)) (wl : Wordlist) : Option Wordlist :=
  let parts := if expandTildeAssignNeeded parts then S.rewriteVar parts else parts
  (expandArg S parts { XFlags.default with nosplit := true } wl).map fun wl =>
    ({ wl with state := { wl.state with glob := false, globres := false } } : Wordlist).close.1

end Shish
