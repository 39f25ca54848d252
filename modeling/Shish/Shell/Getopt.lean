import Shish.Chartable

/-!
# Shell/Getopt — the option parser of the builtins

`shell_getopt_long_r`, one call at a time.  The position is the index of an argument and an offset
into it, which the exits of the function update separately.  Reading a character behind the end of
an argument has no meaning (`none`); the NUL at its end is `none` of the argument's own characters.
-/

namespace Shish

/-- `SHELL_OPTERR_*`, and none. -/
inductive OptErr
  | ok | unknown | missing | noarg | help
deriving DecidableEq, Repr

/-- `struct optstate`; `plus` is a `prefixes` of `+-`, the default being `-`. -/
structure OptState where
  plus : Bool
  ind : ℕ
  ofs : ℕ
  opt : Char
  arg : Option Str
  ch : Option Char
  lname : Option Str
  err : OptErr
deriving DecidableEq, Repr

/-- What a call returns: `-1`, a character, or `SHELL_OPT_HELP`. -/
inductive OptRet
  | done
  | chr (c : Char)
  | help
deriving DecidableEq, Repr

/-- A word of `longopts`: its name, `:` or `?` if it takes an argument, and the code. -/
def longWord (w : Str) : Str × Option Char × Char :=
  let n := w.takeWhile fun c => c != '=' && c != ':' && c != '?'
  match w.drop n.length with
  | '=' :: t => (n, none, t.headD '\x00')
  | m :: t => (n, some m, t.tail.headD '\x00')
  | [] => (n, none, '\x00')

/-- `getopt_long` once a word of the table has the name; `val` is what follows a `=`. -/
def getoptFound (next : Option Str) (mode : Option Char) (code : Char) (val : Option Str)
    (st : OptState) : OptRet × OptState :=
  let st := { st with opt := code, arg := none }
  match mode, val with
  | none, some _ => (.chr '?', { st with err := .noarg, ind := st.ind + 1 })
  | none, none => (.chr code, { st with ind := st.ind + 1 })
  | some _, some v => (.chr code, { st with arg := some v, ind := st.ind + 1 })
  | some ':', none =>
      match next with
      | none => (.chr ':', { st with err := .missing, ind := st.ind + 1 })
      | some a => (.chr code, { st with arg := some a, ind := st.ind + 2 })
  | some _, none => (.chr code, { st with ind := st.ind + 1 })

/-- `getopt_long`: `--name`, `--name=value` or `--name value`; `word` is behind the two dashes. -/
def getoptLong (longopts : List Str) (word : Str) (next : Option Str) (st : OptState) :
    OptRet × OptState :=
  let name := word.takeWhile (· != '=')
  let val := match word.drop name.length with
    | _ :: v => some v
    | [] => none
  let st := { st with lname := some ('-' :: '-' :: word) }
  match (longopts.map longWord).find? (·.1 == name) with
  | some (_, mode, code) => getoptFound next mode code val st
  | none =>
      let st := { st with ind := st.ind + 1 }
      if name = ['h', 'e', 'l', 'p'] ∧ val = none then (.help, { st with err := .help })
      else (.chr '?', { st with err := .unknown })

/-- The option character `c` at the offset; `tail` is behind it, and `next` the next argument. -/
def getoptChar (optstring : Str) (c : Char) (tail : Str) (next : Option Str) (st : OptState) :
    OptRet × OptState :=
  let st := { st with opt := c }
  match optstring.dropWhile (· != c) with
  | [] => (.chr '?', { st with err := .unknown, ind := st.ind + 1 })
  | _ :: ':' :: t =>
      if t.head? = some ':' || !tail.isEmpty then
        (.chr c, { st with arg := if tail.isEmpty then none else some tail, ind := st.ind + 1 })
      else
        match next with
        | none => (.chr ':', { st with arg := none, err := .missing, ind := st.ind + 1 })
        | some a => (.chr c, { st with arg := some a, ind := st.ind + 2 })
  | _ => (.chr c, { st with ofs := st.ofs + 1 })

/-- The part of `shell_getopt_long_r` behind the label `again`. -/
def getoptAgain (argv : List Str) (optstring : Str) (longopts : List Str) (st : OptState) :
    Option (OptRet × OptState) :=
  match _hind : argv[st.ind]? with
  | none => some (.done, st)
  | some [] => some (.done, { st with ch := none })
  | some (p :: t) =>
      if p != '-' && !(st.plus && p == '+') then some (.done, { st with ch := none })
      else
        let st' := { st with ch := some p }
        if t.isEmpty then some (.done, st')
        else if t = ['-'] then some (.done, { st' with ind := st.ind + 1 })
        else if !st.plus && st.ofs == 0 && t.head? == some '-' then
          some (getoptLong longopts t.tail argv[st.ind + 1]? st')
        else if t.length < st.ofs then none
        else
          match t.drop st.ofs with
          | [] => getoptAgain argv optstring longopts
              { st' with opt := '\x00', ind := st.ind + 1, ofs := 0 }
          | c :: tail => some (getoptChar optstring c tail argv[st.ind + 1]? st')
termination_by argv.length - st.ind
decreasing_by
  have := (List.getElem?_eq_some_iff.1 _hind).1
  omega

/-- `shell_getopt_long_r`. -/
def shellGetoptLongR (argv : List Str) (optstring : Str) (longopts : List Str) (st : OptState) :
    Option (OptRet × OptState) :=
  let (st, optstring) :=
    if st.ind = 0 then
      let plus := optstring.head? = some '+'
      ({ st with plus := plus, ind := 1, ofs := 0, opt := '\x00', arg := none },
        if plus then optstring.tail else optstring)
    else (st, optstring)
  getoptAgain argv optstring longopts { st with err := .ok, lname := none }

/-- `shell_getopt_r`. -/
def shellGetoptR (argv : List Str) (optstring : Str) (st : OptState) :
    Option (OptRet × OptState) :=
  shellGetoptLongR argv optstring [] st

end Shish
