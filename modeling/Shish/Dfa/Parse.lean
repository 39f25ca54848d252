import Mathlib.Algebra.Order.Ring.Nat
import Mathlib.Data.List.Basic
import Mathlib.Data.Nat.Notation
import Shish.Dfa.Prog

/-!
# Dfa/Parse — the pattern compiler

One pass over the pattern emits the program.  Repetition and alternation insert a `SPLIT` below what
is there already, and the targets behind it move; a repeated atom is compiled from its text again.
Of two errors the first is reported.
-/

namespace Shish

/-- The `DFA_E*` codes; `fuel` is the model's own. -/
inductive DfaErr where
  | eparen
  | ebracket
  | ebrace
  | erange
  | eclass
  | esubreg
  | ebadrpt
  | eescape
  | esize
  | fuel
  deriving DecidableEq

/-- `DFA_ERE`, `DFA_ICASE`, `DFA_ESC` and `DFA_MULTI`. -/
structure DfaFlags where
  ere : Bool := false
  icase : Bool := false
  esc : Bool := false
  multi : Bool := false
  deriving DecidableEq

/-- `struct dfa_parser`: the text from `p` to `end`, `p` counted from the start, where the groups
were opened, and what is compiled so far. -/
structure DfaParser where
  rem : Str
  pos : ℕ := 0
  gsrc : List ℕ := []
  nest : ℕ := 0
  prog : List Inst := []
  sets : List Byteset := []
  hasBackref : Bool := false

namespace DfaParser

/-- `p += k`. -/
def advance (k : ℕ) (ps : DfaParser) : DfaParser := { ps with rem := ps.rem.drop k, pos := ps.pos + k }

/-- `dfa_emit`. -/
def emit (i : Inst) (ps : DfaParser) : Except DfaErr DfaParser :=
  if 32767 ≤ ps.prog.length then .error .esize else .ok { ps with prog := ps.prog ++ [i] }

/-- `dfa_addset`. -/
def addset (set : Byteset) (ps : DfaParser) : ℕ × DfaParser :=
  match ps.sets.findIdx? (· == set) with
  | some i => (i, ps)
  | none => (ps.sets.length, { ps with sets := ps.sets ++ [set] })

def emitSet (set : Byteset) (ps : DfaParser) : Except DfaErr DfaParser :=
  let (i, ps) := ps.addset set
  ps.emit (.set i)

/-- `group_index`. -/
def groupIndex (src : ℕ) (ps : DfaParser) : Except DfaErr (ℕ × DfaParser) :=
  match ps.gsrc.findIdx? (· == src) with
  | some i => .ok (i, ps)
  | none =>
      if 32 ≤ ps.gsrc.length then .error .esize
      else .ok (ps.gsrc.length, { ps with gsrc := ps.gsrc ++ [src] })

end DfaParser

/-! ## Jumps -/

namespace Inst

/-- A target behind `pos` moves up. -/
def shiftTarget (pos : ℕ) (t : Option ℕ) : Option ℕ := t.map fun n => if pos < n then n + 1 else n

def shift (pos : ℕ) : Inst → Inst
  | split x y => split (shiftTarget pos x) (shiftTarget pos y)
  | jmp x => jmp (shiftTarget pos x)
  | i => i

/-- `prog[pc].y = y`. -/
def setY (y : ℕ) : Inst → Inst
  | split x _ => split x (some y)
  | i => i

/-- `prog[pc].x = x`. -/
def setX (x : ℕ) : Inst → Inst
  | split _ y => split (some x) y
  | jmp _ => jmp (some x)
  | i => i

end Inst

namespace DfaParser

/-- `insert_split`. -/
def insertSplit (pos : ℕ) (ps : DfaParser) : Except DfaErr DfaParser :=
  if 32767 ≤ ps.prog.length then .error .esize
  else
    .ok { ps with
      prog := (ps.prog.take pos).map (Inst.shift pos) ++
        .split (some (pos + 1)) none :: (ps.prog.drop pos).map (Inst.shift pos) }

def modify (pc : ℕ) (f : Inst → Inst) (ps : DfaParser) : DfaParser :=
  { ps with prog := ps.prog.modify pc f }

/-- `wrap_optional`. -/
def wrapOptional (bodyStart : ℕ) (alwaysSkip : Bool) (ps : DfaParser) : Except DfaErr DfaParser := do
  let ps ← ps.insertSplit bodyStart
  let x := if alwaysSkip then ps.prog.length else bodyStart + 1
  return ps.modify bodyStart fun i => (i.setX x).setY ps.prog.length

/-- `wrap_star`. -/
def wrapStar (bodyStart : ℕ) (ps : DfaParser) : Except DfaErr DfaParser := do
  let ps ← ps.wrapOptional bodyStart false
  let ps ← ps.emit (.jmp (some bodyStart))
  return ps.modify bodyStart fun i => i.setY ps.prog.length

/-- `wrap_plus`. -/
def wrapPlus (bodyStart : ℕ) (ps : DfaParser) : Except DfaErr DfaParser := do
  let splitPc := ps.prog.length
  let ps ← ps.emit (.split (some bodyStart) none)
  return ps.modify splitPc fun i => i.setY ps.prog.length

end DfaParser

/-! ## Bracket expressions -/

/-- The length of the name in front of a closing `:]`, `.]` or `=]`. -/
def bracketName (delim : Char) : Str → Option ℕ
  | a :: b :: t =>
      if a == delim && b == ']' then some 0 else (bracketName delim (b :: t)).map (· + 1)
  | _ => none

/-- What `\t`, `\f`, `\v`, `\a` and `\r` stand for. -/
def escByte : Char → Option Char
  | 't' => some (Char.ofNat 9)
  | 'f' => some (Char.ofNat 12)
  | 'v' => some (Char.ofNat 11)
  | 'a' => some (Char.ofNat 7)
  | 'r' => some (Char.ofNat 13)
  | _ => none

/-- `[:`, `[.` or `[=`: the second character. -/
def bracketDelim (p : Char) (t : Str) : Option Char :=
  if p == '[' then t.head?.filter (· ∈ [':', '.', '=']) else none

/-- The second character of an escape in a bracket expression. -/
def bracketEsc (esc : Bool) (p : Char) (t : Str) : Option Char :=
  if esc && p == '\\' then t.head?.bind escByte else none

/-- The loop of `dfa_bracket_compile`. -/
def bracketGo (esc : Bool) (first : Bool) (set : Byteset) : Str → Except DfaErr (Byteset × Str)
  | [] => .error .ebracket
  | p :: t =>
      if p == ']' && !first then .ok (set, t)
      else
        match bracketDelim p t with
        | some delim =>
            match bracketName delim t.tail with
            | none => .error .ebracket
            | some q =>
                if delim == ':' then
                  match set.addClass (t.tail.take q) with
                  | none => .error .eclass
                  | some set => bracketGo esc false set (t.tail.drop (q + 2))
                else
                  match t.tail.take q with
                  | [c] => bracketGo esc false (set.add c) (t.tail.drop (q + 2))
                  | _ => .error .ebracket
        | none =>
            match bracketEsc esc p t with
            | some c => bracketGo esc false (set.add c) t.tail
            | none =>
                match t with
                | '-' :: hi :: rest =>
                    if hi == ']' then bracketGo esc false (set.add p) ('-' :: hi :: rest)
                    else
                      match set.range p hi with
                      | none => .error .erange
                      | some set => bracketGo esc false set rest
                | t => bracketGo esc false (set.add p) t
termination_by t => t.length
decreasing_by
  all_goals simp only [List.length_cons, List.length_drop, List.length_tail]
  all_goals omega

/-- `dfa_bracket_compile`, behind the opening `[`. -/
def bracketCompile (fl : DfaFlags) (t : Str) : Except DfaErr (Byteset × Str) := do
  let neg := t.head? == some '^'
  let (set, rest) ← bracketGo fl.esc true 0 (if neg then t.tail else t)
  let set := if neg then ~~~set else set
  return (if fl.icase then set.icase else set, rest)

/-! ## Atoms -/

/-- `alt_len`. -/
def altLen (fl : DfaFlags) (t : Str) : ℕ :=
  if fl.ere then if t.head? == some '|' then 1 else 0
  else if t.take 2 == ['\\', '|'] then 2 else 0

/-- The length of an opening parenthesis in front. -/
def openLen (fl : DfaFlags) (t : Str) : ℕ :=
  if fl.ere then if t.head? == some '(' then 1 else 0
  else if t.take 2 == ['\\', '('] then 2 else 0

/-- The length of a closing one. -/
def closeLen (fl : DfaFlags) (t : Str) : ℕ :=
  if fl.ere then if t.head? == some ')' then 1 else 0
  else if t.take 2 == ['\\', ')'] then 2 else 0

/-- The value of a digit of `\xHH`, `\dNNN` or `\oNNN`; 99 is none. -/
def digitValue (c : Char) : ℕ :=
  if '0' ≤ c && c ≤ '9' then c.toNat - 48
  else if 'a' ≤ c && c ≤ 'f' then c.toNat - 97 + 10
  else if 'A' ≤ c && c ≤ 'F' then c.toNat - 65 + 10
  else 99

/-- At most so many digits in front: their value, how many, and what is behind. -/
def escDigits (base : ℕ) : ℕ → Str → ℕ × ℕ × Str
  | k + 1, c :: t =>
      if base ≤ digitValue c then (0, 0, c :: t)
      else
        let (n, got, t) := escDigits base k t
        (digitValue c * base ^ got + n, got + 1, t)
  | _, t => (0, 0, t)

/-- The base of the digits behind `\x`, `\d` and `\o`, and how many there may be. -/
def escBase : Char → ℕ × ℕ
  | 'x' => (16, 2)
  | 'd' => (10, 3)
  | 'o' => (8, 3)
  | _ => (0, 0)

/-- The byte that an escape with `DFA_ESC` stands for, `e` the character behind the backslash, and how
many digits follow. -/
def escNumber (e : Char) (t : Str) : Option (Char × ℕ) :=
  match escByte e with
  | some c => some (c, 0)
  | none =>
      let (base, digits) := escBase e
      let (n, got, _) := escDigits base digits t
      if got = 0 then none else some (Char.ofNat (n % 256), got)

namespace DfaParser

/-- One byte, or both cases of a letter with `DFA_ICASE`. -/
def literal (fl : DfaFlags) (c : Char) (ps : DfaParser) : Except DfaErr DfaParser :=
  if fl.icase && Byteset.isalpha c then
    ps.emitSet (((0 : Byteset).add (Byteset.tolower c)).add (Byteset.toupper c))
  else ps.emit (.char c)

/-- `\w`, `\W`, `\s` and `\S`. -/
def shorthand (e : Char) (ps : DfaParser) : Except DfaErr DfaParser :=
  let set : Byteset := ((Byteset.bytes 0 255).filter fun c =>
    if e == 'w' || e == 'W' then Byteset.isalnum c || c == '_' else Byteset.isspace c).foldl .add 0
  ps.emitSet (if e == 'W' || e == 'S' then ~~~set else set)

/-- The part of `parse_atom` behind a backslash. -/
def parseEscape (fl : DfaFlags) (ps : DfaParser) : Except DfaErr DfaParser :=
  match ps.rem.drop 1 with
  | [] => .error .eescape
  | e :: t =>
      if '1' ≤ e && e ≤ '9' then
        let g := e.toNat - 48
        if ps.gsrc.length < g then .error .esubreg
        else ({ ps with hasBackref := true }.advance 2).emit (.backref g)
      else
        match if fl.esc then escNumber e t else none with
        | some (c, got) => (ps.advance (2 + got)).emit (.char c)
        | none =>
            match ['b', 'B', '<', '>'].findIdx? (· == e) with
            | some kind => (ps.advance 2).emit (.word kind)
            | none =>
                if e ∈ ['w', 'W', 's', 'S'] then (ps.advance 2).shorthand e
                else (ps.advance 2).literal fl e

/-- The end of a group. -/
def closeGroup (fl : DfaFlags) (g : ℕ) (ps : DfaParser) : Except DfaErr DfaParser :=
  if closeLen fl ps.rem = 0 then .error .eparen
  else { ps.advance (closeLen fl ps.rem) with nest := ps.nest - 1 }.emit (.save (2 * g + 1))

/-- `parse_group`. -/
def parseGroup (fl : DfaFlags) (alt : DfaParser → Except DfaErr DfaParser) (ps : DfaParser) :
    Except DfaErr DfaParser :=
  if 256 < ps.nest + 1 then .error .esize
  else do
    let (g, ps) ← { ps.advance (openLen fl ps.rem) with nest := ps.nest + 1 }.groupIndex ps.pos
    let ps ← ps.emit (.save (2 * g))
    (← alt ps).closeGroup fl g

/-- `parse_atom`. -/
def parseAtom (fl : DfaFlags) (alt : DfaParser → Except DfaErr DfaParser) (ps : DfaParser) :
    Except DfaErr DfaParser :=
  match ps.rem with
  | [] => .error .ebadrpt
  | c :: t =>
      if c == '.' then (ps.advance 1).emit .any
      else if c == '[' then do
        let (set, rest) ← bracketCompile fl t
        (ps.advance (ps.rem.length - rest.length)).emitSet set
      else if 0 < openLen fl ps.rem then ps.parseGroup fl alt
      else if c == '^' && (fl.ere || ps.pos == 0) then (ps.advance 1).emit .bol
      else if c == '$' && (fl.ere || t.isEmpty) then (ps.advance 1).emit .eol
      else if c == '\\' then ps.parseEscape fl
      else (ps.advance 1).literal fl c

/-! ## Repetition -/

/-- The number in an interval, at most 255, and what is behind it. -/
def dupNumber : ℕ → Str → Except DfaErr (ℕ × Str)
  | a, c :: t =>
      if Byteset.isdigit c then
        let a := a * 10 + (c.toNat - 48)
        if 255 < a then .error .ebrace else dupNumber a t
      else .ok (a, c :: t)
  | a, [] => .ok (a, [])

/-- `parse_interval_spec`: `m`, `n` if there is a bound, and what is behind. -/
def intervalSpec (t : Str) : Except DfaErr (ℕ × Option ℕ × Str) := do
  let (a, t₁) ← dupNumber 0 t
  if !t.head?.any Byteset.isdigit && t₁.head? != some ',' then .error .ebrace
  else if t₁.head? == some ',' then
    let (b, t₂) ← dupNumber 0 t₁.tail
    if t₁.tail.head?.any Byteset.isdigit then
      if b < a then .error .ebrace else .ok (a, some b, t₂)
    else .ok (a, none, t₂)
  else .ok (a, some a, t₁)

/-- Some times over. -/
def times (f : DfaParser → Except DfaErr DfaParser) : ℕ → DfaParser → Except DfaErr DfaParser
  | 0, ps => .ok ps
  | k + 1, ps => do times f k (← f ps)

/-- What is behind the `m` that there must be. -/
def applyMore (atom : DfaParser → Except DfaErr DfaParser) (m : ℕ) (ps : DfaParser) :
    Option ℕ → Except DfaErr DfaParser
  | none => do
      let loopStart := ps.prog.length
      (← atom ps).wrapStar loopStart
  | some n => times (fun ps => do (← atom ps).wrapOptional ps.prog.length false) (n - max m 1) ps

/-- `apply_interval`; `atom` compiles the text of the atom again. -/
def applyInterval (atom : DfaParser → Except DfaErr DfaParser) (bodyStart m : ℕ) (n : Option ℕ)
    (ps : DfaParser) : Except DfaErr DfaParser :=
  if m = 0 ∧ n = some 0 then ps.wrapOptional bodyStart true
  else if m = 0 then do (← ps.wrapOptional bodyStart false).applyMore atom m n
  else do (← times atom (m - 1) ps).applyMore atom m n

/-- A repetition operator other than an interval in front: `*`, `+` or `?`, and its length. -/
def repeatOp (fl : DfaFlags) (t : Str) : Option (Char × ℕ) :=
  match t with
  | '*' :: _ => some ('*', 1)
  | c :: t =>
      if fl.ere then if c == '+' || c == '?' then some (c, 1) else none
      else if c == '\\' then (t.head?.filter (· ∈ ['+', '?'])).map (·, 2)
      else none
  | [] => none

/-- One of them, on what is compiled from `bodyStart` on. -/
def applyRepeat (bodyStart : ℕ) (op : Char) (ps : DfaParser) : Except DfaErr DfaParser :=
  if op == '*' then ps.wrapStar bodyStart
  else if op == '+' then ps.wrapPlus bodyStart
  else ps.wrapOptional bodyStart false

/-- The stacked operators; the first argument is at least their number. -/
def repeats (fl : DfaFlags) (bodyStart : ℕ) : ℕ → DfaParser → Except DfaErr DfaParser
  | 0, ps => .ok ps
  | k + 1, ps =>
      match repeatOp fl ps.rem with
      | none => .ok ps
      | some (op, len) => do repeats fl bodyStart k (← (ps.advance len).applyRepeat bodyStart op)

/-- The length of the opening of an interval in front. -/
def intervalLen (fl : DfaFlags) (t : Str) : ℕ :=
  if fl.ere then
    if t.head? == some '{' && t.tail.head?.any (fun c => Byteset.isdigit c || c == ',') then 1 else 0
  else if t.take 2 == ['\\', '{'] then 2 else 0

/-- The length of its end. -/
def intervalEnd (fl : DfaFlags) (t : Str) : ℕ :=
  if fl.ere then if t.head? == some '}' then 1 else 0
  else if t.take 2 == ['\\', '}'] then 2 else 0

/-- The atom once more, from its text. -/
def again (atom : DfaParser → Except DfaErr DfaParser) (atomText : Str) (atomSrc : ℕ)
    (ps : DfaParser) : Except DfaErr DfaParser := do
  let ps' ← atom { ps with rem := atomText, pos := atomSrc }
  return { ps' with rem := ps.rem, pos := ps.pos }

/-- The interval behind an atom, if there is one. -/
def parseInterval (fl : DfaFlags) (atom : DfaParser → Except DfaErr DfaParser) (bodyStart : ℕ)
    (ps : DfaParser) : Except DfaErr DfaParser :=
  if intervalLen fl ps.rem = 0 then .ok ps
  else do
    let ps := ps.advance (intervalLen fl ps.rem)
    let (m, n, rest) ← intervalSpec ps.rem
    let ps := ps.advance (ps.rem.length - rest.length)
    if intervalEnd fl ps.rem = 0 then .error .ebrace
    else (ps.advance (intervalEnd fl ps.rem)).applyInterval atom bodyStart m n

/-- `parse_piece`. -/
def parsePiece (fl : DfaFlags) (atom : DfaParser → Except DfaErr DfaParser) (ps : DfaParser) :
    Except DfaErr DfaParser := do
  let ps' ← atom ps
  -- a `^` at the front of a BRE cannot be repeated
  if !fl.ere && ps.pos == 0 && ps.rem.head? == some '^' then .ok ps'
  else
    let atomText := ps.rem.take (ps.rem.length - ps'.rem.length)
    let ps' ← ps'.repeats fl ps.prog.length ps'.rem.length
    ps'.parseInterval fl (again atom atomText ps.pos) ps.prog.length

/-! ## Branches -/

/-- `parse_seq`; the first argument is at least the number of pieces. -/
def parseSeq (fl : DfaFlags) (piece : DfaParser → Except DfaErr DfaParser) :
    ℕ → DfaParser → Except DfaErr DfaParser
  | k, ps =>
      if ps.rem.isEmpty || 0 < altLen fl ps.rem || 0 < closeLen fl ps.rem then .ok ps
      else
        match k with
        | 0 => .error .fuel
        | k + 1 => do parseSeq fl piece k (← piece ps)

/-- The jumps of an alternation get their target. -/
def patch (jmpPcs : List ℕ) (ps : DfaParser) : DfaParser :=
  jmpPcs.foldl (fun ps' pc => ps'.modify pc (Inst.setX ps.prog.length)) ps

/-- The loop of `parse_alt`; `seq` parses a branch. -/
def altGo (fl : DfaFlags) (seq : DfaParser → Except DfaErr DfaParser) :
    ℕ → ℕ → List ℕ → DfaParser → Except DfaErr DfaParser
  | 0, _, _, _ => .error .fuel
  | k + 1, splitPc, jmpPcs, ps => do
      let jmpPcs := if jmpPcs.length < 64 then jmpPcs ++ [ps.prog.length] else jmpPcs
      let ps ← ps.emit (.jmp none)
      let ps := ps.modify splitPc (Inst.setY ps.prog.length)
      if altLen fl ps.rem = 0 then .ok (ps.patch jmpPcs)
      else
        let ps := ps.advance (altLen fl ps.rem)
        let branchStart := ps.prog.length
        let ps ← seq ps
        if altLen fl ps.rem = 0 then .ok (ps.patch jmpPcs)
        else altGo fl seq k branchStart jmpPcs (← ps.insertSplit branchStart)

/-- `parse_alt`; the first argument bounds the nesting of groups. -/
def parseAlt (fl : DfaFlags) : ℕ → DfaParser → Except DfaErr DfaParser
  | 0, _ => .error .fuel
  | d + 1, ps => do
      let seq := fun ps : DfaParser =>
        parseSeq fl (parsePiece fl (parseAtom fl (parseAlt fl d))) ps.rem.length ps
      let start := ps.prog.length
      let ps ← seq ps
      if altLen fl ps.rem = 0 then .ok ps
      else altGo fl seq (ps.rem.length + 1) start [] (← ps.insertSplit start)

end DfaParser

/-- `dfa_compile`, with `dfa_parse_pattern`; groups nest at most 256 deep. -/
def dfaCompile (fl : DfaFlags) (pat : Str) : Except DfaErr Dfa := do
  let ps ← DfaParser.parseAlt fl 257 { rem := pat }
  if !ps.rem.isEmpty then .error .eparen
  else
    let ps ← ps.emit .done
    .ok ⟨ps.prog, ps.sets, ps.gsrc.length, ps.hasBackref, fl.multi⟩

end Shish
