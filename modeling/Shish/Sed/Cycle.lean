import Shish.Dfa.Replace
import Shish.Fmt
import Shish.Sed.List

/-!
# Sed/Cycle — the script and its cycles

The compiled script and the state of `sed`, and what one command does: `run_one_cycle` and `sed_run`, one step at
a time.  Lines are read one ahead, so it is known which one is the last.  How regular expressions match is a
parameter (`Engine`); `dfaEngine` is what the program has.
-/

namespace Shish.Sed

/-! ## Regular expressions -/

/-- What `sed` asks of regular expressions. -/
structure Engine where
  /-- A compiled expression. -/
  Re : Type
  /-- A compiled replacement. -/
  Repl : Type
  /-- `dfa_test`. -/
  test : Re → Bytes → Bool
  /-- `dfa_replace`: the text and how often it was replaced; `none` for an error. -/
  replace : Re → Repl → Bytes → ℕ → Bool → Option (Bytes × ℕ)

/-- Bytes as characters. -/
def chars (s : Bytes) : Str := s.map fun c => Char.ofNat c.toNat

/-- Bytes as what an expression is run over. -/
def subject (s : Bytes) : Subject := ⟨fun k => (chars s).getD k ' ', s.length, false⟩

/-- The expressions of `text/dfa`, with a bound on the turns of a search. -/
def dfaEngine (fuel : ℕ) : Engine where
  Re := Dfa
  Repl := Repl
  test d s := ((d.dfaSearch (subject s) 0 fuel).bind id).isSome
  replace d r s nth glob :=
    (dfaReplace d (subject s) r nth glob fuel).map fun x => (x.1.map Char.toUInt8, x.2)

variable (e : Engine)

/-! ## The script -/

/-- `struct sed_addr`. -/
inductive Addr
  | none
  | line (n : ℕ)
  | last
  /-- An empty expression stands for the last one used. -/
  | regex (re : Option e.Re)
  /-- `first~step`. -/
  | step (first step : ℕ)
  /-- `addr,~N`; `line` is set when the range is opened. -/
  | mult (step line : ℕ)

/-- `struct sed_subst`. -/
structure Subst where
  re : Option e.Re
  repl : e.Repl
  global : Bool
  print : Bool
  nth : ℕ
  wfile : Option ℕ

/-- The letter of a command, and what it has. -/
inductive Body
  /-- `{`, with the index behind its block. -/
  | block (jump : ℕ)
  | label
  | lineno
  | a (text : Bytes)
  | i (text : Bytes)
  | c (text : Bytes)
  | d
  | D
  | g
  | G
  | h
  | H
  | l (width : ℤ)
  | n
  | N
  | p
  | P
  | q (status : ℤ)
  | Q (status : ℤ)
  | z
  | r (file : Bytes)
  | s (s : Subst e)
  | t (jump : ℕ)
  | T (jump : ℕ)
  | w (wfile : Option ℕ)
  | x
  | y (map : UInt8 → UInt8)
  | b (jump : ℕ)

/-- `struct sed_cmd`. -/
structure Cmd where
  naddr : ℕ
  negate : Bool
  a1 : Addr e
  a2 : Addr e
  inRange : Bool
  body : Body e

/-! ## The state -/

/-- What is put out. -/
inductive Output
  | text (s : Bytes)
  | wfile (idx : ℕ) (s : Bytes)
  | rfile (name : Bytes)

/-- Where `sed_run` and `run_one_cycle` are. -/
inductive Phase
  /-- A line is read next. -/
  | fetch
  /-- The command with this index is next. -/
  | cmd (pc : ℕ)
  | endCycle
  | done
  deriving DecidableEq

/-- `struct sed_state`, with the script it changes, the input that is left and what was put out. -/
structure State where
  cmds : List (Cmd e)
  autoprintOff : Bool
  phase : Phase := .fetch
  /-- The lines that are left, and whether each ends with a newline. -/
  input : List (Bytes × Bool)
  /-- The line that was read ahead. -/
  next : Option (Bytes × Bool) := none
  pattern : Bytes := []
  hold : Bytes := []
  lineno : ℕ := 0
  curHadNl : Bool := false
  curIsLast : Bool := false
  suppressPrint : Bool := false
  tflag : Bool := false
  lastRe : Option e.Re := none
  /-- The texts of `a` and the files of `r`. -/
  pending : List (Bool × Bytes) := []
  quit : Bool := false
  quitStatus : ℤ := 0
  out : List Output := []

namespace State

variable {e} (s : State e)

/-- `st->out`. -/
def put (b : Bytes) : State e := { s with out := s.out ++ [.text b] }

/-- `sed_out_pattern`. -/
def outPattern : State e :=
  let s' := s.put s.pattern
  if s.curHadNl then s'.put [newline] else s'

/-- `sed_out_lineno`. -/
def outLineno : State e := (s.put ((fmtUlong s.lineno).map Char.toUInt8)).put [newline]

/-- `sed_out_wfile_line`. -/
def outWfileLine (idx : Option ℕ) (b : Bytes) : State e :=
  match idx with
  | none => s
  | some i => { s with out := s.out ++ [.wfile i b, .wfile i [newline]] }

/-- `sed_pending_push`. -/
def pendingPush (isFile : Bool) (data : Bytes) : State e := { s with pending := s.pending ++ [(isFile, data)] }

/-- What a queued item puts out. -/
def pendingOut : Bool × Bytes → List Output
  | (true, name) => [.rfile name]
  | (false, text) => [.text text, .text [newline]]

/-- `sed_pending_flush`. -/
def pendingFlush : State e := { s with out := s.out ++ s.pending.flatMap pendingOut, pending := [] }

/-- `st->read`, where no line was read ahead. -/
def readAhead : State e :=
  match s.next, s.input with
  | none, l :: rest => { s with next := some l, input := rest }
  | _, _ => s

/-- `fetch_line`: the line, whether it ends with a newline and whether it is the last one; `none` at the end. -/
def fetchLine : Option (Bytes × Bool × Bool × State e) :=
  let s := s.readAhead
  match s.next with
  | none => none
  | some (b, hadNl) =>
      let s := { s with next := none }.readAhead
      some (b, hadNl, s.next.isNone, s)

/-- A line is read, and `f` puts it into the pattern space. -/
def readLine (f : Bytes → Bytes) : Option (State e) :=
  s.fetchLine.map fun r =>
    { r.2.2.2 with
      pattern := f r.1, lineno := r.2.2.2.lineno + 1, curHadNl := r.2.1, curIsLast := r.2.2.1 }

/-- The end of the cycle, with what is set before it. -/
def endCycle (suppress quit : Bool) (status : ℤ) : State e :=
  { s with
    phase := .endCycle
    suppressPrint := s.suppressPrint || suppress
    quit := s.quit || quit
    quitStatus := if quit then status else s.quitStatus }

/-- The next command. -/
def goto (pc : ℕ) : State e := { s with phase := .cmd pc }

/-- `restart` of `run_one_cycle`. -/
def restart : State e := { s with phase := .cmd 0, suppressPrint := false }

end State

/-! ## Addresses -/

variable {e}

/-- `sed_addr_match`. -/
def addrMatch (a : Addr e) (s : State e) : Bool × State e :=
  match a with
  | .line n => (s.lineno = n, s)
  | .last => (s.curIsLast, s)
  | .step first step =>
      if step = 0 then (s.lineno = first, s)
      else (first ≤ s.lineno ∧ (s.lineno - first) % step = 0, s)
  | .regex re =>
      match re.or s.lastRe with
      | none => (false, s)
      | some re => (e.test re s.pattern, { s with lastRe := some re })
  | .none => (false, s)
  | .mult _ _ => (false, s)

/-- The range is opened; it may be closed at once. -/
def Cmd.opened (c : Cmd e) (s : State e) : Cmd e :=
  match c.a2 with
  | .line n => { c with inRange := !(n ≤ s.lineno) }
  | .last => { c with inRange := !s.curIsLast }
  | .mult 0 _ => { c with inRange := false }
  | .mult step _ => { c with inRange := true, a2 := .mult step (s.lineno - s.lineno % step + step) }
  | _ => { c with inRange := true }

/-- `0,/re/` on the first line: the range is open already. -/
def Cmd.fromZero (c : Cmd e) (s : State e) : Bool :=
  c.naddr = 2 && !c.inRange && (match c.a1 with | .line 0 => true | _ => false) &&
    (match c.a2 with | .regex _ => true | _ => false) && s.lineno = 1

/-- Whether an open range is closed. -/
def rangeCloses (c : Cmd e) (s : State e) : Bool × State e :=
  match c.a2 with
  | .line n => (n ≤ s.lineno, s)
  | .last => (s.curIsLast, s)
  | .regex re => addrMatch (.regex re) s
  | .mult _ n => (n ≤ s.lineno, s)
  | _ => (false, s)

/-- `sed_range_match`. -/
def rangeMatch (c : Cmd e) (s : State e) : Bool × Cmd e × State e :=
  let c := if c.fromZero s then { c with inRange := true } else c
  let r :=
    if c.naddr = 0 then (true, c, s)
    else if c.naddr = 1 then
      let m := addrMatch c.a1 s
      (m.1, c, m.2)
    else if !c.inRange then
      let m := addrMatch c.a1 s
      (m.1, if m.1 then c.opened m.2 else c, m.2)
    else
      let m := rangeCloses c s
      (true, if m.1 then { c with inRange := false } else c, m.2)
  (if c.negate then !r.1 else r.1, r.2)

/-! ## One step -/

/-- `sed_subst_exec`. -/
def substExec (b : Subst e) (s : State e) : Bool × State e :=
  match b.re.or s.lastRe with
  | none => (false, s)
  | some re =>
      match e.replace re b.repl s.pattern b.nth b.global with
      | some (text, _ + 1) => (true, { s with lastRe := some re, pattern := text, tflag := true })
      | _ => (false, { s with lastRe := some re })

/-- The command at `pc` of `run_one_cycle`, where its address matches. -/
def execCmd (c : Cmd e) (pc : ℕ) (s : State e) : State e :=
  match c.body with
  | .block _ | .label => s.goto (pc + 1)
  | .lineno => s.outLineno.goto (pc + 1)
  | .a text => (s.pendingPush false text).goto (pc + 1)
  | .i text => ((s.put text).put [newline]).goto (pc + 1)
  | .c text =>
      let s := if c.naddr < 2 ∨ c.negate ∨ !c.inRange then (s.put text).put [newline] else s
      { s with pattern := [] }.endCycle true false 0
  | .d => s.endCycle true false 0
  | .D =>
      if newline ∈ s.pattern then { s with pattern := (s.pattern.dropWhile (· ≠ newline)).tail }.restart
      else s.endCycle true false 0
  | .g => { s with pattern := s.hold }.goto (pc + 1)
  | .G => { s with pattern := s.pattern ++ newline :: s.hold }.goto (pc + 1)
  | .h => { s with hold := s.pattern }.goto (pc + 1)
  | .H => { s with hold := s.hold ++ newline :: s.pattern }.goto (pc + 1)
  | .l width => (s.put (doList s.pattern width)).goto (pc + 1)
  | .n =>
      let s := (if s.autoprintOff then s else s.outPattern).pendingFlush
      match s.readLine id with
      | none => s.endCycle true true 0
      | some s' => s'.goto (pc + 1)
  | .N =>
      match s.readLine fun l => s.pattern ++ newline :: l with
      | none => s.endCycle true true 0
      | some s' => s'.goto (pc + 1)
  | .p => s.outPattern.goto (pc + 1)
  | .P => ((s.put (s.pattern.takeWhile (· ≠ newline))).put [newline]).goto (pc + 1)
  | .q status => s.endCycle false true status
  | .Q status => s.endCycle true true status
  | .z => { s with pattern := [] }.goto (pc + 1)
  | .r file => (s.pendingPush true file).goto (pc + 1)
  | .s b =>
      let r := substExec b s
      if r.1 then
        let s := if b.print then r.2.outPattern else r.2
        (s.outWfileLine b.wfile s.pattern).goto (pc + 1)
      else r.2.goto (pc + 1)
  | .t jump => if s.tflag then { s with tflag := false }.goto jump else s.goto (pc + 1)
  | .T jump => if s.tflag then { s with tflag := false }.goto (pc + 1) else s.goto jump
  | .w idx => (s.outWfileLine idx s.pattern).goto (pc + 1)
  | .x => { s with pattern := s.hold, hold := s.pattern }.goto (pc + 1)
  | .y map => { s with pattern := s.pattern.map map }.goto (pc + 1)
  | .b jump => s.goto jump

/-- The address of the command at `pc` is matched: whether it does, the command, and the state. -/
def matched (c : Cmd e) (pc : ℕ) (s : State e) : Bool × Cmd e × State e :=
  let m := rangeMatch c s
  (m.1, m.2.1, { m.2.2 with cmds := m.2.2.cmds.set pc m.2.1 })

/-- One turn of the loop of `run_one_cycle`. -/
def turn (c : Cmd e) (pc : ℕ) (s : State e) : State e :=
  let m := matched c pc s
  if m.1 then execCmd m.2.1 pc m.2.2
  else
    match c.body with
    | .block jump => m.2.2.goto jump
    | _ => m.2.2.goto (pc + 1)

/-- **One step** of `sed_run`; there is none when it is done. -/
def step (s : State e) : Option (State e) :=
  match s.phase with
  | .fetch =>
      match s.readLine id with
      | none => some { s with phase := .done }
      | some s' => some { s' with tflag := false }.restart
  | .cmd pc =>
      match s.cmds[pc]? with
      | none => some { s with phase := .endCycle }
      | some c => some (turn c pc s)
  | .endCycle =>
      let s := (if !s.suppressPrint && !s.autoprintOff then s.outPattern else s).pendingFlush
      some { s with phase := if s.quit then .done else .fetch }
  | .done => none

end Shish.Sed
