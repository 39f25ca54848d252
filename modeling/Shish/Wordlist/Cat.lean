import Shish.Chartable

/-!
# Wordlist/Cat — the sink that turns text into fields

`wordlist.h`: an append-only list of fields with one open field at its end.  `wordlist_cat` appends
a chunk, splitting it at the characters of `IFS` where its flags allow; `wordlist_break` and
`wordlist_close` end a field and a word.  An empty field nobody asked for is entered as pending and
dropped again unless a sibling follows.  Allocations succeed; what a new block of slots holds before
it is written is whatever it is (`junk`), and so is the answer of `glob`.
-/

namespace Shish

/-- The `X_*` bits. -/
structure XFlags where
  nosplit : Bool
  literal : Bool
  glob : Bool
  globres : Bool
  quoted : Bool
  unescaped : Bool
  pattern : Bool
  subword : Bool
  split : Bool
deriving DecidableEq, Repr

namespace XFlags

/-- `X_DEFAULT`. -/
def default : XFlags := ⟨false, false, false, false, false, false, false, false, false⟩

/-- `a | b`. -/
def or (a b : XFlags) : XFlags where
  nosplit := a.nosplit || b.nosplit
  literal := a.literal || b.literal
  glob := a.glob || b.glob
  globres := a.globres || b.globres
  quoted := a.quoted || b.quoted
  unescaped := a.unescaped || b.unescaped
  pattern := a.pattern || b.pattern
  subword := a.subword || b.subword
  split := a.split || b.split

theorem or_self_right (a b : XFlags) : (a.or b).or b = a.or b := by
  simp [or]

end XFlags

/-- `expand_unescape`, and `cat_unescaped` for `parse_isesc`: a backslash goes away in front of a
character of the class. -/
def unescape (pred : Char → Bool) : Str → Str
  | '\\' :: c :: t => if pred c then c :: unescape pred t else '\\' :: unescape pred (c :: t)
  | c :: t => c :: unescape pred t
  | [] => []

/-- A `wordlist`: `str` is string mode, without an arena; `v` are the slots, of which `a` exist. -/
@[ext]
structure Wordlist where
  str : Bool
  cur : Str
  v : ℕ → Option Str
  n : ℕ
  a : ℕ
  mark : ℕ
  state : XFlags
  ifs : Str
  has : Bool
  closed : Bool
  pend : Bool
  noglob : Bool
  junk : ℕ → Option Str
  globbed : Str → Option (List Str)

/-- `is_ifs`; the NUL behind `ifs` is no character of it. -/
def isIfs (ifs : Str) (c : Char) : Bool := c != '\x00' && ifs.contains c

/-- `is_ws`. -/
def isWs (ifs : Str) (c : Char) : Bool := (c == ' ' || c == '\t' || c == '\n') && isIfs ifs c

theorem isWs_isIfs {ifs : Str} (a : Char) (h : isWs ifs a) : isIfs ifs a := by
  simp only [isWs, Bool.and_eq_true] at h
  exact h.2

namespace Wordlist

/-- `wordlist_init`; no `ifs` is an empty one. -/
def init (ifs : Option Str) (noglob : Bool) (junk : ℕ → Option Str)
    (globbed : Str → Option (List Str)) : Wordlist where
  str := false
  cur := []
  v := fun _ => none
  n := 0
  a := 16
  mark := 0
  state := .default
  ifs := ifs.getD []
  has := false
  closed := false
  pend := false
  noglob := noglob
  junk := junk
  globbed := globbed

/-- `wordlist_init_str`. -/
def initStr (out : Str) (junk : ℕ → Option Str) (globbed : Str → Option (List Str)) : Wordlist :=
  { init none false junk globbed with str := true, cur := out, a := 0, has := true }

/-- `wordlist_push`: the open field becomes `v[n]`.  A full `v` moves to a new block, which holds no
more than the fields copied to it. -/
def push (wl : Wordlist) : Wordlist :=
  { wl with
    v := fun i =>
      if i = wl.n + 1 then none
      else if i = wl.n then some wl.cur
      else if wl.a < wl.n + 2 ∧ wl.n ≤ i then wl.junk i
      else wl.v i
    n := wl.n + 1
    a := if wl.a < wl.n + 2 then wl.a * 2 else wl.a
    pend := wl.cur.isEmpty && !(wl.state.quoted || wl.state.nosplit || wl.state.split)
    cur := [] }

/-- `v[--n] = NULL`. -/
def drop (wl : Wordlist) : Wordlist :=
  { wl with v := fun i => if i = wl.n - 1 then none else wl.v i, n := wl.n - 1 }

/-- `wordlist_settle`. -/
def settle (wl : Wordlist) : Wordlist :=
  if wl.pend then { wl.drop with pend := false } else wl

/-- `sibling`. -/
def sibling (wl : Wordlist) : Wordlist :=
  { wl with pend := false, closed := false, state := { XFlags.default with split := true }, cur := [] }

/-- `start`. -/
def start (wl : Wordlist) : Wordlist :=
  if !wl.has then { wl with has := true, closed := false, state := .default, cur := [] }
  else if wl.closed then wl.sibling
  else wl

/-- The matches of a pattern: all but the last become fields, or are joined by the first character
of `ifs`. -/
def catPaths (flags : XFlags) : List Str → Wordlist → Wordlist
  | [], wl => wl
  | [p], wl => { wl with cur := wl.cur ++ p }
  | p :: ps, wl =>
      let wl := { wl with cur := wl.cur ++ p }
      let wl := if flags.nosplit then { wl with cur := wl.cur ++ wl.ifs.take 1 } else wl.push
      catPaths flags ps { wl with state := wl.state.or flags }

/-- `wordlist_glob`. -/
def glob (flags : XFlags) (wl : Wordlist) : Wordlist :=
  if flags.globres && (wl.noglob || !wl.cur.any fun c => c == '*' || c == '?' || c == '[') then wl
  else if wl.noglob then { wl with cur := unescape parseIsesc wl.cur }
  else
    match wl.globbed wl.cur with
    | some paths => catPaths flags paths { wl with cur := [] }
    | none => if flags.globres then wl else { wl with cur := unescape parseIsesc wl.cur }

/-- `finish`. -/
def finish (flags : XFlags) (wl : Wordlist) : Wordlist :=
  let wl :=
    if flags.glob then wl.glob { flags with glob := false }
    else if flags.globres then wl.glob flags
    else if flags.literal then
      { wl with cur := unescape parseIsesc wl.cur, state := { wl.state with glob := false } }
    else wl
  { wl.push with closed := true }

/-- A quoted result inside a pattern: its pattern characters are escaped. -/
def escapePattern (b : Str) : Str :=
  b.flatMap fun c => if c == '\\' || c == '*' || c == '?' || c == '[' then ['\\', c] else [c]

/-- `wordlist_cat` without splitting. -/
def catWhole (b : Str) (flags : XFlags) (wl : Wordlist) : Wordlist :=
  let wl := wl.start
  let lit := flags.literal && !flags.pattern
  let cur :=
    if lit && wl.state.literal && !(wl.state.unescaped || wl.state.glob) then
      unescape parseIsesc wl.cur
    else wl.cur
  let state := wl.state.or flags
  if lit then
    { wl with cur := cur ++ unescape parseIsesc b, state := { state with unescaped := true } }
  else if flags.pattern && flags.quoted && !flags.literal then
    { wl with cur := cur ++ escapePattern b, state := state }
  else { wl with cur := cur ++ b, state := state }

/-- `wordlist_cat` of the literal text of a word, which is not split. -/
def catLiteral (b : Str) (flags : XFlags) (wl : Wordlist) : Wordlist :=
  let wl := wl.start
  let b := if wl.state.unescaped && !(flags.glob || flags.pattern) then unescape parseIsesc b else b
  { wl with cur := wl.cur ++ b, state := wl.state.or flags }

/-- Appends text that is not of `ifs`; `haveField` says that there is a field to append to. -/
def catText (flags : XFlags) (haveField : Bool) (text : Str) (wl : Wordlist) : Wordlist :=
  if text.isEmpty then wl
  else
    let wl := if haveField then wl else wl.start
    { wl with cur := wl.cur ++ text, state := wl.state.or flags }

/-- An empty field of its own for each further delimiter. -/
def catEmpty (flags : XFlags) : ℕ → Wordlist → Wordlist
  | 0, wl => wl
  | k + 1, wl => catEmpty flags k (wl.sibling.finish flags)

/-- A run of characters of `ifs`, `nws` of which are no white space. -/
def catRun (flags : XFlags) (haveField : Bool) (nws : ℕ) (wl : Wordlist) : Wordlist :=
  if nws = 0 then
    if haveField || (wl.has && !wl.closed && (wl.state.quoted || wl.state.nosplit)) then
      wl.finish flags
    else wl
  else catEmpty flags (nws - 1) ((if haveField then wl else wl.start).finish flags)

/-- The loop of `wordlist_cat`: text up to a character of `ifs`, then a run of such characters. -/
def catLoop (flags : XFlags) (haveField : Bool) (b : Str) (wl : Wordlist) : Wordlist :=
  match _hb : b.dropWhile (!isIfs wl.ifs ·) with
  | [] => catText flags haveField b wl
  | c :: t =>
      let text := b.takeWhile (!isIfs wl.ifs ·)
      let nws := ((c :: t).takeWhile (isIfs wl.ifs)).countP (!isWs wl.ifs ·)
      catLoop flags false (t.dropWhile (isIfs wl.ifs))
        (catRun flags (haveField || !text.isEmpty) nws (catText flags haveField text wl))
termination_by b.length
decreasing_by
  have h₁ : (c :: t).length ≤ b.length := _hb ▸ (List.dropWhile_sublist _).length_le
  have h₂ : (t.dropWhile (isIfs wl.ifs)).length ≤ t.length := (List.dropWhile_sublist _).length_le
  simp only [List.length_cons] at h₁
  omega

/-- `wordlist_cat`. -/
def cat (b : Str) (flags : XFlags) (wl : Wordlist) : Wordlist :=
  let flags := { flags with nosplit := flags.nosplit || wl.str }
  if flags.nosplit || flags.quoted then wl.catWhole b flags
  else if flags.literal && !flags.subword then wl.catLiteral b flags
  else if b.isEmpty then wl
  else wl.catLoop flags (wl.has && !wl.closed && !wl.cur.isEmpty) b

/-- The end of a field: a pending one is given up, and there is no field then. -/
def leave (wl : Wordlist) : Wordlist := { wl.settle with has := false, closed := false }

/-- `wordlist_break`. -/
def brk (wl : Wordlist) : Wordlist :=
  if wl.str || !wl.has then wl else (if wl.closed then wl else wl.push).leave

/-- The last closed field is open again. -/
def take (wl : Wordlist) : Wordlist :=
  { wl.drop with cur := (wl.v (wl.n - 1)).getD [], closed := false }

/-- `wordlist_close` takes a field that was closed by the last chunk back, to finish it by its
bits. -/
def retake (wl : Wordlist) : Wordlist :=
  if wl.closed && !wl.pend && wl.n != 0 &&
      (wl.state.glob || wl.state.globres || wl.state.literal) then wl.take
  else wl

/-- The open field at the end of a word, globbed or unescaped as its bits ask. -/
def complete (wl : Wordlist) : Wordlist :=
  if wl.state.glob then wl.glob { wl.state with glob := false }
  else if wl.state.globres then wl.glob wl.state
  else if wl.state.literal && !wl.state.unescaped then
    { wl with cur := unescape parseIsesc wl.cur }
  else wl

/-- `wordlist_close`: the list, and the number of fields added. -/
def close (wl : Wordlist) : Wordlist × ℕ :=
  if wl.str then (wl, 0)
  else
    let w := wl.retake
    let w := (if w.has && !w.closed then w.complete.push else w).leave
    ({ w with mark := w.n }, w.n - wl.mark)

end Wordlist

end Shish
