import Mathlib.Algebra.Order.Ring.Nat
import Shish.Sed.Cycle

/-!
# Sed/Script — reading the text of a script

What a command of a script is as it is read: its addresses, whether it is negated, and its letter with its
argument.  A closing brace is read like a command; labels and the targets of branches are still names.

How expressions and replacements are compiled is a parameter (`Regexes`); `dfaRegexes` is what the program has.  Memory does not run out, and behind the
end of the text there is no digit.
-/

namespace Shish.Sed

/-- An engine that compiles: `dfa_compile` with `DFA_ERE`, `DFA_ICASE` and `DFA_MULTI`, and `dfa_repl_compile`. -/
structure Regexes extends Engine where
  compile : Bool → Bool → Bool → Bytes → Option Re
  compileRepl : Bytes → Option Repl

/-- The compilers of `text/dfa`. -/
def dfaRegexes (fuel : ℕ) : Regexes where
  toEngine := dfaEngine fuel
  compile ere icase multi pat := (dfaCompile { ere, icase, esc := true, multi } (chars pat)).toOption
  compileRepl repl := dfaReplCompile true (chars repl) repl.length

/-- The codes of `sed_compile`. -/
inductive Err
  | nomem
  | addr
  | cmd
  | label
  | brace
  | delim
  | unterm
  | regex
  | size
deriving DecidableEq

/-- `b`, `t` and `T`. -/
inductive Branch
  | b
  | t
  | T
deriving DecidableEq

/-- The addresses in front of a command. -/
structure Head (e : Engine) where
  naddr : ℕ
  negate : Bool
  a1 : Addr e
  a2 : Addr e

/-- A command of one line; where it jumps to is a name. -/
inductive Act (e : Engine)
  | plain (body : Body e)
  | label (name : Bytes)
  /-- Without a name it is to the end of the script. -/
  | branch (kind : Branch) (name : Bytes)

/-- A letter with what is read behind it. -/
inductive Op (e : Engine)
  | act (a : Act e)
  | opens
  | closes

/-- A command as it is read. -/
structure Tok (e : Engine) where
  head : Head e
  op : Op e

/-! ## Texts and numbers -/

/-- `skip_blank`. -/
def skipBlank (p : Bytes) : Bytes := p.dropWhile isBlankByte

/-- `skip_sep`; behind a `#` everything up to the end of the line is left out. -/
def skipSep (comment : Bool) : Bytes → Bytes
  | [] => []
  | c :: t =>
      if c = newline then skipSep false t
      else if comment || isBlankByte c || c = ';'.toUInt8 then skipSep comment t
      else if c = '#'.toUInt8 then skipSep true t
      else c :: t

/-- `scan_ulong`: the digits in front that make a number of 64 bits with `l`, and what is behind them. -/
def readUlong (l : ℕ) : Bytes → ℕ × Bytes
  | [] => (l, [])
  | c :: t =>
      if isDigit c && decide (l * 10 + (digit c).toNat < 2 ^ 64) then readUlong (l * 10 + (digit c).toNat) t
      else (l, c :: t)

/-- A number that has to be there. -/
def needUlong (p : Bytes) : Except Err (ℕ × Bytes) :=
  match p with
  | [] => .error .addr
  | c :: _ => if isDigit c then .ok (readUlong 0 p) else .error .addr

/-- The text of an expression up to its delimiter and what is behind that; `\` keeps a delimiter and makes a
newline of `n`.  In `s` it also keeps a newline, and another newline ends the text too early. -/
def regexText (delim : UInt8) (subst : Bool) : Bytes → Option (Bytes × Bytes)
  | [] => none
  | [c] => if c = delim then some ([], []) else none
  | c :: d :: t =>
      if c = delim then some ([], d :: t)
      else if c = '\\'.toUInt8 then
        if d = delim then (regexText delim subst t).map fun r => (delim :: r.1, r.2)
        else if d = 'n'.toUInt8 ∨ (subst ∧ d = newline) then
          (regexText delim subst t).map fun r => (newline :: r.1, r.2)
        else (regexText delim subst t).map fun r => (c :: d :: r.1, r.2)
      else if subst ∧ c = newline then none
      else (regexText delim subst (d :: t)).map fun r => (c :: r.1, r.2)

/-- The text of a replacement, as it is, up to its delimiter. -/
def replText (delim : UInt8) : Bytes → Option (Bytes × Bytes)
  | [] => none
  | [c] => if c = delim then some ([], []) else none
  | c :: d :: t =>
      if c = delim then some ([], d :: t)
      else if c = '\\'.toUInt8 then (replText delim t).map fun r => (c :: d :: r.1, r.2)
      else if c = newline then none
      else (replText delim (d :: t)).map fun r => (c :: r.1, r.2)

/-- `y_list`. -/
def yList (delim : UInt8) : Bytes → Option (Bytes × Bytes)
  | [] => none
  | [c] => if c = delim then some ([], []) else none
  | c :: d :: t =>
      if c = delim then some ([], d :: t)
      else if c = '\\'.toUInt8 then
        (yList delim t).map fun r => ((if d = delim then d else if d = 'n'.toUInt8 then newline else d) :: r.1, r.2)
      else if c = newline then none
      else (yList delim (d :: t)).map fun r => (c :: r.1, r.2)

/-- The loop of `sed_text_parse`. -/
def textLines : Bytes → Bytes × Bytes
  | [] => ([], [])
  | [c] => if c = newline then ([], []) else ([c], [])
  | c :: d :: t =>
      if c = newline then ([], d :: t)
      else if c = '\\'.toUInt8 then
        let r := textLines t
        (d :: r.1, r.2)
      else
        let r := textLines (d :: t)
        (c :: r.1, r.2)

/-- `sed_text_parse`. -/
def sedTextParse (p : Bytes) : Bytes × Bytes :=
  let p := skipBlank p
  textLines (if [('\\').toUInt8, newline].isPrefixOf p then p.drop 2 else p)

/-- `sed_parse_label`. -/
def sedParseLabel (p : Bytes) : Bytes × Bytes :=
  p.span fun c => !(c == newline || c == ';'.toUInt8 || isBlankByte c)

/-- The rest of the line, which has to be something. -/
def restOfLine (p : Bytes) : Except Err (Bytes × Bytes) :=
  let r := p.span (· != newline)
  if r.1 = [] then .error .unterm else .ok r

/-- `sed_wfile_intern`: the index of the name, and the table. -/
def sedWfileIntern (wfiles : List Bytes) (name : Bytes) : ℕ × List Bytes :=
  if wfiles.contains name then (wfiles.idxOf name, wfiles) else (wfiles.length, wfiles ++ [name])

/-! ## Addresses -/

variable (r : Regexes) (ere : Bool)

/-- `looks_like_addr`. -/
def looksLikeAddr : Bytes → Bool
  | [] => false
  | c :: t => isDigit c || c == '$'.toUInt8 || c == '/'.toUInt8 || (c == '\\'.toUInt8 && !t.isEmpty)

/-- An expression behind its delimiter, as an address. -/
def regexAddr (delim : UInt8) (p : Bytes) : Except Err (Addr r.toEngine × Bytes) :=
  match regexText delim false p with
  | none => .error .unterm
  | some (pat, p) =>
      let fl := p.takeWhile fun c => c == 'I'.toUInt8 || c == 'M'.toUInt8
      let p := p.dropWhile fun c => c == 'I'.toUInt8 || c == 'M'.toUInt8
      if pat = [] then .ok (.regex none, p)
      else
        match r.compile ere (fl.contains 'I'.toUInt8) (fl.contains 'M'.toUInt8) pat with
        | none => .error .regex
        | some re => .ok (.regex (some re), p)

/-- `sed_addr_parse`. -/
def sedAddrParse (p : Bytes) : Except Err (Addr r.toEngine × Bytes) :=
  match p with
  | [] => .error .addr
  | c :: t =>
      if isDigit c then
        let v := readUlong 0 p
        if v.2.head? = some '~'.toUInt8 then
          (needUlong v.2.tail).map fun w => (.step v.1 w.1, w.2)
        else .ok (.line v.1, v.2)
      else if c = '~'.toUInt8 then (needUlong t).map fun w => (.mult w.1 0, w.2)
      else if c = '$'.toUInt8 then .ok (.last, t)
      else if c = '/'.toUInt8 then regexAddr r ere c t
      else if c = '\\'.toUInt8 then
        match t with
        | [] => .error .addr
        | d :: t => regexAddr r ere d t
      else .error .addr

/-- The addresses in front of a command: how many, and both. -/
def readAddrs (p : Bytes) : Except Err (ℕ × Addr r.toEngine × Addr r.toEngine × Bytes) :=
  if looksLikeAddr p then
    (sedAddrParse r ere p).bind fun a1 =>
      let p := skipBlank a1.2
      if p.head? = some ','.toUInt8 then
        (sedAddrParse r ere (skipBlank p.tail)).map fun a2 => (2, a1.1, a2.1, a2.2)
      else .ok (1, a1.1, .none, p)
  else .ok (0, .none, .none, p)

/-- The `!`s behind the addresses, with blanks around them. -/
def readBangs : Bytes → Bool × Bytes
  | [] => (false, [])
  | c :: t =>
      if isBlankByte c then readBangs t
      else if c = '!'.toUInt8 then
        let r := readBangs t
        (!r.1, r.2)
      else (false, c :: t)

/-! ## Arguments -/

/-- The flags of `s`: how often each was read is not asked. -/
structure SubstFlags where
  nth : ℕ := 0
  global : Bool := false
  print : Bool := false
  icase : Bool := false
  multi : Bool := false
  wfile : Option ℕ := none

/-- The loop of `sed_subst_parse` over the flags, with the table of files; `fuel` bounds how many there are. -/
def substFlags : ℕ → List Bytes → SubstFlags → Bytes → Except Err (SubstFlags × List Bytes × Bytes)
  | 0, ws, f, p => .ok (f, ws, p)
  | _, ws, f, [] => .ok (f, ws, [])
  | fuel + 1, ws, f, c :: t =>
      if isDigit c then
        let v := readUlong 0 (c :: t)
        substFlags fuel ws { f with nth := v.1 % 2 ^ 32 } v.2
      else
        match Char.ofNat c.toNat with
        | 'g' => substFlags fuel ws { f with global := true } t
        | 'p' => substFlags fuel ws { f with print := true } t
        | 'i' | 'I' => substFlags fuel ws { f with icase := true } t
        | 'm' | 'M' => substFlags fuel ws { f with multi := true } t
        | 'w' =>
            (restOfLine (skipBlank t)).map fun n =>
              let w := sedWfileIntern ws n.1
              ({ f with wfile := some w.1 }, w.2, n.2)
        | _ => .ok (f, ws, c :: t)

/-- A delimiter: neither a backslash nor a newline. -/
def readDelim : Bytes → Except Err (UInt8 × Bytes)
  | [] => .error .delim
  | c :: t => if c = '\\'.toUInt8 ∨ c = newline then .error .delim else .ok (c, t)

/-- `sed_subst_parse`. -/
def sedSubstParse (ws : List Bytes) (p : Bytes) : Except Err (Subst r.toEngine × List Bytes × Bytes) :=
  (readDelim p).bind fun d =>
    match regexText d.1 true d.2 with
    | none => .error .unterm
    | some pat =>
        match replText d.1 pat.2 with
        | none => .error .unterm
        | some repl =>
            (substFlags repl.2.length ws {} repl.2).bind fun f =>
              let re := if pat.1 = [] then some none else (r.compile ere f.1.icase f.1.multi pat.1).map some
              match re with
              | none => .error .regex
              | some re =>
                  match r.compileRepl repl.1 with
                  | none => .error .nomem
                  | some rp =>
                      .ok ({ re, repl := rp, global := f.1.global, print := f.1.print, nth := f.1.nth,
                             wfile := f.1.wfile }, f.2)

/-- The map of `y`: the last of several entries for a byte is the one that stays. -/
def yMap (source target : Bytes) (c : UInt8) : UInt8 :=
  (source.zip target).foldl (fun v p => if p.1 = c then p.2 else v) c

/-- `sed_y_parse`. -/
def sedYParse (p : Bytes) : Except Err ((UInt8 → UInt8) × Bytes) :=
  (readDelim p).bind fun d =>
    match yList d.1 d.2 with
    | none => .error .unterm
    | some a =>
        match yList d.1 a.2 with
        | none => .error .unterm
        | some b => if a.1.length ≠ b.1.length then .error .delim else .ok (yMap a.1 b.1, b.2)

/-- The `int` of a number. -/
def toInt (n : ℕ) : ℤ := (n % 2 ^ 32 : ℕ) - if n % 2 ^ 32 < 2 ^ 31 then 0 else 2 ^ 32

/-- `max_addr`. -/
def maxAddr (c : UInt8) : ℕ :=
  match Char.ofNat c.toNat with
  | 'a' | 'i' | 'q' | 'Q' | 'r' | '=' => 1
  | ':' | '#' => 0
  | _ => 2

/-- The commands that are a letter only. -/
def letterOnly (c : Char) : Option (Body r.toEngine) :=
  match c with
  | '=' => some .lineno
  | 'd' => some .d
  | 'D' => some .D
  | 'g' => some .g
  | 'G' => some .G
  | 'h' => some .h
  | 'H' => some .H
  | 'n' => some .n
  | 'N' => some .N
  | 'p' => some .p
  | 'P' => some .P
  | 'x' => some .x
  | 'z' => some .z
  | _ => none

/-- What `sed_parse_command` reads behind a letter. -/
def readOp (ws : List Bytes) (c : Char) (p : Bytes) : Except Err (Op r.toEngine × List Bytes × Bytes) :=
  match c with
  | '{' => .ok (.opens, ws, p)
  | '}' => .ok (.closes, ws, p)
  | ':' =>
      let n := sedParseLabel (skipBlank p)
      if n.1 = [] then .error .label else .ok (.act (.label n.1), ws, n.2)
  | 'b' =>
      let n := sedParseLabel (skipBlank p)
      .ok (.act (.branch .b n.1), ws, n.2)
  | 't' =>
      let n := sedParseLabel (skipBlank p)
      .ok (.act (.branch .t n.1), ws, n.2)
  | 'T' =>
      let n := sedParseLabel (skipBlank p)
      .ok (.act (.branch .T n.1), ws, n.2)
  | 'q' =>
      let v := readUlong 0 (skipBlank p)
      .ok (.act (.plain (.q (toInt v.1))), ws, v.2)
  | 'Q' =>
      let v := readUlong 0 (skipBlank p)
      .ok (.act (.plain (.Q (toInt v.1))), ws, v.2)
  | 'a' =>
      let t := sedTextParse p
      .ok (.act (.plain (.a t.1)), ws, t.2)
  | 'i' =>
      let t := sedTextParse p
      .ok (.act (.plain (.i t.1)), ws, t.2)
  | 'c' =>
      let t := sedTextParse p
      .ok (.act (.plain (.c t.1)), ws, t.2)
  | 'r' => (restOfLine (skipBlank p)).map fun n => (.act (.plain (.r n.1)), ws, n.2)
  | 'w' =>
      (restOfLine (skipBlank p)).map fun n =>
        let w := sedWfileIntern ws n.1
        (.act (.plain (.w (some w.1))), w.2, n.2)
  | 's' => (sedSubstParse r ere ws p).map fun s => (.act (.plain (.s s.1)), s.2)
  | 'y' => (sedYParse p).map fun m => (.act (.plain (.y m.1)), ws, m.2)
  | 'l' =>
      let p := skipBlank p
      if p.head?.any isDigit then
        let v := readUlong 0 p
        .ok (.act (.plain (.l (toInt v.1 + 1))), ws, v.2)
      else .ok (.act (.plain (.l 0)), ws, p)
  | c =>
      match letterOnly r c with
      | some body => .ok (.act (.plain body), ws, p)
      | none => .error .cmd

/-- What `sed_parse_command` reads. -/
def readCommand (ws : List Bytes) (p : Bytes) : Except Err (Tok r.toEngine × List Bytes × Bytes) :=
  (readAddrs r ere p).bind fun a =>
    let n := readBangs a.2.2.2
    match n.2 with
    | [] => .error .cmd
    | c :: t =>
        if maxAddr c < a.1 then .error .cmd
        else
          (readOp r ere ws (Char.ofNat c.toNat) t).map fun o =>
            ({ head := { naddr := a.1, negate := n.1, a1 := a.2.1, a2 := a.2.2.1 }, op := o.1 }, o.2)

/-! ## What is left

Every reader leaves no more than it was given, and a command takes at least its letter. -/

theorem bind_eq_ok {α β : Type} {x : Except Err α} {g : α → Except Err β} {b : β} :
    x.bind g = .ok b ↔ ∃ a, x = .ok a ∧ g a = .ok b := by
  cases x with
  | error e => exact ⟨nofun, nofun⟩
  | ok a =>
    refine ⟨fun h => ⟨a, rfl, h⟩, fun h => ?_⟩
    obtain ⟨_, ha, h⟩ := h
    exact Except.ok.inj ha ▸ h

theorem map_eq_ok {α β : Type} {x : Except Err α} {g : α → β} {b : β} :
    x.map g = .ok b ↔ ∃ a, x = .ok a ∧ g a = b := by
  cases x with
  | error e => exact ⟨nofun, nofun⟩
  | ok a =>
    refine ⟨fun h => ⟨a, rfl, Except.ok.inj h⟩, fun h => ?_⟩
    obtain ⟨_, ha, h⟩ := h
    exact Except.ok.inj ha ▸ congrArg _ h

/-- What is read leaves at most `n` bytes. -/
def Leaves {α : Type} (n : ℕ) (f : α → Bytes) (x : Except Err α) : Prop := ∀ a, x = .ok a → (f a).length ≤ n

section

variable {α β : Type} {n m : ℕ} {f : α → Bytes} {x : Except Err α}

theorem Leaves.ok {a : α} (h : (f a).length ≤ n) : Leaves n f (.ok a) := fun _ hb => Except.ok.inj hb ▸ h

theorem Leaves.error {e : Err} : Leaves n f (.error e) := fun _ hb => by cases hb

theorem Leaves.mono (h : Leaves n f x) (hn : n ≤ m) : Leaves m f x := fun a ha => (h a ha).trans hn

theorem Leaves.map {g : α → β} {k : β → Bytes} (h : Leaves n (fun a => k (g a)) x) : Leaves n k (x.map g) := by
  intro b hb
  cases x with
  | error e => cases hb
  | ok a => exact Except.ok.inj hb ▸ h a rfl

theorem Leaves.bind {g : α → Except Err β} {k : β → Bytes} (h : Leaves m f x)
    (hg : ∀ a, (f a).length ≤ m → Leaves n k (g a)) : Leaves n k (x.bind g) := by
  intro b hb
  cases x with
  | error e => cases hb
  | ok a => exact hg a (h a rfl) b hb

end

theorem length_skipBlank (p : Bytes) : (skipBlank p).length ≤ p.length := (List.dropWhile_sublist _).length_le

theorem length_skipSep : ∀ (comment : Bool) (p : Bytes), (skipSep comment p).length ≤ p.length
  | _, [] => le_rfl
  | comment, c :: t => by
      rw [skipSep]
      split_ifs
      · exact (length_skipSep _ t).trans (Nat.le_succ _)
      · exact (length_skipSep _ t).trans (Nat.le_succ _)
      · exact (length_skipSep _ t).trans (Nat.le_succ _)
      · exact le_rfl

theorem length_readUlong : ∀ (l : ℕ) (p : Bytes), (readUlong l p).2.length ≤ p.length
  | _, [] => le_rfl
  | l, c :: t => by
      rw [readUlong]
      split
      · exact (length_readUlong _ t).trans (Nat.le_succ _)
      · exact le_rfl

theorem leaves_needUlong (p : Bytes) : Leaves p.length Prod.snd (needUlong p) := by
  rw [needUlong.eq_def]
  split
  · exact .error
  · split
    · exact .ok (length_readUlong _ _)
    · exact .error

theorem length_span (f : UInt8 → Bool) (p : Bytes) : (p.span f).2.length ≤ p.length := by
  rw [List.span_eq_takeWhile_dropWhile]
  exact (List.dropWhile_sublist f).length_le

/-- What stands in front of a delimiter is taken with it. -/
theorem length_regexText {delim : UInt8} {subst : Bool} : ∀ {p : Bytes} {x : Bytes × Bytes},
    regexText delim subst p = some x → x.2.length ≤ p.length
  | [c], x, h => by
      rw [regexText] at h
      split at h
      · obtain rfl := Option.some.inj h
        exact Nat.zero_le _
      · cases h
  | c :: d :: t, x, h => by
      rw [regexText] at h
      split_ifs at h
      · obtain rfl := Option.some.inj h
        exact Nat.le_succ _
      all_goals
        obtain ⟨y, hy, rfl⟩ := Option.map_eq_some_iff.1 h
        have hle := length_regexText hy
        simp only [List.length_cons] at hle ⊢
        omega

theorem length_replText {delim : UInt8} : ∀ {p : Bytes} {x : Bytes × Bytes},
    replText delim p = some x → x.2.length ≤ p.length
  | [c], x, h => by
      rw [replText] at h
      split at h
      · obtain rfl := Option.some.inj h
        exact Nat.zero_le _
      · cases h
  | c :: d :: t, x, h => by
      rw [replText] at h
      split_ifs at h
      · obtain rfl := Option.some.inj h
        exact Nat.le_succ _
      all_goals
        obtain ⟨y, hy, rfl⟩ := Option.map_eq_some_iff.1 h
        have hle := length_replText hy
        simp only [List.length_cons] at hle ⊢
        omega

theorem length_yList {delim : UInt8} : ∀ {p : Bytes} {x : Bytes × Bytes},
    yList delim p = some x → x.2.length ≤ p.length
  | [c], x, h => by
      rw [yList] at h
      split at h
      · obtain rfl := Option.some.inj h
        exact Nat.zero_le _
      · cases h
  | c :: d :: t, x, h => by
      rw [yList] at h
      split at h
      · obtain rfl := Option.some.inj h
        exact Nat.le_succ _
      · split at h
        · obtain ⟨y, hy, rfl⟩ := Option.map_eq_some_iff.1 h
          have hle := length_yList hy
          simp only [List.length_cons] at hle ⊢
          omega
        · split at h
          · cases h
          · obtain ⟨y, hy, rfl⟩ := Option.map_eq_some_iff.1 h
            exact (length_yList hy).trans (Nat.le_succ _)

theorem length_textLines : ∀ p : Bytes, (textLines p).2.length ≤ p.length
  | [] => le_rfl
  | [c] => by
      rw [textLines]
      split <;> exact Nat.zero_le _
  | c :: d :: t => by
      rw [textLines]
      split_ifs
      · exact Nat.le_succ _
      · exact (length_textLines t).trans ((Nat.le_succ _).trans (Nat.le_succ _))
      · exact (length_textLines (d :: t)).trans (Nat.le_succ _)

theorem length_sedTextParse (p : Bytes) : (sedTextParse p).2.length ≤ p.length := by
  rw [sedTextParse]
  refine (length_textLines _).trans (le_trans ?_ (length_skipBlank p))
  split
  · exact (List.drop_sublist 2 _).length_le
  · exact le_rfl

theorem length_sedParseLabel (p : Bytes) : (sedParseLabel p).2.length ≤ p.length := length_span _ p

theorem leaves_restOfLine (p : Bytes) : Leaves p.length Prod.snd (restOfLine p) := by
  rw [restOfLine]
  split
  · exact .error
  · exact .ok (length_span _ p)

theorem length_readBangs : ∀ p : Bytes, (readBangs p).2.length ≤ p.length
  | [] => le_rfl
  | c :: t => by
      rw [readBangs]
      split_ifs
      · exact (length_readBangs t).trans (Nat.le_succ _)
      · exact (length_readBangs t).trans (Nat.le_succ _)
      · exact le_rfl

section

variable {r ere}

theorem leaves_regexAddr (delim : UInt8) (p : Bytes) : Leaves p.length Prod.snd (regexAddr r ere delim p) := by
  rw [regexAddr]
  split
  case h_1 => exact .error
  case h_2 pat p' h =>
    have hle : (p'.dropWhile fun c => c == 'I'.toUInt8 || c == 'M'.toUInt8).length ≤ p.length :=
      (List.dropWhile_sublist _).length_le.trans (length_regexText h)
    dsimp only
    split
    · exact .ok hle
    · split
      · exact .error
      · exact .ok hle

theorem leaves_sedAddrParse (p : Bytes) : Leaves p.length Prod.snd (sedAddrParse r ere p) := by
  rw [sedAddrParse.eq_def]
  split
  case h_1 => exact .error
  case h_2 c t =>
    have ht : t.length ≤ (c :: t).length := Nat.le_succ _
    dsimp only
    split_ifs
    · refine .map ((leaves_needUlong _).mono ?_)
      rw [List.length_tail]
      exact (Nat.sub_le _ _).trans (length_readUlong 0 (c :: t))
    · exact .ok (length_readUlong 0 (c :: t))
    · exact .map ((leaves_needUlong t).mono ht)
    · exact .ok ht
    · exact (leaves_regexAddr _ t).mono ht
    · split
      · exact .error
      · exact (leaves_regexAddr _ _).mono ((Nat.le_succ _).trans ht)
    · exact .error

theorem leaves_readAddrs (p : Bytes) : Leaves p.length (fun a => a.2.2.2) (readAddrs r ere p) := by
  rw [readAddrs]
  split
  case isTrue =>
    refine (leaves_sedAddrParse p).bind fun a ha => ?_
    have hblank := (length_skipBlank a.2).trans ha
    dsimp only
    split
    · refine .map ((leaves_sedAddrParse _).mono ((length_skipBlank _).trans ?_))
      rw [List.length_tail]
      exact (Nat.sub_le _ _).trans hblank
    · exact .ok hblank
  case isFalse => exact .ok le_rfl

theorem leaves_substFlags : ∀ (fuel : ℕ) (ws : List Bytes) (f : SubstFlags) (p : Bytes),
    Leaves p.length (fun x => x.2.2) (substFlags fuel ws f p)
  | 0, _, _, _ => .ok le_rfl
  | _ + 1, _, _, [] => .ok le_rfl
  | fuel + 1, ws, f, c :: t => by
      have ht : t.length ≤ (c :: t).length := Nat.le_succ _
      rw [substFlags]
      split
      · exact (leaves_substFlags fuel ws _ _).mono (length_readUlong 0 (c :: t))
      · split
        case h_7 => exact .map (((leaves_restOfLine _).mono (length_skipBlank t)).mono ht)
        case h_8 => exact .ok le_rfl
        all_goals exact (leaves_substFlags fuel ws _ t).mono ht

theorem leaves_readDelim (p : Bytes) : Leaves p.length Prod.snd (readDelim p) := by
  rw [readDelim.eq_def]
  split
  · exact .error
  · split
    · exact .error
    · exact .ok (Nat.le_succ _)

theorem leaves_sedSubstParse (ws : List Bytes) (p : Bytes) :
    Leaves p.length (fun x => x.2.2) (sedSubstParse r ere ws p) := by
  refine (leaves_readDelim p).bind fun d hd => ?_
  split
  case h_1 => exact .error
  case h_2 pat hpat =>
    split
    case h_1 => exact .error
    case h_2 repl hrepl =>
      have hle := (length_replText hrepl).trans ((length_regexText hpat).trans hd)
      refine ((leaves_substFlags _ ws {} repl.2).mono hle).bind fun f hf => ?_
      dsimp only
      split
      · exact .error
      · split
        · exact .error
        · exact .ok hf

theorem leaves_sedYParse (p : Bytes) : Leaves p.length Prod.snd (sedYParse p) := by
  refine (leaves_readDelim p).bind fun d hd => ?_
  split
  case h_1 => exact .error
  case h_2 a ha =>
    split
    case h_1 => exact .error
    case h_2 b hb =>
      split
      · exact .error
      · exact .ok ((length_yList hb).trans ((length_yList ha).trans hd))

theorem leaves_readOp (ws : List Bytes) (c : Char) (p : Bytes) :
    Leaves p.length (fun x => x.2.2) (readOp r ere ws c p) := by
  have hblank := length_skipBlank p
  have hlabel : (sedParseLabel (skipBlank p)).2.length ≤ p.length := (length_sedParseLabel _).trans hblank
  have hnum : (readUlong 0 (skipBlank p)).2.length ≤ p.length := (length_readUlong 0 _).trans hblank
  rw [readOp.eq_def]
  split
  case h_1 | h_2 => exact .ok le_rfl
  case h_3 =>
    dsimp only
    split
    · exact .error
    · exact .ok hlabel
  case h_4 | h_5 | h_6 => exact .ok hlabel
  case h_7 | h_8 => exact .ok hnum
  case h_9 | h_10 | h_11 => exact .ok (length_sedTextParse p)
  case h_12 | h_13 => exact .map ((leaves_restOfLine _).mono hblank)
  case h_14 => exact .map (leaves_sedSubstParse ws p)
  case h_15 => exact .map (leaves_sedYParse p)
  case h_16 =>
    dsimp only
    split
    · exact .ok hnum
    · exact .ok hblank
  case h_17 =>
    split
    · exact .ok le_rfl
    · exact .error

/-- **What a command is read from.** -/
theorem readCommand_eq_ok {ws : List Bytes} {p : Bytes} {x : Tok r.toEngine × List Bytes × Bytes}
    (h : readCommand r ere ws p = .ok x) : ∃ a c t o, readAddrs r ere p = .ok a ∧
      (readBangs a.2.2.2).2 = c :: t ∧ readOp r ere ws (Char.ofNat c.toNat) t = .ok o ∧
      x = (⟨⟨a.1, (readBangs a.2.2.2).1, a.2.1, a.2.2.1⟩, o.1⟩, o.2) := by
  obtain ⟨a, ha, h⟩ := bind_eq_ok.1 h
  dsimp only at h
  cases hb : (readBangs a.2.2.2).2 with
  | nil =>
    rw [hb] at h
    cases h
  | cons c t =>
    rw [hb] at h
    dsimp only at h
    split at h
    · cases h
    · obtain ⟨o, ho, rfl⟩ := map_eq_ok.1 h
      exact ⟨a, c, t, o, ha, hb, ho, rfl⟩

/-- **A command takes something away.** -/
theorem length_readCommand {ws : List Bytes} {p : Bytes} {x : Tok r.toEngine × List Bytes × Bytes}
    (h : readCommand r ere ws p = .ok x) : x.2.2.length < p.length := by
  obtain ⟨a, c, t, o, ha, hb, ho, rfl⟩ := readCommand_eq_ok h
  have hle := (length_readBangs a.2.2.2).trans (leaves_readAddrs p a ha)
  rw [hb] at hle
  exact lt_of_le_of_lt (leaves_readOp ws _ t o ho) hle

end

end Shish.Sed
