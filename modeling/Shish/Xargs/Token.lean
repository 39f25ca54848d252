import Shish.Xargs.Words

/-!
# Xargs/Token — `xargs_token` and its pushback

The input has one character of pushback, and two look-aheads use it: `xargs_getc_nl` for `"\r\n"`, and the blanks
behind an argument.  The second one looks for `"\r\n"` as well, and has two characters to push back when there is
no newline: the carriage return takes the place of the character behind it, which is lost (`dropsByte`).  An input
where that does not happen is read as it should be (`token_scan`).
-/

namespace Shish.Xargs

/-- The mode of `xargs_token`. -/
inductive Mode
  /-- Blanks and newlines separate; quotes and backslash are processed. -/
  | blanks
  /-- Only newlines separate (`-I`). -/
  | lines
  /-- Only one character separates, nothing is quoted (`-0`, `-d`). -/
  | sep
  deriving DecidableEq

/-- `struct xargs_in`; `none` for `-1`. -/
structure In where
  pushed : Option UInt8
  b : Bytes

namespace In

/-- What is still to be read. -/
def stream (i : In) : Bytes := i.pushed.toList ++ i.b

/-- `xargs_getc`. -/
def getc : In → Option UInt8 × In
  | ⟨some c, b⟩ => (some c, ⟨none, b⟩)
  | ⟨none, c :: b⟩ => (some c, ⟨none, b⟩)
  | ⟨none, []⟩ => (none, ⟨none, []⟩)

/-- `xargs_getc_nl`. -/
def getcNl (i : In) : Option UInt8 × In :=
  if i.getc.1 = some cr then
    let d := i.getc.2.getc
    if d.1 = some newline then (some newline, d.2) else (some cr, { d.2 with pushed := d.1 })
  else i.getc

/-- Only what is still to be read counts. -/
theorem getc_cons {i : In} {c : UInt8} {l : Bytes} (h : i.stream = c :: l) : i.getc = (some c, ⟨none, l⟩) := by
  rcases i with ⟨_ | d, b⟩
  · cases b with
    | nil => cases h
    | cons d b =>
      obtain ⟨rfl, rfl⟩ := List.cons.inj h
      rfl
  · obtain ⟨rfl, rfl⟩ := List.cons.inj h
    rfl

theorem getc_nil {i : In} (h : i.stream = []) : i.getc = (none, ⟨none, []⟩) := by
  rcases i with ⟨_ | d, _ | ⟨e, b⟩⟩ <;> first | rfl | cases h

theorem getc_length {i : In} {c : UInt8} (h : i.getc.1 = some c) : i.getc.2.stream.length < i.stream.length := by
  cases hs : i.stream with
  | nil => rw [getc_nil hs] at h; cases h
  | cons d l => rw [getc_cons hs]; exact Nat.lt_succ_self _

theorem getc_length_le (i : In) : i.getc.2.stream.length ≤ i.stream.length := by
  cases hs : i.stream with
  | nil => rw [getc_nil hs]; exact Nat.le_refl _
  | cons d l => rw [getc_cons hs]; exact Nat.le_succ _

/-- Before a newline a carriage return is part of it, else it is a character. -/
theorem getcNl_cr {i : In} {l : Bytes} (h : i.stream = cr :: l) :
    i.getcNl = if l.head? = some newline then (some newline, ⟨none, l.tail⟩) else (some cr, ⟨l.head?, l.tail⟩) := by
  rw [getcNl, getc_cons h, if_pos rfl]
  cases l <;> rfl

theorem getcNl_cons {i : In} {c : UInt8} {l : Bytes} (h : i.stream = c :: l) (hc : c ≠ cr) :
    i.getcNl = (some c, ⟨none, l⟩) := by
  rw [getcNl, getc_cons h, if_neg (by simpa using hc)]

theorem getcNl_nil {i : In} (h : i.stream = []) : i.getcNl = (none, ⟨none, []⟩) := by
  rw [getcNl, getc_nil h]
  rfl

theorem stream_headTail (l : Bytes) : (⟨l.head?, l.tail⟩ : In).stream = l := by cases l <;> rfl

theorem getcNl_length {i : In} {c : UInt8} (h : i.getcNl.1 = some c) :
    i.getcNl.2.stream.length < i.stream.length := by
  cases hs : i.stream with
  | nil => rw [getcNl_nil hs] at h; cases h
  | cons d l =>
    by_cases hd : d = cr
    · subst hd
      rw [getcNl_cr hs]
      split_ifs
      · exact Nat.lt_succ_of_le (by simp [stream])
      · rw [stream_headTail]
        exact Nat.lt_succ_self _
    · rw [getcNl_cons hs hd]
      exact Nat.lt_succ_self _

/-- The loop over a quoted part: what is put out, and the input behind the quote; `none` for a quote that is not
matched. -/
def quotedLoop (q : UInt8) (i : In) (out : Bytes) : Option (Bytes × In) :=
  if i.getc.1 = some q then some (out, i.getc.2)
  else
    match _h : i.getc.1 with
    | none => none
    | some c => if c = newline then none else quotedLoop q i.getc.2 (out ++ [c])
termination_by i.stream.length
decreasing_by exact getc_length _h

/-- Between two quotes, everything is read as it stands. -/
theorem quotedLoop_eq (q : UInt8) (i : In) (out : Bytes) :
    i.quotedLoop q out = (quoted q i.stream).map fun r => (out ++ r.1, ⟨none, r.2⟩) := by
  induction hn : i.stream.length using Nat.strong_induction_on generalizing i out with
  | _ n ih =>
    rw [quotedLoop]
    cases hs : i.stream with
    | nil =>
      rw [getc_nil hs, if_neg (by simp), quoted]
      rfl
    | cons c l =>
      rw [getc_cons hs, quoted]
      by_cases hq : c = q
      · rw [if_pos (congrArg some hq), if_pos hq]
        simp
      · rw [if_neg (by simpa using hq), if_neg hq]
        show (if c = newline then none else quotedLoop q ⟨none, l⟩ (out ++ [c])) = _
        by_cases hnl : c = newline
        · rw [if_pos hnl, if_pos hnl]
          rfl
        · have hlt : l.length < n := by rw [← hn, hs]; exact Nat.lt_succ_self _
          rw [if_neg hnl, if_neg hnl, ih _ hlt ⟨none, l⟩ _ rfl, Option.map_map]
          congr 1
          funext r
          simp

/-- The loop over the blanks behind an argument: the character behind them. -/
def skipBlanks (i : In) : Option UInt8 × In :=
  match _h : i.getc.1 with
  | none => i.getc
  | some c => if isBlankByte c then skipBlanks i.getc.2 else i.getc
termination_by i.stream.length
decreasing_by exact getc_length _h

/-- The blanks are skipped. -/
theorem skipBlanks_eq (i : In) :
    i.skipBlanks = ((i.stream.dropWhile isBlankByte).head?, ⟨none, (i.stream.dropWhile isBlankByte).tail⟩) := by
  induction hn : i.stream.length using Nat.strong_induction_on generalizing i with
  | _ n ih =>
    rw [skipBlanks]
    cases hs : i.stream with
    | nil =>
      rw [getc_nil hs]
      rfl
    | cons c l =>
      rw [getc_cons hs]
      show (if isBlankByte c then skipBlanks ⟨none, l⟩ else (some c, ⟨none, l⟩)) = _
      by_cases hb : isBlankByte c = true
      · have hlt : l.length < n := by rw [← hn, hs]; exact Nat.lt_succ_self _
        rw [if_pos hb, ih _ hlt ⟨none, l⟩ rfl, List.dropWhile_cons_of_pos hb]
        rfl
      · rw [if_neg hb, List.dropWhile_cons_of_neg hb]
        rfl

/-- The end of an argument at a blank: `*eol`, and the input behind it. -/
def afterBlank (i : In) : Bool × In :=
  let r := i.skipBlanks
  -- the character behind the carriage return is pushed back, and so is the carriage return
  let r := if r.1 = some cr then
      let d := r.2.getc
      if d.1 = some newline then (some newline, d.2) else (some cr, { d.2 with pushed := d.1 })
    else r
  if r.1 = some newline then (false, r.2) else (true, { r.2 with pushed := r.1 })

/-- Behind the blanks, by what stands there. -/
theorem afterBlank_eq (i : In) {l : Bytes} (hl : i.stream.dropWhile isBlankByte = l) :
    i.afterBlank =
      if l.head? = some cr then
        (if l.tail.head? = some newline then (false, ⟨none, l.tail.tail⟩) else (true, ⟨some cr, l.tail.tail⟩))
      else if l.head? = some newline then (false, ⟨none, l.tail⟩) else (true, ⟨l.head?, l.tail⟩) := by
  rw [afterBlank, skipBlanks_eq, hl]
  by_cases hcr : l.head? = some cr
  · have hne : (some cr : Option UInt8) ≠ some newline := by decide
    rw [if_pos hcr, if_pos hcr]
    cases ht : l.tail with
    | nil => simp [getc, hne]
    | cons d t =>
      by_cases hd : d = newline
      · simp [getc, hd]
      · simp [getc, hd, hne]
  · rw [if_neg hcr, if_neg hcr]

/-- What `xargs_token` reads next. -/
def next (mode : Mode) (i : In) : Option UInt8 × In := if mode = .sep then i.getc else i.getcNl

theorem next_length {mode : Mode} {i : In} {c : UInt8} (h : (i.next mode).1 = some c) :
    (i.next mode).2.stream.length < i.stream.length := by
  rw [next] at h ⊢
  split_ifs at h ⊢
  · exact getc_length h
  · exact getcNl_length h

theorem next_length_le (mode : Mode) (i : In) : (i.next mode).2.stream.length ≤ i.stream.length := by
  cases hc : (i.next mode).1 with
  | some c => exact (next_length hc).le
  | none =>
    cases hs : i.stream with
    | nil =>
      rw [next]
      split_ifs
      · rw [getc_nil hs]
        exact Nat.le_refl _
      · rw [getcNl_nil hs]
        exact Nat.le_refl _
    | cons c l =>
      rw [next] at hc
      split_ifs at hc
      · rw [getc_cons hs] at hc
        cases hc
      · by_cases hcr : c = cr
        · subst hcr
          rw [getcNl_cr hs] at hc
          split_ifs at hc
        · rw [getcNl_cons hs hcr] at hc
          cases hc

theorem quotedLoop_length {q : UInt8} {i : In} {out : Bytes} {r : Bytes × In} (h : i.quotedLoop q out = some r) :
    r.2.stream.length < i.stream.length := by
  rw [quotedLoop_eq] at h
  obtain ⟨r', hr', rfl⟩ := Option.map_eq_some_iff.1 h
  exact quoted_length hr'

end In

/-- What `xargs_token` returns: an argument with `*eol`, the end of the input, or an unmatched quote. -/
inductive Token
  | arg (out : Bytes) (eol : Bool)
  | eof
  | unmatched
  deriving DecidableEq

/-- The loop of `xargs_token`; `got` is its `have`. -/
def tokenLoop (mode : Mode) (sep : ℤ) (i : In) (got : Bool) (out : Bytes) : Token × In :=
  match _hc : (i.next mode).1 with
  | none => (if got then .arg out true else .eof, (i.next mode).2)
  | some c =>
      let i' := (i.next mode).2
      if mode = .sep then
        if (c.toNat : ℤ) = sep then (.arg out true, i') else tokenLoop mode sep i' true (out ++ [c])
      else if c = newline then
        if got then (.arg out true, i') else tokenLoop mode sep i' got out
      else if isBlankByte c then
        if mode = .lines ∧ got then tokenLoop mode sep i' got (out ++ [c])
        else if ¬ got then tokenLoop mode sep i' got out
        else (.arg out i'.afterBlank.1, i'.afterBlank.2)
      else if c = backslash then tokenLoop mode sep i'.getc.2 true (out ++ [i'.getc.1.getD backslash])
      else if isQuote c then
        match _hq : i'.quotedLoop c out with
        | none => (.unmatched, i')
        | some r => tokenLoop mode sep r.2 true r.1
      else tokenLoop mode sep i' true (out ++ [c])
termination_by i.stream.length
decreasing_by
  all_goals first
    | exact In.next_length _hc
    | exact (In.getc_length_le _).trans_lt (In.next_length _hc)
    | exact (In.quotedLoop_length _hq).trans (In.next_length _hc)

/-- `xargs_token`. -/
def token (mode : Mode) (sep : ℤ) (i : In) : Token × In := tokenLoop mode sep i false []

theorem afterBlank_length (i : In) : i.afterBlank.2.stream.length ≤ i.stream.length := by
  have hle := (List.dropWhile_suffix (l := i.stream) isBlankByte).length_le
  rw [i.afterBlank_eq rfl]
  generalize i.stream.dropWhile isBlankByte = l at hle ⊢
  refine Nat.le_trans ?_ hle
  rcases l with _ | ⟨c, _ | ⟨d, l⟩⟩
  · exact Nat.le_refl _
  · by_cases hcr : c = cr
    · subst hcr
      exact Nat.le_refl _
    · rw [List.head?_cons, if_neg (by simpa using hcr)]
      split_ifs
      · exact Nat.zero_le _
      · exact Nat.le_refl _
  · rw [List.head?_cons]
    split_ifs <;> simp only [In.stream, List.tail_cons, Option.toList_some, Option.toList_none, List.nil_append,
      List.cons_append, List.length_cons] <;> omega

theorem tokenLoop_length {mode : Mode} {sep : ℤ} {i : In} {got : Bool} {out : Bytes} {out' : Bytes} {eol : Bool}
    {i' : In} (h : tokenLoop mode sep i got out = (.arg out' eol, i')) :
    i'.stream.length ≤ i.stream.length ∧ (got = false → i'.stream.length < i.stream.length) := by
  have hless : ∀ {i j : In} {got : Bool}, i'.stream.length ≤ j.stream.length → j.stream.length < i.stream.length →
      i'.stream.length ≤ i.stream.length ∧ (got = false → i'.stream.length < i.stream.length) :=
    fun hle hlt => ⟨hle.trans hlt.le, fun _ => hle.trans_lt hlt⟩
  fun_induction tokenLoop mode sep i got out with
  | case1 i got out hc =>
    cases got with
    | false => cases h
    | true =>
      cases h
      exact ⟨In.next_length_le mode i, fun hgot => by cases hgot⟩
  | case2 i got out c hc =>
    exact hless (congrArg (·.stream.length) (Prod.mk.inj h).2).ge (In.next_length hc)
  | case3 i got out c hc _ _ _ ih => exact hless (ih h).1 (In.next_length hc)
  | case4 i out _ _ hc =>
    exact hless (congrArg (·.stream.length) (Prod.mk.inj h).2).ge (In.next_length hc)
  | case5 i got out _ _ _ hc ih => exact hless (ih h).1 (In.next_length hc)
  | case6 i got out c hc _ _ _ _ _ ih => exact hless (ih h).1 (In.next_length hc)
  | case7 i got out c hc _ _ _ _ _ _ ih => exact hless (ih h).1 (In.next_length hc)
  | case8 i got out c hc =>
    cases h
    exact hless (afterBlank_length _) (In.next_length hc)
  | case9 i got out _ _ hc _ _ ih =>
    exact hless ((ih h).1.trans (In.getc_length_le _)) (In.next_length hc)
  | case10 => cases h
  | case11 i got out c hc _ _ _ _ _ _ r hq ih =>
    exact hless ((ih h).1.trans (In.quotedLoop_length hq).le) (In.next_length hc)
  | case12 i got out c hc _ _ _ _ _ _ ih => exact hless (ih h).1 (In.next_length hc)

/-- An argument takes something of the input. -/
theorem token_length {mode : Mode} {sep : ℤ} {i i' : In} {out : Bytes} {eol : Bool}
    (h : token mode sep i = (.arg out eol, i')) : i'.stream.length < i.stream.length :=
  (tokenLoop_length h).2 rfl

/-! ## One thing that is read -/

/-- The loop, with a character read. -/
theorem tokenLoop_some {sep : ℤ} {c : UInt8} {i i' : In} (h : i.getcNl = (some c, i')) (got : Bool) (out : Bytes) :
    tokenLoop .blanks sep i got out =
      if c = newline then (if got then (.arg out true, i') else tokenLoop .blanks sep i' got out)
      else if isBlankByte c then
        (if got then (.arg out i'.afterBlank.1, i'.afterBlank.2) else tokenLoop .blanks sep i' got out)
      else if c = backslash then tokenLoop .blanks sep i'.getc.2 true (out ++ [i'.getc.1.getD backslash])
      else if isQuote c then
        (i'.quotedLoop c out).elim (.unmatched, i') fun r => tokenLoop .blanks sep r.2 true r.1
      else tokenLoop .blanks sep i' true (out ++ [c]) := by
  have hnext : i.next .blanks = (some c, i') := h
  have helim : (match _hq : i'.quotedLoop c out with
      | none => (Token.unmatched, i')
      | some r => tokenLoop .blanks sep r.2 true r.1) =
      (i'.quotedLoop c out).elim (.unmatched, i') fun r => tokenLoop .blanks sep r.2 true r.1 := by
    split <;> simp [*]
  rw [tokenLoop, hnext]
  cases got <;> simp [helim]

/-- One thing that is read: a newline or a blank ends an argument that has begun, the rest goes on with it. -/
theorem tokenLoop_step {sep : ℤ} {c : UInt8} {i : In} {l : Bytes} {r : Sym × Bytes} (hi : i.stream = c :: l)
    (hr : lexStep c l = some r) (got : Bool) (out : Bytes) :
    ∃ i' : In, i'.stream = r.2 ∧ tokenLoop .blanks sep i got out =
      if r.1 = .newline then (if got then (.arg out true, i') else tokenLoop .blanks sep i' got out)
      else if r.1 = .blank then
        (if got then (.arg out i'.afterBlank.1, i'.afterBlank.2) else tokenLoop .blanks sep i' got out)
      else tokenLoop .blanks sep i' true (out ++ r.1.bytes) := by
  rw [lexStep] at hr
  by_cases hcr : c = cr
  · subst hcr
    rw [if_neg (by decide), if_neg (by decide), if_pos rfl] at hr
    by_cases hnl : l.head? = some newline
    · rw [if_pos hnl] at hr
      cases hr
      refine ⟨⟨none, l.tail⟩, rfl, ?_⟩
      rw [tokenLoop_some ((In.getcNl_cr hi).trans (if_pos hnl)), if_pos rfl, if_pos rfl]
    · rw [if_neg hnl] at hr
      cases hr
      refine ⟨⟨l.head?, l.tail⟩, In.stream_headTail l, ?_⟩
      rw [tokenLoop_some ((In.getcNl_cr hi).trans (if_neg hnl)), if_neg (by decide), if_neg (by decide),
        if_neg (by decide), if_neg (by decide), if_neg Sym.noConfusion, if_neg Sym.noConfusion]
      rfl
  · rw [tokenLoop_some (In.getcNl_cons hi hcr)]
    by_cases hbs : c = backslash
    · subst hbs
      rw [if_pos rfl] at hr
      cases hr
      rw [if_neg (by decide), if_neg (by decide), if_pos rfl]
      cases l with
      | nil => exact ⟨⟨none, []⟩, rfl, rfl⟩
      | cons d l => exact ⟨⟨none, l⟩, rfl, rfl⟩
    · rw [if_neg hbs] at hr ⊢
      by_cases hq : isQuote c = true
      · rw [if_pos hq] at hr ⊢
        obtain ⟨r', hr', rfl⟩ := Option.map_eq_some_iff.1 hr
        have hnl : c ≠ newline := by rintro rfl; exact absurd hq (by decide)
        have hb : ¬ isBlankByte c = true := by
          intro hb
          rcases Bool.or_eq_true _ _ ▸ hb with h | h <;> rw [eq_of_beq h] at hq <;> exact absurd hq (by decide)
        refine ⟨⟨none, r'.2⟩, rfl, ?_⟩
        have hloop : (⟨none, l⟩ : In).quotedLoop c out = some (out ++ r'.1, ⟨none, r'.2⟩) := by
          rw [In.quotedLoop_eq]
          exact congrArg (Option.map _) hr'
        rw [if_neg hnl, if_neg hb, hloop]
        rfl
      · rw [if_neg hq, if_neg hcr] at hr
        rw [if_neg hq]
        by_cases hnl : c = newline
        · rw [if_pos hnl] at hr ⊢
          cases hr
          exact ⟨⟨none, l⟩, rfl, rfl⟩
        · rw [if_neg hnl] at hr ⊢
          by_cases hb : isBlankByte c = true
          · rw [if_pos hb] at hr ⊢
            cases hr
            exact ⟨⟨none, l⟩, rfl, rfl⟩
          · rw [if_neg hb] at hr ⊢
            cases hr
            exact ⟨⟨none, l⟩, rfl, rfl⟩

/-! ## What is lost -/

/-- Blanks, a carriage return and something behind it, which is no newline. -/
def crBehind (syms : List Sym) : Bool :=
  syms.head? = some .blank &&
    match syms.dropWhile (· = .blank) with
    | .cr :: _ :: _ => true
    | _ => false

/-- **Behind an argument and blanks stands a carriage return with a character behind it**, which is no newline. -/
def dropsByte : List Sym → Bool
  | [] => false
  | s :: r => (!s.isSep && crBehind r) || dropsByte r

/-! ## What begins with a character -/

theorem lexStep_blank {c : UInt8} (h : isBlankByte c = true) (l : Bytes) : lexStep c l = some (.blank, l) := by
  rcases Bool.or_eq_true _ _ ▸ h with h | h <;> rw [eq_of_beq h] <;> rfl

theorem lexStep_newline (l : Bytes) : lexStep newline l = some (.newline, l) := rfl

theorem lexStep_cr (l : Bytes) :
    lexStep cr l = if l.head? = some newline then some (.newline, l.tail) else some (.cr, l) := rfl

theorem lexStep_text {c : UInt8} {l : Bytes} {r : Sym × Bytes} (h : lexStep c l = some r) (hcr : c ≠ cr)
    (hnl : c ≠ newline) (hb : ¬ isBlankByte c = true) : r.1.isSep = false := by
  rw [lexStep, if_neg hcr, if_neg hnl, if_neg hb] at h
  split_ifs at h
  · cases h
    rfl
  · obtain ⟨r', _, rfl⟩ := Option.map_eq_some_iff.1 h
    rfl
  · cases h
    rfl

/-- What is read of a text that is not empty. -/
theorem lex_inv {c : UInt8} {l : Bytes} {syms : List Sym} (h : lex (c :: l) = some syms) :
    ∃ s l' rest, lexStep c l = some (s, l') ∧ lex l' = some rest ∧ syms = s :: rest := by
  rw [lex_cons] at h
  obtain ⟨⟨s, l'⟩, hr, hmap⟩ := Option.bind_eq_some_iff.1 h
  obtain ⟨rest, hrest, rfl⟩ := Option.map_eq_some_iff.1 hmap
  exact ⟨s, l', rest, hr, hrest, rfl⟩

theorem lex_nil_iff {l : Bytes} : lex l = some [] ↔ l = [] := by
  cases l with
  | nil => exact ⟨fun _ => rfl, fun _ => by rw [lex]⟩
  | cons c l =>
    refine ⟨fun h => ?_, fun h => by cases h⟩
    obtain ⟨s, l', rest, _, _, hnil⟩ := lex_inv h
    cases hnil

/-- What a character of an argument begins does not begin with a separator. -/
theorem lex_text {c : UInt8} {l : Bytes} {syms : List Sym} (h : lex (c :: l) = some syms) (hcr : c ≠ cr)
    (hnl : c ≠ newline) (hb : ¬ isBlankByte c = true) : ∃ s rest, syms = s :: rest ∧ s.isSep = false := by
  obtain ⟨s, l', rest, hs, _, rfl⟩ := lex_inv h
  exact ⟨s, rest, rfl, lexStep_text hs hcr hnl hb⟩

/-- The blanks of the input are the blanks that are read. -/
theorem lex_dropWhile {l : Bytes} {syms : List Sym} (h : lex l = some syms) :
    lex (l.dropWhile isBlankByte) = some (syms.dropWhile (· = .blank)) := by
  induction l generalizing syms with
  | nil =>
    rw [lex] at h
    cases h
    rw [List.dropWhile_nil, lex]
    rfl
  | cons c l ih =>
    by_cases hb : isBlankByte c = true
    · obtain ⟨s, l', rest, hs, hrest, rfl⟩ := lex_inv h
      rw [lexStep_blank hb] at hs
      cases hs
      rw [List.dropWhile_cons_of_pos hb]
      exact @ih rest hrest
    · have hne : ∀ s rest, syms = s :: rest → s ≠ .blank := by
        intro s rest hs
        obtain ⟨s', l', rest', hr, _, rfl⟩ := lex_inv h
        obtain ⟨rfl, rfl⟩ := List.cons.inj hs
        by_cases hcr : c = cr
        · subst hcr
          rw [lexStep_cr] at hr
          split_ifs at hr <;> cases hr <;> exact Sym.noConfusion
        · by_cases hnl : c = newline
          · subst hnl
            cases hr
            exact Sym.noConfusion
          · have := lexStep_text hr hcr hnl hb
            rintro hs
            rw [hs] at this
            cases this
      rw [List.dropWhile_cons_of_neg hb, h]
      cases syms with
      | nil => rfl
      | cons s rest => rw [List.dropWhile_cons_of_neg (by simpa using hne s rest rfl)]

theorem scan_dropWhile (syms : List Sym) : scan none (syms.dropWhile (· = .blank)) = scan none syms := by
  induction syms with
  | nil => rfl
  | cons s r ih =>
    rw [List.dropWhile_cons]
    split_ifs with hs
    · rw [ih, of_decide_eq_true hs]
      rfl
    · rfl

theorem dropsByte_tail {s : Sym} {r : List Sym} (h : dropsByte (s :: r) = false) : dropsByte r = false :=
  (Bool.or_eq_false_iff.1 h).2

theorem dropsByte_dropWhile {syms : List Sym} (h : dropsByte syms = false) :
    dropsByte (syms.dropWhile (· = .blank)) = false := by
  induction syms with
  | nil => exact h
  | cons s r ih =>
    rw [List.dropWhile_cons]
    split_ifs
    · exact ih (dropsByte_tail h)
    · exact h

/-! ## An argument -/

namespace In

/-- **The character behind the carriage return is lost**, unless it is a newline. -/
theorem afterBlank_drops (i : In) {d : UInt8} {l : Bytes} (hl : i.stream.dropWhile isBlankByte = cr :: d :: l)
    (hd : d ≠ newline) : i.afterBlank.2.stream = cr :: l := by
  rw [i.afterBlank_eq hl, if_pos List.head?_cons, List.tail_cons, if_neg (by simpa using hd)]
  rfl

end In

/-- **The end of an argument at a blank**, where no character is lost. -/
theorem afterBlank_scan {i : In} {syms : List Sym} (hlex : lex i.stream = some syms) (hdrop : dropsByte syms = false)
    (hcr : crBehind (.blank :: syms) = false) :
    i.afterBlank.1 = decide (stopBlank syms ≠ .continued) ∧
      ∃ syms', lex i.afterBlank.2.stream = some syms' ∧ dropsByte syms' = false ∧ scan none syms' = scan none syms := by
  have hblanks := lex_dropWhile hlex
  have hdrops := dropsByte_dropWhile hdrop
  have hscan := scan_dropWhile syms
  have hbehind : ∀ s r, syms.dropWhile (· = .blank) ≠ .cr :: s :: r := by
    intro s r hs
    have hdw : (Sym.blank :: syms).dropWhile (· = .blank) = .cr :: s :: r := hs
    rw [crBehind, hdw] at hcr
    cases hcr
  rw [stopBlank]
  generalize hl : i.stream.dropWhile isBlankByte = l at hblanks
  generalize syms.dropWhile (· = .blank) = rest at hblanks hdrops hscan hbehind
  have hend := i.afterBlank_eq hl
  cases l with
  | nil =>
    rw [lex] at hblanks
    cases hblanks
    rw [hend]
    exact ⟨rfl, [], by rw [← lex_nil_iff.2 rfl]; rfl, rfl, hscan⟩
  | cons c l =>
    by_cases hc : c = cr
    · subst hc
      rw [if_pos (List.head?_cons)] at hend
      obtain ⟨s, l', rest', hr, hrest', rfl⟩ := lex_inv hblanks
      rw [lexStep_cr] at hr
      by_cases hnl : l.head? = some newline
      · rw [if_pos hnl] at hr
        cases hr
        rw [hend, List.tail_cons, if_pos hnl]
        exact ⟨rfl, rest', hrest', dropsByte_tail hdrops, hscan⟩
      · rw [if_neg hnl] at hr
        cases hr
        -- nothing is behind the carriage return
        cases rest' with
        | cons s r => exact absurd rfl (hbehind s r)
        | nil =>
          have hnil := lex_nil_iff.1 hrest'
          subst hnil
          rw [hend]
          exact ⟨rfl, [.cr], hblanks, rfl, hscan⟩
    · rw [List.head?_cons, if_neg (by simpa using hc)] at hend
      by_cases hnl : c = newline
      · subst hnl
        obtain ⟨s, l', rest', hr, hrest', rfl⟩ := lex_inv hblanks
        cases hr
        rw [hend]
        exact ⟨rfl, rest', hrest', dropsByte_tail hdrops, hscan⟩
      · rw [if_neg (by simpa using hnl)] at hend
        have hb : ¬ isBlankByte c = true := by
          have := List.head?_dropWhile_not isBlankByte i.stream
          rw [hl] at this
          simpa using this
        obtain ⟨s, rest', rfl, hs⟩ := lex_text hblanks hc hnl hb
        rw [hend]
        refine ⟨?_, _, hblanks, hdrops, hscan⟩
        cases s <;> first | rfl | cases hs

/-- **An argument is read as it should be**, where no character is lost. -/
theorem tokenLoop_scan (sep : ℤ) {i : In} {syms : List Sym} (hlex : lex i.stream = some syms) (w : Option Bytes)
    (hdrop : dropsByte syms = false) (hcr : w.isSome = true → crBehind syms = false) :
    (scan w syms = [] → (tokenLoop .blanks sep i w.isSome (w.getD [])).1 = .eof) ∧
    ∀ a as, scan w syms = a :: as → ∃ i' syms',
      tokenLoop .blanks sep i w.isSome (w.getD []) = (.arg a.bytes a.counted, i') ∧
        lex i'.stream = some syms' ∧ dropsByte syms' = false ∧ scan none syms' = as := by
  induction hn : i.stream.length using Nat.strong_induction_on generalizing i syms w with
  | _ n ih =>
    cases hs : i.stream with
    | nil =>
      have hnext : i.next .blanks = (none, ⟨none, []⟩) := In.getcNl_nil hs
      rw [hs, lex] at hlex
      cases hlex
      rw [tokenLoop, hnext]
      cases w with
      | none => exact ⟨fun _ => rfl, fun a as h => by cases h⟩
      | some w =>
        refine ⟨fun h => by (cases h), fun a as h => ?_⟩
        cases h
        exact ⟨_, [], rfl, by rw [← lex_nil_iff.2 rfl]; rfl, rfl, rfl⟩
    | cons c l =>
      rw [hs] at hlex
      obtain ⟨s, l', rest, hr, hrest, rfl⟩ := lex_inv hlex
      obtain ⟨i', hi', hstep⟩ := @tokenLoop_step sep c i l (s, l') hs hr w.isSome (w.getD [])
      have hlt : i'.stream.length < n := by
        rw [hi', ← hn, hs]
        exact Nat.lt_succ_of_le (lexStep_length hr)
      have hrest' : lex i'.stream = some rest := by rw [hi']; exact hrest
      have hdrop' := dropsByte_tail hdrop
      have htext : s.isSep = false → tokenLoop .blanks sep i w.isSome (w.getD []) =
          tokenLoop .blanks sep i' true (w.getD [] ++ s.bytes) := by
        intro hsep
        rw [hstep]
        cases s <;> first | rfl | cases hsep
      have hnone : s.isSep = true → w = none → tokenLoop .blanks sep i w.isSome (w.getD []) =
          tokenLoop .blanks sep i' false [] := by
        rintro hsep rfl
        rw [hstep]
        cases s <;> first | rfl | cases hsep
      cases hsep : s.isSep with
      | false =>
        rw [htext hsep, scan_text hsep]
        refine ih _ hlt hrest' (some _) hdrop' (fun _ => ?_) rfl
        have := (Bool.or_eq_false_iff.1 hdrop).1
        rwa [hsep, Bool.not_false, Bool.true_and] at this
      | true =>
        cases w with
        | none =>
          rw [hnone hsep rfl, scan_sep hsep]
          exact ih _ hlt hrest' none hdrop' (fun h => by cases h) rfl
        | some w =>
          rw [hstep]
          cases s with
          | chars _ => cases hsep
          | cr => cases hsep
          | newline =>
            refine ⟨fun h => by (cases h), fun a as h => ?_⟩
            cases h
            exact ⟨i', rest, rfl, hrest', hdrop', rfl⟩
          | blank =>
            obtain ⟨heol, syms', hsyms', hdrop'', hscan⟩ := afterBlank_scan hrest' hdrop' (hcr rfl)
            refine ⟨fun h => by (cases h), fun a as h => ?_⟩
            cases h
            exact ⟨i'.afterBlank.2, syms', by rw [Arg.counted, ← heol]; rfl, hsyms', hdrop'', hscan⟩

end Shish.Xargs
