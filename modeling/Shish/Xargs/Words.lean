import Shish.Lib.Bytes
import Shish.Lib.Chop

/-!
# Xargs/Words — the arguments and the lines of an input

What the input of `xargs` stands for, apart from how it is read: quotes and backslashes are taken away first, and
then blanks and newlines separate the arguments (`words`).  A newline with a blank before it does not end the line
(`lines`).  `scan` goes through it once and keeps, for each argument, what stands behind it.
-/

namespace Shish.Xargs

/-- `'\r'`. -/
def cr : UInt8 := '\r'.toUInt8

/-- `'\\'`. -/
def backslash : UInt8 := '\\'.toUInt8

/-- A quote. -/
def isQuote (c : UInt8) : Bool := c == '\''.toUInt8 || c == '"'.toUInt8

/-! ## What is read -/

/-- The input without its quotes and backslashes. -/
inductive Sym
  /-- Characters of an argument; between two quotes there can be none. -/
  | chars (b : Bytes)
  /-- A carriage return that is not protected; before a newline it is part of it. -/
  | cr
  | blank
  | newline
  deriving DecidableEq

/-- What separates arguments. -/
def Sym.isSep : Sym → Bool
  | blank | newline => true
  | _ => false

/-- The characters it adds to its argument. -/
def Sym.bytes : Sym → Bytes
  | chars b => b
  | cr => [Xargs.cr]
  | _ => []

/-- What is between two quotes, and what is behind them; there is no newline between them. -/
def quoted (q : UInt8) : Bytes → Option (Bytes × Bytes)
  | [] => none
  | c :: l =>
      if c = q then some ([], l)
      else if c = Shish.newline then none
      else (quoted q l).map fun r => (c :: r.1, r.2)

/-- One thing that is read, which begins with `c`; `none` for a quote that is not matched. -/
def lexStep (c : UInt8) (l : Bytes) : Option (Sym × Bytes) :=
  if c = backslash then some (.chars [l.headD c], l.tail)
  else if isQuote c then (quoted c l).map fun r => (.chars r.1, r.2)
  else if c = cr then
    if l.head? = some Shish.newline then some (.newline, l.tail) else some (.cr, l)
  else if c = Shish.newline then some (.newline, l)
  else if isBlankByte c then some (.blank, l)
  else some (.chars [c], l)

example : quoted 34 [34, 98] = some ([], [98]) := by simp [quoted]

theorem quoted_length {q : UInt8} {l : Bytes} {r : Bytes × Bytes} (h : quoted q l = some r) :
    r.2.length < l.length := by
  induction l generalizing r with
  | nil => cases h
  | cons c l ih =>
    rw [quoted] at h
    split_ifs at h
    · cases h
      exact Nat.lt_succ_self _
    · obtain ⟨r', hr', rfl⟩ := Option.map_eq_some_iff.1 h
      exact Nat.lt_succ_of_lt (@ih r' hr')

theorem lexStep_length {c : UInt8} {l : Bytes} {r : Sym × Bytes} (h : lexStep c l = some r) :
    r.2.length ≤ l.length := by
  rw [lexStep] at h
  split_ifs at h
  · cases h
    rw [List.length_tail]
    exact Nat.sub_le _ _
  · obtain ⟨r', hr', rfl⟩ := Option.map_eq_some_iff.1 h
    exact (quoted_length hr').le
  all_goals cases h
  · rw [List.length_tail]
    exact Nat.sub_le _ _
  all_goals exact Nat.le_refl _

/-- **What is read**; `none` if a quote is not matched. -/
def lex : Bytes → Option (List Sym)
  | [] => some []
  | c :: l =>
      match _h : lexStep c l with
      | none => none
      | some r => (lex r.2).map (r.1 :: ·)
termination_by l => l.length
decreasing_by exact Nat.lt_succ_of_le (lexStep_length _h)

theorem lex_cons (c : UInt8) (l : Bytes) :
    lex (c :: l) = (lexStep c l).bind fun r => (lex r.2).map (r.1 :: ·) := by
  rw [lex]
  split <;> simp_all

/-! ## Arguments and lines -/

/-- The arguments: what stands between blanks and newlines, where something does. -/
def words (syms : List Sym) : List Bytes :=
  ((syms.splitOnP Sym.isSep).filter (· ≠ [])).map (·.flatMap Sym.bytes)

/-- The lines; a newline behind a blank does not end the line.  `b` is whether a blank stands before. -/
def lines : Bool → List Sym → List (List Sym)
  | _, [] => [[]]
  | b, .newline :: r => if b then consHead .newline (lines true r) else [] :: lines false r
  | _, s :: r => consHead s (lines (s = .blank) r)

/-- The arguments of each line that has some. -/
def argLines (syms : List Sym) : List (List Bytes) := ((lines false syms).map words).filter (· ≠ [])

/-! ## In one go -/

/-- What stands behind an argument. -/
inductive Stop
  /-- The end of its line. -/
  | line
  /-- Blanks, and a newline that does not end the line. -/
  | continued
  /-- Blanks, and another argument on the same line. -/
  | inside
  deriving DecidableEq

/-- An argument, and what stands behind it. -/
structure Arg where
  bytes : Bytes
  stop : Stop

/-- What stands behind an argument, with a blank right behind it. -/
def stopBlank (syms : List Sym) : Stop :=
  match syms.dropWhile (· = .blank) with
  | [] => .line
  | .newline :: _ => .continued
  | _ => .inside

/-- **The arguments, and what stands behind each**; `w` is one that has begun. -/
def scan : Option Bytes → List Sym → List Arg
  | none, [] => []
  | some w, [] => [⟨w, .line⟩]
  | none, .newline :: r => scan none r
  | none, .blank :: r => scan none r
  | some w, .newline :: r => ⟨w, .line⟩ :: scan none r
  | some w, .blank :: r => ⟨w, stopBlank r⟩ :: scan none r
  | w, .chars b :: r => scan (some (w.getD [] ++ b)) r
  | w, .cr :: r => scan (some (w.getD [] ++ [cr])) r

/-- The end of the line is behind it. -/
def Arg.ends (a : Arg) : Bool := a.stop = .line

/-- No newline is behind it that does not end the line. -/
def Arg.counted (a : Arg) : Bool := a.stop ≠ .continued

/-! ## The words, one after the other -/

/-- The words that go on with one that has begun. -/
def openWords (w : Bytes) (syms : List Sym) : List Bytes :=
  match syms.splitOnP Sym.isSep with
  | [] => [w]
  | g :: gs => (w ++ g.flatMap Sym.bytes) :: (gs.filter (· ≠ [])).map (·.flatMap Sym.bytes)

theorem words_nil : words [] = [] := rfl

theorem openWords_nil (w : Bytes) : openWords w [] = [w] := by simp [openWords]

theorem words_sep {s : Sym} (hs : s.isSep = true) (r : List Sym) : words (s :: r) = words r := by
  simp [words, List.splitOnP_cons_eq_if_modifyHead, hs]

theorem openWords_sep (w : Bytes) {s : Sym} (hs : s.isSep = true) (r : List Sym) :
    openWords w (s :: r) = w :: words r := by
  simp [openWords, words, List.splitOnP_cons_eq_if_modifyHead, hs]

theorem words_text {s : Sym} (hs : s.isSep = false) (r : List Sym) : words (s :: r) = openWords s.bytes r := by
  obtain ⟨g, gs, hg⟩ := List.exists_cons_of_ne_nil (List.splitOnP_ne_nil Sym.isSep r)
  simp [openWords, words, List.splitOnP_cons_eq_if_modifyHead, hs, hg]

theorem openWords_text (w : Bytes) {s : Sym} (hs : s.isSep = false) (r : List Sym) :
    openWords w (s :: r) = openWords (w ++ s.bytes) r := by
  obtain ⟨g, gs, hg⟩ := List.exists_cons_of_ne_nil (List.splitOnP_ne_nil Sym.isSep r)
  simp [openWords, List.splitOnP_cons_eq_if_modifyHead, hs, hg]

theorem openWords_ne_nil (w : Bytes) (syms : List Sym) : openWords w syms ≠ [] := by
  rw [openWords]
  split <;> exact List.cons_ne_nil _ _

/-! ## `scan` finds the arguments -/

theorem scan_text {s : Sym} (hs : s.isSep = false) (w : Option Bytes) (r : List Sym) :
    scan w (s :: r) = scan (some (w.getD [] ++ s.bytes)) r := by
  cases s <;> cases w <;> first | rfl | cases hs

theorem scan_sep {s : Sym} (hs : s.isSep = true) (r : List Sym) : scan none (s :: r) = scan none r := by
  cases s <;> first | rfl | cases hs

/-- **The arguments of `scan` are the words.** -/
theorem scan_words (syms : List Sym) : (scan none syms).map Arg.bytes = words syms ∧
    ∀ w, (scan (some w) syms).map Arg.bytes = openWords w syms := by
  induction syms with
  | nil => exact ⟨rfl, fun w => (openWords_nil w).symm⟩
  | cons s r ih =>
    cases hs : s.isSep with
    | false =>
      constructor
      · rw [scan_text hs, words_text hs]
        exact ih.2 _
      · intro w
        rw [scan_text hs, openWords_text w hs]
        exact ih.2 _
    | true =>
      constructor
      · rw [scan_sep hs, words_sep hs, ih.1]
      · intro w
        rw [openWords_sep w hs, ← ih.1]
        cases s <;> first | rfl | cases hs

/-! ## `scan` finds the lines -/

/-- The arguments of the lines that have some; `b` is whether a blank stands before. -/
def argLinesFrom (b : Bool) (syms : List Sym) : List (List Bytes) := ((lines b syms).map words).filter (· ≠ [])

theorem lines_text (b : Bool) {s : Sym} (hs : s.isSep = false) (r : List Sym) :
    lines b (s :: r) = consHead s (lines false r) := by
  cases s <;> first | rfl | cases hs

theorem lines_blank (b : Bool) (r : List Sym) : lines b (.blank :: r) = consHead .blank (lines true r) := rfl

theorem lines_newline (b : Bool) (r : List Sym) :
    lines b (.newline :: r) = if b then consHead .newline (lines true r) else [] :: lines false r := rfl

theorem lines_cons (b : Bool) (syms : List Sym) : ∃ h t, lines b syms = h :: t := by
  have hcons : ∀ (s : Sym) (gs : List (List Sym)), ∃ h t, consHead s gs = h :: t := by
    intro s gs
    cases gs <;> exact ⟨_, _, rfl⟩
  cases syms with
  | nil => exact ⟨_, _, rfl⟩
  | cons s r =>
    cases s with
    | chars w => exact hcons _ _
    | cr => exact hcons _ _
    | blank => exact hcons _ _
    | newline =>
      rw [lines_newline]
      cases b with
      | true => exact hcons _ _
      | false => exact ⟨_, _, rfl⟩

/-- Behind a blank, the first line has arguments, or there are none. -/
theorem lines_head (r : List Sym) :
    ∃ h t, lines true r = h :: t ∧ (words h = [] → (t.map words).filter (· ≠ []) = []) := by
  induction r with
  | nil => exact ⟨[], [], rfl, fun _ => rfl⟩
  | cons s r ih =>
    obtain ⟨h, t, hlines, hwords⟩ := ih
    cases hs : s.isSep with
    | true =>
      refine ⟨s :: h, t, ?_, fun hnil => hwords ((words_sep hs h).symm.trans hnil)⟩
      cases s with
      | newline => rw [lines_newline, if_pos rfl, hlines, consHead]
      | blank => rw [lines_blank, hlines, consHead]
      | chars _ => cases hs
      | cr => cases hs
    | false =>
      obtain ⟨h', t', hlines'⟩ := lines_cons false r
      refine ⟨s :: h', t', by rw [lines_text true hs, hlines', consHead], fun hnil => ?_⟩
      rw [words_text hs] at hnil
      exact absurd hnil (openWords_ne_nil _ _)

/-- A word in front of the first line. -/
theorem argLinesFrom_blank (w : Bytes) (r : List Sym) {h : List Sym} {t : List (List Sym)}
    (hlines : lines true r = h :: t) :
    (w :: words h) :: (t.map words).filter (· ≠ []) = consHead w (argLinesFrom true r) := by
  obtain ⟨h', t', hlines', hwords⟩ := lines_head r
  rw [hlines] at hlines'
  obtain ⟨rfl, rfl⟩ := List.cons.inj hlines'
  rw [argLinesFrom, hlines, List.map_cons]
  by_cases hnil : words h = []
  · rw [List.filter_cons_of_neg (by simpa using hnil), hwords hnil, hnil, consHead]
  · rw [List.filter_cons_of_pos (by simpa using hnil), consHead]

theorem map_consHead {α β : Type} (f : α → β) (a : α) (gs : List (List α)) :
    (consHead a gs).map (List.map f) = consHead (f a) (gs.map (List.map f)) := by
  cases gs <;> rfl

/-- An argument with the end of its line behind it is one line. -/
theorem chop_line (w : Bytes) (as : List Arg) :
    chop Arg.ends 1 (⟨w, .line⟩ :: as) = [⟨w, .line⟩] :: chop Arg.ends 1 as := by
  have hends : (⟨w, .line⟩ : Arg).ends = true := rfl
  rw [chop_one_cons, if_pos hends]

/-- Behind the last argument there are only blanks. -/
theorem scan_of_line {r : List Sym} (h : stopBlank r = .line) : scan none r = [] := by
  induction r with
  | nil => rfl
  | cons s r ih =>
    rw [stopBlank, List.dropWhile_cons] at h
    cases s with
    | blank =>
      rw [if_pos (decide_eq_true rfl)] at h
      exact ih h
    | newline => cases h
    | chars _ => cases h
    | cr => cases h

/-- **`scan`'s arguments, cut at the ends of the lines, are the arguments of each line.** -/
theorem scan_lines (syms : List Sym) :
    (∀ b, (chop Arg.ends 1 (scan none syms)).map (List.map Arg.bytes) = argLinesFrom b syms) ∧
    ∀ w h t, lines false syms = h :: t →
      (chop Arg.ends 1 (scan (some w) syms)).map (List.map Arg.bytes) =
        openWords w h :: (t.map words).filter (· ≠ []) := by
  induction syms with
  | nil =>
    refine ⟨fun b => by rw [scan, chop_nil]; rfl, fun w h t hlines => ?_⟩
    obtain ⟨rfl, rfl⟩ := List.cons.inj hlines
    rw [scan, chop_line, chop_nil, openWords_nil]
    rfl
  | cons s r ih =>
    obtain ⟨ih0, ihw⟩ := ih
    cases hs : s.isSep with
    | false =>
      obtain ⟨h', t', hlines'⟩ := lines_cons false r
      constructor
      · intro b
        rw [scan_text hs, argLinesFrom, lines_text b hs, hlines', consHead, List.map_cons, words_text hs,
          List.filter_cons_of_pos (by simpa using openWords_ne_nil _ _)]
        exact ihw _ h' t' hlines'
      · intro w h t hlines
        rw [lines_text false hs, hlines', consHead] at hlines
        obtain ⟨rfl, rfl⟩ := List.cons.inj hlines
        rw [scan_text hs, openWords_text w hs]
        exact ihw _ h' t' hlines'
    | true =>
      have hjoin : ∀ h t, lines true r = h :: t →
          argLinesFrom true r = ((words (s :: h)) :: t.map words).filter (· ≠ []) := by
        intro h t hlines
        rw [argLinesFrom, hlines, words_sep hs, List.map_cons]
      obtain ⟨h', t', hlines'⟩ := lines_cons true r
      constructor
      · intro b
        rw [scan_sep hs]
        cases s with
        | newline =>
          cases b with
          | true => rw [ih0 true, hjoin h' t' hlines', argLinesFrom, lines_newline, if_pos rfl, hlines', consHead, List.map_cons]
          | false => rw [ih0 false]; rfl
        | blank => rw [ih0 true, hjoin h' t' hlines', argLinesFrom, lines_blank, hlines', consHead, List.map_cons]
        | chars _ => cases hs
        | cr => cases hs
      · intro w h t hlines
        cases s with
        | newline =>
          obtain ⟨rfl, rfl⟩ := List.cons.inj hlines
          rw [scan, chop_line, List.map_cons, ih0 false, openWords_nil]
          rfl
        | blank =>
          rw [lines_blank, hlines', consHead] at hlines
          obtain ⟨rfl, rfl⟩ := List.cons.inj hlines
          have hcons : chop Arg.ends 1 (scan (some w) (.blank :: r)) =
              consHead ⟨w, stopBlank r⟩ (chop Arg.ends 1 (scan none r)) := by
            rw [scan, chop_one_cons]
            split_ifs with hends
            · rw [scan_of_line (by simpa [Arg.ends] using hends), chop_nil, consHead]
            · rfl
          rw [hcons, map_consHead, ih0 true, openWords_sep w rfl, argLinesFrom_blank w r hlines']
        | chars _ => cases hs
        | cr => cases hs

end Shish.Xargs
