import Shish.Arith.Rules

/-!
# Arith/Literal — integer literals in text

A decimal literal starts with a digit that is not 0, or is a single 0; an octal one starts with a 0
and more digits; a hexadecimal one with `0x` or `0X`.  The loop of `parse_arith_value` reads all of
them but for three slips: it knows no `X`, it keeps at most `FMT_LONG` digits, and a 0 behind `0x`
is looked at like a first digit once more.
-/

namespace Shish

/-- An integer literal. -/
inductive Literal
  | dec (ds : Str)
  | oct (ds : Str)
  | hex (upper : Bool) (ds : Str)
deriving DecidableEq, Repr

namespace Literal

/-- What it looks like. -/
def text : Literal → Str
  | dec ds => ds
  | oct ds => '0' :: ds
  | hex upper ds => '0' :: (if upper then 'X' else 'x') :: ds

/-- Its base. -/
def base : Literal → ℕ
  | dec _ => 10
  | oct _ => 8
  | hex _ _ => 16

/-- Its number. -/
def value : Literal → ℕ
  | dec ds => digits 10 0 ds
  | oct ds => digits 8 0 ds
  | hex _ ds => digits 16 0 ds

/-- No digits lead in vain. -/
def short (ds : Str) : Bool := ds.head? != some '0' || ds == ['0']

/-- Digits of the base, and no 0 in front of a decimal literal. -/
def Written : Literal → Prop
  | dec ds => ds ≠ [] ∧ (∀ c ∈ ds, parseIsdigit c) ∧ short ds
  | oct ds => ds ≠ [] ∧ ∀ c ∈ ds, parseIsodigit c
  | hex _ ds => ds ≠ [] ∧ ∀ c ∈ ds, parseIsxdigit c

instance : DecidablePred Written
  | dec ds => decidable_of_iff (ds ≠ [] ∧ ds.all parseIsdigit ∧ short ds) (by simp [Written])
  | oct ds => decidable_of_iff (ds ≠ [] ∧ ds.all parseIsodigit) (by simp [Written])
  | hex _ ds => decidable_of_iff (ds ≠ [] ∧ ds.all parseIsxdigit) (by simp [Written])

/-- A literal: its number is one that a signed word holds. -/
def Valid (l : Literal) : Prop := l.Written ∧ l.value < 2 ^ 63

instance : DecidablePred Valid := fun _ => inferInstanceAs (Decidable (_ ∧ _))

/-- What the scanner of the base takes without a digit left over. -/
def bound : Literal → ℕ
  | dec _ => 2 ^ 63
  | _ => 2 ^ 64

theorem Valid.lt_bound {l : Literal} (h : l.Valid) : l.value < l.bound := by
  have := h.2
  cases l <;> simp only [bound] <;> omega

/-- The literals that are read as they are. -/
def readable : Literal → Bool
  | dec ds => ds.length ≤ fmtLong
  | oct ds => ds.length < fmtLong
  | hex upper ds => !upper && short ds && ds.length ≤ fmtLong

end Literal

/-! ## The loop -/

section Loop

variable {r : Str}

/-- What may follow a number. -/
def endsNum (r : Str) : Prop :=
  ∀ c, (Source.ofStr r).peek = some c → parseIsdigit c = false ∧ parseIsalpha c = false

theorem isalpha_of_isxdigit {c : Char} (h : parseIsxdigit c) (hd : parseIsdigit c = false) :
    parseIsalpha c := by
  simp only [parseIsxdigit, parseIsalpha, parseIslower, parseIsupper, Bool.or_eq_true,
    Bool.and_eq_true, decide_eq_true_eq, char_le_iff, Char.reduceToNat, hd, Bool.false_eq_true,
    false_or] at h ⊢
  omega

theorem isalpha_of_isdigit {c : Char} (h : parseIsdigit c) : parseIsalpha c = false := by
  simp only [parseIsdigit, Bool.and_eq_true, decide_eq_true_eq, char_le_iff, Char.reduceToNat] at h
  simp only [parseIsalpha, parseIslower, parseIsupper, Bool.or_eq_false_iff,
    Bool.and_eq_false_iff, decide_eq_false_iff_not, char_le_iff, Char.reduceToNat]
  omega

theorem not_inBase {c : Char} (h : parseIsdigit c = false ∧ parseIsalpha c = false) (base : ℕ) :
    inBase base c = false := by
  have ho : parseIsodigit c = false := by
    by_contra ho
    exact absurd (isdigit_of_isodigit (by simpa using ho)) (by simp [h.1])
  have hx : parseIsxdigit c = false := by
    by_contra hx
    exact absurd (isalpha_of_isxdigit (by simpa using hx) h.1) (by simp [h.2])
  simp [inBase, h.1, ho, hx]

theorem ne_backslash_of_isxdigit {c : Char} (h : parseIsxdigit c) : c ≠ '\\' := by
  rintro rfl
  exact absurd h (by decide)

theorem isxdigit_of_inBase {base : ℕ} {c : Char} (h : inBase base c) : parseIsxdigit c := by
  have hd : ∀ {c}, parseIsdigit c → parseIsxdigit c := fun h => by simp [parseIsxdigit, h]
  unfold inBase at h
  split_ifs at h
  · exact h
  · exact hd (isdigit_of_isodigit h)
  · exact hd h

example (x : Str) (c : Char) (s : Source) : numLoop 0 x 10 c s = (x, 10, s) := by rw [numLoop]

/-- Once it is past a leading 0 the loop reads digits of its base, as many as it can keep. -/
theorem numLoop_take (base : ℕ) (hr : endsNum r) : ∀ (ds : Str) (n : ℕ) (x : Str) (c : Char),
    inBase base c → (∀ d ∈ ds, inBase base d) → x ++ [c] ≠ ['0'] → x.length < fmtLong →
    ds.length < n → numLoop n x base c (Source.ofStr (c :: ds ++ r)) =
      (x ++ (c :: ds).take (fmtLong - x.length), base,
        Source.ofStr ((c :: ds).drop (fmtLong - x.length) ++ r))
  | [], n + 1, x, c, hc, _, hx, hlen, _ => by
      have hb := ne_backslash_of_isxdigit (isxdigit_of_inBase hc)
      have htake : (c :: []).length ≤ fmtLong - x.length := by
        simp only [List.length_cons, List.length_nil]
        omega
      rw [List.take_of_length_le htake, List.drop_of_length_le htake]
      simp only [numLoop, List.cons_append, List.nil_append, Source.skip_cons hb, if_neg hx]
      split
      · rfl
      · next d hd => simp [not_inBase (hr d hd)]
  | d :: ds, n + 1, x, c, hc, hds, hx, hlen, hn => by
      have hb := ne_backslash_of_isxdigit (isxdigit_of_inBase hc)
      have hd := hds d (.head _)
      have hbd := ne_backslash_of_isxdigit (isxdigit_of_inBase hd)
      have hne : x ++ [c] ++ [d] ≠ ['0'] := by
        intro h
        have := congrArg List.length h
        simp at this
      obtain ⟨k, hk⟩ : ∃ k, fmtLong - x.length = k + 1 := ⟨fmtLong - x.length - 1, by omega⟩
      have hk' : fmtLong - (x ++ [c]).length = k := by
        rw [List.length_append, List.length_singleton]
        omega
      simp only [numLoop, List.cons_append, Source.skip_cons hb, Source.peek_cons hbd, if_neg hx,
        hd, Bool.true_and, decide_eq_true_eq]
      rw [hk, List.take_succ_cons, List.drop_succ_cons]
      split
      · next hlt =>
        have ih := numLoop_take _ hr ds n (x ++ [c]) d hd (fun e he => hds e (.tail _ he)) hne hlt
          (by simpa using hn)
        rw [hk', List.cons_append] at ih
        simpa using ih
      · next hlt =>
        obtain rfl : k = 0 := by omega
        rfl

/-- Digits that can all be kept are read. -/
theorem numLoop_digits (base : ℕ) (hr : endsNum r) (ds : Str) (n : ℕ) (x : Str) (c : Char)
    (hc : inBase base c) (hds : ∀ d ∈ ds, inBase base d) (hx : x ++ [c] ≠ ['0'])
    (hlen : (x ++ c :: ds).length ≤ fmtLong) (hn : ds.length < n) :
    numLoop n x base c (Source.ofStr (c :: ds ++ r)) = (x ++ c :: ds, base, Source.ofStr r) := by
  have hle : (c :: ds).length ≤ fmtLong - x.length := by
    rw [List.length_append] at hlen
    omega
  have hlt : x.length < fmtLong := by
    rw [List.length_append, List.length_cons] at hlen
    omega
  rw [numLoop_take base hr ds n x c hc hds hx hlt hn, List.take_of_length_le hle,
    List.drop_of_length_le hle, List.nil_append]

/-- The loop on a single 0. -/
theorem numLoop_zero {base n : ℕ} (hr : endsNum r) :
    numLoop (n + 1) [] base '0' (Source.ofStr ('0' :: r)) = (['0'], base, Source.ofStr r) := by
  simp only [numLoop, List.nil_append, Source.skip_cons (show '0' ≠ '\\' by decide)]
  split
  · rfl
  · next c hc =>
    have h := hr c hc
    have hx : c ≠ 'x' := by
      rintro rfl
      exact absurd h.2 (by decide)
    have ho : parseIsodigit c = false := by
      by_contra ho
      exact absurd (isdigit_of_isodigit (by simpa using ho)) (by simp [h.1])
    simp [h.2, hx, ho, not_inBase h]

end Loop

/-! ## Reading a literal -/

section Read

variable {ω : Type} {O : Operands ω} {r : Str}

/-- Behind the leading 0 of an octal literal. -/
theorem numLoop_oct {d : Char} {ds : Str} {n : ℕ} (hr : endsNum r)
    (hd : ∀ c ∈ d :: ds, parseIsodigit c) (hlen : (d :: ds).length < fmtLong)
    (hn : ds.length < n) :
    numLoop (n + 1) [] 10 '0' (Source.ofStr ('0' :: (d :: ds) ++ r)) =
      ('0' :: d :: ds, 8, Source.ofStr r) := by
  have h8 : ∀ c ∈ d :: ds, inBase 8 c := fun c hc => hd c hc
  have ho := hd d (.head _)
  have hdig := isdigit_of_isodigit ho
  have hb : d ≠ '\\' := ne_backslash_of_isxdigit (isxdigit_of_inBase (h8 d (.head _)))
  have hx : d ≠ 'x' := by
    rintro rfl
    exact absurd ho (by decide)
  have ha := isalpha_of_isdigit hdig
  have h10 : inBase 10 d := hdig
  have hne : ['0'] ++ [d] ≠ ['0'] := by
    intro h
    cases h
  have ih := numLoop_digits 8 hr ds n ['0'] d (h8 d (.head _))
    (fun c hc => h8 c (.tail _ hc)) hne hlen hn
  simp only [numLoop, List.nil_append, List.cons_append,
    Source.skip_cons (show '0' ≠ '\\' by decide), Source.peek_cons hb, if_true, hx, ho, ha, h10,
    if_false, Bool.false_eq_true]
  simpa using ih

/-- A letter behind the 0 in front goes with it. -/
theorem numLoop_letter {d x : Char} {t : Str} {n : ℕ} (hx : x = 'x' ∨ x = 'X') (hd : parseIsxdigit d) :
    numLoop (n + 1) [] 10 '0' (Source.ofStr ('0' :: x :: d :: t)) =
      numLoop n [] (if x = 'x' then 16 else 10) d (Source.ofStr (d :: t)) := by
  have hb := ne_backslash_of_isxdigit hd
  rcases hx with rfl | rfl
  · simp [numLoop, Source.skip_cons, Source.peek_cons, hb, show parseIsalpha 'x' by decide]
  · simp [numLoop, Source.skip_cons, Source.peek_cons, hb, show parseIsalpha 'X' by decide,
      show parseIsodigit 'X' = false by decide]

/-- Behind the `0x` of a hexadecimal literal. -/
theorem numLoop_hex {d : Char} {ds : Str} {n : ℕ} (hr : endsNum r)
    (hd : ∀ c ∈ d :: ds, parseIsxdigit c) (hs : Literal.short (d :: ds))
    (hlen : (d :: ds).length ≤ fmtLong) (hn : ds.length < n) :
    numLoop (n + 1) [] 10 '0' (Source.ofStr ('0' :: 'x' :: (d :: ds) ++ r)) =
      (d :: ds, 16, Source.ofStr r) := by
  have h16 : ∀ c ∈ d :: ds, inBase 16 c := fun c hc => hd c hc
  rw [List.cons_append, List.cons_append, List.cons_append, numLoop_letter (.inl rfl) (hd d (.head _)), if_pos rfl,
    ← List.cons_append]
  by_cases h0 : d = '0'
  · subst h0
    obtain rfl : ds = [] := by simpa [Literal.short] using hs
    obtain ⟨m, rfl⟩ : ∃ m, n = m + 1 := ⟨n - 1, by simp at hn; omega⟩
    exact numLoop_zero hr
  · exact numLoop_digits _ hr ds n [] d (h16 d (.head _)) (fun c hc => h16 c (.tail _ hc))
      (by simpa using h0) hlen hn

/-- **A readable literal is read.** -/
theorem value_literal {l : Literal} (hw : l.Written) (hlt : l.value < l.bound) (hl : l.readable)
    (hr : endsNum r) :
    Gives (parseArithValue O) (Source.ofStr (l.text ++ r))
      (.num (UInt64.ofNat l.value).toInt64 l.base, Source.ofStr r) := by
  cases l with
  | dec ds =>
    obtain ⟨hne, hd, hs⟩ := hw
    have hscan : scanBase 10 ds = some (UInt64.ofNat (digits 10 0 ds)).toInt64 := by
      simp [scanBase, scanLonglong_eq hne hd hlt]
    obtain ⟨c, t, rfl⟩ := List.exists_cons_of_ne_nil hne
    have h10 : ∀ c' ∈ c :: t, inBase 10 c' := fun c' hc' => hd c' hc'
    have hb : c ≠ '\\' := ne_backslash_of_isxdigit (isxdigit_of_inBase (h10 c (.head _)))
    refine value_num (Source.peek_cons hb) (hd c (.head _)) ?_ hscan
    by_cases h0 : c = '0'
    · subst h0
      obtain rfl : t = [] := by simpa [Literal.short] using hs
      exact numLoop_zero hr
    · refine numLoop_digits _ hr t _ [] c (h10 c (.head _)) (fun d hd' => h10 d (.tail _ hd'))
        (by simpa using h0) (by simpa [Literal.readable] using hl) ?_
      simp [Source.ofStr, Literal.text]
      omega
  | oct ds =>
    obtain ⟨hne, hd⟩ := hw
    have hscan : scanBase 8 ('0' :: ds) = some (UInt64.ofNat (digits 8 0 ds)).toInt64 := by
      have h := scan8longlongGo_eq ('0' :: ds) 0 0 (by
        intro c hc
        rcases List.mem_cons.1 hc with rfl | hc
        · decide
        · exact hd c hc) (by
        exact hlt)
      simp only [scanBase, scan8longlong, h, if_true]
      rfl
    obtain ⟨c, t, rfl⟩ := List.exists_cons_of_ne_nil hne
    refine value_num (Source.peek_cons (by decide)) (by decide) ?_ hscan
    refine numLoop_oct hr hd (by simpa [Literal.readable] using hl) ?_
    simp [Source.ofStr, Literal.text]
    omega
  | hex upper ds =>
    obtain ⟨hne, hd⟩ := hw
    simp only [Literal.readable, Bool.and_eq_true, Bool.not_eq_true', decide_eq_true_eq] at hl
    obtain ⟨⟨rfl, hs⟩, hlen⟩ := hl
    have hscan : scanBase 16 ds = some (UInt64.ofNat (digits 16 0 ds)).toInt64 := by
      have h := scanXlonglongGo_eq ds 0 0 hd hlt
      simp only [scanBase, scanXlonglong, h, if_true, if_neg (show ¬16 = 8 by decide)]
      rfl
    obtain ⟨c, t, rfl⟩ := List.exists_cons_of_ne_nil hne
    refine value_num (Source.peek_cons (by decide)) (by decide) ?_ hscan
    refine numLoop_hex hr hd hs hlen ?_
    simp [Source.ofStr, Literal.text]
    omega

end Read

end Shish
