import Mathlib.Data.Nat.Digits.Lemmas
import Shish.Fmt

/-!
# Builtin/Printf — the integer conversions of `printf`

`printf_parse_spec` reads flags, width and precision, `printf_emit_numeric` puts a number into its field.  `cText` is
what C says about the same conversion: digits first, then the field.  The two agree but for `#` with `%o`, which is
carried out by raising the precision: that turns off padding with zeros, and has no effect on the number 0
(`printf_c_iff`).
-/

namespace Shish.Printf

/-! ## Arguments -/

def isspace (c : Char) : Bool := c == ' ' || ('\t' ≤ c && c ≤ '\r')

/-- What `strtoll` and `strtoull` read with base 0: whether there is a minus sign, and the number behind it. -/
def strtoNumber (s : Str) : Bool × ℕ :=
  let s := s.dropWhile isspace
  let t := if s.head? = some '-' ∨ s.head? = some '+' then s.drop 1 else s
  let hex := t.head? = some '0' ∧ (t.getD 1 ' ' = 'x' ∨ t.getD 1 ' ' = 'X') ∧ parseIsxdigit (t.getD 2 ' ') = true
  (s.head? = some '-',
    if hex then digits 16 0 ((t.drop 2).takeWhile parseIsxdigit)
    else if t.head? = some '0' then digits 8 0 (t.takeWhile parseIsodigit)
    else digits 10 0 (t.takeWhile parseIsdigit))

/-- `strtoll(s, &end, 0)`. -/
def strtoll (s : Str) : Int64 :=
  let (neg, n) := strtoNumber s
  if neg then if n ≤ 2 ^ 63 then .ofInt (-n) else .ofInt (-2 ^ 63)
  else if n < 2 ^ 63 then .ofNat n else .ofNat (2 ^ 63 - 1)

/-- `strtoull(s, &end, 0)`. -/
def strtoull (s : Str) : UInt64 :=
  let (neg, n) := strtoNumber s
  if n < 2 ^ 64 then if neg then -.ofNat n else .ofNat n else .ofNat (2 ^ 64 - 1)

/-- `printf_arg`: an argument, and those behind it; a missing one is empty. -/
def printfArg : List Str → Str × List Str
  | [] => ([], [])
  | s :: args => (s, args)

/-- `s[0] == '\'' || s[0] == '"'`. -/
def quoted (s : Str) : Bool := s.head? == some '\'' || s.head? == some '"'

/-- `(unsigned char)s[1]`. -/
def quotedChar (s : Str) : ℕ := (s.getD 1 '\x00').toNat % 256

/-- `printf_arg_long`, without what it reports about the argument. -/
def printfArgLong (args : List Str) : Int64 × List Str :=
  let (s, args) := printfArg args
  (if quoted s then .ofNat (quotedChar s) else strtoll s, args)

/-- `printf_arg_ulong`, likewise. -/
def printfArgUlong (args : List Str) : UInt64 × List Str :=
  let (s, args) := printfArg args
  (if quoted s then .ofNat (quotedChar s) else strtoull s, args)

/-! ## The specification -/

/-- `printf_spec`. -/
structure PrintfSpec where
  left : Bool := false
  zero : Bool := false
  plus : Bool := false
  space : Bool := false
  alt : Bool := false
  width : ℤ := -1
  prec : ℤ := -1

/-- `(int)x`. -/
def toInt (x : ℤ) : ℤ := x.bmod (2 ^ 32)

/-- `printf_parse_flags`. -/
def printfParseFlags (sp : PrintfSpec) : Str → PrintfSpec × Str
  | '-' :: f => printfParseFlags { sp with left := true } f
  | '0' :: f => printfParseFlags { sp with zero := true } f
  | '+' :: f => printfParseFlags { sp with plus := true } f
  | ' ' :: f => printfParseFlags { sp with space := true } f
  | '#' :: f => printfParseFlags { sp with alt := true } f
  | f => (sp, f)

/-- The width, in `printf_parse_spec`. -/
def parseWidth (sp : PrintfSpec) (f : Str) (args : List Str) : PrintfSpec × Str × List Str :=
  if f.head? = some '*' then
    let (w, args) := printfArgLong args
    let sp := if w.toInt < 0 then { sp with left := true, width := toInt (-w.toInt) } else { sp with width := toInt w.toInt }
    (sp, f.drop 1, args)
  else if f.head?.any parseIsdigit then
    let (n, w) := scanUintHead f
    ({ sp with width := toInt w }, f.drop n, args)
  else (sp, f, args)

/-- The precision, in `printf_parse_spec`. -/
def parsePrec (sp : PrintfSpec) (f : Str) (args : List Str) : PrintfSpec × Str × List Str :=
  if f.head? = some '.' then
    let f := f.drop 1
    if f.head? = some '*' then
      let (p, args) := printfArgLong args
      ({ sp with prec := if p.toInt < 0 then -1 else toInt p.toInt }, f.drop 1, args)
    else
      let (n, p) := scanUintHead f
      ({ sp with prec := toInt p }, f.drop n, args)
  else (sp, f, args)

/-- `printf_parse_spec`. -/
def printfParseSpec (f : Str) (args : List Str) : PrintfSpec × Str × List Str :=
  let (sp, f) := printfParseFlags {} f
  let (sp, f, args) := parseWidth sp f args
  parsePrec sp f args

/-- `printf_emit_numeric`. -/
def printfEmitNumeric (sp : PrintfSpec) (sign pre digits : Str) : Str :=
  let none := sp.prec = 0 ∧ digits = ['0']
  let digits' := if none then [] else digits
  let precPad := if none then 0 else if digits.length < sp.prec then sp.prec.toNat - digits.length else 0
  let body := sign.length + pre.length + precPad + digits'.length
  let width := if 0 < sp.width then sp.width.toNat else 0
  let pad := if body < width then width - body else 0
  let zeroPad := sp.zero && !sp.left && sp.prec < 0
  (if !sp.left && !zeroPad then List.replicate pad ' ' else []) ++ sign ++ pre ++
    (if !sp.left && zeroPad then List.replicate pad '0' else []) ++ List.replicate precPad '0' ++ digits' ++
    (if sp.left then List.replicate pad ' ' else [])

/-! ## The conversions -/

/-- `%d` and `%i`. -/
def convertLong (sp : PrintfSpec) (args : List Str) : Str × List Str :=
  let (v, args) := printfArgLong args
  let (sign, uv) :=
    if v < 0 then (['-'], (-(v + 1)).toUInt64 + 1)
    else (if sp.plus then ['+'] else if sp.space then [' '] else [], v.toUInt64)
  (printfEmitNumeric sp sign [] (fmtUlonglong uv), args)

/-- `%u`. -/
def convertUlong (sp : PrintfSpec) (args : List Str) : Str × List Str :=
  let (v, args) := printfArgUlong args
  (printfEmitNumeric sp [] [] (fmtUlonglong v), args)

/-- `%o`. -/
def convertOctal (sp : PrintfSpec) (args : List Str) : Str × List Str :=
  let (v, args) := printfArgUlong args
  let numbuf := fmt8longlong v
  let n := numbuf.length
  let sp := if sp.alt ∧ numbuf.head? ≠ some '0' ∧ sp.prec ≤ n then { sp with prec := n + 1 } else sp
  (printfEmitNumeric sp [] [] numbuf, args)

/-- A letter of `%X`. -/
def upcase (c : Char) : Char := if 'a' ≤ c ∧ c ≤ 'f' then Char.ofNat (c.toNat - 32) else c

/-- `%x` and `%X`. -/
def convertHex (upper : Bool) (sp : PrintfSpec) (args : List Str) : Str × List Str :=
  let (v, args) := printfArgUlong args
  let numbuf := fmtXlonglong v
  let numbuf := if upper then numbuf.map upcase else numbuf
  let pre := if sp.alt ∧ v ≠ 0 then (if upper then ['0', 'X'] else ['0', 'x']) else []
  (printfEmitNumeric sp [] pre numbuf, args)

/-- An integer conversion of `builtin_printf`: what is written, and the arguments behind it. -/
def convert (sp : PrintfSpec) (c : Char) (args : List Str) : Option (Str × List Str) :=
  match c with
  | 'd' | 'i' => some (convertLong sp args)
  | 'u' => some (convertUlong sp args)
  | 'o' => some (convertOctal sp args)
  | 'x' => some (convertHex false sp args)
  | 'X' => some (convertHex true sp args)
  | _ => none

/-- **A directive** of `builtin_printf`, behind its `%`: what is written, and the format and the arguments behind it;
`none` where it is no integer conversion. -/
def printfDirective (f : Str) (args : List Str) : Option (Str × Str × List Str) :=
  let (sp, f, args) := printfParseSpec f args
  match f with
  | [] => none
  | c :: f => (convert sp c args).map fun r => (r.1, f, r.2)

/-! ## What C says -/

inductive Flag
  | left
  | zero
  | plus
  | space
  | alt
  deriving DecidableEq

/-- A width or a precision: a number, or an argument. -/
inductive Field
  | num (ds : Str)
  | arg

inductive Conv
  | d
  | i
  | u
  | o
  | x
  | X
  deriving DecidableEq

/-- **A directive**: its numbers are those of an `int`, and the one of the width does not start like a flag. -/
structure Directive where
  flags : List Flag
  width : Option Field
  prec : Option Field
  conv : Conv
  width_ok : ∀ ds, width = some (.num ds) → (∃ c t, ds = c :: t ∧ c ≠ '0') ∧ (∀ c ∈ ds, parseIsdigit c = true) ∧
    digits 10 0 ds < 2 ^ 31
  prec_ok : ∀ ds, prec = some (.num ds) → (∀ c ∈ ds, parseIsdigit c = true) ∧ digits 10 0 ds < 2 ^ 31

def Flag.char : Flag → Char
  | left => '-'
  | zero => '0'
  | plus => '+'
  | space => ' '
  | alt => '#'

def Field.text : Field → Str
  | num ds => ds
  | arg => ['*']

def Conv.char : Conv → Char
  | d => 'd'
  | i => 'i'
  | u => 'u'
  | o => 'o'
  | x => 'x'
  | X => 'X'

/-- The text of a directive, behind the `%`. -/
def Directive.text (d : Directive) : Str :=
  d.flags.map Flag.char ++ (d.width.elim [] Field.text ++ (d.prec.elim [] (fun p => '.' :: p.text) ++ [d.conv.char]))

/-- A conversion of a signed number. -/
def Conv.signed (c : Conv) : Bool := c = .d ∨ c = .i

def Conv.base : Conv → ℕ
  | o => 8
  | x => 16
  | X => 16
  | _ => 10

/-- The value of a field, and the arguments behind it. -/
def Field.value (args : List Str) : Field → ℤ × List Str
  | num ds => (digits 10 0 ds, args)
  | arg => ((printfArgLong args).1.toInt, (printfArgLong args).2)

/-- A directive with the values of its fields. -/
structure CSpec where
  left : Bool
  zero : Bool
  plus : Bool
  space : Bool
  alt : Bool
  width : ℕ
  prec : Option ℕ

namespace Directive

variable (d : Directive) (args : List Str)

/-- The value of the width; no width is one of 0. -/
def widthValue : ℤ × List Str := d.width.elim (0, args) (Field.value args)

/-- The value of the precision; no precision is a negative one. -/
def precValue : ℤ × List Str := d.prec.elim (-1, (d.widthValue args).2) (Field.value (d.widthValue args).2)

/-- The arguments from the number on. -/
def behind : List Str := (d.precValue args).2

/-- **The values of the fields**: a negative width is a `-` flag and a width, a negative precision is none. -/
def spec : CSpec where
  left := .left ∈ d.flags ∨ (d.widthValue args).1 < 0
  zero := .zero ∈ d.flags
  plus := .plus ∈ d.flags
  space := .space ∈ d.flags
  alt := .alt ∈ d.flags
  width := (d.widthValue args).1.natAbs
  prec := if (d.precValue args).1 < 0 then none else some (d.precValue args).1.toNat

/-- The number that is converted. -/
def value : ℤ :=
  if d.conv.signed then (printfArgLong (d.behind args)).1.toInt else (printfArgUlong (d.behind args)).1.toNat

/-- The values that arguments give to the fields are those of an `int`, whose smallest one is no width. -/
def IntFields : Prop :=
  (-2 ^ 31 < (d.widthValue args).1 ∧ (d.widthValue args).1 < 2 ^ 31) ∧
    -2 ^ 31 ≤ (d.precValue args).1 ∧ (d.precValue args).1 < 2 ^ 31

end Directive

/-- A digit; those above 9 are letters. -/
def digitChar (upper : Bool) (n : ℕ) : Char := if upper then (Nat.digitChar n).toUpper else Nat.digitChar n

/-- **The digits of a number**, at least as many as the precision says; of 0 there are none by itself. -/
def cDigits (upper : Bool) (base prec n : ℕ) : Str :=
  let ds := (Nat.digits base n).reverse.map (digitChar upper)
  List.replicate (prec - ds.length) '0' ++ ds

/-- **A number in its field**: blanks in front of it or behind it, or zeros between the sign or base and the digits. -/
def cLayout (left zero : Bool) (width : ℕ) (pre ds : Str) : Str :=
  let fill := width - (pre.length + ds.length)
  if left then pre ++ ds ++ List.replicate fill ' '
  else if zero then pre ++ List.replicate fill '0' ++ ds
  else List.replicate fill ' ' ++ pre ++ ds

/-- The sign of a signed number. -/
def cSign (s : CSpec) (v : ℤ) : Str := if v < 0 then ['-'] else if s.plus then ['+'] else if s.space then [' '] else []

/-- **What C writes** for a number. -/
def cText (c : Conv) (s : CSpec) (v : ℤ) : Str :=
  let ds := cDigits (c = .X) c.base (s.prec.getD 1) v.natAbs
  -- `#` raises the precision of an octal number if necessary, so that a zero comes first
  let ds := if c = .o ∧ s.alt ∧ ds.head? ≠ some '0' then '0' :: ds else ds
  let pre :=
    if c.signed then cSign s v
    else if s.alt ∧ v ≠ 0 then (if c = .x then ['0', 'x'] else if c = .X then ['0', 'X'] else [])
    else []
  cLayout s.left (s.zero ∧ s.prec = none) s.width pre ds

/-- **Where `printf` is wrong**: `#` with `%o`, of 0 with the precision 0, or where zeros are to fill the field. -/
def OctalFault (d : Directive) (args : List Str) : Prop :=
  let s := d.spec args
  let v := d.value args
  d.conv = .o ∧ s.alt ∧ ((v = 0 ∧ s.prec = some 0) ∨
    (v ≠ 0 ∧ s.zero ∧ s.left = false ∧ s.prec = none ∧ (Nat.digits 8 v.natAbs).length + 1 < s.width))

/-! ## Digits -/

section Digits

variable {base n i : ℕ}

theorem tohex_eq {d : ℕ} (h : d < 16) : tohex d = digitChar false d := by
  revert d
  decide

theorem upcase_tohex {d : ℕ} (h : d < 16) : upcase (tohex d) = digitChar true d := by
  revert d
  decide

/-- **The formatters write the digits.** -/
theorem fmtDigits_eq (hb : 1 < base) (h : i < base ^ n) (h0 : i ≠ 0) :
    fmtDigits base n i = (Nat.digits base i).reverse.map tohex := by
  induction n generalizing i with
  | zero => exact absurd (by simpa using h) h0
  | succ n ih =>
    rw [fmtDigits, Nat.digits_def' hb (Nat.pos_of_ne_zero h0), List.reverse_cons, List.map_append]
    split_ifs with hlt
    · rw [Nat.div_eq_of_lt hlt, Nat.mod_eq_of_lt hlt]
      simp
    · have hdiv : i / base ≠ 0 := by
        rw [Ne, Nat.div_eq_zero_iff]
        omega
      rw [ih (div_lt_pow hb h) hdiv]
      rfl

variable (upper : Bool)

/-- What is in `numbuf`. -/
def numText (base i : ℕ) : Str := if upper then (fmtDigits base 64 i).map upcase else fmtDigits base 64 i

variable {upper}

theorem numText_zero (hb : 1 < base) : numText upper base 0 = ['0'] := by
  have hzero : fmtDigits base 64 0 = ['0'] := by
    rw [fmtDigits, if_pos (by omega)]
    rfl
  rw [numText, hzero]
  cases upper <;> decide

theorem numText_eq (hb : 1 < base) (hb' : base ≤ 16) (h : i < 2 ^ 64) (h0 : i ≠ 0) :
    numText upper base i = (Nat.digits base i).reverse.map (digitChar upper) := by
  have hpow : i < base ^ 64 := h.trans_le (Nat.pow_le_pow_left hb 64)
  have hdigit : ∀ d ∈ (Nat.digits base i).reverse, d < 16 := fun d hd =>
    (Nat.digits_lt_base hb (List.mem_reverse.1 hd)).trans_le hb'
  rw [numText, fmtDigits_eq hb hpow h0]
  cases upper with
  | true =>
    rw [if_pos rfl, List.map_map]
    exact List.map_congr_left fun d hd => upcase_tohex (hdigit d hd)
  | false =>
    rw [if_neg Bool.false_ne_true]
    exact List.map_congr_left fun d hd => tohex_eq (hdigit d hd)

theorem upcase_ne_zero {c : Char} (h : c ≠ '0') : upcase c ≠ '0' := by
  rw [upcase]
  split_ifs with hc
  · have hletters : ∀ n ≤ 102, 97 ≤ n → Char.ofNat (n - 32) ≠ '0' := by decide
    exact hletters c.toNat hc.2 hc.1
  · exact h

/-- No zero comes first. -/
theorem numText_head (hb : 1 < base) (hb' : base ≤ 16) (h : i < 2 ^ 64) (h0 : i ≠ 0) :
    ∃ c t, numText upper base i = c :: t ∧ c ≠ '0' := by
  have hpow : i < base ^ 64 := h.trans_le (Nat.pow_le_pow_left hb 64)
  obtain ⟨c, t, ht, hc⟩ := fmtDigits_head hb hb' hpow h0
  rw [numText, ht]
  cases upper with
  | true => exact ⟨upcase c, t.map upcase, rfl, upcase_ne_zero hc⟩
  | false => exact ⟨c, t, rfl, hc⟩

/-- **Digits to a precision**: zeros in front, and nothing at all for 0 with the precision 0. -/
theorem numText_padded (hb : 1 < base) (hb' : base ≤ 16) (h : i < 2 ^ 64) (prec : ℤ) :
    (if prec = 0 ∧ numText upper base i = ['0'] then [] else
      List.replicate (prec.toNat - (numText upper base i).length) '0' ++ numText upper base i) =
      cDigits upper base (if prec < 0 then 1 else prec.toNat) i := by
  rcases Nat.eq_zero_or_pos i with rfl | hpos
  · have hdigits : cDigits upper base (if prec < 0 then 1 else prec.toNat) 0 =
        List.replicate (if prec < 0 then 1 else prec.toNat) '0' := by
      rw [cDigits, Nat.digits_zero]
      simp
    rw [numText_zero hb, hdigits]
    rcases lt_trichotomy prec 0 with hneg | rfl | hprec
    · rw [if_neg fun h => hneg.ne h.1, if_pos hneg, Int.toNat_of_nonpos hneg.le]
      rfl
    · rw [if_pos ⟨rfl, rfl⟩]
      rfl
    · obtain ⟨k, rfl⟩ := Int.eq_ofNat_of_zero_le hprec.le
      obtain ⟨k, rfl⟩ := Nat.exists_eq_succ_of_ne_zero (show k ≠ 0 by omega)
      rw [if_neg fun h => hprec.ne' h.1, if_neg hprec.not_gt, Int.toNat_natCast, List.replicate_succ']
      rfl
  · obtain ⟨c, t, hct, hc⟩ : ∃ c t, numText upper base i = c :: t ∧ c ≠ '0' := numText_head hb hb' h hpos.ne'
    have hne : ¬(prec = 0 ∧ numText upper base i = ['0']) := by
      rw [hct]
      exact fun h => hc (List.cons.inj h.2).1
    have hlen : 1 ≤ (numText upper base i).length := by
      rw [hct]
      exact Nat.le_add_left ..
    rw [if_neg hne, cDigits, ← numText_eq hb hb' h hpos.ne']
    split_ifs with hneg
    · rw [Int.toNat_of_nonpos hneg.le, Nat.zero_sub, Nat.sub_eq_zero_of_le hlen]
    · rfl

end Digits

/-! ## The field -/

/-- The zeros of the precision and the digits behind them, as `printf_emit_numeric` has them. -/
theorem emitted_eq (prec : ℤ) (ds : Str) :
    let none := prec = 0 ∧ ds = ['0']
    List.replicate (if none then 0 else if ds.length < prec then prec.toNat - ds.length else 0) '0' ++
      (if none then [] else ds) =
    if none then [] else List.replicate (prec.toNat - ds.length) '0' ++ ds := by
  intro none
  by_cases hnone : none
  · rw [if_pos hnone, if_pos hnone, if_pos hnone]
    rfl
  · have hpad : (if ds.length < prec then prec.toNat - ds.length else 0) = prec.toNat - ds.length := by
      split_ifs
      · rfl
      · omega
    rw [if_neg hnone, if_neg hnone, if_neg hnone, hpad]

/-- **`printf_emit_numeric`** puts the sign, the base and the digits into the field. -/
theorem printfEmitNumeric_eq {upper : Bool} {base i : ℕ} (hb : 1 < base) (hb' : base ≤ 16) (h : i < 2 ^ 64)
    (sp : PrintfSpec) (sign pre : Str) : printfEmitNumeric sp sign pre (numText upper base i) =
      cLayout sp.left (sp.zero ∧ sp.prec < 0) sp.width.toNat (sign ++ pre)
        (cDigits upper base (if sp.prec < 0 then 1 else sp.prec.toNat) i) := by
  have hemit := emitted_eq sp.prec (numText upper base i)
  dsimp only at hemit
  rw [← numText_padded hb hb' h, ← hemit, printfEmitNumeric, cLayout]
  generalize (if sp.prec = 0 ∧ numText upper base i = ['0'] then 0
    else if (numText upper base i).length < sp.prec then sp.prec.toNat - (numText upper base i).length else 0) = zeros
  generalize (if sp.prec = 0 ∧ numText upper base i = ['0'] then [] else numText upper base i) = ds
  have hwidth : (if 0 < sp.width then sp.width.toNat else 0) = sp.width.toNat := by
    split_ifs
    · rfl
    · omega
  have hpad : (if sign.length + pre.length + zeros + ds.length < sp.width.toNat then
      sp.width.toNat - (sign.length + pre.length + zeros + ds.length) else 0) =
      sp.width.toNat - ((sign ++ pre).length + (List.replicate zeros '0' ++ ds).length) := by
    rw [List.length_append, List.length_append, List.length_replicate]
    split_ifs <;> omega
  rw [hwidth, hpad]
  generalize sp.width.toNat - ((sign ++ pre).length + (List.replicate zeros '0' ++ ds).length) = fill
  cases hl : sp.left with
  | true => simp
  | false =>
    by_cases hz : sp.zero = true ∧ sp.prec < 0
    · simp only [hz, decide_true, Bool.not_false, Bool.and_true, if_true, Bool.not_true, Bool.and_false,
        Bool.false_eq_true, if_false, List.nil_append, List.append_nil, and_self]
      simp only [List.append_assoc]
    · have hz' : (sp.zero && !false && decide (sp.prec < 0)) = false := by
        rw [Bool.not_false, Bool.and_true, Bool.eq_false_iff, Ne, Bool.and_eq_true, decide_eq_true_eq]
        exact hz
      rw [hz', decide_eq_false hz]
      simp

/-! ## The specification is read -/

section Parse

/-- No flag. -/
def Stops (f : Str) : Prop := ∀ c ∈ f.head?, c ∉ ['-', '0', '+', ' ', '#']

/-- The flags that were there, and those in front. -/
def PrintfSpec.withFlags (sp : PrintfSpec) (fl : List Flag) : PrintfSpec :=
  { sp with
    left := sp.left || decide (Flag.left ∈ fl)
    zero := sp.zero || decide (Flag.zero ∈ fl)
    plus := sp.plus || decide (Flag.plus ∈ fl)
    space := sp.space || decide (Flag.space ∈ fl)
    alt := sp.alt || decide (Flag.alt ∈ fl) }

/-- **Flags are read** in any order, however often. -/
theorem printfParseFlags_eq (fl : List Flag) {f : Str} (hf : Stops f) (sp : PrintfSpec) :
    printfParseFlags sp (fl.map Flag.char ++ f) = (sp.withFlags fl, f) := by
  induction fl generalizing sp with
  | nil =>
    have hsp : sp.withFlags [] = sp := by simp [PrintfSpec.withFlags]
    rw [hsp, List.map_nil, List.nil_append, printfParseFlags.eq_def]
    split
    · exact absurd (hf '-' rfl) (by decide)
    · exact absurd (hf '0' rfl) (by decide)
    · exact absurd (hf '+' rfl) (by decide)
    · exact absurd (hf ' ' rfl) (by decide)
    · exact absurd (hf '#' rfl) (by decide)
    · rfl
  | cons a fl ih =>
    have hstep : ∀ sp', printfParseFlags sp (a.char :: (fl.map Flag.char ++ f)) = printfParseFlags sp' (fl.map Flag.char ++ f) →
        sp'.withFlags fl = sp.withFlags (a :: fl) →
        printfParseFlags sp ((a :: fl).map Flag.char ++ f) = (sp.withFlags (a :: fl), f) := by
      intro sp' hparse hsp
      rw [← hsp, ← ih sp', ← hparse]
      rfl
    cases a with
    | left => exact hstep { sp with left := true } rfl (by simp [PrintfSpec.withFlags])
    | zero => exact hstep { sp with zero := true } rfl (by simp [PrintfSpec.withFlags])
    | plus => exact hstep { sp with plus := true } rfl (by simp [PrintfSpec.withFlags])
    | space => exact hstep { sp with space := true } rfl (by simp [PrintfSpec.withFlags])
    | alt => exact hstep { sp with alt := true } rfl (by simp [PrintfSpec.withFlags])

/-- Digits whose number fits are all read. -/
theorem scanUintHeadGo_eq : ∀ (ds : Str) {rest : Str} (i l : ℕ), (∀ c ∈ ds, parseIsdigit c = true) →
    (∀ c ∈ rest.head?, parseIsdigit c = false) → digits 10 l ds < 2 ^ 32 →
    scanUintHeadGo i l (ds ++ rest) = (i + ds.length, digits 10 l ds)
  | [], rest, i, l, _, hrest, _ => by
      cases rest with
      | nil => rfl
      | cons c rest =>
        have hc := hrest c rfl
        rw [List.nil_append, scanUintHeadGo, hc, Bool.false_and, if_neg Bool.false_ne_true]
        rfl
  | c :: ds, rest, i, l, hds, hrest, hlt => by
      have hc := hds c (.head _)
      have hval : scanFromhex c = c.toNat - 48 := by rw [scanFromhex, if_pos hc]
      rw [digits_cons, hval] at hlt ⊢
      have hle := le_digits 10 (by decide) (l * 10 + (c.toNat - 48)) ds
      have hih := scanUintHeadGo_eq ds (i + 1) (l * 10 + (c.toNat - 48)) (fun d hd => hds d (.tail _ hd)) hrest hlt
      rw [List.cons_append, scanUintHeadGo, hc, Bool.true_and, decide_eq_true (by omega), if_pos rfl, hih,
        List.length_cons]
      congr 1
      omega

theorem toInt_eq {x : ℤ} (h : -2 ^ 31 ≤ x) (h' : x < 2 ^ 31) : toInt x = x := by
  rw [toInt, Int.bmod_eq_of_le] <;> omega

/-- **The width is read**; a negative one is a flag as well. -/
theorem parseWidth_eq (d : Directive) (args : List Str) {f : Str}
    (hf : ∀ c ∈ f.head?, c ≠ '*' ∧ parseIsdigit c = false)
    (hw : -2 ^ 31 < (d.widthValue args).1 ∧ (d.widthValue args).1 < 2 ^ 31) (sp : PrintfSpec) (hsp : sp.width = -1) :
    ∃ width : ℤ, parseWidth sp (d.width.elim [] Field.text ++ f) args =
      ({ sp with left := sp.left || decide ((d.widthValue args).1 < 0), width := width }, f, (d.widthValue args).2) ∧
      width.toNat = (d.widthValue args).1.natAbs := by
  cases hd : d.width with
  | none =>
    have hval : d.widthValue args = (0, args) := by rw [Directive.widthValue, hd]; rfl
    refine ⟨-1, ?_, by rw [hval]; rfl⟩
    have hstar : f.head? ≠ some '*' := fun h => (hf '*' h).1 rfl
    have hdigit : ¬(f.head?.any parseIsdigit = true) := by
      rw [Option.any_eq_true]
      rintro ⟨c, hc, htrue⟩
      exact absurd ((hf c hc).2.symm.trans htrue) Bool.false_ne_true
    rw [hval, Option.elim_none, List.nil_append, parseWidth, if_neg hstar, if_neg hdigit, ← hsp]
    simp
  | some w =>
    cases w with
    | num ds =>
      have hval : d.widthValue args = ((digits 10 0 ds : ℤ), args) := by rw [Directive.widthValue, hd]; rfl
      obtain ⟨⟨c, t, rfl, hc⟩, hds, hlt⟩ := d.width_ok ds hd
      have hdig := hds c (.head _)
      have hstar : (c :: t ++ f).head? ≠ some '*' := fun h => by
        obtain rfl : c = '*' := Option.some.inj h
        exact absurd hdig (by decide)
      have hread := scanUintHeadGo_eq (c :: t) 0 0 hds (fun c hc => (hf c hc).2) (hlt.trans (by decide))
      rw [hval] at hw ⊢
      have hany : (c :: t ++ f).head?.any parseIsdigit = true := hdig
      have hnonneg : ¬((digits 10 0 (c :: t) : ℤ) < 0) := by omega
      refine ⟨digits 10 0 (c :: t), ?_, Int.toNat_natCast _⟩
      rw [Option.elim_some, Field.text, parseWidth, if_neg hstar, if_pos hany, scanUintHead, hread,
        decide_eq_false hnonneg, Bool.or_false]
      dsimp only
      rw [toInt_eq (by omega) hw.2, Nat.zero_add, List.drop_left]
    | arg =>
      have hval : d.widthValue args = ((printfArgLong args).1.toInt, (printfArgLong args).2) := by
        rw [Directive.widthValue, hd]
        rfl
      rw [hval] at hw ⊢
      dsimp only at hw ⊢
      have hstar : (['*'] ++ f).head? = some '*' := rfl
      rw [Option.elim_some, Field.text, parseWidth, if_pos hstar]
      by_cases hneg : (printfArgLong args).1.toInt < 0
      · refine ⟨-(printfArgLong args).1.toInt, ?_, by omega⟩
        simp [hneg, toInt_eq (show -2 ^ 31 ≤ -(printfArgLong args).1.toInt by omega)
          (show -(printfArgLong args).1.toInt < 2 ^ 31 by omega)]
      · refine ⟨(printfArgLong args).1.toInt, ?_, by omega⟩
        simp [hneg, toInt_eq (show -2 ^ 31 ≤ (printfArgLong args).1.toInt by omega) hw.2]

/-- **The precision is read**; a negative one is none. -/
theorem parsePrec_eq (d : Directive) (args : List Str) {f : Str}
    (hf : ∀ c ∈ f.head?, c ≠ '.' ∧ c ≠ '*' ∧ parseIsdigit c = false)
    (hp : -2 ^ 31 ≤ (d.precValue args).1 ∧ (d.precValue args).1 < 2 ^ 31) (sp : PrintfSpec) (hsp : sp.prec = -1) :
    ∃ prec : ℤ, parsePrec sp (d.prec.elim [] (fun p => '.' :: p.text) ++ f) (d.widthValue args).2 =
      ({ sp with prec := prec }, f, d.behind args) ∧
      ((d.precValue args).1 < 0 → prec = -1) ∧ (0 ≤ (d.precValue args).1 → prec = (d.precValue args).1) := by
  cases hd : d.prec with
  | none =>
    have hval : d.precValue args = (-1, (d.widthValue args).2) := by rw [Directive.precValue, hd]; rfl
    have hdot : f.head? ≠ some '.' := fun h => (hf '.' h).1 rfl
    refine ⟨-1, ?_, fun _ => rfl, fun h => ?_⟩
    · rw [Directive.behind, hval, Option.elim_none, List.nil_append, parsePrec, if_neg hdot, ← hsp]
    · rw [hval] at h
      exact absurd h (Int.not_le.2 (Int.negSucc_lt_zero 0))
  | some p =>
    cases p with
    | num ds =>
      have hval : d.precValue args = ((digits 10 0 ds : ℤ), (d.widthValue args).2) := by
        rw [Directive.precValue, hd]
        rfl
      obtain ⟨hds, hlt⟩ := d.prec_ok ds hd
      have hstar : (ds ++ f).head? ≠ some '*' := by
        intro h
        cases ds with
        | nil => exact (hf '*' h).2.1 rfl
        | cons c ds =>
          obtain rfl : c = '*' := Option.some.inj h
          exact absurd (hds '*' (.head _)) (by decide)
      have hread := scanUintHeadGo_eq ds 0 0 hds (fun c hc => (hf c hc).2.2) (hlt.trans (by decide))
      have hdot : ('.' :: ds ++ f).head? = some '.' := rfl
      have hdrop : ('.' :: ds ++ f).drop 1 = ds ++ f := rfl
      refine ⟨digits 10 0 ds, ?_, fun h => ?_, fun _ => by rw [hval]⟩
      · rw [hval] at hp
        rw [Directive.behind, hval, Option.elim_some, Field.text, parsePrec, if_pos hdot, hdrop, if_neg hstar,
          scanUintHead, hread]
        dsimp only at hp ⊢
        rw [toInt_eq (by omega) hp.2, Nat.zero_add, List.drop_left]
      · rw [hval] at h
        exact absurd h (by omega)
    | arg =>
      have hval : d.precValue args = ((printfArgLong (d.widthValue args).2).1.toInt,
          (printfArgLong (d.widthValue args).2).2) := by
        rw [Directive.precValue, hd]
        rfl
      rw [Directive.behind, hval]
      rw [hval] at hp
      dsimp only at hp ⊢
      refine ⟨if (printfArgLong (d.widthValue args).2).1.toInt < 0 then -1 else
        (printfArgLong (d.widthValue args).2).1.toInt, ?_, fun h => if_pos h, fun h => if_neg (Int.not_lt.2 h)⟩
      have hdot : ('.' :: ['*'] ++ f).head? = some '.' := rfl
      have hdrop : ('.' :: ['*'] ++ f).drop 1 = '*' :: f := rfl
      have hstar : ('*' :: f).head? = some '*' := rfl
      rw [Option.elim_some, Field.text, parsePrec, if_pos hdot, hdrop, if_pos hstar]
      dsimp only
      rw [toInt_eq hp.1 hp.2]
      rfl

/-- What was parsed are the values of the fields. -/
structure IsSpec (sp : PrintfSpec) (s : CSpec) : Prop where
  left : sp.left = s.left
  zero : sp.zero = s.zero
  plus : sp.plus = s.plus
  space : sp.space = s.space
  alt : sp.alt = s.alt
  width : sp.width.toNat = s.width
  prec : sp.prec = s.prec.elim (-1) (fun p : ℕ => (p : ℤ))

theorem Conv.char_ne (c : Conv) : c.char ≠ '.' ∧ c.char ≠ '*' ∧ parseIsdigit c.char = false ∧
    c.char ∉ ['-', '0', '+', ' ', '#'] := by
  cases c <;> decide

/-- What comes behind the width. -/
theorem head_precText (d : Directive) (rest : Str) :
    ∀ c ∈ (d.prec.elim [] (fun p => '.' :: p.text) ++ ([d.conv.char] ++ rest)).head?,
      c ≠ '*' ∧ parseIsdigit c = false ∧ c ∉ ['-', '0', '+', ' ', '#'] := by
  cases d.prec with
  | none =>
    rintro c hc
    obtain rfl : d.conv.char = c := Option.some.inj hc
    exact d.conv.char_ne.2
  | some p =>
    rintro c hc
    obtain rfl : '.' = c := Option.some.inj hc
    decide

/-- What comes behind the flags is no flag. -/
theorem stops_widthText (d : Directive) (rest : Str) : Stops (d.width.elim [] Field.text ++
    (d.prec.elim [] (fun p => '.' :: p.text) ++ ([d.conv.char] ++ rest))) := by
  cases hd : d.width with
  | none => exact fun c hc => (head_precText d rest c hc).2.2
  | some w =>
    cases w with
    | num ds =>
      obtain ⟨⟨c, t, rfl, hc⟩, hds, -⟩ := d.width_ok ds hd
      rintro c' hc'
      obtain rfl : c = c' := Option.some.inj hc'
      have hdig := hds c (.head _)
      intro hmem
      simp only [List.mem_cons, List.not_mem_nil, or_false] at hmem
      rcases hmem with rfl | rfl | rfl | rfl | rfl
      · exact absurd hdig (by decide)
      · exact hc rfl
      · exact absurd hdig (by decide)
      · exact absurd hdig (by decide)
      · exact absurd hdig (by decide)
    | arg =>
      rintro c hc
      obtain rfl : '*' = c := Option.some.inj hc
      decide

/-- **A directive is read** as what it says. -/
theorem printfParseSpec_eq (d : Directive) (args : List Str) (rest : Str) (h : d.IntFields args) :
    ∃ sp, printfParseSpec (d.text ++ rest) args = (sp, d.conv.char :: rest, d.behind args) ∧
      IsSpec sp (d.spec args) := by
  have htext : d.text ++ rest = d.flags.map Flag.char ++ (d.width.elim [] Field.text ++
      (d.prec.elim [] (fun p => '.' :: p.text) ++ ([d.conv.char] ++ rest))) := by
    simp only [Directive.text, List.append_assoc]
  have hconv : ∀ c ∈ ([d.conv.char] ++ rest).head?, c ≠ '.' ∧ c ≠ '*' ∧ parseIsdigit c = false := by
    rintro c hc
    obtain rfl : d.conv.char = c := Option.some.inj hc
    obtain ⟨h₁, h₂, h₃, -⟩ := d.conv.char_ne
    exact ⟨h₁, h₂, h₃⟩
  have hprec : ∀ c ∈ (d.prec.elim [] (fun p => '.' :: p.text) ++ ([d.conv.char] ++ rest)).head?,
      c ≠ '*' ∧ parseIsdigit c = false := fun c hc =>
    ⟨(head_precText d rest c hc).1, (head_precText d rest c hc).2.1⟩
  have hflags := printfParseFlags_eq d.flags (stops_widthText d rest) {}
  obtain ⟨width, hwidth, hw⟩ := parseWidth_eq d args hprec h.1 (PrintfSpec.withFlags {} d.flags) rfl
  obtain ⟨prec, hparse, hneg, hnonneg⟩ := parsePrec_eq d args hconv h.2
    { PrintfSpec.withFlags {} d.flags with
      left := (PrintfSpec.withFlags {} d.flags).left || decide ((d.widthValue args).1 < 0), width := width } rfl
  refine ⟨{ PrintfSpec.withFlags {} d.flags with
      left := (PrintfSpec.withFlags {} d.flags).left || decide ((d.widthValue args).1 < 0)
      width := width
      prec := prec }, ?_, ?_⟩
  · rw [printfParseSpec, htext, hflags]
    dsimp only
    rw [hwidth]
    exact hparse
  · refine ⟨?_, ?_, ?_, ?_, ?_, hw, ?_⟩
    · simp [PrintfSpec.withFlags, Directive.spec]
    · simp [PrintfSpec.withFlags, Directive.spec]
    · simp [PrintfSpec.withFlags, Directive.spec]
    · simp [PrintfSpec.withFlags, Directive.spec]
    · simp [PrintfSpec.withFlags, Directive.spec]
    · rw [Directive.spec]
      by_cases hp : (d.precValue args).1 < 0
      · rw [if_pos hp]
        exact hneg hp
      · rw [if_neg hp]
        exact (hnonneg (Int.not_lt.1 hp)).trans (Int.toNat_of_nonneg (Int.not_lt.1 hp)).symm

end Parse

/-! ## The conversions -/

section Conversions

variable {sp : PrintfSpec} {s : CSpec} {args : List Str}

theorem IsSpec.prec_neg (h : IsSpec sp s) : sp.prec < 0 ↔ s.prec = none := by
  rw [h.prec]
  cases s.prec with
  | none => simp
  | some p => simp

theorem IsSpec.prec_value (h : IsSpec sp s) : (if sp.prec < 0 then 1 else sp.prec.toNat) = s.prec.getD 1 := by
  rw [h.prec]
  cases s.prec with
  | none => rfl
  | some p => exact (if_neg (Int.not_lt.2 (Int.natCast_nonneg p))).trans (Int.toNat_natCast p)

/-- A number in the field of its specification. -/
theorem IsSpec.emit (h : IsSpec sp s) {upper : Bool} {base i : ℕ} (hb : 1 < base) (hb' : base ≤ 16) (hi : i < 2 ^ 64)
    (sign pre : Str) : printfEmitNumeric sp sign pre (numText upper base i) =
      cLayout s.left (s.zero ∧ s.prec = none) s.width (sign ++ pre) (cDigits upper base (s.prec.getD 1) i) := by
  rw [printfEmitNumeric_eq hb hb' hi, h.prec_value, h.left, h.zero, h.width]
  simp only [h.prec_neg]

/-- The magnitude of a signed word. -/
theorem magnitude_eq (v : Int64) : (v < 0 ↔ v.toInt < 0) ∧
    (v < 0 → ((-(v + 1)).toUInt64 + 1).toNat = v.toInt.natAbs) ∧ (¬v < 0 → v.toUInt64.toNat = v.toInt.natAbs) := by
  have hiff : v < 0 ↔ v.toInt < 0 := Int64.lt_iff_toInt_lt
  have hcond : v.toInt = if 2 * v.toUInt64.toNat < 2 ^ 64 then (v.toUInt64.toNat : ℤ) else v.toUInt64.toNat - 2 ^ 64 :=
    BitVec.toInt_eq_toNat_cond v.toBitVec
  have hlt := v.toUInt64.toNat_lt
  refine ⟨hiff, fun hneg => ?_, fun hpos => ?_⟩
  · rw [hiff] at hneg
    have hval : ((-(v + 1)).toUInt64 + 1) = -v.toUInt64 := by
      rw [Int64.toUInt64_neg, Int64.toUInt64_add, show (1 : Int64).toUInt64 = 1 from rfl]
      grind
    rw [hval, UInt64.toNat_neg, show UInt64.size = 2 ^ 64 from rfl]
    split_ifs at hcond <;> omega
  · rw [hiff] at hpos
    split_ifs at hcond <;> omega

/-- `%d` and `%i`. -/
theorem convertLong_eq (h : IsSpec sp s) {c : Conv} (hc : c.signed = true) :
    convertLong sp args = (cText c s (printfArgLong args).1.toInt, (printfArgLong args).2) := by
  obtain ⟨hiff, hneg, hpos⟩ := magnitude_eq (printfArgLong args).1
  have hd : c = .d ∨ c = .i := of_decide_eq_true hc
  have hbase : c.base = 10 := by rcases hd with rfl | rfl <;> rfl
  have hoctal : ¬(c = .o ∧ s.alt = true ∧
      (cDigits false 10 (s.prec.getD 1) (printfArgLong args).1.toInt.natAbs).head? ≠ some '0') := by
    rcases hd with rfl | rfl <;> exact nofun
  have hupper : decide (c = .X) = false := by rcases hd with rfl | rfl <;> rfl
  have hemit : ∀ (sign : Str) (uv : UInt64), printfEmitNumeric sp sign [] (fmtUlonglong uv) =
      cLayout s.left (s.zero ∧ s.prec = none) s.width sign (cDigits false 10 (s.prec.getD 1) uv.toNat) := by
    intro sign uv
    have hsign : printfEmitNumeric sp sign [] (numText false 10 uv.toNat) = _ :=
      h.emit (by decide) (by decide) uv.toNat_lt sign []
    rwa [List.append_nil] at hsign
  rw [cText, hbase, hupper, if_neg hoctal, if_pos hc, cSign, convertLong]
  by_cases hv : (printfArgLong args).1 < 0
  · dsimp only
    rw [if_pos hv, if_pos (hiff.1 hv), hemit, hneg hv]
  · dsimp only
    rw [if_neg hv, if_neg (mt hiff.2 hv), hemit, hpos hv, h.plus, h.space]

/-- What C writes for an unsigned number. -/
theorem cText_unsigned {c : Conv} (hc : c.signed = false) (s : CSpec) (n : ℕ) : cText c s n =
    cLayout s.left (s.zero ∧ s.prec = none) s.width
      (if s.alt ∧ n ≠ 0 then (if c = .x then ['0', 'x'] else if c = .X then ['0', 'X'] else []) else [])
      (if c = .o ∧ s.alt ∧ (cDigits (c = .X) c.base (s.prec.getD 1) n).head? ≠ some '0' then
        '0' :: cDigits (c = .X) c.base (s.prec.getD 1) n else cDigits (c = .X) c.base (s.prec.getD 1) n) := by
  have hne : (n : ℤ) ≠ 0 ↔ n ≠ 0 := Nat.cast_ne_zero
  rw [cText, hc, Int.natAbs_natCast, if_neg Bool.false_ne_true]
  simp only [hne]

/-- `%u`. -/
theorem convertUlong_eq (h : IsSpec sp s) :
    convertUlong sp args = (cText .u s (printfArgUlong args).1.toNat, (printfArgUlong args).2) := by
  have hemit : printfEmitNumeric sp [] [] (numText false 10 (printfArgUlong args).1.toNat) = _ :=
    h.emit (by decide) (by decide) (printfArgUlong args).1.toNat_lt [] []
  have hpre : (if s.alt ∧ (printfArgUlong args).1.toNat ≠ 0 then
      (if Conv.u = .x then ['0', 'x'] else if Conv.u = .X then ['0', 'X'] else []) else []) = ([] : Str) := ite_self _
  rw [cText_unsigned rfl, hpre, if_neg nofun, convertUlong]
  exact congrArg (·, _) hemit

/-- `%x` and `%X`. -/
theorem convertHex_eq (h : IsSpec sp s) (upper : Bool) : convertHex upper sp args =
    (cText (if upper then .X else .x) s (printfArgUlong args).1.toNat, (printfArgUlong args).2) := by
  have hemit : ∀ pre : Str, printfEmitNumeric sp [] pre (numText upper 16 (printfArgUlong args).1.toNat) =
      cLayout s.left (s.zero ∧ s.prec = none) s.width pre
        (cDigits upper 16 (s.prec.getD 1) (printfArgUlong args).1.toNat) :=
    fun pre => h.emit (by decide) (by decide) (printfArgUlong args).1.toNat_lt [] pre
  have hzero : (printfArgUlong args).1 ≠ 0 ↔ (printfArgUlong args).1.toNat ≠ 0 := by
    rw [Ne, ← UInt64.toNat_inj]
    rfl
  have hconv : convertHex upper sp args = (printfEmitNumeric sp []
      (if s.alt ∧ (printfArgUlong args).1.toNat ≠ 0 then (if upper then ['0', 'X'] else ['0', 'x']) else [])
      (numText upper 16 (printfArgUlong args).1.toNat), (printfArgUlong args).2) := by
    rw [convertHex, h.alt]
    simp only [hzero]
    rfl
  rw [hconv, hemit]
  cases upper with
  | true =>
    have hpre : (if Conv.X = .x then ['0', 'x'] else if Conv.X = .X then ['0', 'X'] else []) = ['0', 'X'] := rfl
    have hupper : decide (Conv.X = .X) = true := rfl
    have hoctal : ∀ q : Prop, ¬(Conv.X = .o ∧ q) := fun q => nofun
    rw [if_pos rfl, if_pos rfl, cText_unsigned rfl, hpre, hupper, if_neg (hoctal _), Conv.base]
  | false =>
    have hpre : (if Conv.x = .x then ['0', 'x'] else if Conv.x = .X then ['0', 'X'] else []) = ['0', 'x'] := rfl
    have hupper : decide (Conv.x = .X) = false := rfl
    have hoctal : ∀ q : Prop, ¬(Conv.x = .o ∧ q) := fun q => nofun
    rw [if_neg Bool.false_ne_true, if_neg Bool.false_ne_true, cText_unsigned rfl, hpre, hupper, if_neg (hoctal _),
      Conv.base]

/-- Zeros instead of blanks make a difference where there are some. -/
theorem cLayout_zero_iff (left : Bool) (width : ℕ) (ds : Str) :
    cLayout left false width [] ds = cLayout left true width [] ds ↔ ¬(left = false ∧ ds.length < width) := by
  cases left with
  | true => exact iff_of_true rfl fun h => absurd h.1 (by decide)
  | false =>
    have hblank : cLayout false false width [] ds = List.replicate (width - ds.length) ' ' ++ ds := by simp [cLayout]
    have hzero : cLayout false true width [] ds = List.replicate (width - ds.length) '0' ++ ds := by simp [cLayout]
    rw [hblank, hzero, List.append_left_inj]
    constructor
    · rintro h ⟨-, hlt⟩
      obtain ⟨k, hk⟩ := Nat.exists_eq_succ_of_ne_zero (show width - ds.length ≠ 0 by omega)
      rw [hk, List.replicate_succ, List.replicate_succ] at h
      exact absurd (List.cons.inj h).1 (by decide)
    · intro h
      have hfill : width - ds.length = 0 := by
        by_contra hne
        exact h ⟨rfl, by omega⟩
      rw [hfill]
      rfl

/-- No digit is not the digit 0. -/
theorem cLayout_nil_ne (left : Bool) (width : ℕ) : cLayout left false width [] [] ≠ cLayout left false width [] ['0'] := by
  intro h
  have hmem : '0' ∈ cLayout left false width [] [] := by
    rw [h, cLayout]
    cases left <;> simp
  rw [cLayout] at hmem
  cases left <;> simp at hmem

theorem cDigits_zero (upper : Bool) (base prec : ℕ) : cDigits upper base prec 0 = List.replicate prec '0' := by
  rw [cDigits, Nat.digits_zero]
  simp

/-- The digits of a number that is not 0, and the zeros of the precision. -/
theorem cDigits_pos {n : ℕ} (h : n < 2 ^ 64) (h0 : n ≠ 0) (prec : ℕ) : cDigits false 8 prec n =
    List.replicate (prec - (numText false 8 n).length) '0' ++ numText false 8 n := by
  rw [cDigits, ← numText_eq (by decide) (by decide) h h0]

/-- What C writes for `%o`. -/
theorem cText_octal (s : CSpec) (n : ℕ) : cText .o s n = cLayout s.left (s.zero ∧ s.prec = none) s.width []
    (if s.alt ∧ (cDigits false 8 (s.prec.getD 1) n).head? ≠ some '0' then '0' :: cDigits false 8 (s.prec.getD 1) n
      else cDigits false 8 (s.prec.getD 1) n) := by
  have hpre : (if s.alt ∧ n ≠ 0 then (if Conv.o = .x then ['0', 'x'] else if Conv.o = .X then ['0', 'X'] else [])
      else []) = ([] : Str) := ite_self _
  have hupper : decide (Conv.o = .X) = false := rfl
  rw [cText_unsigned rfl, hpre, hupper, Conv.base]
  simp only [true_and]

/-- Where the precision stays. -/
theorem convertOctal_same (h : IsSpec sp s)
    (hstay : ¬(sp.alt = true ∧ (numText false 8 (printfArgUlong args).1.toNat).head? ≠ some '0' ∧
      sp.prec ≤ (numText false 8 (printfArgUlong args).1.toNat).length)) :
    convertOctal sp args = (cLayout s.left (s.zero ∧ s.prec = none) s.width []
      (cDigits false 8 (s.prec.getD 1) (printfArgUlong args).1.toNat), (printfArgUlong args).2) := by
  have hemit : printfEmitNumeric sp [] [] (numText false 8 (printfArgUlong args).1.toNat) = _ :=
    h.emit (by decide) (by decide) (printfArgUlong args).1.toNat_lt [] []
  have hnumbuf : fmt8longlong (printfArgUlong args).1 = numText false 8 (printfArgUlong args).1.toNat := rfl
  rw [convertOctal]
  dsimp only
  rw [hnumbuf, if_neg hstay]
  exact congrArg (·, _) hemit

/-- Where it is raised. -/
theorem convertOctal_raised (h : IsSpec sp s)
    (hraise : sp.alt = true ∧ (numText false 8 (printfArgUlong args).1.toNat).head? ≠ some '0' ∧
      sp.prec ≤ (numText false 8 (printfArgUlong args).1.toNat).length) :
    convertOctal sp args = (cLayout s.left false s.width [] (cDigits false 8
      ((numText false 8 (printfArgUlong args).1.toNat).length + 1) (printfArgUlong args).1.toNat),
      (printfArgUlong args).2) := by
  have hnumbuf : fmt8longlong (printfArgUlong args).1 = numText false 8 (printfArgUlong args).1.toNat := rfl
  have hspec : IsSpec { sp with prec := (numText false 8 (printfArgUlong args).1.toNat).length + 1 }
      { s with prec := some ((numText false 8 (printfArgUlong args).1.toNat).length + 1) } :=
    ⟨h.left, h.zero, h.plus, h.space, h.alt, h.width, rfl⟩
  have hemit : printfEmitNumeric { sp with prec := (numText false 8 (printfArgUlong args).1.toNat).length + 1 } [] []
      (numText false 8 (printfArgUlong args).1.toNat) = _ :=
    hspec.emit (by decide) (by decide) (printfArgUlong args).1.toNat_lt [] []
  rw [convertOctal]
  dsimp only
  rw [hnumbuf, if_pos hraise, hemit]
  simp

/-- **`%o` of 0.** -/
theorem convertOctal_zero (h : IsSpec sp s) (halt : s.alt = true) (h0 : (printfArgUlong args).1.toNat = 0) :
    convertOctal sp args = (cText .o s (printfArgUlong args).1.toNat, (printfArgUlong args).2) ↔ s.prec ≠ some 0 := by
  have hsame := @convertOctal_same sp s args h (by
    rw [h0, numText_zero (by decide)]
    exact fun hraise => hraise.2.1 rfl)
  rw [hsame, h0, cText_octal, cDigits_zero, Prod.mk.injEq, and_iff_left rfl]
  cases hp : s.prec with
  | none =>
    refine iff_of_true ?_ nofun
    have hhead : ¬(s.alt = true ∧ (List.replicate ((none : Option ℕ).getD 1) '0').head? ≠ some '0') :=
      fun h => h.2 rfl
    rw [if_neg hhead]
  | some p =>
    have hz : decide (s.zero = true ∧ some p = none) = false := decide_eq_false nofun
    rw [hz]
    cases p with
    | zero =>
      have hhead : s.alt = true ∧ (List.replicate ((some 0).getD 1) '0').head? ≠ some '0' := ⟨halt, nofun⟩
      rw [if_pos hhead]
      exact iff_of_false (cLayout_nil_ne s.left s.width) fun h => h rfl
    | succ p =>
      have hhead : ¬(s.alt = true ∧ (List.replicate ((some (p + 1)).getD 1) '0').head? ≠ some '0') := fun h => h.2 rfl
      rw [if_neg hhead]
      exact iff_of_true rfl nofun

/-- **`%o` of another number.** -/
theorem convertOctal_pos (h : IsSpec sp s) (halt : s.alt = true) (h0 : (printfArgUlong args).1.toNat ≠ 0) :
    convertOctal sp args = (cText .o s (printfArgUlong args).1.toNat, (printfArgUlong args).2) ↔
      ¬(s.zero = true ∧ s.left = false ∧ s.prec = none ∧
        (Nat.digits 8 (printfArgUlong args).1.toNat).length + 1 < s.width) := by
  have hlt := (printfArgUlong args).1.toNat_lt
  obtain ⟨c, t, hct, hc⟩ : ∃ c t, numText false 8 (printfArgUlong args).1.toNat = c :: t ∧ c ≠ '0' :=
    numText_head (by decide) (by decide) hlt h0
  have hlen : (Nat.digits 8 (printfArgUlong args).1.toNat).length =
      (numText false 8 (printfArgUlong args).1.toNat).length := by
    rw [numText_eq (by decide) (by decide) hlt h0, List.length_map, List.length_reverse]
  have hdigits := cDigits_pos hlt h0
  have hraised := @convertOctal_raised sp s args h
  have hsame := @convertOctal_same sp s args h
  rw [cText_octal, hlen]
  generalize numText false 8 (printfArgUlong args).1.toNat = ds at hct hlen hdigits hraised hsame
  have hhead : ds.head? ≠ some '0' := by
    rw [hct]
    exact fun h => hc (Option.some.inj h)
  have hpos : 1 ≤ ds.length := by
    rw [hct]
    exact Nat.le_add_left ..
  have halt' : sp.alt = true := h.alt.trans halt
  have hone : cDigits false 8 (ds.length + 1) (printfArgUlong args).1.toNat = '0' :: ds := by
    rw [hdigits, Nat.add_sub_cancel_left]
    rfl
  have hshort : ∀ p ≤ ds.length, cDigits false 8 p (printfArgUlong args).1.toNat = ds := by
    intro p hp
    rw [hdigits, Nat.sub_eq_zero_of_le hp]
    rfl
  cases hp : s.prec with
  | none =>
    have hsp : sp.prec ≤ ds.length := by
      rw [h.prec, hp]
      exact (Int.negSucc_lt_zero 0).le.trans (Int.natCast_nonneg _)
    have hz : decide (s.zero = true ∧ (none : Option ℕ) = none) = s.zero := by simp
    rw [hraised ⟨halt', hhead, hsp⟩, hone, Option.getD_none, hshort 1 hpos, if_pos ⟨halt, hhead⟩, hz, Prod.mk.injEq,
      and_iff_left rfl]
    cases s.zero with
    | false => exact iff_of_true rfl fun hfault => absurd hfault.1 Bool.false_ne_true
    | true =>
      rw [cLayout_zero_iff, List.length_cons]
      simp
  | some p =>
    have hz : decide (s.zero = true ∧ some p = none) = false := decide_eq_false nofun
    have hval : sp.prec = p := by rw [h.prec, hp]; rfl
    refine iff_of_true ?_ nofun
    rw [Option.getD_some, hz]
    by_cases hple : p ≤ ds.length
    · have hsp : sp.prec ≤ ds.length := by omega
      rw [hraised ⟨halt', hhead, hsp⟩, hone, hshort p hple, if_pos ⟨halt, hhead⟩]
    · have hsp : ¬sp.prec ≤ ds.length := by omega
      obtain ⟨k, hk⟩ := Nat.exists_eq_succ_of_ne_zero (show p - ds.length ≠ 0 by omega)
      have hzero : (cDigits false 8 p (printfArgUlong args).1.toNat).head? = some '0' := by
        rw [hdigits, hk]
        rfl
      rw [hsame fun hraise => hsp hraise.2.2, hp, Option.getD_some, hz, if_neg fun h => h.2 hzero]

/-- **`%o`** writes what C does but where it is wrong. -/
theorem convertOctal_eq_iff (h : IsSpec sp s) : convertOctal sp args =
      (cText .o s (printfArgUlong args).1.toNat, (printfArgUlong args).2) ↔
    ¬(s.alt = true ∧ (((printfArgUlong args).1.toNat = 0 ∧ s.prec = some 0) ∨
      ((printfArgUlong args).1.toNat ≠ 0 ∧ s.zero = true ∧ s.left = false ∧ s.prec = none ∧
        (Nat.digits 8 (printfArgUlong args).1.toNat).length + 1 < s.width))) := by
  cases halt : s.alt with
  | false =>
    refine iff_of_true ?_ fun hfault => absurd hfault.1 Bool.false_ne_true
    have hsame := @convertOctal_same sp s args h fun hraise => absurd (h.alt.symm.trans hraise.1) (by rw [halt]; decide)
    have hhead : ∀ q : Prop, ¬(s.alt = true ∧ q) := fun q hq => absurd (halt.symm.trans hq.1) Bool.false_ne_true
    rw [hsame, cText_octal, if_neg (hhead _)]
  | true =>
    by_cases h0 : (printfArgUlong args).1.toNat = 0
    · have hiff := convertOctal_zero h halt h0
      simpa [h0] using hiff
    · have hiff := convertOctal_pos h halt h0
      simpa [h0] using hiff

end Conversions

/-! ## A directive -/

theorem printfArg_behind (args : List Str) : (printfArg args).2 = args.drop 1 := by
  cases args <;> rfl

/-- What a directive writes is what its conversion does. -/
theorem printfDirective_eq (d : Directive) (args : List Str) (rest : Str) (h : d.IntFields args) : ∃ sp,
    IsSpec sp (d.spec args) ∧ printfDirective (d.text ++ rest) args =
      (convert sp d.conv.char (d.behind args)).map fun r => (r.1, rest, r.2) := by
  obtain ⟨sp, hparse, hsp⟩ := printfParseSpec_eq d args rest h
  refine ⟨sp, hsp, ?_⟩
  rw [printfDirective, hparse]

/-- The conversions but `%o` write what C does. -/
theorem convert_eq {sp : PrintfSpec} {s : CSpec} (h : IsSpec sp s) {c : Conv} (hc : c ≠ .o) (args : List Str) :
    convert sp c.char args = some (cText c s (if c.signed then (printfArgLong args).1.toInt else
      (printfArgUlong args).1.toNat), args.drop 1) := by
  have hlong : (printfArgLong args).2 = args.drop 1 := printfArg_behind _
  have hulong : (printfArgUlong args).2 = args.drop 1 := printfArg_behind _
  cases c with
  | d =>
    have hconv := @convertLong_eq sp s args h .d rfl
    rw [hlong] at hconv
    exact congrArg some hconv
  | i =>
    have hconv := @convertLong_eq sp s args h .i rfl
    rw [hlong] at hconv
    exact congrArg some hconv
  | u =>
    have hconv := @convertUlong_eq sp s args h
    rw [hulong] at hconv
    exact congrArg some hconv
  | o => exact absurd rfl hc
  | x =>
    have hconv := @convertHex_eq sp s args h false
    rw [hulong] at hconv
    exact congrArg some hconv
  | X =>
    have hconv := @convertHex_eq sp s args h true
    rw [hulong] at hconv
    exact congrArg some hconv

/-- **`printf` writes what C does** with the number and the values of the fields, but for `#` with `%o` where it is
wrong. -/
theorem printf_c_iff (d : Directive) (args : List Str) (rest : Str) (h : d.IntFields args) :
    printfDirective (d.text ++ rest) args =
        some (cText d.conv (d.spec args) (d.value args), rest, (d.behind args).drop 1) ↔
      ¬OctalFault d args := by
  obtain ⟨sp, hsp, hdir⟩ := printfDirective_eq d args rest h
  rw [hdir]
  by_cases hoctal : d.conv = .o
  · have hval : d.value args = ((printfArgUlong (d.behind args)).1.toNat : ℤ) := by
      rw [Directive.value, hoctal]
      rfl
    have hconv : convert sp d.conv.char (d.behind args) = some (convertOctal sp (d.behind args)) := by
      rw [hoctal]
      rfl
    have hulong : (printfArgUlong (d.behind args)).2 = (d.behind args).drop 1 := printfArg_behind _
    have hsome : ∀ (r : Str × List Str) (out : Str) (args' : List Str),
        some (r.1, rest, r.2) = some (out, rest, args') ↔ r = (out, args') := by
      rintro ⟨out, args'⟩
      simp
    have hiff := @convertOctal_eq_iff sp (d.spec args) (d.behind args) hsp
    rw [hulong] at hiff
    rw [hconv, Option.map_some, hsome, hval, hoctal, hiff, OctalFault, hval, hoctal]
    simp
  · rw [convert_eq hsp hoctal]
    exact iff_of_true rfl fun hfault => hoctal hfault.1

/-- `%#x` of 255 in a field of six. -/
def hexDirective : Directive where
  flags := [.alt, .zero]
  width := some (.num ['6'])
  prec := none
  conv := .x
  width_ok := by
    rintro ds ⟨⟩
    exact ⟨⟨'6', [], rfl, by decide⟩, List.forall_mem_singleton.2 (by decide), by decide⟩
  prec_ok := by rintro ds ⟨⟩

/-- Zeros behind the base. -/
theorem printf_hex : hexDirective.IntFields [['2', '5', '5']] ∧
    (printfDirective (hexDirective.text ++ []) [['2', '5', '5']] = some (cText hexDirective.conv
      (hexDirective.spec [['2', '5', '5']]) (hexDirective.value [['2', '5', '5']]), [],
      (hexDirective.behind [['2', '5', '5']]).drop 1) ↔ ¬OctalFault hexDirective [['2', '5', '5']]) := by
  have hint : hexDirective.IntFields [['2', '5', '5']] := by
    refine ⟨⟨?_, ?_⟩, ?_, ?_⟩ <;> decide
  exact ⟨hint, printf_c_iff hexDirective [['2', '5', '5']] [] hint⟩

/-- `%#.0o`. -/
def octalDirective : Directive where
  flags := [.alt]
  width := none
  prec := some (.num ['0'])
  conv := .o
  width_ok := by rintro ds ⟨⟩
  prec_ok := by
    rintro ds ⟨⟩
    exact ⟨List.forall_mem_singleton.2 (by decide), by decide⟩

/-- Nothing is written for 0, where C writes its digit. -/
theorem printf_octal_zero : octalDirective.IntFields [['0']] ∧
    printfDirective octalDirective.text [['0']] ≠ some (cText octalDirective.conv (octalDirective.spec [['0']])
      (octalDirective.value [['0']]), [], (octalDirective.behind [['0']]).drop 1) := by
  refine ⟨⟨⟨?_, ?_⟩, ?_, ?_⟩, ?_⟩
  · decide
  · decide
  · decide
  · decide
  · have hwritten : printfDirective octalDirective.text [['0']] = some ([], [], []) := by decide
    rw [hwritten]
    intro h
    have htext : cText octalDirective.conv (octalDirective.spec [['0']]) (octalDirective.value [['0']]) = [] :=
      (Prod.mk.inj (Option.some.inj h)).1.symm
    have hval : octalDirective.value [['0']] = (0 : ℕ) := by decide
    rw [hval, show octalDirective.conv = .o from rfl, cText_octal, cDigits_zero] at htext
    exact absurd htext (by decide)

end Shish.Printf
