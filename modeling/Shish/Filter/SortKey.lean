import Shish.Lib.Bytes
import Shish.Lib.Decimal

/-!
# Filter/SortKey — how `sort` compares lines

A key takes a part of a line, and the parts compare as numbers or as the characters that count.  Numbers compare
as their exact values do (`cmpNum_val`); keys compare one after the other, then the lines, and all of it is a
total preorder (`totalCmp`).
-/

namespace Shish

/-- `struct sortkey`. -/
structure SortKey where
  /-- Field and character of the start and of the end. -/
  fs : UInt64
  cs : UInt64
  fe : UInt64
  ce : UInt64
  hasEnd : Bool
  /-- Whether modifiers are attached to it. -/
  typed : Bool
  bs : Bool
  be : Bool
  d : Bool
  f : Bool
  i : Bool
  n : Bool
  r : Bool

/-- `struct sort`: its options. -/
structure Sorter where
  u : Bool
  stable : Bool
  /-- The global modifiers. -/
  glob : SortKey
  /-- `-t`, or blanks. -/
  tsep : Option UInt8
  keys : List SortKey

namespace Sorter

/-! ## The part of a line -/

/-- How long a field is: with its leading blanks, or up to the separator. -/
def fieldLen (tsep : Option UInt8) (s : Bytes) : ℕ :=
  match tsep with
  | none => (s.takeWhile isBlankByte).length + ((s.dropWhile isBlankByte).takeWhile (!isBlankByte ·)).length
  | some t => (s.takeWhile (· != t)).length

/-- Where the next field starts. -/
def nextField (tsep : Option UInt8) (s : Bytes) : ℕ :=
  match tsep with
  | none => fieldLen none s
  | some t => fieldLen (some t) s + 1

theorem nextField_pos (tsep : Option UInt8) {s : Bytes} (hs : s ≠ []) : 0 < nextField tsep s := by
  cases tsep with
  | none =>
    obtain ⟨c, t, rfl⟩ := List.exists_cons_of_ne_nil hs
    by_cases h : isBlankByte c = true
    · simp [nextField, fieldLen, h]
    · simp [nextField, fieldLen, h]
  | some t => exact Nat.succ_pos _

/-- The loop of `sort_field`: field `k` starts at `pos`, and `s` is the line from there on. -/
def fieldFrom (tsep : Option UInt8) (f : ℕ) (k pos : ℕ) (s : Bytes) : Option (ℕ × ℕ) :=
  if k = f then if tsep = none ∧ s = [] ∧ 1 < k then none else some (pos, pos + fieldLen tsep s)
  else if s.length ≤ fieldLen tsep s then none
  else fieldFrom tsep f (k + 1) (pos + nextField tsep s) (s.drop (nextField tsep s))
termination_by s.length
decreasing_by
  have hs : 0 < s.length := by omega
  have := nextField_pos tsep (List.length_pos_iff.1 hs)
  rw [List.length_drop]
  omega

/-- `sort_field`. -/
def sortField (line : Bytes) (tsep : Option UInt8) (f : UInt64) : Option (ℕ × ℕ) :=
  fieldFrom tsep f.toNat 1 0 line

/-- How far the blanks go from `st` on, up to `e`. -/
def skipBlanks (line : Bytes) (st e : ℕ) : ℕ :=
  st + (((line.drop st).take (e - st)).takeWhile isBlankByte).length

/-- An offset moved on; a `size_t`. -/
def advance (st : ℕ) (n : ℕ) : ℕ := (st + n) % 2 ^ 64

/-- The end of a key. -/
def keyEnd (k : SortKey) (tsep : Option UInt8) (line : Bytes) : ℕ :=
  if !k.hasEnd then line.length
  else
    match sortField line tsep k.fe with
    | none => line.length
    | some (efs, efe) =>
        if k.ce ≠ 0 then
          let p := advance (if k.be then skipBlanks line efs efe else efs) k.ce.toNat
          if p < efe then p else efe
        else efe

/-- `sort_extract`. -/
def sortExtract (k : SortKey) (tsep : Option UInt8) (line : Bytes) : Bytes :=
  match sortField line tsep k.fs with
  | none => []
  | some (fst, fen) =>
      let st := advance (if k.bs then skipBlanks line fst fen else fst) (k.cs.toNat - 1)
      let st := if fen < st then fen else st
      let en := if keyEnd k tsep line < st then st else keyEnd k tsep line
      (line.drop st).take (en - st)

/-! ## Text -/

/-- What `-d` and `-i` leave out. -/
def skipped (k : SortKey) (c : UInt8) : Bool :=
  (k.d && !(isBlankByte c || isDigit c || ('a'.toUInt8 ≤ c && c ≤ 'z'.toUInt8) || ('A'.toUInt8 ≤ c && c ≤ 'Z'.toUInt8))) ||
    (k.i && (c < 32 || c == 127))

/-- What `-f` makes of a character. -/
def folded (k : SortKey) (c : UInt8) : UInt8 :=
  if k.f && 'a'.toUInt8 ≤ c && c ≤ 'z'.toUInt8 then c - 32 else c

/-- `sort_next`: the next character that counts, and what is behind it; `none` at the end. -/
def sortNext (k : SortKey) : Bytes → Option (UInt8 × Bytes)
  | [] => none
  | c :: p => if skipped k c then sortNext k p else some (folded k c, p)

theorem sortNext_length {k : SortKey} {p : Bytes} {y : UInt8 × Bytes} (h : sortNext k p = some y) :
    y.2.length < p.length := by
  induction p with
  | nil => cases h
  | cons c p ih =>
    rw [sortNext] at h
    split_ifs at h
    · exact Nat.lt_succ_of_lt (ih h)
    · obtain rfl := Option.some.inj h
      exact Nat.lt_succ_self _

/-- `sort_cmp_text`. -/
def cmpText (k : SortKey) (a b : Bytes) : ℤ :=
  match _h : sortNext k a, sortNext k b with
  | none, none => 0
  | none, some _ => -1
  | some _, none => 1
  | some (ca, a'), some (cb, b') => if ca ≠ cb then (if ca < cb then -1 else 1) else cmpText k a' b'
termination_by a.length
decreasing_by exact sortNext_length _h

/-! ## Numbers -/

/-- What `sort_number` finds: the sign, the digits without leading zeros, and those behind the point without
zeros at the end. -/
structure Number where
  neg : Bool
  i : Bytes
  f : Bytes

/-- `'0'`. -/
def zero : UInt8 := '0'.toUInt8

/-- The digits behind a point. -/
def fraction (s : Bytes) : Bytes :=
  match s with
  | [] => []
  | c :: s => if c = '.'.toUInt8 then s.takeWhile isDigit else []

/-- A text without blanks in front, and without a sign behind them. -/
def unsigned (s : Bytes) : Bytes :=
  let s := s.dropWhile isBlankByte
  if s.head? = some '-'.toUInt8 then s.tail else s

/-- Whether a sign stands behind the blanks. -/
def signed (s : Bytes) : Bool := (s.dropWhile isBlankByte).head? = some '-'.toUInt8

/-- `sort_number`. -/
def sortNumber (s : Bytes) : Number :=
  let t := (unsigned s).dropWhile (· == zero)
  { neg := signed s
    i := t.takeWhile isDigit
    f := (fraction (t.dropWhile isDigit)).rdropWhile (· == zero) }

/-- The loop over two strings of digits: their first difference. -/
def diff : Bytes → Bytes → ℤ
  | a :: x, b :: y => if (a.toNat : ℤ) - b.toNat ≠ 0 then (a.toNat : ℤ) - b.toNat else diff x y
  | _, _ => 0

/-- The end of `sort_cmp_num`: numbers of one sign. -/
def cmpSameSign (x y : Number) : ℤ :=
  if x.i.length ≠ y.i.length then (if x.i.length < y.i.length then -1 else 1)
  else
    let r := diff x.i y.i
    let r := if r ≠ 0 then r else diff x.f y.f
    if r = 0 ∧ x.f.length ≠ y.f.length then (if x.f.length < y.f.length then -1 else 1) else r

/-- A zero has no sign. -/
def Number.negative (x : Number) : Bool := x.neg && !(x.i.isEmpty && x.f.isEmpty)

/-- `sort_cmp_num`. -/
def cmpNum (a b : Bytes) : ℤ :=
  let x := sortNumber a
  let y := sortNumber b
  if x.negative ≠ y.negative then (if x.negative then -1 else 1)
  else if x.negative then -cmpSameSign x y
  else cmpSameSign x y

/-! ## Keys and lines -/

variable (s : Sorter)

/-- A key with modifiers ignores the global options. -/
def eff (k : SortKey) : SortKey :=
  { if k.typed then k else s.glob with fs := k.fs, cs := k.cs, fe := k.fe, ce := k.ce, hasEnd := k.hasEnd }

/-- Two parts of lines, compared as a key says. -/
def cmpPart (k : SortKey) (a b : Bytes) : ℤ :=
  let r := if k.n then cmpNum a b else cmpText k a b
  if k.r then -r else r

/-- The key of `sort_cmp_keys` when there are none: the whole line. -/
def whole : SortKey := ⟨1, 0, 0, 0, false, false, false, false, false, false, false, false, false⟩

/-- The loop of `sort_cmp_keys`. -/
def cmpLoop : List SortKey → Bytes → Bytes → ℤ
  | [], _, _ => 0
  | k :: ks, a, b =>
      let r := cmpPart (s.eff k) (sortExtract (s.eff k) s.tsep a) (sortExtract (s.eff k) s.tsep b)
      if r ≠ 0 then r else cmpLoop ks a b

/-- `sort_cmp_keys`. -/
def cmpKeys (a b : Bytes) : ℤ :=
  if s.keys = [] then
    let k := s.eff whole
    if k.bs then cmpPart k (a.dropWhile isBlankByte) (b.dropWhile isBlankByte) else cmpPart k a b
  else s.cmpLoop s.keys a b

/-- `sort_cmp`. -/
def cmp (a b : Bytes) : ℤ :=
  let r := s.cmpKeys a b
  if r ≠ 0 ∨ s.u ∨ s.stable then r
  else
    let r := diff a b
    let r := if r = 0 ∧ a.length ≠ b.length then (if a.length < b.length then -1 else 1) else r
    if s.glob.r then -r else r

/-! ## Text compares by the characters that count -/

/-- The characters that count. -/
def significant (k : SortKey) (a : Bytes) : List ℕ := ((a.filter (!skipped k ·)).map (folded k)).map UInt8.toNat

theorem significant_next (k : SortKey) (a : Bytes) :
    match sortNext k a with
    | none => significant k a = []
    | some (c, a') => significant k a = c.toNat :: significant k a' := by
  induction a with
  | nil => rfl
  | cons c a ih =>
    rw [sortNext]
    split_ifs with h
    · have hsame : significant k (c :: a) = significant k a := by simp [significant, h]
      rwa [hsame]
    · simp [significant, h]

theorem cmpText_sign (k : SortKey) (a b : Bytes) :
    (cmpText k a b).sign = (cmpLex (significant k a) (significant k b)).sign := by
  induction hn : a.length using Nat.strongRecOn generalizing a b with
  | ind n ih =>
    have ha := significant_next k a
    have hb := significant_next k b
    rw [cmpText]
    split
    · rename_i h₁ h₂
      rw [h₁] at ha
      rw [h₂] at hb
      rw [ha, hb]
      rfl
    · rename_i h₁ h₂
      rw [h₁] at ha
      rw [h₂] at hb
      rw [ha, hb]
      rfl
    · rename_i h₁ h₂
      rw [h₁] at ha
      rw [h₂] at hb
      rw [ha, hb]
      rfl
    · rename_i ca a' cb b' h₁ h₂
      rw [h₁] at ha
      rw [h₂] at hb
      have hlt := sortNext_length h₁
      rw [ha, hb, cmpLex_cons]
      by_cases hc : ca = cb
      · subst hc
        rw [if_neg (not_not.2 rfl), if_neg (by omega)]
        exact ih _ (hn ▸ hlt) a' b' rfl
      · have hne : ca.toNat ≠ cb.toNat := fun h => hc (UInt8.toNat_inj.1 h)
        have hne' : (ca.toNat : ℤ) - cb.toNat ≠ 0 := by omega
        rcases Nat.lt_or_gt_of_ne hne with h | h
        · rw [if_pos hc, if_pos (UInt8.lt_iff_toNat_lt.2 h), if_pos hne',
            Int.sign_eq_neg_one_of_neg (by omega : (ca.toNat : ℤ) - cb.toNat < 0)]
          rfl
        · rw [if_pos hc, if_neg (UInt8.lt_iff_toNat_lt.not.2 h.le.not_gt), if_pos hne',
            Int.sign_eq_one_of_pos (by omega : 0 < (ca.toNat : ℤ) - cb.toNat)]
          rfl

theorem totalCmp_text (k : SortKey) : TotalCmp (cmpText k) :=
  totalCmp_lex.of_sign (significant k) (cmpText_sign k)

/-! ## Numbers compare by their values -/

/-- The values of digits. -/
def digits (x : Bytes) : List ℕ := x.map fun c => (digit c).toNat

/-- **The numeric prefix of a text**: blanks, a sign, digits, a point and digits. -/
def numVal (s : Bytes) : ℚ :=
  let t := unsigned s
  let m := magnitude (digits (t.takeWhile isDigit)) (digits (fraction (t.dropWhile isDigit)))
  if signed s then -m else m

theorem digit_toNat {c : UInt8} (h : isDigit c = true) : c.toNat = (digit c).toNat + 48 := by
  simp only [isDigit, Bool.and_eq_true, decide_eq_true_eq] at h
  have h48 : '0'.toUInt8.toNat = 48 := rfl
  have hle := UInt8.le_iff_toNat_le.1 h.1
  rw [digit, UInt8.toNat_sub_of_le _ _ h.1]
  omega

theorem digits_lt {x : Bytes} (h : x.all isDigit) : Digits (digits x) := by
  intro d hd
  obtain ⟨c, hc, rfl⟩ := List.mem_map.1 hd
  exact Nat.lt_succ_of_le (digit_le (List.all_eq_true.1 h c hc))

theorem diff_digits : ∀ {x y : Bytes}, x.all isDigit → y.all isDigit → diff x y = cmpPrefix (digits x) (digits y)
  | [], y, _, _ => by cases y <;> rfl
  | _ :: _, [], _, _ => rfl
  | a :: x, b :: y, hx, hy => by
      rw [List.all_cons, Bool.and_eq_true] at hx hy
      have ha := digit_toNat hx.1
      have hb := digit_toNat hy.1
      have hd : (a.toNat : ℤ) - b.toNat = ((digit a).toNat : ℤ) - (digit b).toNat := by omega
      rw [diff, hd, diff_digits hx.2 hy.2]
      rfl

theorem zero_iff {c : UInt8} (h : isDigit c = true) : (digit c).toNat = 0 ↔ c = zero := by
  have hc := digit_toNat h
  have h48 : zero.toNat = 48 := rfl
  rw [← UInt8.toNat_inj]
  omega

theorem isDigit_zero : isDigit zero = true := by decide

theorem takeWhile_digits (s : Bytes) : ((s.dropWhile (· == zero)).takeWhile isDigit) =
    (s.takeWhile isDigit).dropWhile (· == zero) := by
  induction s with
  | nil => rfl
  | cons c s ih =>
    by_cases hc : c = zero
    · subst hc
      simpa [isDigit_zero] using ih
    · by_cases hd : isDigit c = true
      · simp [hc, hd]
      · simp [hc, hd]

theorem dropWhile_digits (s : Bytes) : (s.dropWhile (· == zero)).dropWhile isDigit = s.dropWhile isDigit := by
  induction s with
  | nil => rfl
  | cons c s ih =>
    by_cases hc : c = zero
    · subst hc
      simpa [isDigit_zero] using ih
    · simp [hc]

theorem digits_dropWhile {x : Bytes} (h : x.all isDigit) :
    digits (x.dropWhile (· == zero)) = (digits x).dropWhile (· == 0) := by
  induction x with
  | nil => rfl
  | cons c x ih =>
    rw [List.all_cons, Bool.and_eq_true] at h
    have hz : ((digit c).toNat == 0) = (c == zero) := by
      rw [Bool.eq_iff_iff, beq_iff_eq, beq_iff_eq, zero_iff h.1]
    have hcons : digits (c :: x) = (digit c).toNat :: digits x := rfl
    rw [hcons, List.dropWhile_cons, List.dropWhile_cons, hz]
    split_ifs
    · exact ih h.2
    · rfl

theorem digits_rdropWhile {x : Bytes} (h : x.all isDigit) :
    digits (x.rdropWhile (· == zero)) = (digits x).rdropWhile (· == 0) := by
  have hrev : ∀ l : Bytes, digits l.reverse = (digits l).reverse := fun l => List.map_reverse
  rw [List.rdropWhile, List.rdropWhile, hrev, digits_dropWhile (by simpa using h), hrev]

theorem all_takeWhile (s : Bytes) : (s.takeWhile isDigit).all isDigit := by
  rw [List.all_eq_true]
  exact fun c hc => List.mem_takeWhile_imp hc

theorem all_fraction (s : Bytes) : (fraction s).all isDigit := by
  cases s with
  | nil => rfl
  | cons c s =>
    rw [fraction]
    split_ifs
    · exact all_takeWhile s
    · rfl

/-- What `sort_number` finds of a text. -/
structure Number.Plain (x : Number) : Prop where
  i : x.i.all isDigit
  f : x.f.all isDigit
  first : (digits x.i).head? ≠ some 0
  last : (digits x.f).getLast? ≠ some 0

theorem sortNumber_plain (s : Bytes) : (sortNumber s).Plain := by
  have hi : (sortNumber s).i = ((unsigned s).takeWhile isDigit).dropWhile (· == zero) := takeWhile_digits _
  have hf : (sortNumber s).f = (fraction ((unsigned s).dropWhile isDigit)).rdropWhile (· == zero) := by
    rw [← dropWhile_digits]
    rfl
  have hall : ∀ {x y : Bytes}, x.all isDigit → y ⊆ x → y.all isDigit := fun {x y} hx hy => by
    rw [List.all_eq_true] at hx ⊢
    exact fun c hc => hx c (hy hc)
  refine ⟨?_, ?_, ?_, ?_⟩
  · rw [hi]
    exact hall (all_takeWhile _) (List.dropWhile_sublist _).subset
  · rw [hf]
    exact hall (all_fraction _) (List.rdropWhile_prefix _ _).subset
  · rw [hi, digits_dropWhile (all_takeWhile _)]
    intro h
    have := List.head?_dropWhile_not (· == 0) (digits ((unsigned s).takeWhile isDigit))
    rw [h] at this
    simp at this
  · rw [hf, digits_rdropWhile (all_fraction _)]
    intro h
    rw [List.rdropWhile, List.getLast?_reverse] at h
    have := List.head?_dropWhile_not (· == 0) (digits (fraction ((unsigned s).dropWhile isDigit))).reverse
    rw [h] at this
    simp at this

/-- The value without its sign. -/
def Number.mag (x : Number) : ℚ := magnitude (digits x.i) (digits x.f)

/-- Zeros in front and at the end do not count. -/
theorem sortNumber_mag (s : Bytes) : (sortNumber s).mag =
    magnitude (digits ((unsigned s).takeWhile isDigit)) (digits (fraction ((unsigned s).dropWhile isDigit))) := by
  have hi : (sortNumber s).i = ((unsigned s).takeWhile isDigit).dropWhile (· == zero) := takeWhile_digits _
  have hf : (sortNumber s).f = (fraction ((unsigned s).dropWhile isDigit)).rdropWhile (· == zero) := by
    rw [← dropWhile_digits]
    rfl
  rw [Number.mag, hi, hf, digits_dropWhile (all_takeWhile _), digits_rdropWhile (all_fraction _), magnitude, magnitude,
    intVal_dropWhile, fracVal_rdropWhile]

theorem length_digits (x : Bytes) : (digits x).length = x.length := List.length_map _

theorem cmpSameSign_eq {x y : Number} (hx : x.Plain) (hy : y.Plain) :
    cmpSameSign x y = cmpMag (digits x.i) (digits x.f) (digits y.i) (digits y.f) := by
  unfold cmpSameSign cmpMag
  rw [cmpLex_eq, diff_digits hx.i hy.i, diff_digits hx.f hy.f, length_digits, length_digits, length_digits,
    length_digits]
  by_cases hlen : x.i.length ≠ y.i.length
  · rw [if_pos hlen, if_pos hlen]
  · rw [if_neg hlen, if_neg hlen]
    by_cases hdiff : cmpPrefix (digits x.i) (digits y.i) ≠ 0
    · simp only [if_pos hdiff]
      rw [if_neg fun h => hdiff h.1]
    · simp only [if_neg hdiff]

theorem negative_iff {x : Number} (hx : x.Plain) : x.negative = true ↔ x.neg = true ∧ 0 < x.mag := by
  have hz : x.mag = 0 ↔ digits x.i = [] ∧ digits x.f = [] := magnitude_eq_zero hx.first hx.last
  have hnn : 0 ≤ x.mag := magnitude_nonneg _ _
  have hpos : 0 < x.mag ↔ ¬ (x.i = [] ∧ x.f = []) := by
    rw [hnn.lt_iff_ne', Ne, hz]
    simp [digits]
  rw [hpos]
  by_cases hi : x.i = [] <;> by_cases hf : x.f = [] <;> simp [Number.negative, hi, hf]

theorem numVal_eq (s : Bytes) :
    numVal s = if (sortNumber s).negative then -(sortNumber s).mag else (sortNumber s).mag := by
  have hx := negative_iff (sortNumber_plain s)
  have hnn : 0 ≤ (sortNumber s).mag := magnitude_nonneg _ _
  have hneg : (sortNumber s).neg = signed s := rfl
  simp only [numVal, ← sortNumber_mag]
  by_cases hs : signed s = true
  · rw [if_pos hs]
    split_ifs with h
    · rfl
    · have : ¬ 0 < (sortNumber s).mag := fun hpos => h (hx.2 ⟨hs, hpos⟩)
      linarith
  · rw [if_neg hs, if_neg fun h => hs (hx.1 h).1]

/-- **Numbers compare as their exact values do.** -/
theorem cmpNum_val (a b : Bytes) :
    (cmpNum a b < 0 ↔ numVal a < numVal b) ∧ (0 < cmpNum a b ↔ numVal b < numVal a) := by
  have hx := sortNumber_plain a
  have hy := sortNumber_plain b
  have hxneg := negative_iff hx
  have hyneg := negative_iff hy
  have hxnn : 0 ≤ (sortNumber a).mag := magnitude_nonneg _ _
  have hynn : 0 ≤ (sortNumber b).mag := magnitude_nonneg _ _
  have hmag : (cmpSameSign (sortNumber a) (sortNumber b) < 0 ↔ (sortNumber a).mag < (sortNumber b).mag) ∧
      (0 < cmpSameSign (sortNumber a) (sortNumber b) ↔ (sortNumber b).mag < (sortNumber a).mag) := by
    rw [cmpSameSign_eq hx hy]
    exact cmpMag_val (digits_lt hx.i) (digits_lt hx.f) (digits_lt hy.i) (digits_lt hy.f) hx.first hy.first hx.last
      hy.last
  rw [numVal_eq, numVal_eq]
  unfold cmpNum
  extract_lets x y
  cases hxn : x.negative with
  | false =>
    cases hyn : y.negative with
    | false => simpa using hmag
    | true =>
      have := (hyneg.1 hyn).2
      have hlt : -y.mag < x.mag := by linarith
      simp
      exact ⟨hlt.le, hlt⟩
  | true =>
    have hxpos := (hxneg.1 hxn).2
    cases hyn : y.negative with
    | false =>
      have hlt : -x.mag < y.mag := by linarith
      simp
      exact ⟨hlt, hlt.le⟩
    | true =>
      simp
      constructor
      · exact hmag.2
      · exact hmag.1

theorem totalCmp_num : TotalCmp cmpNum :=
  .of_key numVal (fun a b => (cmpNum_val a b).1) fun a b => (cmpNum_val a b).2

/-! ## All of it is a total preorder -/

theorem totalCmp_part (k : SortKey) : TotalCmp (cmpPart k) := by
  have h : TotalCmp fun a b => if k.n then cmpNum a b else cmpText k a b := by
    cases k.n
    · exact totalCmp_text k
    · exact totalCmp_num
  unfold cmpPart
  cases k.r
  · exact h
  · exact h.neg

theorem totalCmp_loop (s : Sorter) (ks : List SortKey) : TotalCmp (s.cmpLoop ks) := by
  induction ks with
  | nil => exact .zero
  | cons k ks ih => exact ((totalCmp_part (s.eff k)).comap (sortExtract (s.eff k) s.tsep)).lex ih

theorem totalCmp_keys (s : Sorter) : TotalCmp s.cmpKeys := by
  unfold cmpKeys
  by_cases hkeys : s.keys = []
  · simp only [if_pos hkeys]
    cases (s.eff whole).bs
    · exact totalCmp_part _
    · exact (totalCmp_part _).comap (List.dropWhile isBlankByte)
  · simp only [if_neg hkeys]
    exact totalCmp_loop s s.keys

theorem diff_eq : ∀ x y : Bytes, diff x y = cmpPrefix (x.map UInt8.toNat) (y.map UInt8.toNat)
  | [], y => by cases y <;> rfl
  | _ :: _, [] => rfl
  | a :: x, b :: y => by
      rw [diff, diff_eq x y]
      rfl

/-- **`sort_cmp` orders the lines.** -/
theorem totalCmp (s : Sorter) : TotalCmp s.cmp := by
  have hlines : TotalCmp fun a b : Bytes =>
      let r := diff a b
      if r = 0 ∧ a.length ≠ b.length then (if a.length < b.length then -1 else 1) else r := by
    refine totalCmp_lex.of_sign (List.map UInt8.toNat) fun a b => ?_
    rw [cmpLex_eq, List.length_map, List.length_map, ← diff_eq]
  have hrest : TotalCmp fun a b : Bytes =>
      let r := diff a b
      let r := if r = 0 ∧ a.length ≠ b.length then (if a.length < b.length then -1 else 1) else r
      if s.glob.r then -r else r := by
    cases s.glob.r
    · exact hlines
    · exact hlines.neg
  by_cases hkeys : s.u = true ∨ s.stable = true
  · have hcmp : s.cmp = s.cmpKeys := by
      funext a b
      exact if_pos (.inr hkeys)
    rw [hcmp]
    exact totalCmp_keys s
  · have hcmp : s.cmp = fun a b => if s.cmpKeys a b ≠ 0 then s.cmpKeys a b else
        (let r := diff a b
        let r := if r = 0 ∧ a.length ≠ b.length then (if a.length < b.length then -1 else 1) else r
        if s.glob.r then -r else r) := by
      funext a b
      simp only [cmp, hkeys, or_false]
    rw [hcmp]
    exact (totalCmp_keys s).lex hrest

end Sorter

end Shish
