import Shish.Fmt
import Shish.Var.Store

/-!
# Arith/Longest — what the scanners read of any text

`scan_ulonglong`, `scan_8longlong` and `scan_longlong` end in front of the first digit that would
take the number over a bound: of a run of digits they read the longest part whose number is below
it (`scanUlonglong_below`, `scan8longlong_below`, `scanLonglong_below`).  `scan_xlonglong` reads all of
them, modulo 2^64 (`scanXlonglong_wraps`).  So `fmt_longlong` is undone by `scan_longlong` for every
64-bit number, the least included, and it writes what C's own decimal conversion writes.
-/

namespace Shish

/-- The digits in front of a text, as many as keep the number behind `l` below a bound: how many,
counted from `i`, and the number. -/
def readBelow (isDigit : Char → Bool) (base bound : ℕ) : ℕ → ℕ → Str → ℕ × ℕ
  | i, l, [] => (i, l)
  | i, l, c :: t =>
      if isDigit c ∧ l * base + scanFromhex c < bound then
        readBelow isDigit base bound (i + 1) (l * base + scanFromhex c) t
      else (i, l)

section Below

variable {isDigit : Char → Bool} {base bound i l : ℕ} {c : Char}

example : readBelow isDigit base bound i l [] = (i, l) := by rw [readBelow]

theorem readBelow_cons (h : isDigit c) (hl : l * base + scanFromhex c < bound) (t : Str) :
    readBelow isDigit base bound i l (c :: t) =
      readBelow isDigit base bound (i + 1) (l * base + scanFromhex c) t :=
  if_pos ⟨h, hl⟩

theorem readBelow_stop (h : ¬(isDigit c ∧ l * base + scanFromhex c < bound)) (t : Str) :
    readBelow isDigit base bound i l (c :: t) = (i, l) :=
  if_neg h

theorem le_readBelow_fst : ∀ (t : Str) (i l : ℕ), i ≤ (readBelow isDigit base bound i l t).1
  | [], _, _ => le_rfl
  | c :: t, i, l => by
      rw [readBelow]
      split
      · exact Nat.le_of_succ_le (le_readBelow_fst t (i + 1) _)
      · exact le_rfl

theorem readBelow_lt : ∀ (t : Str) (i l : ℕ), l < bound →
    (readBelow isDigit base bound i l t).2 < bound
  | [], _, _, h => h
  | c :: t, i, l, h => by
      rw [readBelow]
      split
      · next hc => exact readBelow_lt t (i + 1) _ hc.2
      · exact h

/-- The count only counts. -/
theorem readBelow_from : ∀ (t : Str) (i l : ℕ), readBelow isDigit base bound i l t =
    (i + (readBelow isDigit base bound 0 l t).1, (readBelow isDigit base bound 0 l t).2)
  | [], _, _ => rfl
  | c :: t, i, l => by
      rw [readBelow, readBelow]
      split
      · rw [readBelow_from t (i + 1), readBelow_from t (0 + 1)]
        simp only [Prod.mk.injEq, and_true]
        omega
      · rfl

/-- Digits whose number is below the bound are read, and reading goes on behind them. -/
theorem readBelow_append (hb : 0 < base) : ∀ (ds r : Str) (i l : ℕ), (∀ c ∈ ds, isDigit c) →
    digits base l ds < bound → readBelow isDigit base bound i l (ds ++ r) =
      readBelow isDigit base bound (i + ds.length) (digits base l ds) r
  | [], _, _, _, _, _ => rfl
  | c :: t, r, i, l, hd, h => by
      have hle := le_digits base hb (l * base + scanFromhex c) t
      rw [digits_cons] at h
      rw [List.cons_append, readBelow_cons (hd c (.head _)) (by omega),
        readBelow_append hb t r (i + 1) _ (fun d hd' => hd d (.tail _ hd')) h, digits_cons,
        List.length_cons, Nat.add_right_comm, Nat.add_assoc]

theorem readBelow_digits (hb : 0 < base) {ds : Str} (hd : ∀ c ∈ ds, isDigit c)
    (h : digits base l ds < bound) :
    readBelow isDigit base bound i l ds = (i + ds.length, digits base l ds) := by
  simpa [readBelow] using readBelow_append hb ds [] i l hd h

variable (isDigit base) in
/-- What is read is a run of digits, and it ends where the run or the bound does. -/
theorem readBelow_spec : ∀ (t : Str) (l : ℕ), l < bound → ∃ ds r, t = ds ++ r ∧
    (∀ c ∈ ds, isDigit c) ∧ readBelow isDigit base bound 0 l t = (ds.length, digits base l ds) ∧
    ∀ c ∈ r.head?, ¬(isDigit c ∧ digits base l ds * base + scanFromhex c < bound)
  | [], l, _ => ⟨[], [], rfl, (fun _ h => by cases h), rfl, (fun _ h => by cases h)⟩
  | c :: t, l, h => by
      by_cases hc : isDigit c ∧ l * base + scanFromhex c < bound
      · obtain ⟨ds, r, rfl, hd, hr, hs⟩ := readBelow_spec t (l * base + scanFromhex c) hc.2
        refine ⟨c :: ds, r, rfl, ?_, ?_, hs⟩
        · simpa [hc.1] using hd
        · rw [readBelow_cons hc.1 hc.2, readBelow_from, hr, digits_cons, List.length_cons,
            Nat.add_comm]
      · refine ⟨[], c :: t, rfl, (fun _ h => by cases h), readBelow_stop hc t, ?_⟩
        rintro d hd
        obtain rfl : c = d := by simpa using hd
        exact hc

end Below

/-- Digits keep the number between those with only the smallest and only the largest digit. -/
theorem digits_bounds {base : ℕ} : ∀ (ds : Str) (l : ℕ), (∀ c ∈ ds, scanFromhex c < base) →
    l * base ^ ds.length ≤ digits base l ds ∧ digits base l ds < (l + 1) * base ^ ds.length
  | [], l, _ => by simp [digits]
  | c :: t, l, h => by
      have hc := h c (.head _)
      obtain ⟨h₁, h₂⟩ := digits_bounds t (l * base + scanFromhex c) fun d hd => h d (.tail _ hd)
      rw [digits_cons, List.length_cons, Nat.pow_succ', ← Nat.mul_assoc, ← Nat.mul_assoc]
      refine ⟨le_trans (Nat.mul_le_mul_right _ (by omega)) h₁,
        lt_of_lt_of_le h₂ (Nat.mul_le_mul_right _ ?_)⟩
      rw [Nat.succ_mul]
      omega

/-! ## The scanners of words -/

theorem toNat_ofNat_digit {d : ℕ} (h : d < 16) : (UInt64.ofNat d).toNat = d := by
  rw [UInt64.toNat_ofNat']
  omega

/-- A digit that no longer fits ends the loop of `scan_ulonglong`. -/
theorem scanUlonglongGo_over {i : ℕ} {l : UInt64} {c : Char} {t : Str} (hc : parseIsdigit c)
    (h : 2 ^ 64 ≤ l.toNat * 10 + scanFromhex c) : scanUlonglongGo i l (c :: t) = (i, l) := by
  have hd := scanFromhex_lt hc
  have hlt := l.toNat_lt
  simp only [scanUlonglongGo, hc, if_true]
  split_ifs with h₁ h₂ h₃
  · rfl
  · rfl
  · rfl
  · exfalso
    have h₈ : (l <<< 3).toNat = l.toNat * 8 % 2 ^ 64 := by
      rw [UInt64.toNat_shiftLeft]
      simp [Nat.shiftLeft_eq]
    rw [ne_eq, not_not] at h₁
    -- a shift that loses nothing
    have hl : l.toNat * 8 < 2 ^ 64 := by
      have := congrArg UInt64.toNat h₁
      rw [UInt64.toNat_shiftRight, h₈] at this
      simp only [UInt64.reduceToNat, Nat.reduceMod, Nat.shiftRight_eq_div_pow] at this
      omega
    have h₂' : (l <<< 1).toNat = l.toNat * 2 := by
      rw [UInt64.toNat_shiftLeft]
      simp [Nat.shiftLeft_eq]
      omega
    rw [UInt64.lt_iff_toNat_lt, UInt64.toNat_add, h₂', h₈, Nat.mod_eq_of_lt hl] at h₂
    have h₁₀ : l.toNat * 10 < 2 ^ 64 := by
      by_contra h₁₀
      rw [Nat.mod_eq_sub_mod (by omega), Nat.mod_eq_of_lt (by omega)] at h₂
      omega
    have hn : (l <<< 3 + l <<< 1).toNat = l.toNat * 10 := by
      rw [UInt64.toNat_add, h₂', h₈]
      omega
    rw [UInt64.lt_iff_toNat_lt, UInt64.toNat_add, hn, toNat_ofNat_digit (by omega)] at h₃
    omega

theorem scanUlonglongGo_below : ∀ (src : Str) (i : ℕ) (l : UInt64), scanUlonglongGo i l src =
    ((readBelow parseIsdigit 10 (2 ^ 64) i l.toNat src).1,
      UInt64.ofNat (readBelow parseIsdigit 10 (2 ^ 64) i l.toNat src).2)
  | [], i, l => by simp [scanUlonglongGo, readBelow]
  | c :: t, i, l => by
      by_cases hc : parseIsdigit c
      · by_cases hl : l.toNat * 10 + scanFromhex c < 2 ^ 64
        · obtain ⟨l', hl', heq⟩ := scanUlonglongGo_cons (i := i) (t := t) hc hl
          rw [heq, scanUlonglongGo_below t, readBelow_cons hc hl, hl']
        · rw [scanUlonglongGo_over hc (not_lt.1 hl), readBelow_stop fun h => hl h.2]
          simp
      · rw [readBelow_stop (by simp [hc])]
        simp [scanUlonglongGo, hc]

/-- **`scan_ulonglong` reads the longest number below 2^64.** -/
theorem scanUlonglong_below (src : Str) : scanUlonglong src =
    ((readBelow parseIsdigit 10 (2 ^ 64) 0 0 src).1,
      UInt64.ofNat (readBelow parseIsdigit 10 (2 ^ 64) 0 0 src).2) :=
  scanUlonglongGo_below src 0 0

theorem scan8longlongGo_below : ∀ (src : Str) (i : ℕ) (l : UInt64), scan8longlongGo i l src =
    ((readBelow parseIsodigit 8 (2 ^ 64) i l.toNat src).1,
      UInt64.ofNat (readBelow parseIsodigit 8 (2 ^ 64) i l.toNat src).2)
  | [], i, l => by simp [scan8longlongGo, readBelow]
  | c :: t, i, l => by
      by_cases hc : parseIsodigit c
      · have hd := scanFromhex_lt_eight hc
        have hlt := l.toNat_lt
        have hs : l >>> 61 = 0 ↔ l.toNat * 8 + scanFromhex c < 2 ^ 64 := by
          rw [← UInt64.toNat_inj, UInt64.toNat_shiftRight]
          simp only [UInt64.reduceToNat, Nat.reduceMod, Nat.shiftRight_eq_div_pow]
          omega
        by_cases hl : l.toNat * 8 + scanFromhex c < 2 ^ 64
        · have hadd : (l * 8 + UInt64.ofNat (scanFromhex c)).toNat = l.toNat * 8 + scanFromhex c := by
            rw [UInt64.toNat_add, UInt64.toNat_mul, toNat_ofNat_digit (by omega)]
            simp only [UInt64.reduceToNat]
            omega
          rw [readBelow_cons hc hl, ← hadd, ← scan8longlongGo_below t]
          simp [scan8longlongGo, hc, hs.2 hl]
        · rw [readBelow_stop fun h => hl h.2]
          simp [scan8longlongGo, hc, mt hs.1 hl]
      · rw [readBelow_stop (by simp [hc])]
        simp [scan8longlongGo, hc]

/-- **`scan_8longlong` reads the longest number below 2^64.** -/
theorem scan8longlong_below (src : Str) : scan8longlong src =
    ((readBelow parseIsodigit 8 (2 ^ 64) 0 0 src).1,
      UInt64.ofNat (readBelow parseIsodigit 8 (2 ^ 64) 0 0 src).2) :=
  scan8longlongGo_below src 0 0

theorem digits_mod (base m : ℕ) : ∀ (ds : Str) (l : ℕ),
    digits base (l % m) ds % m = digits base l ds % m
  | [], l => Nat.mod_mod l m
  | c :: t, l => by
      rw [digits_cons, digits_cons, ← digits_mod base m t (_ + _), ← digits_mod base m t (l * base + _)]
      congr 2
      simp [Nat.add_mod, Nat.mul_mod]

theorem isxdigit_iff {c : Char} : parseIsxdigit c ↔ scanFromhex c < 16 := by
  simp only [parseIsxdigit, parseIsdigit, scanFromhex, Bool.or_eq_true, Bool.and_eq_true,
    decide_eq_true_eq, char_le_iff, Char.reduceToNat]
  split_ifs <;> omega

theorem scanXlonglongGo_wraps : ∀ (src : Str) (i : ℕ) (l : UInt64), scanXlonglongGo i l src =
    (i + (src.takeWhile parseIsxdigit).length,
      UInt64.ofNat (digits 16 l.toNat (src.takeWhile parseIsxdigit)))
  | [], i, l => by simp [scanXlonglongGo, digits]
  | c :: t, i, l => by
      by_cases hx : parseIsxdigit c
      · have hc := isxdigit_iff.1 hx
        have hl : (l <<< 4 + UInt64.ofNat (scanFromhex c)).toNat =
            (l.toNat * 16 + scanFromhex c) % 2 ^ 64 := by
          rw [UInt64.toNat_add, UInt64.toNat_shiftLeft, toNat_ofNat_digit hc]
          simp [Nat.shiftLeft_eq]
        have hmod (ds : Str) : UInt64.ofNat (digits 16 ((l.toNat * 16 + scanFromhex c) % 2 ^ 64) ds) =
            UInt64.ofNat (digits 16 (l.toNat * 16 + scanFromhex c) ds) := by
          apply UInt64.toNat.inj
          rw [UInt64.toNat_ofNat', UInt64.toNat_ofNat', digits_mod]
        simp only [scanXlonglongGo, hc, if_true, List.takeWhile_cons_of_pos hx]
        rw [scanXlonglongGo_wraps t (i + 1), hl, hmod, digits_cons, List.length_cons,
          Nat.add_right_comm, Nat.add_assoc]
      · simp [scanXlonglongGo, mt isxdigit_iff.2 hx, List.takeWhile_cons_of_neg hx, digits]

/-- **`scan_xlonglong` reads every digit, modulo 2^64.** -/
theorem scanXlonglong_wraps (src : Str) : scanXlonglong src =
    ((src.takeWhile parseIsxdigit).length, UInt64.ofNat (digits 16 0 (src.takeWhile parseIsxdigit))) := by
  rw [scanXlonglong, scanXlonglongGo_wraps, Nat.zero_add]
  rfl

/-! ## The scanner of signed numbers -/

/-- A tighter bound takes back the last digit only. -/
theorem readBelow_tighter (bound bound' : ℕ) (hb : bound' ≤ bound) (hb' : bound ≤ bound' * 10) :
    ∀ (t : Str) (i l : ℕ), l < bound' →
    readBelow parseIsdigit 10 bound' i l t =
      if bound' ≤ (readBelow parseIsdigit 10 bound i l t).2 then
        ((readBelow parseIsdigit 10 bound i l t).1 - 1, (readBelow parseIsdigit 10 bound i l t).2 / 10)
      else readBelow parseIsdigit 10 bound i l t
  | [], i, l, h => by simp [readBelow, not_le.2 h]
  | c :: t, i, l, h => by
      by_cases hc : parseIsdigit c
      · have hd := scanFromhex_lt hc
        by_cases hl' : l * 10 + scanFromhex c < bound'
        · rw [readBelow_cons hc hl', readBelow_cons hc (by omega), readBelow_tighter _ _ hb hb' t _ _ hl']
        by_cases hl : l * 10 + scanFromhex c < bound
        · -- the digit fits the wider bound only, and none behind it does
          have hstop : readBelow parseIsdigit 10 bound (i + 1) (l * 10 + scanFromhex c) t =
              (i + 1, l * 10 + scanFromhex c) := by
            cases t with
            | nil => rfl
            | cons e t => exact readBelow_stop (fun h => by omega) t
          rw [readBelow_stop (fun h => hl' h.2), readBelow_cons hc hl, hstop, if_pos (by simpa using hl')]
          simp only [Nat.add_sub_cancel, Prod.mk.injEq, true_and]
          omega
        · rw [readBelow_stop (fun h => hl' h.2), readBelow_stop (fun h => hl h.2),
            if_neg (by simpa using h)]
      · rw [readBelow_stop (fun h => hc h.1), readBelow_stop (fun h => hc h.1),
          if_neg (by simpa using h)]

theorem toInt64_ofNat (l : ℕ) : (UInt64.ofNat l).toInt64 = Int64.ofInt l := by
  rfl

/-- Words are the same when the numbers are, modulo 2^64. -/
theorem toInt64_inj (m n : ℕ) :
    (UInt64.ofNat m).toInt64 = (UInt64.ofNat n).toInt64 ↔ m % 2 ^ 64 = n % 2 ^ 64 := by
  rw [← UInt64.toNat_ofNat', ← UInt64.toNat_ofNat', UInt64.toNat_inj]
  constructor
  · intro h
    exact congrArg Int64.toUInt64 h
  · intro h
    rw [h]

theorem toInt64_neg_ofNat (l : ℕ) : (-UInt64.ofNat l).toInt64 = Int64.ofInt (-(l : ℤ)) := by
  rw [Int64.ofInt_neg, ← toInt64_ofNat]
  rfl

/-- **`scan_longlong` reads the longest number that a signed word holds with its sign.** -/
theorem scanLonglong_below (src : Str) :
    scanLonglong src =
      let neg := src.head? == some '-'
      let o := if neg || src.head? == some '+' then 1 else 0
      let (i, l) := readBelow parseIsdigit 10 (2 ^ 63 + neg.toNat) 0 0 (src.drop o)
      if i = 0 then none else some (i + o, .ofInt (if neg then -(l : ℤ) else l)) := by
  simp only [scanLonglong, scanUlonglong_below]
  generalize hneg : (src.head? == some '-') = neg
  generalize (if neg || src.head? == some '+' then 1 else 0) = o
  have htight := readBelow_tighter (2 ^ 64) (2 ^ 63 + neg.toNat) (by cases neg <;> simp)
    (by cases neg <;> simp) (src.drop o) 0 0 (by cases neg <;> simp)
  obtain ⟨ds, -, -, hd, hq, -⟩ :=
    readBelow_spec parseIsdigit 10 (src.drop o) 0 (show 0 < 2 ^ 64 by omega)
  have hlt : digits 10 0 ds < 2 ^ 64 := by
    have : (readBelow parseIsdigit 10 (2 ^ 64) 0 0 (src.drop o)).2 < 2 ^ 64 :=
      readBelow_lt _ 0 0 (by omega)
    rwa [hq] at this
  have hmax : UInt64.ofNat (digits 10 0 ds) > maxlong + (if neg then 1 else 0) ↔
      2 ^ 63 + neg.toNat ≤ digits 10 0 ds := by
    rw [gt_iff_lt, UInt64.lt_iff_toNat_lt, UInt64.toNat_ofNat', Nat.mod_eq_of_lt hlt]
    cases neg
    · simp [maxlong]
      omega
    · simp [maxlong]
      omega
  have hdiv : UInt64.ofNat (digits 10 0 ds) / 10 = UInt64.ofNat (digits 10 0 ds / 10) := by
    apply UInt64.toNat.inj
    rw [UInt64.toNat_div, UInt64.toNat_ofNat', UInt64.toNat_ofNat', Nat.mod_eq_of_lt hlt]
    simp
    omega
  have hval : ∀ m : ℕ, (if neg then -UInt64.ofNat m else UInt64.ofNat m).toInt64 =
      .ofInt (if neg then -(m : ℤ) else m) := by
    intro m
    cases neg
    · exact toInt64_ofNat m
    · exact toInt64_neg_ofNat m
  rw [htight, hq]
  by_cases hover : 2 ^ 63 + neg.toNat ≤ digits 10 0 ds
  · -- a number this large has more than one digit
    have hlen : ds.length ≠ 0 ∧ ds.length - 1 ≠ 0 := by
      obtain ⟨-, h⟩ := digits_bounds ds 0 fun c hc => scanFromhex_lt (hd c hc)
      have : ¬ds.length ≤ 1 := by
        intro hle
        have := Nat.pow_le_pow_right (show 0 < 10 by omega) hle
        omega
      omega
    simp only [hmax.2 hover, hover, if_true, hlen.1, hlen.2, if_false, hdiv, hval]
  · simp only [mt hmax.1 hover, hover, if_false, hval]

/-- A text without a sign in front. -/
def behindSign (t : Str) : Str :=
  if t.head? = some '-' ∨ t.head? = some '+' then t.tail else t

/-- The number `scan_longlong` reads is that of the text behind the sign. -/
theorem scanLonglong_snd (t : Str) (neg : Bool) (hn : (t.head? == some '-') = neg) :
    (scanLonglong t).map Prod.snd =
      if (readBelow parseIsdigit 10 (2 ^ 63 + neg.toNat) 0 0 (behindSign t)).1 = 0 then none
      else some (.ofInt (if neg then -((readBelow parseIsdigit 10 (2 ^ 63 + neg.toNat) 0 0 (behindSign t)).2 : ℤ)
        else (readBelow parseIsdigit 10 (2 ^ 63 + neg.toNat) 0 0 (behindSign t)).2)) := by
  have hu : t.drop (if t.head? == some '-' || t.head? == some '+' then 1 else 0) = behindSign t := by
    unfold behindSign
    split_ifs <;> simp_all
  subst hn
  simp only [scanLonglong_below, hu, apply_ite (Option.map Prod.snd), Option.map_none, Option.map_some]

/-- `scan_longlong` behind no sign. -/
theorem scanLonglong_digit {c : Char} (hc : parseIsdigit c) (t : Str) :
    (scanLonglong (c :: t)).map Prod.snd =
      some (UInt64.ofNat (readBelow parseIsdigit 10 (2 ^ 63) 0 0 (c :: t)).2).toInt64 := by
  have hm : c ≠ '-' := by
    rintro rfl
    exact absurd hc (by decide)
  have hp : c ≠ '+' := by
    rintro rfl
    exact absurd hc (by decide)
  have hu : behindSign (c :: t) = c :: t := if_neg (by simp [hm, hp])
  have hpos : (readBelow parseIsdigit 10 (2 ^ 63) 0 0 (c :: t)).1 ≠ 0 := by
    have hlt := scanFromhex_lt hc
    have hle : 0 + 1 ≤ (readBelow parseIsdigit 10 (2 ^ 63) (0 + 1) (0 * 10 + scanFromhex c) t).1 :=
      le_readBelow_fst t _ _
    rw [readBelow_cons hc (by omega)]
    omega
  rw [scanLonglong_snd _ false (by simpa using hm), hu, Bool.toNat_false, Nat.add_zero, if_neg hpos,
    toInt64_ofNat]
  rfl

/-- A number that is read has digits. -/
theorem scanLonglong_pos {src : Str} {n : ℕ} {v : Int64} (h : scanLonglong src = some (n, v)) :
    n ≠ 0 := by
  simp only [scanLonglong_below] at h
  generalize (if (src.head? == some '-' || src.head? == some '+') then 1 else 0) = o at h
  split at h
  · cases h
  · next hi =>
    have : _ + o = n := congrArg Prod.fst (Option.some.inj h)
    omega

/-- A number and its sign are read back. -/
theorem scanLonglong_signed {src ds : Str} (neg : Bool) (hs : src = if neg then '-' :: ds else ds)
    (hne : ds ≠ []) (hd : ∀ c ∈ ds, parseIsdigit c) (h : digits 10 0 ds < 2 ^ 63 + neg.toNat) :
    (scanLonglong src).map Prod.snd =
      some (.ofInt (if neg then -(digits 10 0 ds : ℤ) else digits 10 0 ds)) := by
  obtain ⟨c, t, rfl⟩ := List.exists_cons_of_ne_nil hne
  have hm : c ≠ '-' := by
    rintro rfl
    exact absurd (hd _ (.head _)) (by decide)
  have hp : c ≠ '+' := by
    rintro rfl
    exact absurd (hd _ (.head _)) (by decide)
  have hr := readBelow_digits (i := 0) (by omega) hd h
  cases neg
  · simp only [Bool.false_eq_true, if_false] at hs
    subst hs
    simp [scanLonglong_below, hp, show (c == '-') = false by simpa using hm] at hr ⊢
    simp [hr]
  · simp only [if_true] at hs
    subst hs
    simp [scanLonglong_below] at hr ⊢
    simp [hr]

/-! ## Decimal text -/

theorem fmtDigits_toDigits : ∀ {n i : ℕ}, i < 10 ^ (n + 1) → fmtDigits 10 (n + 1) i = Nat.toDigits 10 i
  | n, i, h => by
      have hd : ∀ d < 10, tohex d = Nat.digitChar d := by decide
      rw [fmtDigits, Nat.toDigits_eq_if (by omega)]
      split
      · next hi => rw [hd i hi]
      · next hi =>
        obtain ⟨m, rfl⟩ : ∃ m, n = m + 1 := by
          cases n with
          | zero => exact absurd (by simpa using h) hi
          | succ m => exact ⟨m, rfl⟩
        rw [hd _ (Nat.mod_lt i (by omega)), fmtDigits_toDigits (div_lt_pow (by omega) h)]

theorem fmtUlonglong_eq {n : ℕ} (h : n < 2 ^ 64) :
    fmtUlonglong (UInt64.ofNat n) = (toString n).toList := by
  rw [fmtUlonglong, UInt64.toNat_ofNat', Nat.mod_eq_of_lt h, fmtDigits_toDigits (lt_trans h (by norm_num)),
    Nat.toString_eq_ofList_toDigits, String.toList_ofList]

/-- A number as a sign and a word. -/
theorem toInt_cases (v : Int64) :
    (∃ n : ℕ, v.toInt = n ∧ n < 2 ^ 63 ∧ v = (UInt64.ofNat n).toInt64) ∨
      ∃ n : ℕ, v.toInt = -(n : ℤ) ∧ 0 < n ∧ n ≤ 2 ^ 63 ∧ v = -(UInt64.ofNat n).toInt64 := by
  have h₁ := v.toInt_lt
  have h₂ := v.le_toInt
  rcases lt_or_ge v.toInt 0 with h | h
  · refine .inr ⟨(-v.toInt).toNat, by omega, by omega, by omega, ?_⟩
    rw [toInt64_ofNat, ← Int64.ofInt_neg, show -((-v.toInt).toNat : ℤ) = v.toInt by omega, Int64.ofInt_toInt]
  · refine .inl ⟨v.toInt.toNat, by omega, by omega, ?_⟩
    rw [toInt64_ofNat, show (v.toInt.toNat : ℤ) = v.toInt by omega, Int64.ofInt_toInt]

/-- **`fmt_longlong` writes the decimal text of a number**, the least included. -/
theorem fmtLonglong_eq (v : Int64) : fmtLonglong v = catlong v.toInt := by
  have hv : v < 0 ↔ v.toInt < 0 := Int64.lt_iff_toInt_lt
  rw [fmtLonglong, catlong, Int.toString_eq_repr, Int.repr_eq_if]
  rcases toInt_cases v with ⟨n, hn, hlt, hw⟩ | ⟨n, hn, hpos, hle, hw⟩
  · rw [if_neg (mt hv.1 (by omega)), if_pos (by omega), hn, hw]
    exact fmtUlonglong_eq (by omega)
  · have hneg : (-v).toUInt64 = UInt64.ofNat n := by
      rw [hw, Int64.neg_neg]
      rfl
    rw [if_pos (hv.2 (by omega)), if_neg (by omega), hn, hneg, fmtUlonglong_eq (by omega)]
    simp

/-- **What `fmt_longlong` writes is read back.** -/
theorem scanLonglong_fmtLonglong (v : Int64) :
    (scanLonglong (fmtLonglong v)).map Prod.snd = some v := by
  have hd : ∀ n : ℕ, ∀ c ∈ fmtDigits 10 64 n, parseIsdigit c := fun n =>
    mem_fmtDigits (by omega) (by omega) fun d hd => isdigit_tohex hd
  have hdig : ∀ {n : ℕ}, n < 2 ^ 64 → digits 10 0 (fmtUlonglong (UInt64.ofNat n)) = n := by
    intro n h
    rw [fmtUlonglong, UInt64.toNat_ofNat', Nat.mod_eq_of_lt h]
    exact digits_fmt (by omega) (by omega) (lt_trans h (by norm_num))
  have hv : v < 0 ↔ v.toInt < 0 := Int64.lt_iff_toInt_lt
  rcases toInt_cases v with ⟨n, hn, hlt, hw⟩ | ⟨n, hn, hpos, hle, hw⟩
  · have h := @scanLonglong_signed (fmtLonglong v) (fmtUlonglong (UInt64.ofNat n)) false
      (by rw [fmtLonglong, if_neg (mt hv.1 (by omega)), hw]; rfl) (fmtDigits_ne_nil _ _) (hd _)
      (by rw [hdig (by omega)]; simpa using hlt)
    rw [h, hdig (by omega), if_neg (by decide), ← toInt64_ofNat, hw]
  · have h := @scanLonglong_signed (fmtLonglong v) (fmtUlonglong (UInt64.ofNat n)) true
      (by rw [fmtLonglong, if_pos (hv.2 (by omega)), hw, Int64.neg_neg]; rfl) (fmtDigits_ne_nil _ _) (hd _)
      (by rw [hdig (by omega)]; simpa using Nat.lt_succ_of_le hle)
    rw [h, hdig (by omega), if_pos rfl, Int64.ofInt_neg, ← toInt64_ofNat, hw]

end Shish
