import Mathlib.Algebra.Order.Ring.Nat
import Mathlib.Tactic.Linarith
import Shish.Chartable

/-!
# Scan — numbers in text

The scanners of `lib/scan` read digits into a word.  `scan_ulonglong` and `scan_8longlong` stop in
front of the digit that would no longer fit, `scan_xlonglong` does not look, and `scan_longlong`
takes a last digit back when the number does not fit with its sign.  On digits whose number does fit
all of them read the number (`scanUlonglong_eq`, `scan8longlong_eq`, `scanXlonglong_eq`).
-/

namespace Shish

/-! ## The scanners -/

/-- `scan_fromhex`: the digit a character stands for, and a value above every digit otherwise. -/
def scanFromhex (c : Char) : ℕ :=
  if parseIsdigit c then c.toNat - 48
  else if 'a' ≤ c && c ≤ 'f' then c.toNat - 97 + 10
  else if 'A' ≤ c && c ≤ 'F' then c.toNat - 65 + 10
  else 255

/-- The loop of `scan_ulonglong`: `i` digits read so far make `l`. -/
def scanUlonglongGo (i : ℕ) (l : UInt64) : Str → ℕ × UInt64
  | [] => (i, l)
  | c :: t =>
      if parseIsdigit c then
        let n := l <<< 3
        if n >>> 3 ≠ l then (i, l)
        else if n + l <<< 1 < n then (i, l)
        else
          let n := n + l <<< 1
          let d := UInt64.ofNat (scanFromhex c)
          if n + d < n then (i, l) else scanUlonglongGo (i + 1) (n + d) t
      else (i, l)

/-- `scan_ulonglong`: how many digits were read, and the number. -/
def scanUlonglong (src : Str) : ℕ × UInt64 := scanUlonglongGo 0 0 src

/-- The loop of `scan_uint`: a number that no longer fits ends in front of the digit. -/
def scanUintHeadGo (i l : ℕ) : Str → ℕ × ℕ
  | [] => (i, l)
  | c :: t =>
      if parseIsdigit c && decide (l * 10 + (c.toNat - 48) < 2 ^ 32) then
        scanUintHeadGo (i + 1) (l * 10 + (c.toNat - 48)) t
      else (i, l)

/-- `scan_uint`: how many digits were read, and the number; without digits it stays 0. -/
def scanUintHead (src : Str) : ℕ × ℕ := scanUintHeadGo 0 0 src

/-- `maxlong`. -/
def maxlong : UInt64 := (-1 : UInt64) >>> 1

/-- `scan_longlong`: how many characters were read and the number, or nothing when there are no
digits, and then the destination stays as it was. -/
def scanLonglong (src : Str) : Option (ℕ × Int64) :=
  let c := src.head?
  let neg := c == some '-'
  let o := if c == some '-' || c == some '+' then 1 else 0
  let (i, l) := scanUlonglong (src.drop o)
  if i = 0 then none
  else
    let (i, l) := if l > maxlong + (if neg then 1 else 0) then (i - 1, l / 10) else (i, l)
    some (i + o, (if neg then -l else l).toInt64)

/-- The loop of `scan_8longlong`. -/
def scan8longlongGo (i : ℕ) (l : UInt64) : Str → ℕ × UInt64
  | [] => (i, l)
  | c :: t =>
      if parseIsodigit c then
        if l >>> 61 ≠ 0 then (i, l)
        else scan8longlongGo (i + 1) (l * 8 + UInt64.ofNat (scanFromhex c)) t
      else (i, l)

/-- `scan_8longlong`. -/
def scan8longlong (src : Str) : ℕ × UInt64 := scan8longlongGo 0 0 src

/-- The loop of `scan_xlonglong`. -/
def scanXlonglongGo (i : ℕ) (l : UInt64) : Str → ℕ × UInt64
  | [] => (i, l)
  | c :: t =>
      if scanFromhex c < 16 then
        scanXlonglongGo (i + 1) (l <<< 4 + UInt64.ofNat (scanFromhex c)) t
      else (i, l)

/-- `scan_xlonglong`. -/
def scanXlonglong (src : Str) : ℕ × UInt64 := scanXlonglongGo 0 0 src

/-! ## What digits mean -/

/-- The number that digits make behind `l`. -/
def digits (base : ℕ) (l : ℕ) (ds : Str) : ℕ :=
  ds.foldl (fun l c => l * base + scanFromhex c) l

theorem digits_cons (base l : ℕ) (c : Char) (t : Str) :
    digits base l (c :: t) = digits base (l * base + scanFromhex c) t :=
  rfl

theorem le_digits (base : ℕ) (hb : 0 < base) : ∀ (l : ℕ) (ds : Str), l ≤ digits base l ds
  | _, [] => le_rfl
  | l, c :: t => by
      have h₁ : l ≤ l * base := Nat.le_mul_of_pos_right l hb
      have h₂ := le_digits base hb (l * base + scanFromhex c) t
      rw [digits_cons]
      omega

theorem char_le_iff {c d : Char} : c ≤ d ↔ c.toNat ≤ d.toNat :=
  Iff.rfl

theorem scanFromhex_lt {c : Char} (h : parseIsdigit c) : scanFromhex c < 10 := by
  simp only [scanFromhex, h, if_true]
  simp only [parseIsdigit, Bool.and_eq_true, decide_eq_true_eq, char_le_iff] at h
  simp only [Char.reduceToNat] at h
  omega

theorem isdigit_of_isodigit {c : Char} (h : parseIsodigit c) : parseIsdigit c := by
  simp only [parseIsodigit, parseIsdigit, Bool.and_eq_true, decide_eq_true_eq, char_le_iff,
    Char.reduceToNat] at h ⊢
  omega

theorem scanFromhex_lt_eight {c : Char} (h : parseIsodigit c) : scanFromhex c < 8 := by
  simp only [scanFromhex, isdigit_of_isodigit h, if_true]
  simp only [parseIsodigit, Bool.and_eq_true, decide_eq_true_eq, char_le_iff,
    Char.reduceToNat] at h
  omega

theorem scanFromhex_lt_sixteen {c : Char} (h : parseIsxdigit c) : scanFromhex c < 16 := by
  simp only [parseIsxdigit, parseIsdigit, Bool.or_eq_true, Bool.and_eq_true, decide_eq_true_eq,
    char_le_iff, Char.reduceToNat] at h
  simp only [scanFromhex, parseIsdigit, Bool.and_eq_true, decide_eq_true_eq, char_le_iff,
    Char.reduceToNat]
  split_ifs <;> omega

/-! ## Reading digits -/

/-- A digit that fits is read. -/
theorem scanUlonglongGo_cons {i : ℕ} {l : UInt64} {c : Char} {t : Str} (hc : parseIsdigit c)
    (h : l.toNat * 10 + scanFromhex c < 2 ^ 64) :
    ∃ l' : UInt64, l'.toNat = l.toNat * 10 + scanFromhex c ∧
      scanUlonglongGo i l (c :: t) = scanUlonglongGo (i + 1) l' t := by
  have h₈ : (l <<< 3).toNat = l.toNat * 8 := by
    rw [UInt64.toNat_shiftLeft]
    simp [Nat.shiftLeft_eq]
    omega
  have h₂ : (l <<< 1).toNat = l.toNat * 2 := by
    rw [UInt64.toNat_shiftLeft]
    simp [Nat.shiftLeft_eq]
    omega
  have hs : l <<< 3 >>> 3 = l := by
    apply UInt64.toNat.inj
    rw [UInt64.toNat_shiftRight, h₈]
    simp [Nat.shiftRight_eq_div_pow]
  have hd : (UInt64.ofNat (scanFromhex c)).toNat = scanFromhex c := by
    rw [UInt64.toNat_ofNat']
    omega
  have hn : (l <<< 3 + l <<< 1).toNat = l.toNat * 10 := by
    rw [UInt64.toNat_add, h₈, h₂]
    omega
  have hl : (l <<< 3 + l <<< 1 + UInt64.ofNat (scanFromhex c)).toNat =
      l.toNat * 10 + scanFromhex c := by
    rw [UInt64.toNat_add, hn, hd]
    omega
  refine ⟨_, hl, ?_⟩
  have h₁ : ¬l <<< 3 + l <<< 1 < l <<< 3 := by
    rw [UInt64.lt_iff_toNat_lt, hn, h₈]
    omega
  have h₃ : ¬l <<< 3 + l <<< 1 + UInt64.ofNat (scanFromhex c) < l <<< 3 + l <<< 1 := by
    rw [UInt64.lt_iff_toNat_lt, hl, hn]
    omega
  simp only [scanUlonglongGo, hc, hs, h₁, h₃, if_true, if_false, ne_eq, not_true]

/-- `scan_ulonglong` on digits whose number fits. -/
theorem scanUlonglongGo_eq : ∀ (ds : Str) (i : ℕ) (l : UInt64), (∀ c ∈ ds, parseIsdigit c) →
    digits 10 l.toNat ds < 2 ^ 64 →
    scanUlonglongGo i l ds = (i + ds.length, UInt64.ofNat (digits 10 l.toNat ds))
  | [], i, l, _, _ => by simp [scanUlonglongGo, digits]
  | c :: t, i, l, hd, h => by
      have hle := le_digits 10 (by omega) (l.toNat * 10 + scanFromhex c) t
      rw [digits_cons] at h
      obtain ⟨l', hl', heq⟩ := scanUlonglongGo_cons (i := i) (t := t) (hd c (.head _))
        (lt_of_le_of_lt hle h)
      rw [heq, scanUlonglongGo_eq t (i + 1) l' (fun d hd' => hd d (.tail _ hd')) (by rwa [hl']),
        hl', digits_cons, List.length_cons]
      congr 1
      omega

/-- `scan_8longlong` on digits whose number fits. -/
theorem scan8longlongGo_eq : ∀ (ds : Str) (i : ℕ) (l : UInt64), (∀ c ∈ ds, parseIsodigit c) →
    digits 8 l.toNat ds < 2 ^ 64 →
    scan8longlongGo i l ds = (i + ds.length, UInt64.ofNat (digits 8 l.toNat ds))
  | [], i, l, _, _ => by simp [scan8longlongGo, digits]
  | c :: t, i, l, hd, h => by
      have hle := le_digits 8 (by omega) (l.toNat * 8 + scanFromhex c) t
      have hc := scanFromhex_lt_eight (hd c (.head _))
      rw [digits_cons] at h
      have hs : l >>> 61 = 0 := by
        apply UInt64.toNat.inj
        rw [UInt64.toNat_shiftRight]
        simp [Nat.shiftRight_eq_div_pow]
        omega
      have hl : (l * 8 + UInt64.ofNat (scanFromhex c)).toNat = l.toNat * 8 + scanFromhex c := by
        rw [UInt64.toNat_add, UInt64.toNat_mul, UInt64.toNat_ofNat']
        simp
        omega
      simp only [scan8longlongGo, hd c (.head _), hs, if_true, ne_eq, not_true, if_false]
      rw [scan8longlongGo_eq t (i + 1) _ (fun d hd' => hd d (.tail _ hd')) (by rwa [hl]), hl,
        digits_cons, List.length_cons]
      congr 1
      omega

/-- `scan_xlonglong` on digits whose number fits. -/
theorem scanXlonglongGo_eq : ∀ (ds : Str) (i : ℕ) (l : UInt64), (∀ c ∈ ds, parseIsxdigit c) →
    digits 16 l.toNat ds < 2 ^ 64 →
    scanXlonglongGo i l ds = (i + ds.length, UInt64.ofNat (digits 16 l.toNat ds))
  | [], i, l, _, _ => by simp [scanXlonglongGo, digits]
  | c :: t, i, l, hd, h => by
      have hle := le_digits 16 (by omega) (l.toNat * 16 + scanFromhex c) t
      have hc := scanFromhex_lt_sixteen (hd c (.head _))
      rw [digits_cons] at h
      have hl : (l <<< 4 + UInt64.ofNat (scanFromhex c)).toNat =
          l.toNat * 16 + scanFromhex c := by
        rw [UInt64.toNat_add, UInt64.toNat_shiftLeft, UInt64.toNat_ofNat']
        simp [Nat.shiftLeft_eq]
        omega
      simp only [scanXlonglongGo, hc, if_true]
      rw [scanXlonglongGo_eq t (i + 1) _ (fun d hd' => hd d (.tail _ hd')) (by rwa [hl]), hl,
        digits_cons, List.length_cons]
      congr 1
      omega

/-- `scan_longlong` on digits whose number fits into a signed word. -/
theorem scanLonglong_eq {ds : Str} (hne : ds ≠ []) (hd : ∀ c ∈ ds, parseIsdigit c)
    (h : digits 10 0 ds < 2 ^ 63) :
    scanLonglong ds = some (ds.length, (UInt64.ofNat (digits 10 0 ds)).toInt64) := by
  obtain ⟨c, t, rfl⟩ := List.exists_cons_of_ne_nil hne
  have hm : c ≠ '-' := by
    rintro rfl
    exact absurd (hd _ (.head _)) (by decide)
  have hp : c ≠ '+' := by
    rintro rfl
    exact absurd (hd _ (.head _)) (by decide)
  have hs := scanUlonglongGo_eq (c :: t) 0 0 hd (by simp; omega)
  have hl : ¬UInt64.ofNat (digits 10 0 (c :: t)) > maxlong := by
    rw [gt_iff_lt, UInt64.lt_iff_toNat_lt, UInt64.toNat_ofNat']
    simp [maxlong]
    omega
  simp [scanLonglong, scanUlonglong, hm, hp, hs, hl]

end Shish
