import Shish.Scan

/-!
# Fmt — numbers as text

The formatters of `lib/fmt` count the digits of a number and write them from the last one on, the
digits above 9 as small letters.  What they write scans back to the number (`digits_fmt`), has no 0
in front of it, and is short.
-/

namespace Shish

/-- The macro `tohex`. -/
def tohex (d : ℕ) : Char := Char.ofNat (if 10 ≤ d then d - 10 + 97 else d + 48)

/-- The digits of `i` in a base, the bound being one on their number. -/
def fmtDigits (base : ℕ) : ℕ → ℕ → Str
  | 0, _ => []
  | n + 1, i => if i < base then [tohex i] else fmtDigits base n (i / base) ++ [tohex (i % base)]

/-- `fmt_ulonglong`. -/
def fmtUlonglong (i : UInt64) : Str := fmtDigits 10 64 i.toNat

/-- `fmt_ulong`. -/
def fmtUlong (i : ℕ) : Str := fmtDigits 10 64 i

/-- `fmt_8longlong`. -/
def fmt8longlong (i : UInt64) : Str := fmtDigits 8 64 i.toNat

/-- `fmt_xlonglong`. -/
def fmtXlonglong (i : UInt64) : Str := fmtDigits 16 64 i.toNat

/-- `fmt_longlong`. -/
def fmtLonglong (i : Int64) : Str :=
  if i < 0 then '-' :: fmtUlonglong (-i).toUInt64 else fmtUlonglong i.toUInt64

example : fmtDigits 10 3 42 = ['4', '2'] := by
  simp [fmtDigits]
  decide

/-! ## Scanning them back -/

theorem scanFromhex_tohex {d : ℕ} (h : d < 16) : scanFromhex (tohex d) = d := by
  revert d
  decide

theorem isdigit_tohex {d : ℕ} (h : d < 10) : parseIsdigit (tohex d) := by
  revert d
  decide

theorem isodigit_tohex {d : ℕ} (h : d < 8) : parseIsodigit (tohex d) := by
  revert d
  decide

theorem isxdigit_tohex {d : ℕ} (h : d < 16) : parseIsxdigit (tohex d) := by
  revert d
  decide

theorem tohex_ne_zero {d : ℕ} (h : d < 16) (h0 : d ≠ 0) : tohex d ≠ '0' := by
  revert d
  decide

theorem digits_append (base l : ℕ) (xs ys : Str) :
    digits base l (xs ++ ys) = digits base (digits base l xs) ys :=
  List.foldl_append ..

section Digits

variable {base : ℕ} (hb : 1 < base) (hb' : base ≤ 16)

include hb hb'

omit hb' in
theorem div_lt_pow {n i : ℕ} (h : i < base ^ (n + 1)) : i / base < base ^ n := by
  rw [Nat.div_lt_iff_lt_mul (by omega)]
  rwa [Nat.pow_succ] at h

/-- What is written scans back. -/
theorem digits_fmt : ∀ {n i : ℕ}, i < base ^ n → digits base 0 (fmtDigits base n i) = i
  | 0, i, h => by
      have : i = 0 := by simpa using h
      rw [this]
      rfl
  | n + 1, i, h => by
      rw [fmtDigits]
      split
      · simp [digits, scanFromhex_tohex (show i < 16 by omega)]
      · have hmod : i % base < base := Nat.mod_lt i (by omega)
        rw [digits_append, digits_fmt (div_lt_pow hb h)]
        simp only [digits, List.foldl_cons, List.foldl_nil,
          scanFromhex_tohex (show i % base < 16 by omega)]
        exact Nat.div_add_mod' i base

/-- Every character is a digit of the base. -/
theorem mem_fmtDigits {P : Char → Prop} (hP : ∀ d, d < base → P (tohex d)) :
    ∀ {n i : ℕ}, ∀ c ∈ fmtDigits base n i, P c
  | 0, i, c, hc => absurd hc nofun
  | n + 1, i, c, hc => by
      rw [fmtDigits] at hc
      split at hc
      · next h =>
        obtain rfl := List.mem_singleton.1 hc
        exact hP i h
      · rcases List.mem_append.1 hc with hc | hc
        · exact mem_fmtDigits hP c hc
        · obtain rfl := List.mem_singleton.1 hc
          exact hP _ (Nat.mod_lt i (by omega))

omit hb hb' in
theorem fmtDigits_ne_nil (n i : ℕ) : fmtDigits base (n + 1) i ≠ [] := by
  rw [fmtDigits]
  split <;> simp

/-- No 0 leads. -/
theorem fmtDigits_head : ∀ {n i : ℕ}, i < base ^ n → i ≠ 0 →
    ∃ c t, fmtDigits base n i = c :: t ∧ c ≠ '0'
  | 0, i, h, h0 => absurd (by simpa using h) h0
  | n + 1, i, h, h0 => by
      rw [fmtDigits]
      split
      · exact ⟨_, [], rfl, tohex_ne_zero (by omega) h0⟩
      · next hi =>
        have hne : i / base ≠ 0 := by
          rw [Ne, Nat.div_eq_zero_iff]
          omega
        obtain ⟨c, t, ht, hc⟩ := fmtDigits_head (div_lt_pow hb h) hne
        exact ⟨c, t ++ [tohex (i % base)], by rw [ht]; rfl, hc⟩

omit hb' in
theorem length_fmtDigits : ∀ {n k i : ℕ}, i < base ^ (k + 1) →
    (fmtDigits base n i).length ≤ k + 1
  | 0, _, _, _ => Nat.zero_le _
  | n + 1, k, i, h => by
      rw [fmtDigits]
      split
      · exact Nat.succ_le_succ (Nat.zero_le k)
      · next hi =>
        cases k with
        | zero => exact absurd (by simpa using h) hi
        | succ k =>
          rw [List.length_append]
          exact Nat.succ_le_succ (length_fmtDigits (div_lt_pow hb h))

end Digits

end Shish
