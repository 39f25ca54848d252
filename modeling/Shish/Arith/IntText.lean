import Shish.Arith.Longest
import Shish.Lib.Bytes

/-!
# Arith/IntText — the texts of integers

`intText` and `natText` are what digits mean, with a sign and without, and no bound.  `scan_longlong` and
`scan_ulonglong` are followed once more over the bytes of a string, with their one signed operation checked: it never
overflows, and what they read is the longest text in front whose number fits (`scan_fits_longest`).
-/

namespace Shish

/-! ## Texts -/

/-- The number of a text of digits. -/
def natText (s : Str) : Option ℕ := if s ≠ [] ∧ s.all parseIsdigit then some (digits 10 0 s) else none

/-- The number of a text of digits, which may have a sign. -/
def intText (s : Str) : Option ℤ :=
  (natText (behindSign s)).map fun n : ℕ => if s.head? = some '-' then -(n : ℤ) else (n : ℤ)

/-- The number fits in a signed word. -/
def FitsInt64 (v : ℤ) : Prop := -2 ^ 63 ≤ v ∧ v < 2 ^ 63

instance (v : ℤ) : Decidable (FitsInt64 v) := inferInstanceAs (Decidable (_ ∧ _))

/-- **The longest part in front** of a text that is the text of a number which fits. -/
structure LongestPrefix {α : Type*} (value : Str → Option α) (fits : α → Prop) (s : Str) (n : ℕ) (v : α) : Prop where
  le : n ≤ s.length
  reads : value (s.take n) = some v
  good : fits v
  longest : ∀ k, n < k → k ≤ s.length → ∀ w, value (s.take k) = some w → ¬fits w

/-- No part in front of a text is the text of a number which fits. -/
def NoPrefix {α : Type*} (value : Str → Option α) (fits : α → Prop) (s : Str) : Prop :=
  ∀ k v, value (s.take k) = some v → ¬fits v

/-! ## The scanners, with checked operations -/

/-- The characters of a string of bytes. -/
def byteChars (s : Bytes) : Str := s.map fun c => Char.ofNat c.toNat

/-- `a - b` as an `int`; `none` where it overflows. -/
def subInt (a b : ℤ) : Option ℤ := if -2 ^ 31 ≤ a - b ∧ a - b < 2 ^ 31 then some (a - b) else none

/-- A `char` as an `int`; whether `char` is signed is up to the machine. -/
def charInt (signed : Bool) (c : UInt8) : ℤ := if signed then c.toInt8.toInt else c.toNat

/-- The loop of `scan_ulonglong`. -/
def scanUlonglongCheckedGo (signed : Bool) (i : ℕ) (l : UInt64) : Bytes → Option (ℕ × UInt64)
  | [] => some (i, l)
  | c :: t =>
      (subInt (charInt signed c) 48).bind fun d =>
        let c := UInt8.ofInt d
        if c < 10 then
          let n := l <<< 3
          if n >>> 3 ≠ l then some (i, l)
          else if n + l <<< 1 < n then some (i, l)
          else
            let n := n + l <<< 1
            if n + c.toUInt64 < n then some (i, l) else scanUlonglongCheckedGo signed (i + 1) (n + c.toUInt64) t
        else some (i, l)

/-- `scan_ulonglong`: how many characters were read and the number, which is stored only when there are some; outside,
`none` is a signed operation that overflows. -/
def scanUlonglongChecked (signed : Bool) (src : Bytes) : Option (Option (ℕ × UInt64)) :=
  (scanUlonglongCheckedGo signed 0 0 src).map fun r => if r.1 = 0 then none else some r

/-- `scan_longlong`, likewise. -/
def scanLonglongChecked (signed : Bool) (src : Bytes) : Option (Option (ℕ × Int64)) :=
  let neg := src.head? == some '-'.toUInt8
  let o := if neg || src.head? == some '+'.toUInt8 then 1 else 0
  (scanUlonglongCheckedGo signed 0 0 (src.drop o)).map fun r =>
    if r.1 = 0 then none
    else
      let r := if r.2 > maxlong + (if neg then 1 else 0) then (r.1 - 1, r.2 / 10) else r
      some (r.1 + o, (if neg then -r.2 else r.2).toInt64)

/-! ## Nothing overflows -/

/-- The `int` of a digit: no byte overflows it. -/
theorem subInt_charInt (signed : Bool) (c : UInt8) :
    (subInt (charInt signed c) 48).map UInt8.ofInt = some (c - 48) := by
  revert c signed
  have hall : ∀ (signed : Bool) (n : Fin 256), (subInt (charInt signed (.ofNat n)) 48).map UInt8.ofInt =
      some (.ofNat n - 48) := by decide +kernel
  intro signed c
  have hc := hall signed ⟨c.toNat, c.toNat_lt⟩
  rwa [UInt8.ofNat_toNat] at hc

/-- A byte is a digit as a character is. -/
theorem digit_byte (c : UInt8) : (c - 48 < 10 ↔ parseIsdigit (Char.ofNat c.toNat) = true) ∧
    (c - 48 < 10 → (c - 48).toUInt64 = UInt64.ofNat (scanFromhex (Char.ofNat c.toNat))) := by
  have hall : ∀ n : Fin 256, ((.ofNat n : UInt8) - 48 < 10 ↔ parseIsdigit (Char.ofNat n) = true) ∧
      ((.ofNat n : UInt8) - 48 < 10 → ((.ofNat n : UInt8) - 48).toUInt64 =
        UInt64.ofNat (scanFromhex (Char.ofNat n))) := by decide +kernel
  have hc := hall ⟨c.toNat, c.toNat_lt⟩
  rwa [UInt8.ofNat_toNat] at hc

theorem scanUlonglongCheckedGo_eq (signed : Bool) : ∀ (src : Bytes) (i : ℕ) (l : UInt64),
    scanUlonglongCheckedGo signed i l src = some (scanUlonglongGo i l (byteChars src))
  | [], i, l => rfl
  | c :: t, i, l => by
      obtain ⟨d, hd, hsub⟩ := Option.map_eq_some_iff.1 (subInt_charInt signed c)
      obtain ⟨hdigit, hval⟩ := digit_byte c
      have htail := scanUlonglongCheckedGo_eq signed t
      simp only [scanUlonglongCheckedGo, byteChars, List.map_cons, scanUlonglongGo, hd, Option.bind_some, hsub]
      by_cases hc : c - 48 < 10
      · simp only [hc, hdigit.1 hc, if_true, hval hc, htail, byteChars]
        split_ifs <;> rfl
      · simp only [hc, mt hdigit.2 hc, if_false, Bool.false_eq_true]

/-- A byte is a sign as a character is. -/
theorem sign_byte (c : UInt8) : ((c == '-'.toUInt8) = (Char.ofNat c.toNat == '-')) ∧
    ((c == '+'.toUInt8) = (Char.ofNat c.toNat == '+')) := by
  have hall : ∀ n : Fin 256, (((.ofNat n : UInt8) == '-'.toUInt8) = (Char.ofNat n == '-')) ∧
      (((.ofNat n : UInt8) == '+'.toUInt8) = (Char.ofNat n == '+')) := by decide +kernel
  have hc := hall ⟨c.toNat, c.toNat_lt⟩
  rwa [UInt8.ofNat_toNat] at hc

theorem byteChars_head (s : Bytes) : ((s.head? == some '-'.toUInt8) = ((byteChars s).head? == some '-')) ∧
    ((s.head? == some '+'.toUInt8) = ((byteChars s).head? == some '+')) := by
  cases s with
  | nil => exact ⟨rfl, rfl⟩
  | cons c s => exact sign_byte c

/-- **The checked scanners are the scanners**: no signed operation overflows. -/
theorem scanUlonglongChecked_eq (signed : Bool) (src : Bytes) : scanUlonglongChecked signed src =
    some (if (scanUlonglong (byteChars src)).1 = 0 then none else some (scanUlonglong (byteChars src))) := by
  rw [scanUlonglongChecked, scanUlonglongCheckedGo_eq]
  rfl

theorem scanLonglongChecked_eq (signed : Bool) (src : Bytes) :
    scanLonglongChecked signed src = some (scanLonglong (byteChars src)) := by
  have hdrop : ∀ o, byteChars (src.drop o) = (byteChars src).drop o := fun o => List.map_drop
  simp only [scanLonglongChecked, scanUlonglongCheckedGo_eq, Option.map_some, (byteChars_head src).1,
    (byteChars_head src).2, hdrop, scanLonglong, scanUlonglong]
  rfl

/-! ## The longest number -/

variable {t : Str} {bound : ℕ}

theorem natText_eq_some {s : Str} {n : ℕ} :
    natText s = some n ↔ s ≠ [] ∧ (∀ c ∈ s, parseIsdigit c) ∧ digits 10 0 s = n := by
  rw [natText]
  split_ifs with h
  · rw [List.all_eq_true] at h
    rw [Option.some.injEq]
    exact ⟨fun hn => ⟨h.1, h.2, hn⟩, fun hs => hs.2.2⟩
  · refine iff_of_false nofun fun hs => h ⟨hs.1, List.all_eq_true.2 hs.2.1⟩

/-- Digits that are not read take the number over the bound. -/
theorem readBelow_longest (hb : 0 < bound) (t : Str) : ∃ n ≤ t.length, readBelow parseIsdigit 10 bound 0 0 t =
    (n, digits 10 0 (t.take n)) ∧ (∀ c ∈ t.take n, parseIsdigit c) ∧ digits 10 0 (t.take n) < bound ∧
      ∀ k, n < k → k ≤ t.length → (∀ c ∈ t.take k, parseIsdigit c) → bound ≤ digits 10 0 (t.take k) := by
  obtain ⟨ds, r, rfl, hd, heq, hstop⟩ := readBelow_spec parseIsdigit 10 t 0 hb
  have hlt := @readBelow_lt parseIsdigit 10 _ (ds ++ r) 0 0 hb
  rw [heq] at hlt
  refine ⟨ds.length, by simp, by rw [List.take_left, heq], by rwa [List.take_left], by rwa [List.take_left],
    fun k hk hkl hdk => ?_⟩
  obtain ⟨m, rfl⟩ : ∃ m, k = ds.length + (m + 1) := ⟨k - ds.length - 1, by omega⟩
  rw [List.take_length_add_append] at hdk ⊢
  cases r with
  | nil =>
    rw [List.append_nil] at hkl
    omega
  | cons c r =>
    rw [List.take_succ_cons] at hdk ⊢
    have hc : parseIsdigit c := hdk c (by simp)
    have hover : bound ≤ digits 10 0 ds * 10 + scanFromhex c := by
      by_contra hnot
      exact hstop c rfl ⟨hc, not_le.1 hnot⟩
    rw [digits, List.foldl_append]
    exact hover.trans (le_digits 10 (by omega) _ (r.take m))

/-- **`scan_ulonglong`** reads the longest text of a number below 2^64. -/
theorem scanUlonglong_longest (src : Str) :
    if (scanUlonglong src).1 = 0 then NoPrefix natText (· < 2 ^ 64) src
    else LongestPrefix natText (· < 2 ^ 64) src (scanUlonglong src).1 (scanUlonglong src).2.toNat := by
  obtain ⟨n, hn, heq, hd, hlt, hlong⟩ := readBelow_longest (by omega : 0 < 2 ^ 64) src
  rw [scanUlonglong_below, heq]
  have hnot : ∀ k, n < k → k ≤ src.length → ∀ w, natText (src.take k) = some w → ¬w < 2 ^ 64 := by
    intro k hk hkl w hw
    obtain ⟨-, hdk, rfl⟩ := natText_eq_some.1 hw
    exact not_lt.2 (hlong k hk hkl hdk)
  split_ifs with h0
  · dsimp only at h0
    subst h0
    intro k v hv
    rcases Nat.lt_or_ge src.length k with hk | hk
    · rw [List.take_of_length_le hk.le] at hv
      refine hnot src.length (List.length_pos_of_ne_nil (natText_eq_some.1 hv).1) le_rfl v ?_
      rwa [List.take_length]
    · refine hnot k (Nat.pos_of_ne_zero ?_) hk v hv
      rintro rfl
      exact (natText_eq_some.1 hv).1 rfl
  · dsimp only at h0 ⊢
    rw [UInt64.toNat_ofNat', Nat.mod_eq_of_lt hlt]
    refine ⟨hn, natText_eq_some.2 ⟨?_, hd, rfl⟩, hlt, hnot⟩
    exact List.ne_nil_of_length_pos (by rw [List.length_take]; omega)

/-- The part in front of a text with a sign, and of one without. -/
theorem intText_take (src : Str) (k : ℕ) :
    let neg := src.head? == some '-'
    let o := if neg || src.head? == some '+' then 1 else 0
    intText (src.take (k + o)) =
      (natText ((src.drop o).take k)).map fun n : ℕ => if neg then -(n : ℤ) else (n : ℤ) := by
  cases src with
  | nil => simp [intText, behindSign, natText]
  | cons c t =>
    by_cases hm : c = '-'
    · subst hm
      simp [intText, behindSign]
    · by_cases hp : c = '+'
      · subst hp
        simp [intText, behindSign]
      · cases k with
        | zero => simp [intText, behindSign, natText, hm, hp]
        | succ k => simp [intText, behindSign, hm, hp]

theorem intText_nil : intText [] = none := by decide

/-- What `fmt_longlong` writes is the text of the number. -/
theorem intText_fmtLonglong (v : Int64) : intText (fmtLonglong v) = some v.toInt := by
  have hnat : ∀ n < 2 ^ 64, natText (fmtUlonglong (UInt64.ofNat n)) = some n := by
    intro n hn
    rw [natText_eq_some, fmtUlonglong, UInt64.toNat_ofNat', Nat.mod_eq_of_lt hn]
    exact ⟨fmtDigits_ne_nil _ _, mem_fmtDigits (by omega) (by omega) fun d hd => isdigit_tohex hd,
      digits_fmt (by omega) (by omega) (lt_trans hn (by norm_num))⟩
  have hv : v < 0 ↔ v.toInt < 0 := Int64.lt_iff_toInt_lt
  rcases toInt_cases v with ⟨n, hn, hlt, hw⟩ | ⟨n, hn, hpos, hle, hw⟩
  · have htext : fmtLonglong v = fmtUlonglong (UInt64.ofNat n) := by
      rw [fmtLonglong, if_neg (mt hv.1 (by omega)), hw]
      rfl
    have hsign : ∀ c, parseIsdigit c = false → (fmtUlonglong (UInt64.ofNat n)).head? ≠ some c := by
      intro c hc hh
      have hd := (natText_eq_some.1 (hnat n (by omega))).2.1 c (List.mem_of_head? hh)
      rw [hc] at hd
      cases hd
    rw [htext, intText, behindSign, if_neg (not_or.2 ⟨hsign '-' (by decide), hsign '+' (by decide)⟩),
      hnat n (by omega), Option.map_some, if_neg (hsign '-' (by decide)), hn]
  · have htext : fmtLonglong v = '-' :: fmtUlonglong (UInt64.ofNat n) := by
      rw [fmtLonglong, if_pos (hv.2 (by omega)), hw, Int64.neg_neg]
      rfl
    rw [htext, intText, behindSign, if_pos (.inl rfl), List.tail_cons, hnat n (by omega), Option.map_some,
      List.head?_cons, if_pos rfl, hn]

/-- The text of a number is longer than its sign. -/
theorem sign_lt {src : Str} {k : ℕ} {v : ℤ} (h : intText (src.take k) = some v) :
    (if src.head? == some '-' || src.head? == some '+' then 1 else 0) < k := by
  have hzero := intText_take src 0
  dsimp only at hzero
  rw [List.take_zero, Nat.zero_add] at hzero
  generalize ho : (if src.head? == some '-' || src.head? == some '+' then 1 else 0) = o at hzero ⊢
  have hone : o ≤ 1 := by
    rw [← ho]
    split_ifs <;> omega
  by_contra hk
  obtain rfl | rfl : k = o ∨ k = 0 := by omega
  · rw [hzero] at h
    cases h
  · rw [List.take_zero, intText_nil] at h
    cases h

/-- **`scan_longlong`** reads the longest text of a number that fits in a signed word. -/
theorem scanLonglong_longest (src : Str) :
    match scanLonglong src with
    | none => NoPrefix intText FitsInt64 src
    | some (n, v) => LongestPrefix intText FitsInt64 src n v.toInt := by
  have htake := intText_take src
  rw [scanLonglong_below]
  dsimp only at htake ⊢
  generalize hneg : (src.head? == some '-') = neg at htake ⊢
  generalize ho : (if neg || src.head? == some '+' then 1 else 0) = o at htake ⊢
  obtain ⟨n, hn, heq, hd, hlt, hlong⟩ := readBelow_longest (by omega : 0 < 2 ^ 63 + neg.toNat) (src.drop o)
  rw [List.length_drop] at hn
  have hole : o ≤ src.length := by
    cases src with
    | nil =>
      rw [← ho, ← hneg]
      rfl
    | cons c t =>
      rw [← ho, List.length_cons]
      split_ifs <;> omega
  have hfits : ∀ m : ℕ, FitsInt64 (if neg then -(m : ℤ) else m) ↔ m < 2 ^ 63 + neg.toNat := by
    intro m
    cases neg
    · simp only [FitsInt64, Bool.false_eq_true, if_false, Bool.toNat_false]
      omega
    · simp only [FitsInt64, if_true, Bool.toNat_true]
      omega
  have hnot : ∀ k, n < k → k + o ≤ src.length → ∀ w, intText (src.take (k + o)) = some w → ¬FitsInt64 w := by
    intro k hk hkl w hw
    rw [htake] at hw
    obtain ⟨m, hm, rfl⟩ := Option.map_eq_some_iff.1 hw
    obtain ⟨-, hdk, rfl⟩ := natText_eq_some.1 hm
    rw [hfits, not_lt]
    exact hlong k hk (by rw [List.length_drop]; omega) hdk
  have hall : ∀ k, n + o < k → k ≤ src.length → ∀ w, intText (src.take k) = some w → ¬FitsInt64 w := by
    intro k hk hkl w hw
    obtain ⟨m, rfl⟩ : ∃ m, k = m + o := ⟨k - o, by omega⟩
    exact hnot m (by omega) hkl w hw
  rw [heq]
  dsimp only
  by_cases h0 : n = 0
  · rw [if_pos h0]
    subst h0
    intro k v hv
    have ho' : ∀ {k v}, intText (src.take k) = some v → 0 + o < k := fun h => by
      rw [Nat.zero_add, ← ho, ← hneg]
      exact sign_lt h
    rcases Nat.lt_or_ge src.length k with hk | hk
    · rw [List.take_of_length_le hk.le, ← List.take_length (l := src)] at hv
      exact hall src.length (ho' hv) le_rfl v hv
    · exact hall k (ho' hv) hk v hv
  · rw [if_neg h0]
    have hv := (hfits (digits 10 0 ((src.drop o).take n))).2 hlt
    have hint : (Int64.ofInt (if neg then -(digits 10 0 ((src.drop o).take n) : ℤ)
        else digits 10 0 ((src.drop o).take n))).toInt = if neg then -(digits 10 0 ((src.drop o).take n) : ℤ)
        else digits 10 0 ((src.drop o).take n) := Int64.toInt_ofInt_of_le hv.1 hv.2
    dsimp only
    rw [hint]
    refine ⟨by omega, ?_, hv, hall⟩
    have hne : (src.drop o).take n ≠ [] :=
      List.ne_nil_of_length_pos (by rw [List.length_take, List.length_drop]; omega)
    rw [htake, natText_eq_some.2 ⟨hne, hd, rfl⟩]
    rfl

/-- **The scanners of decimal numbers.**  For every string, whether `char` is signed or not, no signed operation
overflows; `scan_longlong` reads the longest text of a number in front that fits in a signed word, and
`scan_ulonglong` the longest text of digits whose number is below 2^64, or nothing when there is none. -/
theorem scan_fits_longest (signed : Bool) (src : Bytes) :
    (∃ r, scanLonglongChecked signed src = some r ∧ match r with
      | none => NoPrefix intText FitsInt64 (byteChars src)
      | some (n, v) => LongestPrefix intText FitsInt64 (byteChars src) n v.toInt) ∧
    ∃ r, scanUlonglongChecked signed src = some r ∧ match r with
      | none => NoPrefix natText (· < 2 ^ 64) (byteChars src)
      | some (n, v) => LongestPrefix natText (· < 2 ^ 64) (byteChars src) n v.toNat := by
  refine ⟨⟨_, scanLonglongChecked_eq signed src, scanLonglong_longest _⟩, _, scanUlonglongChecked_eq signed src, ?_⟩
  have hlong := scanUlonglong_longest (byteChars src)
  split_ifs at hlong ⊢ with h0
  · exact hlong
  · exact hlong

/-- The least number, and what does not fit any more. -/
example : scanLonglongChecked true (ascii "-92233720368547758089") = some (some (20, -9223372036854775808)) := by
  decide +kernel

end Shish
