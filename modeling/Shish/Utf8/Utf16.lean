import Shish.Lib.Convert
import Shish.Utf8.Decode

/-!
# Utf8/Utf16 — between UTF-8 and UTF-16

A text is its characters, and either form has its own units for each of them.  `u8tou16` and `u8fromu16` take a
character off one form and write it in the other one, and what is none as U+FFFD; so they undo each other on texts, and
calls with a limit write whole characters, together those of one call (`utf16_round_trips`).
-/

namespace Shish.Utf8

open Converter

/-! ## The model -/

/-- Units of UTF-16. -/
abbrev Units := List UInt16

/-- What `u8tou16` takes off the front: the code point, and how many bytes it is. -/
def takeByte (s : Bytes) : UInt32 × ℕ :=
  match u8decode s with
  | .char cp l => (cp, l)
  | _ => (0xfffd, 1)

/-- The units it writes for a code point. -/
def putUnits (cp : UInt32) : Units :=
  if 0x10000 ≤ cp then
    let cp := cp - 0x10000
    let high : UInt32 := cp >>> 10
    let low : UInt32 := cp &&& 0x3ff
    [(0xd800 + high).toUInt16, (0xdc00 + low).toUInt16]
  else [cp.toUInt16]

theorem takeByte_pos {s : Bytes} (hs : s ≠ []) : 1 ≤ (takeByte s).2 ∧ (takeByte s).2 ≤ s.length := by
  rw [takeByte]
  split
  · rename_i cp l h
    exact ⟨(u8decode_char h).1, (u8decode_char h).2.2⟩
  · exact ⟨le_rfl, List.length_pos_iff.2 hs⟩

/-- The loop of `u8tou16`: `i` bytes are behind it, `dst` is written, and `s` is still to come. -/
def u8tou16Loop (limit : ℕ) (dst : Units) (i : ℕ) (s : Bytes) : Units × ℕ :=
  if h : s = [] then (dst, i)
  else
    let r := takeByte s
    let units := if 0x10000 ≤ r.1 then 2 else 1
    have := takeByte_pos h
    if limit < dst.length + units then (dst, i)
    else u8tou16Loop limit (dst ++ putUnits r.1) (i + r.2) (s.drop r.2)
termination_by s.length
decreasing_by
  rw [List.length_drop]
  omega

/-- `u8tou16`: what it writes, and `*used`. -/
def u8tou16 (limit : ℕ) (s : Bytes) : Units × ℕ := u8tou16Loop limit [] 0 s

/-- The code point of a pair of surrogates. -/
def pairPoint (cp low : UInt32) : UInt32 :=
  let high : UInt32 := (cp - 0xd800) <<< 10
  0x10000 + high + (low - 0xdc00)

/-- A unit that is not the first one of a pair. -/
def loneUnit (cp : UInt32) : UInt32 × ℕ := (if 0xd800 ≤ cp ∧ cp ≤ 0xdfff then 0xfffd else cp, 1)

/-- What `u8fromu16` takes off the front: the code point, and how many units it is. -/
def takeUnit (u : UInt16) (w : Units) : UInt32 × ℕ :=
  let cp := u.toUInt32
  match w with
  | v :: _ =>
      if 0xd800 ≤ cp ∧ cp ≤ 0xdbff ∧ 0xdc00 ≤ v ∧ v ≤ 0xdfff then
        (pairPoint cp v.toUInt32, 2)
      else loneUnit cp
  | [] => loneUnit cp

/-- The loop of `u8fromu16`. -/
def u8fromu16Loop (limit : ℕ) (dst : Bytes) (i : ℕ) : Units → Bytes × ℕ
  | [] => (dst, i)
  | u :: w =>
      let r := takeUnit u w
      let tmp := u8encode r.1
      if limit < dst.length + tmp.length then (dst, i)
      else u8fromu16Loop limit (dst ++ tmp) (i + r.2) (w.drop (r.2 - 1))
termination_by w => w.length
decreasing_by
  rw [List.length_drop, List.length_cons]
  omega

/-- `u8fromu16`: what it writes, and `*used`. -/
def u8fromu16 (limit : ℕ) (w : Units) : Bytes × ℕ := u8fromu16Loop limit [] 0 w

/-! ## Texts -/

/-- **A text in UTF-8.** -/
def utf8Text (cs : List Char) : Bytes := cs.flatMap String.utf8EncodeChar

/-- The units of a character: its number, or a pair of surrogates. -/
def utf16Char (c : Char) : Units :=
  let v := c.toNat
  if v < 0x10000 then [.ofNat v]
  else [.ofNat (0xd800 + (v - 0x10000) / 0x400), .ofNat (0xdc00 + (v - 0x10000) % 0x400)]

/-- **A text in UTF-16.** -/
def utf16Text (cs : List Char) : Units := cs.flatMap utf16Char

/-! ## Words -/

section Words

variable {cp bits shift : UInt32} {a b k : ℕ}

theorem or_eq_add (a : ℕ) (hb : b < 2 ^ k) : a * 2 ^ k ||| b = a * 2 ^ k + b := by
  rw [Nat.mul_comm]
  exact (Nat.two_pow_add_eq_or_of_lt hb a).symm

/-- A first byte of `u8encode`: marks, and the bits in front. -/
theorem lead_byte (hs : shift.toNat < 32) (hbits : bits.toNat = a * 2 ^ k) (hcp : cp.toNat / 2 ^ shift.toNat < 2 ^ k) :
    (bits ||| (cp >>> shift)).toUInt8 = UInt8.ofNat (a * 2 ^ k + cp.toNat / 2 ^ shift.toNat) := by
  apply UInt8.toNat_inj.1
  rw [UInt32.toNat_toUInt8, UInt32.toNat_or, UInt32.toNat_shiftRight, Nat.mod_eq_of_lt hs, Nat.shiftRight_eq_div_pow,
    hbits, or_eq_add a hcp, UInt8.toNat_ofNat']

/-- Another byte: six bits. -/
theorem more_byte (hs : shift.toNat < 32) :
    (0x80 ||| ((cp >>> shift) &&& 0x3f)).toUInt8 = UInt8.ofNat (cp.toNat / 2 ^ shift.toNat % 0x40 + 0x80) := by
  apply UInt8.toNat_inj.1
  have hmask : ∀ n : ℕ, n &&& 63 = n % 64 := fun n => Nat.and_two_pow_sub_one_eq_mod n 6
  have hmark : ∀ n : ℕ, 128 ||| n % 64 = 128 + n % 64 := fun n => by
    have hlt : n % 64 < 2 ^ 6 := Nat.mod_lt n (by decide)
    exact or_eq_add 2 hlt
  rw [UInt32.toNat_toUInt8, UInt32.toNat_or, UInt32.toNat_and, UInt32.toNat_shiftRight, Nat.mod_eq_of_lt hs,
    Nat.shiftRight_eq_div_pow, show (0x3f : UInt32).toNat = 63 from rfl, show (0x80 : UInt32).toNat = 128 from rfl,
    hmask, hmark, Nat.add_comm, UInt8.toNat_ofNat']

/-- **`u8encode` writes UTF-8.** -/
theorem u8encode_val (c : Char) : u8encode c.val = String.utf8EncodeChar c := by
  have hvalid : c.val.toNat < 0xd800 ∨ (0xdfff < c.val.toNat ∧ c.val.toNat < 0x110000) := c.valid
  have h₁ : c.val < 0x80 ↔ c.val.toNat < 0x80 := UInt32.lt_iff_toNat_lt
  have h₂ : c.val < 0x800 ↔ c.val.toNat < 0x800 := UInt32.lt_iff_toNat_lt
  have h₃ : c.val < 0x10000 ↔ c.val.toNat < 0x10000 := UInt32.lt_iff_toNat_lt
  have hsur : ¬(0xd800 ≤ c.val ∧ c.val ≤ 0xdfff) := by
    rw [UInt32.le_iff_toNat_le, UInt32.le_iff_toNat_le]
    rintro ⟨hlow, hhigh⟩
    change 0xd800 ≤ c.val.toNat at hlow
    change c.val.toNat ≤ 0xdfff at hhigh
    omega
  have hmax : ¬(0x10ffff < c.val) := by
    rw [UInt32.lt_iff_toNat_lt]
    intro hgt
    change 0x10ffff < c.val.toNat at hgt
    omega
  have hmore : ∀ shift : UInt32, shift.toNat < 32 → (0x80 ||| ((c.val >>> shift) &&& 0x3f)).toUInt8 =
      UInt8.ofNat (c.val.toNat / 2 ^ shift.toNat % 0x40 + 0x80) := fun _ hs => more_byte hs
  rw [u8encode, String.utf8EncodeChar]
  dsimp only
  have hzero : c.val.toNat / 2 ^ (0 : UInt32).toNat = c.val.toNat := Nat.div_one _
  rw [hmore 0 (by decide), hmore 6 (by decide), hmore 12 (by decide), hzero]
  by_cases hone : c.val.toNat < 0x80
  · rw [if_pos (h₁.2 hone), if_pos (Nat.le_of_lt_succ hone)]
    rfl
  rw [if_neg (mt h₁.1 hone), if_neg (fun h => hone (Nat.lt_succ_of_le h))]
  by_cases htwo : c.val.toNat < 0x800
  · have hbits : c.val.toNat / 64 < 32 := by omega
    rw [if_pos (h₂.2 htwo), if_pos (Nat.le_of_lt_succ htwo), lead_byte (a := 6) (k := 5) (by decide) rfl hbits,
      Nat.mod_eq_of_lt hbits, Nat.add_comm]
    rfl
  rw [if_neg (mt h₂.1 htwo), if_neg (fun h => htwo (Nat.lt_succ_of_le h)), if_neg hsur]
  by_cases hthree : c.val.toNat < 0x10000
  · have hbits : c.val.toNat / 4096 < 16 := by omega
    rw [if_pos (h₃.2 hthree), if_pos (Nat.le_of_lt_succ hthree), lead_byte (a := 14) (k := 4) (by decide) rfl hbits,
      Nat.mod_eq_of_lt hbits, Nat.add_comm]
    rfl
  have hbits : c.val.toNat / 262144 < 8 := by omega
  rw [if_neg (mt h₃.1 hthree), if_neg (fun h => hthree (Nat.lt_succ_of_le h)), if_neg hmax,
    lead_byte (a := 30) (k := 3) (by decide) rfl hbits, Nat.mod_eq_of_lt hbits, Nat.add_comm]
  rfl

/-- Six more bits behind the others. -/
theorem shift_or (hb : b < 64) (h : a * 64 + b < 2 ^ 32) :
    (UInt32.ofNat a <<< 6) ||| UInt32.ofNat b = UInt32.ofNat (a * 64 + b) := by
  apply UInt32.toNat_inj.1
  have hshift : a <<< 6 = a * 64 := Nat.shiftLeft_eq a 6
  have hor : a * 64 ||| b = a * 64 + b := by
    have hb' : b < 2 ^ 6 := hb
    exact or_eq_add a hb'
  rw [UInt32.toNat_or, UInt32.toNat_shiftLeft, UInt32.toNat_ofNat', UInt32.toNat_ofNat', UInt32.toNat_ofNat',
    Nat.mod_eq_of_lt (show a < 2 ^ 32 by omega), Nat.mod_eq_of_lt (show b < 2 ^ 32 by omega),
    show (6 : UInt32).toNat % 32 = 6 from rfl, hshift, Nat.mod_eq_of_lt (show a * 64 < 2 ^ 32 by omega), hor,
    Nat.mod_eq_of_lt h]

/-- A byte of six bits is read. -/
theorem decodeLoop_more {len : ℕ} {min : UInt32} {ps : Bytes} (hb : b < 64) (h : a * 64 + b < 2 ^ 32) :
    decodeLoop len min (k + 1) (UInt32.ofNat a) (UInt8.ofNat (b + 0x80) :: ps) =
      decodeLoop len min k (UInt32.ofNat (a * 64 + b)) ps := by
  have hbyte : ∀ b : Fin 64, (UInt8.ofNat (b + 0x80) &&& 0xc0) = 0x80 ∧
      (UInt8.ofNat (b + 0x80) &&& 0x3f).toUInt32 = UInt32.ofNat b := by decide
  obtain ⟨hmark, hbits⟩ := hbyte ⟨b, hb⟩
  rw [decodeLoop, if_neg (not_not.2 hmark), hbits, shift_or hb h]

/-- The code point of a character is accepted. -/
theorem decodeLoop_done {len : ℕ} {min : UInt32} {ps : Bytes} (c : Char) (h : min.toNat ≤ c.val.toNat) :
    decodeLoop len min 0 (UInt32.ofNat c.val.toNat) ps = .char c.val len := by
  have hvalid : c.val.toNat < 0xd800 ∨ (0xdfff < c.val.toNat ∧ c.val.toNat < 0x110000) := c.valid
  rw [UInt32.ofNat_toNat, decodeLoop, if_neg]
  rw [UInt32.lt_iff_toNat_lt, UInt32.lt_iff_toNat_lt, UInt32.le_iff_toNat_le, UInt32.le_iff_toNat_le]
  rintro (hmin | hmax | ⟨hlow, hhigh⟩)
  · omega
  · change 0x10ffff < c.val.toNat at hmax
    omega
  · change 0xd800 ≤ c.val.toNat at hlow
    change c.val.toNat ≤ 0xdfff at hhigh
    omega

/-- **`u8decode` reads UTF-8.** -/
theorem u8decode_text (c : Char) (rest : Bytes) :
    u8decode (String.utf8EncodeChar c ++ rest) = .char c.val (String.utf8EncodeChar c).length := by
  have hvalid : c.val.toNat < 0xd800 ∨ (0xdfff < c.val.toNat ∧ c.val.toNat < 0x110000) := c.valid
  have hfirst₂ : ∀ a : Fin 32, 2 ≤ a.val → ¬UInt8.ofNat (a + 0xc0) < 0x80 ∧
      (0xc2 ≤ UInt8.ofNat (a + 0xc0) ∧ UInt8.ofNat (a + 0xc0) ≤ 0xdf) ∧
      (UInt8.ofNat (a + 0xc0) &&& 0x1f).toUInt32 = UInt32.ofNat a := by decide
  have hfirst₃ : ∀ a : Fin 16, ¬UInt8.ofNat (a + 0xe0) < 0x80 ∧
      ¬(0xc2 ≤ UInt8.ofNat (a + 0xe0) ∧ UInt8.ofNat (a + 0xe0) ≤ 0xdf) ∧ UInt8.ofNat (a + 0xe0) &&& 0xf0 = 0xe0 ∧
      (UInt8.ofNat (a + 0xe0) &&& 0x0f).toUInt32 = UInt32.ofNat a := by decide
  have hfirst₄ : ∀ a : Fin 5, ¬UInt8.ofNat (a + 0xf0) < 0x80 ∧
      ¬(0xc2 ≤ UInt8.ofNat (a + 0xf0) ∧ UInt8.ofNat (a + 0xf0) ≤ 0xdf) ∧ UInt8.ofNat (a + 0xf0) &&& 0xf0 ≠ 0xe0 ∧
      (0xf0 ≤ UInt8.ofNat (a + 0xf0) ∧ UInt8.ofNat (a + 0xf0) ≤ 0xf4) ∧
      (UInt8.ofNat (a + 0xf0) &&& 0x07).toUInt32 = UInt32.ofNat a := by decide
  rw [String.utf8EncodeChar]
  by_cases hone : c.val.toNat ≤ 0x7f
  · have hbyte : (UInt8.ofNat c.val.toNat).toNat = c.val.toNat := by
      rw [UInt8.toNat_ofNat']
      omega
    have hlt : UInt8.ofNat c.val.toNat < 0x80 := by
      rw [UInt8.lt_iff_toNat_lt, hbyte]
      exact Nat.lt_succ_of_le hone
    have hval : (UInt8.ofNat c.val.toNat).toUInt32 = c.val := by
      apply UInt32.toNat_inj.1
      rw [UInt8.toNat_toUInt32, hbyte]
    rw [if_pos hone, List.singleton_append, u8decode, if_pos hlt, hval]
    rfl
  rw [if_neg hone]
  by_cases htwo : c.val.toNat ≤ 0x7ff
  · have ha : c.val.toNat / 64 < 32 := by omega
    obtain ⟨h₁, h₂, hbits⟩ := hfirst₂ ⟨c.val.toNat / 64, ha⟩ (show 2 ≤ c.val.toNat / 64 by omega)
    rw [if_pos htwo, Nat.mod_eq_of_lt ha, List.cons_append, List.cons_append, u8decode, if_neg h₁, if_pos h₂, hbits,
      decodeLoop_more (Nat.mod_lt _ (by decide)) (by omega), Nat.div_add_mod' c.val.toNat 64]
    exact decodeLoop_done c (show 0x80 ≤ c.val.toNat by omega)
  rw [if_neg htwo]
  by_cases hthree : c.val.toNat ≤ 0xffff
  · have ha : c.val.toNat / 4096 < 16 := by omega
    obtain ⟨h₁, h₂, h₃, hbits⟩ := hfirst₃ ⟨c.val.toNat / 4096, ha⟩
    have hall : c.val.toNat / 4096 * 64 + c.val.toNat / 64 % 64 = c.val.toNat / 64 := by omega
    rw [if_pos hthree, Nat.mod_eq_of_lt ha, List.cons_append, List.cons_append, List.cons_append, u8decode, if_neg h₁,
      if_neg h₂, if_pos h₃, hbits, decodeLoop_more (Nat.mod_lt _ (by decide)) (by omega), hall,
      decodeLoop_more (Nat.mod_lt _ (by decide)) (by omega), Nat.div_add_mod' c.val.toNat 64]
    exact decodeLoop_done c (show 0x800 ≤ c.val.toNat by omega)
  rw [if_neg hthree]
  have ha : c.val.toNat / 262144 < 5 := by omega
  obtain ⟨h₁, h₂, h₃, h₄, hbits⟩ := hfirst₄ ⟨c.val.toNat / 262144, ha⟩
  have hall : c.val.toNat / 262144 * 64 + c.val.toNat / 4096 % 64 = c.val.toNat / 4096 := by omega
  have hall' : c.val.toNat / 4096 * 64 + c.val.toNat / 64 % 64 = c.val.toNat / 64 := by omega
  rw [Nat.mod_eq_of_lt (show c.val.toNat / 262144 < 8 by omega), List.cons_append, List.cons_append, List.cons_append,
    List.cons_append, u8decode, if_neg h₁, if_neg h₂, if_neg h₃, if_pos h₄, hbits,
    decodeLoop_more (Nat.mod_lt _ (by decide)) (by omega), hall,
    decodeLoop_more (Nat.mod_lt _ (by decide)) (by omega), hall',
    decodeLoop_more (Nat.mod_lt _ (by decide)) (by omega), Nat.div_add_mod' c.val.toNat 64]
  exact decodeLoop_done c (show 0x10000 ≤ c.val.toNat by omega)

/-- What `u8decode` reads is a character. -/
theorem decodeLoop_scalar {len n : ℕ} {min : UInt32} {c : UInt32} {ps : Bytes}
    (h : decodeLoop len min k c ps = .char cp n) : ∃ x : Char, x.val = cp := by
  fun_induction decodeLoop len min k c ps with
  | case1 => cases h
  | case2 c ps hc =>
    cases h
    rw [not_or, not_or, UInt32.lt_iff_toNat_lt, UInt32.lt_iff_toNat_lt, UInt32.le_iff_toNat_le,
      UInt32.le_iff_toNat_le] at hc
    obtain ⟨-, hmax, hsur⟩ := hc
    change ¬0x10ffff < cp.toNat at hmax
    change ¬(0xd800 ≤ cp.toNat ∧ cp.toNat ≤ 0xdfff) at hsur
    refine ⟨⟨cp, ?_⟩, rfl⟩
    change cp.toNat < 0xd800 ∨ (0xdfff < cp.toNat ∧ cp.toNat < 0x110000)
    omega
  | case3 => cases h
  | case4 => cases h
  | case5 k c p ps hp ih => exact ih h

theorem u8decode_scalar {s : Bytes} {n : ℕ} (h : u8decode s = .char cp n) : ∃ x : Char, x.val = cp := by
  cases s with
  | nil => cases h
  | cons c p =>
    rcases u8decode_cons c with hc | ⟨k, min, b, -, -, hc⟩ | hc
    · rw [hc] at h
      cases h
      refine ⟨⟨c.toUInt32, ?_⟩, rfl⟩
      have hlt := c.toNat_lt
      change c.toUInt32.toNat < 0xd800 ∨ _
      rw [UInt8.toNat_toUInt32]
      omega
    · rw [hc] at h
      exact decodeLoop_scalar h
    · rw [hc] at h
      cases h

/-- What `u8tou16` takes off the front is a character. -/
theorem takeByte_char (s : Bytes) : ∃ x : Char, (takeByte s).1 = x.val := by
  rw [takeByte]
  split
  · rename_i cp l h
    obtain ⟨x, hx⟩ := u8decode_scalar h
    exact ⟨x, hx.symm⟩
  · exact ⟨⟨0xfffd, by decide⟩, rfl⟩

/-- **It writes UTF-16.** -/
theorem putUnits_val (c : Char) : putUnits c.val = utf16Char c := by
  have hvalid : c.val.toNat < 0xd800 ∨ (0xdfff < c.val.toNat ∧ c.val.toNat < 0x110000) := c.valid
  have hle : (0x10000 : UInt32) ≤ c.val ↔ 0x10000 ≤ c.val.toNat := UInt32.le_iff_toNat_le
  have hunit : ∀ x : UInt32, x.toUInt16 = UInt16.ofNat x.toNat := fun x => rfl
  rw [putUnits, utf16Char, show c.toNat = c.val.toNat from rfl]
  by_cases hpair : 0x10000 ≤ c.val.toNat
  · have hsub : (c.val - 0x10000).toNat = c.val.toNat - 0x10000 := UInt32.toNat_sub_of_le _ _ (hle.2 hpair)
    have hhigh : ((c.val - 0x10000) >>> 10).toNat = (c.val.toNat - 0x10000) / 0x400 := by
      rw [UInt32.toNat_shiftRight, hsub]
      exact Nat.shiftRight_eq_div_pow _ 10
    have hlow : ((c.val - 0x10000) &&& 0x3ff).toNat = (c.val.toNat - 0x10000) % 0x400 := by
      rw [UInt32.toNat_and, hsub]
      exact Nat.and_two_pow_sub_one_eq_mod _ 10
    have hadd : ∀ (base : ℕ) (x : UInt32), base + x.toNat < 2 ^ 32 →
        (UInt32.ofNat base + x).toUInt16 = UInt16.ofNat (base + x.toNat) := by
      intro base x hlt
      rw [hunit, UInt32.toNat_add, UInt32.toNat_ofNat', Nat.mod_eq_of_lt (show base < 2 ^ 32 by omega),
        Nat.mod_eq_of_lt hlt]
    have hfirst := hadd 0xd800 _ (show 0xd800 + ((c.val - 0x10000) >>> 10).toNat < 2 ^ 32 by omega)
    have hsecond := hadd 0xdc00 _ (show 0xdc00 + ((c.val - 0x10000) &&& 0x3ff).toNat < 2 ^ 32 by omega)
    rw [hhigh] at hfirst
    rw [hlow] at hsecond
    rw [if_pos (hle.2 hpair), if_neg (Nat.not_lt.2 hpair), ← hfirst, ← hsecond]
    rfl
  · rw [if_neg (mt hle.1 hpair), if_pos (Nat.not_le.1 hpair)]
    rfl

/-- The number of a pair of surrogates. -/
theorem toNat_pair {u v : UInt16} (hu : 0xd800 ≤ u.toNat ∧ u.toNat ≤ 0xdbff) (hv : 0xdc00 ≤ v.toNat ∧ v.toNat ≤ 0xdfff) :
    (pairPoint u.toUInt32 v.toUInt32).toNat = 0x10000 + (u.toNat - 0xd800) * 0x400 + (v.toNat - 0xdc00) := by
  have hle₁ : (0xd800 : UInt32) ≤ u.toUInt32 := by
    rw [UInt32.le_iff_toNat_le, UInt16.toNat_toUInt32]
    exact hu.1
  have hle₂ : (0xdc00 : UInt32) ≤ v.toUInt32 := by
    rw [UInt32.le_iff_toNat_le, UInt16.toNat_toUInt32]
    exact hv.1
  have hsub₁ : (u.toUInt32 - 0xd800).toNat = u.toNat - 0xd800 := by
    rw [UInt32.toNat_sub_of_le _ _ hle₁, UInt16.toNat_toUInt32]
    rfl
  have hsub₂ : (v.toUInt32 - 0xdc00).toNat = v.toNat - 0xdc00 := by
    rw [UInt32.toNat_sub_of_le _ _ hle₂, UInt16.toNat_toUInt32]
    rfl
  have hshift : ((u.toUInt32 - 0xd800) <<< 10).toNat = (u.toNat - 0xd800) * 0x400 := by
    rw [UInt32.toNat_shiftLeft, hsub₁, show (10 : UInt32).toNat % 32 = 10 from rfl, Nat.shiftLeft_eq]
    exact Nat.mod_eq_of_lt (show (u.toNat - 0xd800) * 2 ^ 10 < 2 ^ 32 by omega)
  rw [pairPoint, UInt32.toNat_add, UInt32.toNat_add, hshift, hsub₂, show (0x10000 : UInt32).toNat = 0x10000 from rfl]
  omega

/-- Whether a unit starts a pair with the next one. -/
theorem takeUnit_cons (u v : UInt16) (w : Units) : takeUnit u (v :: w) =
    if (0xd800 ≤ u.toNat ∧ u.toNat ≤ 0xdbff) ∧ 0xdc00 ≤ v.toNat ∧ v.toNat ≤ 0xdfff then
      (pairPoint u.toUInt32 v.toUInt32, 2)
    else loneUnit u.toUInt32 := by
  have hiff : (0xd800 ≤ u.toUInt32 ∧ u.toUInt32 ≤ 0xdbff ∧ 0xdc00 ≤ v ∧ v ≤ 0xdfff) ↔
      (0xd800 ≤ u.toNat ∧ u.toNat ≤ 0xdbff) ∧ 0xdc00 ≤ v.toNat ∧ v.toNat ≤ 0xdfff := by
    rw [UInt32.le_iff_toNat_le, UInt32.le_iff_toNat_le, UInt16.le_iff_toNat_le, UInt16.le_iff_toNat_le,
      UInt16.toNat_toUInt32, ← and_assoc]
    rfl
  rw [takeUnit]
  exact if_congr hiff rfl rfl

theorem loneUnit_eq (u : UInt16) : loneUnit u.toUInt32 =
    (if 0xd800 ≤ u.toNat ∧ u.toNat ≤ 0xdfff then 0xfffd else u.toUInt32, 1) := by
  have hiff : (0xd800 ≤ u.toUInt32 ∧ u.toUInt32 ≤ 0xdfff) ↔ 0xd800 ≤ u.toNat ∧ u.toNat ≤ 0xdfff := by
    rw [UInt32.le_iff_toNat_le, UInt32.le_iff_toNat_le, UInt16.toNat_toUInt32]
    rfl
  rw [loneUnit]
  exact congrArg (·, 1) (if_congr hiff rfl rfl)

theorem loneUnit_char (u : UInt16) : (loneUnit u.toUInt32).2 = 1 ∧ ∃ x : Char, (loneUnit u.toUInt32).1 = x.val := by
  rw [loneUnit_eq]
  refine ⟨rfl, ?_⟩
  split_ifs with hsur
  · exact ⟨⟨0xfffd, by decide⟩, rfl⟩
  · have hlt := u.toNat_lt
    refine ⟨⟨u.toUInt32, ?_⟩, rfl⟩
    change u.toUInt32.toNat < 0xd800 ∨ (0xdfff < u.toUInt32.toNat ∧ u.toUInt32.toNat < 0x110000)
    rw [UInt16.toNat_toUInt32]
    omega

/-- What `u8fromu16` takes off the front is a character. -/
theorem takeUnit_char (u : UInt16) (w : Units) : (1 ≤ (takeUnit u w).2 ∧ (takeUnit u w).2 ≤ (u :: w).length) ∧
    ∃ x : Char, (takeUnit u w).1 = x.val := by
  cases w with
  | nil =>
    obtain ⟨hone, hchar⟩ := loneUnit_char u
    refine ⟨?_, hchar⟩
    change 1 ≤ (loneUnit u.toUInt32).2 ∧ (loneUnit u.toUInt32).2 ≤ 1
    rw [hone]
    exact ⟨le_rfl, le_rfl⟩
  | cons v w =>
    rw [takeUnit_cons]
    split_ifs with hpair
    · obtain ⟨hu, hv⟩ := hpair
      have hval := toNat_pair hu hv
      generalize pairPoint u.toUInt32 v.toUInt32 = cp at hval
      refine ⟨⟨Nat.le_succ 1, Nat.le_add_left ..⟩, ⟨cp, ?_⟩, rfl⟩
      change cp.toNat < 0xd800 ∨ (0xdfff < cp.toNat ∧ cp.toNat < 0x110000)
      omega
    · obtain ⟨hone, hchar⟩ := loneUnit_char u
      rw [hone]
      exact ⟨⟨le_rfl, Nat.le_add_left ..⟩, hchar⟩

/-- **UTF-16 is read.** -/
theorem takeUnit_text (c : Char) (rest : Units) : ∃ u w, utf16Char c ++ rest = u :: w ∧
    takeUnit u w = (c.val, (utf16Char c).length) := by
  have hvalid : c.val.toNat < 0xd800 ∨ (0xdfff < c.val.toNat ∧ c.val.toNat < 0x110000) := c.valid
  rw [utf16Char, show c.toNat = c.val.toNat from rfl]
  by_cases hone : c.val.toNat < 0x10000
  · rw [if_pos hone]
    have hu : (UInt16.ofNat c.val.toNat).toNat = c.val.toNat := by
      rw [UInt16.toNat_ofNat', Nat.mod_eq_of_lt hone]
    have hval : (UInt16.ofNat c.val.toNat).toUInt32 = c.val := by
      apply UInt32.toNat_inj.1
      rw [UInt16.toNat_toUInt32, hu]
    have hlone : loneUnit (UInt16.ofNat c.val.toNat).toUInt32 = (c.val, 1) := by
      rw [loneUnit_eq, hu, hval, if_neg (by omega)]
    refine ⟨_, rest, rfl, ?_⟩
    cases rest with
    | nil => exact hlone
    | cons v rest =>
      rw [takeUnit_cons, hu, if_neg (by omega)]
      exact hlone
  · rw [if_neg hone]
    have hu : (UInt16.ofNat (0xd800 + (c.val.toNat - 0x10000) / 0x400)).toNat =
        0xd800 + (c.val.toNat - 0x10000) / 0x400 := by
      rw [UInt16.toNat_ofNat', Nat.mod_eq_of_lt (by omega)]
    have hv : (UInt16.ofNat (0xdc00 + (c.val.toNat - 0x10000) % 0x400)).toNat =
        0xdc00 + (c.val.toNat - 0x10000) % 0x400 := by
      rw [UInt16.toNat_ofNat', Nat.mod_eq_of_lt (by omega)]
    refine ⟨_, _, rfl, ?_⟩
    have hcons := takeUnit_cons (UInt16.ofNat (0xd800 + (c.val.toNat - 0x10000) / 0x400))
      (UInt16.ofNat (0xdc00 + (c.val.toNat - 0x10000) % 0x400)) rest
    rw [hu, hv, if_pos (by omega)] at hcons
    refine hcons.trans (Prod.ext (UInt32.toNat_inj.1 ?_) rfl)
    change _ = c.val.toNat
    rw [toNat_pair (by omega) (by omega), hu, hv]
    omega

end Words

/-! ## The converters -/

/-- A character of UTF-8, and its units in UTF-16. -/
def nextByte (s : Bytes) : ℕ × Units := ((takeByte s).2, putUnits (takeByte s).1)

/-- A character of UTF-16, and its bytes in UTF-8. -/
def nextUnit : Units → ℕ × Bytes
  | [] => (0, [])
  | u :: w => ((takeUnit u w).2, u8encode (takeUnit u w).1)

theorem advances_nextByte : Advances nextByte := fun _ hs => takeByte_pos hs

theorem advances_nextUnit : Advances nextUnit := by
  intro w hw
  obtain ⟨u, w, rfl⟩ := List.exists_cons_of_ne_nil hw
  exact (takeUnit_char u w).1

theorem nextByte_char (s : Bytes) : ∃ c : Char, (nextByte s).2 = utf16Char c := by
  obtain ⟨c, hc⟩ := takeByte_char s
  exact ⟨c, by rw [nextByte, hc, putUnits_val]⟩

theorem nextUnit_char (w : Units) (hw : w ≠ []) : ∃ c : Char, (nextUnit w).2 = String.utf8EncodeChar c := by
  obtain ⟨u, w, rfl⟩ := List.exists_cons_of_ne_nil hw
  obtain ⟨-, c, hc⟩ := takeUnit_char u w
  exact ⟨c, by rw [nextUnit, hc, u8encode_val]⟩

theorem length_putUnits (cp : UInt32) : (if 0x10000 ≤ cp then 2 else 1) = (putUnits cp).length := by
  rw [putUnits]
  split_ifs <;> rfl

/-- The loop writes what fits behind what is there. -/
theorem u8tou16Loop_eq (limit : ℕ) (dst : Units) (i : ℕ) (s : Bytes) (h : dst.length ≤ limit) :
    u8tou16Loop limit dst i s = (dst ++ written (fitting (limit - dst.length) (steps nextByte s)),
      i + used (fitting (limit - dst.length) (steps nextByte s))) := by
  fun_induction u8tou16Loop limit dst i s with
  | case1 dst i =>
    rw [steps_nil]
    exact Prod.ext (List.append_nil _).symm rfl
  | case2 dst i s hs r units hpos hfull =>
    have hlen : units = (nextByte s).2.length := length_putUnits r.1
    rw [fitting_steps_of_lt advances_nextByte hs (by omega)]
    exact Prod.ext (List.append_nil _).symm rfl
  | case3 dst i s hs r units hpos hfit ih =>
    have hlen : units = (nextByte s).2.length := length_putUnits r.1
    have happend : (dst ++ putUnits r.1).length = dst.length + (nextByte s).2.length := List.length_append
    obtain ⟨hw, hu⟩ := fitting_steps_of_le advances_nextByte hs (show (nextByte s).2.length ≤ limit - dst.length by omega)
    rw [ih (by omega), happend, ← Nat.sub_sub, hw, hu, List.append_assoc, Nat.add_assoc]
    rfl

/-- Likewise. -/
theorem u8fromu16Loop_eq (limit : ℕ) (dst : Bytes) (i : ℕ) (w : Units) (h : dst.length ≤ limit) :
    u8fromu16Loop limit dst i w = (dst ++ written (fitting (limit - dst.length) (steps nextUnit w)),
      i + used (fitting (limit - dst.length) (steps nextUnit w))) := by
  fun_induction u8fromu16Loop limit dst i w with
  | case1 dst i =>
    rw [steps_nil]
    exact Prod.ext (List.append_nil _).symm rfl
  | case2 dst i u w r tmp hfull =>
    have hlen : tmp.length = (nextUnit (u :: w)).2.length := rfl
    rw [fitting_steps_of_lt advances_nextUnit (List.cons_ne_nil u w) (by omega)]
    exact Prod.ext (List.append_nil _).symm rfl
  | case3 dst i u w r tmp hfit ih =>
    have hlen : tmp.length = (nextUnit (u :: w)).2.length := rfl
    have happend : (dst ++ tmp).length = dst.length + (nextUnit (u :: w)).2.length := List.length_append
    obtain ⟨hw, hu⟩ := fitting_steps_of_le advances_nextUnit (List.cons_ne_nil u w)
      (show (nextUnit (u :: w)).2.length ≤ limit - dst.length by omega)
    have hdrop : w.drop (r.2 - 1) = (u :: w).drop (nextUnit (u :: w)).1 := by
      obtain ⟨⟨hpos, -⟩, -⟩ := takeUnit_char u w
      obtain ⟨k, hk⟩ := Nat.exists_eq_add_of_le' hpos
      change w.drop ((takeUnit u w).2 - 1) = (u :: w).drop (takeUnit u w).2
      rw [hk]
      rfl
    rw [ih (by omega), happend, ← Nat.sub_sub, hw, hu, List.append_assoc, Nat.add_assoc, hdrop]
    rfl

theorem converts_u8tou16 : Converts nextByte u8tou16 := fun limit s => by
  have hloop := u8tou16Loop_eq limit [] 0 s (Nat.zero_le _)
  rwa [List.nil_append, Nat.zero_add] at hloop

theorem converts_u8fromu16 : Converts nextUnit u8fromu16 := fun limit w => by
  have hloop := u8fromu16Loop_eq limit [] 0 w (Nat.zero_le _)
  rwa [List.nil_append, Nat.zero_add] at hloop

/-! ## Texts are converted -/

/-- The characters of a text in UTF-8. -/
theorem written_utf8Text (cs : List Char) : written (steps nextByte (utf8Text cs)) = utf16Text cs := by
  induction cs with
  | nil => rw [utf8Text, List.flatMap_nil, steps_nil]; rfl
  | cons c cs ih =>
    have hdec := u8decode_text c (utf8Text cs)
    have htake : takeByte (String.utf8EncodeChar c ++ utf8Text cs) = (c.val, (String.utf8EncodeChar c).length) := by
      rw [takeByte, hdec]
    have hne : String.utf8EncodeChar c ++ utf8Text cs ≠ [] :=
      List.append_ne_nil_of_left_ne_nil String.utf8EncodeChar_ne_nil _
    have hcons : utf8Text (c :: cs) = String.utf8EncodeChar c ++ utf8Text cs := List.flatMap_cons
    rw [hcons, steps_of_ne_nil advances_nextByte hne, nextByte, htake, putUnits_val, List.drop_left, written,
      List.flatMap_cons, ← written, ih]
    rfl

/-- The characters of a text in UTF-16. -/
theorem written_utf16Text (cs : List Char) : written (steps nextUnit (utf16Text cs)) = utf8Text cs := by
  induction cs with
  | nil => rw [utf16Text, List.flatMap_nil, steps_nil]; rfl
  | cons c cs ih =>
    obtain ⟨u, w, heq, htake⟩ := takeUnit_text c (utf16Text cs)
    have hcons : utf16Text (c :: cs) = u :: w := List.flatMap_cons.trans heq
    have hdrop : (u :: w).drop (utf16Char c).length = utf16Text cs := by rw [← heq, List.drop_left]
    rw [hcons, steps_of_ne_nil advances_nextUnit (List.cons_ne_nil u w), nextUnit, htake, u8encode_val, hdrop, written,
      List.flatMap_cons, ← written, ih]
    rfl

theorem length_utf16Char_le (c : Char) : (utf16Char c).length ≤ 2 := by
  rw [utf16Char]
  split_ifs
  · exact Nat.le_succ 1
  · exact le_rfl

/-- **The conversions undo each other** on texts, and calls with room for a character write together what one call
without a limit does, each of them whole characters. -/
theorem utf16_round_trips :
    (∀ cs, Whole u8tou16 (utf8Text cs) (utf16Text cs) ∧ Whole u8fromu16 (utf16Text cs) (utf8Text cs)) ∧
    (∀ s, ∃ w, Whole u8tou16 s w ∧ ∀ limit, 2 ≤ limit → (∃ ws, Piecewise u8tou16 limit s ws) ∧
      ∀ ws, Piecewise u8tou16 limit s ws → ws.flatten = w ∧ ∀ u ∈ ws, u.length ≤ limit ∧ ∃ cs, u = utf16Text cs) ∧
    ∀ w, ∃ s, Whole u8fromu16 w s ∧ ∀ limit, 4 ≤ limit → (∃ ss, Piecewise u8fromu16 limit w ss) ∧
      ∀ ss, Piecewise u8fromu16 limit w ss → ss.flatten = s ∧ ∀ t ∈ ss, t.length ≤ limit ∧ ∃ cs, t = utf8Text cs := by
  refine ⟨fun cs => ⟨?_, ?_⟩, fun s => ⟨_, converts_u8tou16.whole advances_nextByte s, fun limit hlimit => ⟨?_, ?_⟩⟩,
    fun w => ⟨_, converts_u8fromu16.whole advances_nextUnit w, fun limit hlimit => ⟨?_, ?_⟩⟩⟩
  · have hwhole := converts_u8tou16.whole advances_nextByte (utf8Text cs)
    rwa [written_utf8Text] at hwhole
  · have hwhole := converts_u8fromu16.whole advances_nextUnit (utf16Text cs)
    rwa [written_utf16Text] at hwhole
  · refine exists_piecewise advances_nextByte converts_u8tou16 (fun s hs => ?_) s
    obtain ⟨c, hc⟩ := nextByte_char s
    rw [hc]
    exact (length_utf16Char_le c).trans hlimit
  · intro ws hws
    obtain ⟨hflat, hall⟩ := hws.flatten advances_nextByte converts_u8tou16
    refine ⟨hflat, fun w hw => ?_⟩
    obtain ⟨hlen, es, hes, rfl⟩ := hall w hw
    refine ⟨hlen, exists_written fun e he => ?_⟩
    exact forall_mem_steps (p := fun e => ∃ c : Char, e.2 = utf16Char c) advances_nextByte
      (fun s _ => nextByte_char s) e (hes e he)
  · refine exists_piecewise advances_nextUnit converts_u8fromu16 (fun w hw => ?_) w
    obtain ⟨c, hc⟩ := nextUnit_char w hw
    rw [hc, String.length_utf8EncodeChar]
    exact c.utf8Size_le_four.trans hlimit
  · intro ss hss
    obtain ⟨hflat, hall⟩ := hss.flatten advances_nextUnit converts_u8fromu16
    refine ⟨hflat, fun s hs => ?_⟩
    obtain ⟨hlen, es, hes, rfl⟩ := hall s hs
    refine ⟨hlen, exists_written fun e he => ?_⟩
    exact forall_mem_steps (p := fun e => ∃ c : Char, e.2 = String.utf8EncodeChar c) advances_nextUnit
      nextUnit_char e (hes e he)

end Shish.Utf8
