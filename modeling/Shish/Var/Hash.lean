import Shish.Chartable
import Mathlib.Data.List.Lex
import Mathlib.Data.Char
import Mathlib.Tactic.Linarith
import Mathlib.Tactic.NormNum
import Mathlib.Tactic.Positivity
import Mathlib.Tactic.Ring

/-!
# Var/Hash — the two hashes of a variable name

`var_lexhash` packs the first eleven characters of a name into a word, six bits a character and four
for the last, so that comparing hashes is comparing names up to there; `var_rndhash` scatters the
name over the buckets.  The bucket search leans on three facts about the first one: it never
decreases along the order of names (`lexhash_le_of_lt`), and equal hashes mean equal names as soon
as one of them is shorter than the ten full characters, or both fit into them
(`eq_of_lexhash_eq`).
-/

namespace Shish

/-- The name in front of a `name=value` text (`var_len`). -/
def nameOf (v : Str) : Str := v.takeWhile (· ≠ '=')

/-- The characters of a name: letters, digits and the underscore. -/
def isNameChar (c : Char) : Bool := parseIsalpha c || c == '_' || parseIsdigit c

/-- `var_valid`, without the empty word: `[A-Z_a-z][0-9A-Z_a-z]*`. -/
def varValid : Str → Bool
  | [] => false
  | c :: t => parseIsname c 0 && t.all isNameChar

/-! ## The lexical hash -/

/-- The macro `reduce`: a name character as a number below 63. -/
def reduce (c : Char) : UInt64 :=
  let c := UInt64.ofNat c.toNat
  if c < 65 then c - 48
  else if c ≤ 90 then c - 65 + 10
  else if c < 97 then c - 95 + 36
  else c - 97 + 37

/-- The loop of `var_lexhash`.  Round `k + 1` adds six bits at `shift = 6 * k + 4`; the last round,
at `shift = -2`, keeps only the four topmost bits of its character. -/
def lexhashGo : ℕ → UInt64 → Str → UInt64
  | _, h, [] => h
  | 0, h, c :: _ => h + (1 + reduce c) >>> 2
  | k + 1, h, c :: t => lexhashGo k (h + (1 + reduce c) <<< UInt64.ofNat (6 * k + 4)) t

/-- `var_lexhash`: ten full characters and the top of the eleventh, less the ten digits no name
starts with. -/
def varLexhash (n : Str) : UInt64 := lexhashGo 10 ((-10 : UInt64) <<< 58) n

/-! ## The scattering hash -/

/-- The table `seeds` of `var_rndhash`. -/
def seeds : List UInt32 :=
  [0x2e8b1c8a, 0xa8fa6d8c, 0x20c91d6c, 0x9625e261, 0xbbe5d3ae, 0x0b67aab9, 0xaeabca3b, 0xb0a3595a,
   0x8898bba8, 0xe164242e, 0xf85afdd0, 0x49d7d461, 0xcec21aa0, 0x5c77fd0d, 0xd011e8ec, 0x6bfb5d73]

/-- `seeds[i & 0x0f]`. -/
def seed (i : UInt32) : UInt32 := seeds.getD (i &&& 15).toNat 0

/-- The macro `ROR`. -/
def ror (v c : UInt64) : UInt64 := if c = 0 then v else (v >>> c) ||| (v <<< (64 - c))

/-- The macro `ROL`. -/
def rol (v c : UInt64) : UInt64 := if c = 0 then v else (v <<< c) ||| (v >>> (64 - c))

/-- The mixing step that should add `a`: the source writes `hash = +a`, so what was there before is
lost. -/
def rndMixSub (a : UInt32) : UInt64 := ror a.toUInt64 (a &&& 63).toUInt64

/-- The mixing step that xors both accumulators in. -/
def rndMixXor (hash : UInt64) (a b : UInt32) : UInt64 :=
  rol (ror (hash ^^^ a.toUInt64) 32 ^^^ b.toUInt64) (b &&& 63).toUInt64

/-- One round of `var_rndhash`, on the two accumulators.  The second `hash = +a` of a round drops
whatever the hash held, so only the last two mixing steps leave a trace in it. -/
def rndRound (a b : UInt32) (c : Char) : UInt32 × UInt32 × UInt64 :=
  let x := UInt32.ofNat c.toNat
  let a := a ^^^ (x &&& 15)
  let b := b ^^^ (x >>> 4)
  let a := a - seed b
  let b := b + seed a
  let a := a ^^^ seed b
  let b := b ^^^ seed a
  let b := b + seed a
  let a := a - seed b
  let hash := rndMixSub a
  let b := b ^^^ seed a
  let a := a ^^^ seed b
  (a, b, rndMixXor hash a b)

/-- The loop of `var_rndhash`. -/
def rndhashGo : UInt32 → UInt32 → UInt64 → Str → UInt64
  | _, _, h, [] => h
  | a, b, _, c :: t =>
      let (a, b, h) := rndRound a b c
      rndhashGo a b h t

/-- `var_rndhash`. -/
def varRndhash (n : Str) : UInt64 := rndhashGo 0 0 0 n

/-! ## The lexical hash as a numeral

No character carries into the one before it, so the hash is a numeral in base 64; its order is where
the order of the buckets comes from. -/

/-- The digit a name character contributes, between one and sixty-three. -/
def digitOf (c : Char) : ℕ := 1 + (reduce c).toNat

/-- The numeral the last `k + 1` rounds of `lexhashGo` add up. -/
def lexNum : ℕ → Str → ℕ
  | _, [] => 0
  | 0, c :: _ => digitOf c / 4
  | k + 1, c :: t => digitOf c * 2 ^ (6 * k + 4) + lexNum k t

theorem isNameChar_toNat {c : Char} (h : isNameChar c = true) :
    (48 ≤ c.toNat ∧ c.toNat ≤ 57) ∨ (65 ≤ c.toNat ∧ c.toNat ≤ 90) ∨ c.toNat = 95 ∨
      (97 ≤ c.toNat ∧ c.toNat ≤ 122) := by
  simp only [isNameChar, parseIsalpha, parseIslower, parseIsupper, parseIsdigit, Bool.or_eq_true,
    Bool.and_eq_true, decide_eq_true_eq, beq_iff_eq, Char.le_def, UInt32.le_iff_toNat_le] at h
  have h95 : c = '_' ↔ c.toNat = 95 := (Char.toNat_inj (d := '_')).symm
  rw [h95] at h
  change ((97 ≤ c.toNat ∧ c.toNat ≤ 122 ∨ 65 ≤ c.toNat ∧ c.toNat ≤ 90) ∨ c.toNat = 95) ∨
    48 ≤ c.toNat ∧ c.toNat ≤ 57 at h
  omega

/-- `reduce` on the four ranges of name characters. -/
theorem digitOf_eq {c : Char} (h : isNameChar c = true) :
    digitOf c = if c.toNat < 65 then c.toNat - 47 else if c.toNat ≤ 90 then c.toNat - 54
      else if c.toNat < 97 then 37 else c.toNat - 59 := by
  have hr := isNameChar_toNat h
  simp only [digitOf, reduce, UInt64.lt_iff_toNat_lt, UInt64.le_iff_toNat_le]
  have hlt : c.toNat < 2 ^ 64 := by omega
  have hc : (UInt64.ofNat c.toNat).toNat = c.toNat := by
    rw [UInt64.toNat_ofNat']; exact Nat.mod_eq_of_lt hlt
  simp only [hc, UInt64.reduceToNat]
  split_ifs <;> simp only [UInt64.toNat_sub, UInt64.toNat_add, hc, UInt64.reduceToNat] <;> omega

theorem digitOf_pos (c : Char) : 0 < digitOf c := by simp [digitOf]

theorem digitOf_le {c : Char} (h : isNameChar c = true) : digitOf c ≤ 63 := by
  have := isNameChar_toNat h
  rw [digitOf_eq h]
  split_ifs <;> omega

/-- **The digits are ordered as the characters are.** -/
theorem digitOf_lt {c d : Char} (hc : isNameChar c = true) (hd : isNameChar d = true)
    (h : c < d) : digitOf c < digitOf d := by
  have hc' := isNameChar_toNat hc
  have hd' := isNameChar_toNat hd
  have hlt : c.toNat < d.toNat := h
  rw [digitOf_eq hc, digitOf_eq hd]
  split_ifs <;> omega

theorem digitOf_inj {c d : Char} (hc : isNameChar c = true) (hd : isNameChar d = true)
    (h : digitOf c = digitOf d) : c = d := by
  rcases lt_trichotomy c d with hlt | rfl | hlt
  · exact absurd h (digitOf_lt hc hd hlt).ne
  · rfl
  · exact absurd h (digitOf_lt hd hc hlt).ne'

/-- A numeral stays below the place in front of it. -/
theorem lexNum_lt : ∀ (k : ℕ) (n : Str), (∀ c ∈ n, isNameChar c = true) →
    lexNum k n < 2 ^ (6 * k + 4)
  | _, [], _ => by simp [lexNum]
  | 0, c :: _, h => by
      have := digitOf_le (h c (by simp))
      simp only [lexNum]
      omega
  | k + 1, c :: t, h => by
      have hc := digitOf_le (h c (by simp))
      have ht := lexNum_lt k t fun d hd => h d (by simp [hd])
      have hp : (2 : ℕ) ^ (6 * (k + 1) + 4) = 64 * 2 ^ (6 * k + 4) := by
        rw [show 6 * (k + 1) + 4 = 6 + (6 * k + 4) by ring, pow_add]; norm_num
      simp only [lexNum, hp]
      nlinarith

/-- **The numeral never decreases along the order of names.** -/
theorem lexNum_le_of_lt : ∀ (k : ℕ) (a b : Str), (∀ c ∈ a, isNameChar c = true) →
    (∀ c ∈ b, isNameChar c = true) → a < b → lexNum k a ≤ lexNum k b
  | _, [], _, _, _, _ => by simp [lexNum]
  | _, _ :: _, [], _, _, h => absurd h (List.not_lt_nil _)
  | 0, c :: s, d :: t, ha, hb, h => by
      rcases List.cons_lt_cons_iff.mp h with hcd | ⟨rfl, -⟩
      · have := digitOf_lt (ha c (by simp)) (hb d (by simp)) hcd
        simp only [lexNum]
        omega
      · simp [lexNum]
  | k + 1, c :: s, d :: t, ha, hb, h => by
      have hs : ∀ e ∈ s, isNameChar e = true := fun e he => ha e (by simp [he])
      have ht : ∀ e ∈ t, isNameChar e = true := fun e he => hb e (by simp [he])
      rcases List.cons_lt_cons_iff.mp h with hcd | ⟨rfl, hst⟩
      · have hdig := digitOf_lt (ha c (by simp)) (hb d (by simp)) hcd
        have hlt := lexNum_lt k s hs
        simp only [lexNum]
        nlinarith [Nat.zero_le (lexNum k t)]
      · have := lexNum_le_of_lt k s t hs ht hst
        simp only [lexNum]
        omega

/-- **Equal numerals mean the same full characters.** -/
theorem take_eq_of_lexNum_eq : ∀ (k : ℕ) (a b : Str), (∀ c ∈ a, isNameChar c = true) →
    (∀ c ∈ b, isNameChar c = true) → lexNum k a = lexNum k b → a.take k = b.take k
  | 0, _, _, _, _, _ => by simp
  | _ + 1, [], [], _, _, _ => rfl
  | k + 1, [], d :: t, _, _, h => by
      have := digitOf_pos d
      have hp : 0 < 2 ^ (6 * k + 4) := by positivity
      simp only [lexNum] at h
      nlinarith
  | k + 1, c :: s, [], _, _, h => by
      have := digitOf_pos c
      have hp : 0 < 2 ^ (6 * k + 4) := by positivity
      simp only [lexNum] at h
      nlinarith
  | k + 1, c :: s, d :: t, ha, hb, h => by
      have hs : ∀ e ∈ s, isNameChar e = true := fun e he => ha e (by simp [he])
      have ht : ∀ e ∈ t, isNameChar e = true := fun e he => hb e (by simp [he])
      have hls := lexNum_lt k s hs
      have hlt := lexNum_lt k t ht
      simp only [lexNum] at h
      have hcd : digitOf c = digitOf d := by
        rcases lt_trichotomy (digitOf c) (digitOf d) with h' | h' | h'
        · nlinarith
        · exact h'
        · nlinarith
      obtain rfl := digitOf_inj (ha c (by simp)) (hb d (by simp)) hcd
      have := take_eq_of_lexNum_eq k s t hs ht (by omega)
      simp [this]

/-- The loop adds the numeral, as long as the word has room for it. -/
theorem lexhashGo_toNat : ∀ (k : ℕ) (h : UInt64) (n : Str), k ≤ 9 →
    (∀ c ∈ n, isNameChar c = true) → h.toNat + lexNum k n < 2 ^ 64 →
    (lexhashGo k h n).toNat = h.toNat + lexNum k n
  | _, _, [], _, _, _ => by simp [lexhashGo, lexNum]
  | 0, h, c :: t, _, hn, hlt => by
      have hd := digitOf_le (hn c (by simp))
      have hr : (1 + reduce c).toNat = digitOf c := by
        simp only [UInt64.toNat_add, UInt64.reduceToNat]
        rw [Nat.mod_eq_of_lt (by unfold digitOf at hd; omega)]; rfl
      simp only [lexNum] at hlt
      simp only [lexhashGo, lexNum, UInt64.toNat_add, UInt64.toNat_shiftRight, hr,
        UInt64.reduceToNat, Nat.shiftRight_eq_div_pow]
      norm_num at hlt ⊢
      omega
  | k + 1, h, c :: t, hk, hn, hlt => by
      have hd := digitOf_le (hn c (by simp))
      have hr : (1 + reduce c).toNat = digitOf c := by
        simp only [UInt64.toNat_add, UInt64.reduceToNat]
        rw [Nat.mod_eq_of_lt (by unfold digitOf at hd; omega)]; rfl
      simp only [lexNum] at hlt
      have hsh : ((1 + reduce c) <<< UInt64.ofNat (6 * k + 4)).toNat
          = digitOf c * 2 ^ (6 * k + 4) := by
        have h6 : (UInt64.ofNat (6 * k + 4)).toNat = 6 * k + 4 := by
          rw [UInt64.toNat_ofNat']; exact Nat.mod_eq_of_lt (by omega)
        rw [UInt64.toNat_shiftLeft, hr, h6, Nat.mod_eq_of_lt (by omega : 6 * k + 4 < 64),
          Nat.shiftLeft_eq, Nat.mod_eq_of_lt (by omega)]
      have hadd : (h + (1 + reduce c) <<< UInt64.ofNat (6 * k + 4)).toNat
          = h.toNat + digitOf c * 2 ^ (6 * k + 4) := by
        rw [UInt64.toNat_add, hsh, Nat.mod_eq_of_lt (by omega)]
      rw [lexhashGo, lexhashGo_toNat k _ t (by omega) (fun e he => hn e (by simp [he]))
        (by rw [hadd]; omega), hadd, lexNum]
      omega

theorem varValid_cons {c : Char} {t : Str} (h : varValid (c :: t) = true) :
    isNameChar c = true ∧ 11 ≤ digitOf c ∧ ∀ d ∈ t, isNameChar d = true := by
  simp only [varValid, parseIsname, Bool.and_eq_true, List.all_eq_true, Nat.lt_irrefl,
    decide_false, Bool.false_and, Bool.or_false] at h
  have hc : isNameChar c = true := by simp [isNameChar, h.1]
  refine ⟨hc, ?_, h.2⟩
  have h95 : c = '_' ↔ c.toNat = 95 := (Char.toNat_inj (d := '_')).symm
  have hr : (97 ≤ c.toNat ∧ c.toNat ≤ 122 ∨ 65 ≤ c.toNat ∧ c.toNat ≤ 90) ∨ c.toNat = 95 := by
    have h1 := h.1
    simp only [parseIsalpha, parseIslower, parseIsupper, Bool.or_eq_true, Bool.and_eq_true,
      decide_eq_true_eq, beq_iff_eq, h95] at h1
    exact h1
  rw [digitOf_eq hc]
  split_ifs <;> omega

/-- **The hash of a valid name is its numeral, less ten in the first place.** -/
theorem varLexhash_toNat {c : Char} {t : Str} (h : varValid (c :: t) = true) :
    (varLexhash (c :: t)).toNat = (digitOf c - 10) * 2 ^ 58 + lexNum 9 t := by
  obtain ⟨hc, h11, ht⟩ := varValid_cons h
  have h63 := digitOf_le hc
  have hlt := lexNum_lt 9 t ht
  have hr : (1 + reduce c).toNat = digitOf c := by
    simp only [UInt64.toNat_add, UInt64.reduceToNat]
    rw [Nat.mod_eq_of_lt (by unfold digitOf at h63; omega)]; rfl
  have hsh : ((1 + reduce c) <<< UInt64.ofNat (6 * 9 + 4)).toNat = digitOf c * 2 ^ 58 := by
    rw [UInt64.toNat_shiftLeft, hr]
    norm_num [Nat.shiftLeft_eq]
    omega
  have h0 : ((-10 : UInt64) <<< 58 + (1 + reduce c) <<< UInt64.ofNat (6 * 9 + 4)).toNat
      = (digitOf c - 10) * 2 ^ 58 := by
    rw [UInt64.toNat_add, hsh, show ((-10 : UInt64) <<< 58).toNat = 54 * 2 ^ 58 by decide]
    omega
  rw [varLexhash, lexhashGo, lexhashGo_toNat 9 _ t le_rfl ht (by rw [h0]; omega), h0]

/-- **The hash never decreases along the order of names.** -/
theorem lexhash_le_of_lt {a b : Str} (ha : varValid a = true) (hb : varValid b = true)
    (h : a < b) : varLexhash a ≤ varLexhash b := by
  match a, b, ha, hb with
  | c :: s, d :: t, ha, hb =>
    obtain ⟨hc, h11, hs⟩ := varValid_cons ha
    obtain ⟨hd, h11', ht⟩ := varValid_cons hb
    rw [UInt64.le_iff_toNat_le, varLexhash_toNat ha, varLexhash_toNat hb]
    have hlt := lexNum_lt 9 s hs
    rcases List.cons_lt_cons_iff.mp h with hcd | ⟨rfl, hst⟩
    · have := digitOf_lt hc hd hcd
      omega
    · have := lexNum_le_of_lt 9 s t hs ht hst
      omega

/-- **Equal hashes agree on the ten full characters.** -/
theorem take_eq_of_lexhash_eq {a b : Str} (ha : varValid a = true) (hb : varValid b = true)
    (h : varLexhash a = varLexhash b) : a.take 10 = b.take 10 := by
  match a, b, ha, hb with
  | c :: s, d :: t, ha, hb =>
    obtain ⟨hc, h11, hs⟩ := varValid_cons ha
    obtain ⟨hd, h11', ht⟩ := varValid_cons hb
    have hn := congrArg UInt64.toNat h
    rw [varLexhash_toNat ha, varLexhash_toNat hb] at hn
    have hls := lexNum_lt 9 s hs
    have hlt := lexNum_lt 9 t ht
    have hcd : digitOf c = digitOf d := by omega
    obtain rfl := digitOf_inj hc hd hcd
    simp [take_eq_of_lexNum_eq 9 s t hs ht (by omega)]

/-- **Equal hashes are equal names** when the one is shorter than the full characters, or neither is
longer. -/
theorem eq_of_lexhash_eq {a b : Str} (ha : varValid a = true) (hb : varValid b = true)
    (h : varLexhash a = varLexhash b) (hlen : a.length < 10 ∨ (a.length ≤ 10 ∧ b.length ≤ 10)) :
    a = b := by
  have ht := take_eq_of_lexhash_eq ha hb h
  have hl := congrArg List.length ht
  simp only [List.length_take] at hl
  rwa [List.take_of_length_le (by omega), List.take_of_length_le (by omega)] at ht

/-- The order of a bucket: by the hash, and names of one hash by their bytes. -/
def HashBefore (a b : Str) : Prop := varLexhash a < varLexhash b ∨ varLexhash a = varLexhash b ∧ a < b

theorem hashBefore_iff {a b : Str} (ha : varValid a = true) (hb : varValid b = true) : HashBefore a b ↔ a < b := by
  constructor
  · rintro (hlt | ⟨-, h⟩)
    · rcases lt_trichotomy a b with h | rfl | h
      · exact h
      · exact absurd hlt (UInt64.lt_irrefl _)
      · exact absurd (lexhash_le_of_lt hb ha h) (UInt64.not_le.2 hlt)
    · exact h
  · intro h
    by_cases heq : varLexhash a = varLexhash b
    · exact .inr ⟨heq, h⟩
    · exact .inl (UInt64.lt_of_le_of_ne (lexhash_le_of_lt ha hb h) heq)

/-- **What the bucket search leans on.**  The hash does not decrease along the order of names; names of one hash agree
on ten characters, and are the same name when neither is longer; so a bucket in the order of its hashes, and of its
bytes where these are equal, is in the order of its names. -/
theorem lexhash_orders {a b : Str} (ha : varValid a = true) (hb : varValid b = true) :
    (a < b → varLexhash a ≤ varLexhash b) ∧ (varLexhash a = varLexhash b → a.take 10 = b.take 10) ∧
      (a.length ≤ 10 → b.length ≤ 10 → varLexhash a = varLexhash b → a = b) ∧
      ∀ names : List Str, (∀ n ∈ names, varValid n = true) →
        (names.Pairwise HashBefore ↔ names.Pairwise (· < ·)) := by
  refine ⟨lexhash_le_of_lt ha hb, take_eq_of_lexhash_eq ha hb,
    fun hla hlb h => eq_of_lexhash_eq ha hb h (.inr ⟨hla, hlb⟩), fun names hall => ?_⟩
  exact List.Pairwise.iff_of_mem fun {n m} hn hm => hashBefore_iff (hall n hn) (hall m hm)

/-- Two names that differ behind the tenth character. -/
theorem lexhash_orders_long : "LONG_NAME_1".toList < "LONG_NAME_10".toList ∧
    varLexhash "LONG_NAME_1".toList ≤ varLexhash "LONG_NAME_10".toList :=
  ⟨by decide, (lexhash_orders (by decide) (by decide)).1 (by decide)⟩

end Shish
