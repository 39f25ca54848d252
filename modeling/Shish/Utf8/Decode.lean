import Mathlib.Data.Nat.Basic
import Shish.Lib.Bytes

/-!
# Utf8/Decode — the characters of a text

`u8decode` reads a character strictly, and tells a start that the end cuts off from bytes that are no
character.  It looks no further than that takes, so a longer text starts with the same character
(`u8decode_append`).  A byte that starts no character counts as one of its own: `chars` are the characters
that `u8skip` steps over (`u8skip_eq`).
-/

namespace Shish.Utf8

/-- What `u8decode` says: the code point and its length, 0, -1 or -2. -/
inductive Decoded
  | char (cp : UInt32) (len : ℕ)
  | empty
  | invalid
  | short
  deriving DecidableEq

/-- The loop of `u8decode` and what comes behind it: the bytes from `p[i]` on, when `k` are still to come. -/
def decodeLoop (len : ℕ) (min : UInt32) : ℕ → UInt32 → Bytes → Decoded
  | 0, c, _ =>
      if c < min ∨ 0x10ffff < c ∨ (0xd800 ≤ c ∧ c ≤ 0xdfff) then .invalid else .char c len
  | _ + 1, _, [] => .short
  | k + 1, c, p :: ps =>
      if p &&& 0xc0 ≠ 0x80 then .invalid
      else decodeLoop len min k ((c <<< 6) ||| (p &&& 0x3f).toUInt32) ps

/-- `u8decode`. -/
def u8decode : Bytes → Decoded
  | [] => .empty
  | c :: p =>
      if c < 0x80 then .char c.toUInt32 1
      else if 0xc2 ≤ c ∧ c ≤ 0xdf then decodeLoop 2 0x80 1 (c &&& 0x1f).toUInt32 p
      else if c &&& 0xf0 = 0xe0 then decodeLoop 3 0x800 2 (c &&& 0x0f).toUInt32 p
      else if 0xf0 ≤ c ∧ c ≤ 0xf4 then decodeLoop 4 0x10000 3 (c &&& 0x07).toUInt32 p
      else .invalid

/-- `u8encode`: the bytes it writes. -/
def u8encode (cp : UInt32) : Bytes :=
  let lead (bits : UInt32) (shift : UInt32) : UInt8 := (bits ||| (cp >>> shift)).toUInt8
  let more (shift : UInt32) : UInt8 := (0x80 ||| ((cp >>> shift) &&& 0x3f)).toUInt8
  if cp < 0x80 then [cp.toUInt8]
  else if cp < 0x800 then [lead 0xc0 6, more 0]
  else if 0xd800 ≤ cp ∧ cp ≤ 0xdfff then []
  else if cp < 0x10000 then [lead 0xe0 12, more 6, more 0]
  else if 0x10ffff < cp then []
  else [lead 0xf0 18, more 12, more 6, more 0]

/-- `u8charlen`. -/
def u8charlen (s : Bytes) : ℕ :=
  match u8decode s with
  | .char _ len => len
  | _ => if s = [] then 0 else 1

/-- `u8skip`. -/
def u8skip : Bytes → ℕ → ℕ
  | _, 0 => 0
  | s, k + 1 => if s = [] then 0 else u8charlen s + u8skip (s.drop (u8charlen s)) k

/-- `text_charlen`. -/
def textCharlen (utf8 : Bool) (s : Bytes) : ℕ := if utf8 then u8charlen s else if s = [] then 0 else 1

/-- `text_charskip`. -/
def textCharskip (utf8 : Bool) (s : Bytes) (k : ℕ) : ℕ :=
  if utf8 then u8skip s k else if k < s.length then k else s.length

/-- The characters of a text, each of them its bytes. -/
def chars (utf8 : Bool) (s : Bytes) : List Bytes :=
  if s = [] then [] else s.take (max 1 (textCharlen utf8 s)) :: chars utf8 (s.drop (max 1 (textCharlen utf8 s)))
termination_by s.length
decreasing_by
  have := List.length_pos_iff.2 ‹s ≠ []›
  rw [List.length_drop]
  omega

/-! ## How long a character is -/

variable {s t : Bytes} {n len k : ℕ} {min c cp : UInt32}

theorem decodeLoop_char (h : decodeLoop len min k c s = .char cp n) : n = len ∧ k ≤ s.length := by
  fun_induction decodeLoop len min k c s with
  | case1 => cases h
  | case2 => cases h; exact ⟨rfl, Nat.zero_le _⟩
  | case3 => cases h
  | case4 => cases h
  | case5 k c p ps hp ih => exact ⟨(ih h).1, Nat.succ_le_succ (ih h).2⟩

theorem decodeLoop_short (h : decodeLoop len min k c s = .short) : s.length < k := by
  fun_induction decodeLoop len min k c s with
  | case1 => cases h
  | case2 => cases h
  | case3 => exact Nat.succ_pos _
  | case4 => cases h
  | case5 k c p ps hp ih => exact Nat.succ_lt_succ (ih h)

theorem decodeLoop_append (h : decodeLoop len min k c s ≠ .short) (t : Bytes) :
    decodeLoop len min k c (s ++ t) = decodeLoop len min k c s := by
  fun_induction decodeLoop len min k c s with
  | case1 c s hc => rw [decodeLoop, if_pos hc]
  | case2 c s hc => rw [decodeLoop, if_neg hc]
  | case3 => exact absurd rfl h
  | case4 k c p ps hp => rw [List.cons_append, decodeLoop, if_pos hp]
  | case5 k c p ps hp ih => rw [List.cons_append, decodeLoop, if_neg hp, ih h]

/-- **A first byte says what is read behind it.** -/
theorem u8decode_cons (c : UInt8) : (∀ p, u8decode (c :: p) = .char c.toUInt32 1) ∨
    (∃ k min b, 1 ≤ k ∧ k ≤ 3 ∧ ∀ p, u8decode (c :: p) = decodeLoop (k + 1) min k b p) ∨
    ∀ p, u8decode (c :: p) = .invalid := by
  by_cases h₁ : c < 0x80
  · exact .inl fun p => if_pos h₁
  by_cases h₂ : 0xc2 ≤ c ∧ c ≤ 0xdf
  · exact .inr (.inl ⟨1, _, _, le_rfl, by decide, fun p => (if_neg h₁).trans (if_pos h₂)⟩)
  by_cases h₃ : c &&& 0xf0 = 0xe0
  · exact .inr (.inl ⟨2, _, _, by decide, by decide, fun p => (if_neg h₁).trans ((if_neg h₂).trans (if_pos h₃))⟩)
  by_cases h₄ : 0xf0 ≤ c ∧ c ≤ 0xf4
  · exact .inr (.inl ⟨3, _, _, by decide, le_rfl,
      fun p => (if_neg h₁).trans ((if_neg h₂).trans ((if_neg h₃).trans (if_pos h₄)))⟩)
  · exact .inr (.inr fun p => (if_neg h₁).trans ((if_neg h₂).trans ((if_neg h₃).trans (if_neg h₄))))

theorem u8decode_char (h : u8decode s = .char cp n) : 1 ≤ n ∧ n ≤ 4 ∧ n ≤ s.length := by
  cases s with
  | nil => cases h
  | cons c p =>
    rcases u8decode_cons c with hc | ⟨k, min, b, hk, hk', hc⟩ | hc
    · rw [hc] at h
      cases h
      exact ⟨le_rfl, by decide, Nat.succ_le_succ (Nat.zero_le _)⟩
    · rw [hc] at h
      obtain ⟨rfl, hlen⟩ := decodeLoop_char h
      exact ⟨Nat.succ_le_succ (Nat.zero_le _), Nat.succ_le_succ hk', Nat.succ_le_succ hlen⟩
    · rw [hc] at h
      cases h

/-- A start that is cut off is shorter than a character can be. -/
theorem u8decode_short (h : u8decode s = .short) : s ≠ [] ∧ s.length < 4 := by
  cases s with
  | nil => cases h
  | cons c p =>
    refine ⟨List.cons_ne_nil c p, ?_⟩
    rcases u8decode_cons c with hc | ⟨k, min, b, hk, hk', hc⟩ | hc
    · rw [hc] at h
      cases h
    · rw [hc] at h
      have := decodeLoop_short h
      rw [List.length_cons]
      omega
    · rw [hc] at h
      cases h

/-- **Nothing behind a character matters.** -/
theorem u8decode_append (h : u8decode s ≠ .short) (hs : s ≠ []) (t : Bytes) :
    u8decode (s ++ t) = u8decode s := by
  obtain ⟨c, p, rfl⟩ := List.exists_cons_of_ne_nil hs
  rw [List.cons_append]
  rcases u8decode_cons c with hc | ⟨k, min, b, hk, hk', hc⟩ | hc
  · rw [hc, hc]
  · rw [hc] at h
    rw [hc, hc, decodeLoop_append h]
  · rw [hc, hc]

theorem textCharlen_pos (utf8 : Bool) (hs : s ≠ []) : 1 ≤ textCharlen utf8 s := by
  unfold textCharlen u8charlen
  split_ifs
  · split
    · exact (u8decode_char ‹_›).1
    · exact le_rfl
  · exact le_rfl

theorem textCharlen_le (utf8 : Bool) : textCharlen utf8 s ≤ s.length := by
  rcases eq_or_ne s [] with rfl | hs
  · cases utf8 <;> decide
  have := List.length_pos_iff.2 hs
  unfold textCharlen u8charlen
  split_ifs
  · split
    · exact (u8decode_char ‹_›).2.2
    · exact this
  · exact this

/-! ## Characters -/

@[simp] theorem chars_nil (utf8 : Bool) : chars utf8 [] = [] := by
  rw [chars, if_pos rfl]

theorem chars_of_ne_nil (utf8 : Bool) (hs : s ≠ []) :
    chars utf8 s = s.take (textCharlen utf8 s) :: chars utf8 (s.drop (textCharlen utf8 s)) := by
  rw [chars, if_neg hs, Nat.max_eq_right (textCharlen_pos utf8 hs)]

/-- **The characters make up the text.** -/
theorem flatten_chars (utf8 : Bool) (s : Bytes) : (chars utf8 s).flatten = s := by
  fun_induction chars utf8 s with
  | case1 => rfl
  | case2 s hs ih => rw [List.flatten_cons, ih, List.take_append_drop]

/-- Without UTF-8 every byte is a character. -/
theorem chars_false (s : Bytes) : chars false s = s.map ([·]) := by
  induction s with
  | nil => exact chars_nil false
  | cons c s ih =>
    rw [chars_of_ne_nil false (List.cons_ne_nil c s)]
    change [c] :: chars false s = _
    rw [ih]
    rfl

/-- **`text_charskip` steps over characters.** -/
theorem textCharskip_eq (utf8 : Bool) (s : Bytes) (k : ℕ) :
    textCharskip utf8 s k = ((chars utf8 s).take k).flatten.length ∧
      chars utf8 (s.drop (textCharskip utf8 s k)) = (chars utf8 s).drop k := by
  cases utf8 with
  | true =>
    change u8skip s k = _ ∧ chars true (s.drop (u8skip s k)) = _
    fun_induction u8skip s k with
    | case1 => simp
    | case2 => simp
    | case3 s k hs ih =>
      have hl : textCharlen true s = u8charlen s := rfl
      have hle : textCharlen true s ≤ s.length := textCharlen_le true
      rw [chars_of_ne_nil true hs, List.take_succ_cons, List.flatten_cons, List.length_append, List.drop_succ_cons,
        hl, ← ih.1, ← ih.2, List.drop_drop, List.length_take]
      exact ⟨by omega, rfl⟩
  | false =>
    rw [chars_false, chars_false, ← List.map_take, ← List.map_drop, ← List.flatMap_def]
    change (if k < s.length then k else s.length) = _ ∧ (s.drop (if k < s.length then k else s.length)).map _ = _
    split_ifs with hk
    · exact ⟨by simp; omega, rfl⟩
    · rw [List.drop_length, List.drop_eq_nil_of_le (Nat.le_of_not_lt hk)]
      exact ⟨by simp; omega, rfl⟩

/-- What is stepped over are the characters. -/
theorem take_textCharskip (utf8 : Bool) (s : Bytes) (k : ℕ) :
    s.take (textCharskip utf8 s k) = ((chars utf8 s).take k).flatten := by
  have hs : ((chars utf8 s).take k).flatten ++ ((chars utf8 s).drop k).flatten = s := by
    rw [← List.flatten_append, List.take_append_drop, flatten_chars]
  rw [(textCharskip_eq utf8 s k).1]
  conv_lhs => arg 2; rw [← hs]
  exact List.take_left

end Shish.Utf8
