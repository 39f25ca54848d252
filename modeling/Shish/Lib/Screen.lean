import Mathlib.Data.List.Basic
import Mathlib.Logic.Function.Basic
import Shish.Lib.Bytes

/-!
# Lib/Screen — one row of a terminal

What a terminal makes of the bytes it is sent, as far as an editor of one line needs it: a character is put
where the cursor stands, a backspace goes one column back, and `ESC [ n` with one of `C D G K` moves the cursor
or blanks the row.  The row has no right end.

`Shows s x k` says that a row reads `x`, with blanks behind it, and that the cursor is in column `k`.  Each kind
of output has one lemma about it (`Shows.put`, `Shows.back`, `Shows.left`, `Shows.right`, `Shows.erase`).
-/

namespace Shish

/-- `' '`. -/
def blankByte : UInt8 := ' '.toUInt8

/-- What introduces a control sequence. -/
def introByte : UInt8 := 27

/-- A character of ASCII that takes one column. -/
def isPrint (c : UInt8) : Bool := 32 ≤ c && c < 127

/-- How far a terminal is in a control sequence. -/
inductive Sequence
  | ground
  | escape
  /-- `ESC [` and a number; without digits it is 0. -/
  | csi (n : ℕ)
deriving DecidableEq

/-- A row, the column of the cursor, and what was read of a control sequence. -/
structure Screen where
  row : ℕ → UInt8
  col : ℕ
  seq : Sequence := .ground

namespace Screen

/-- The end of a control sequence. -/
def control (s : Screen) (n : ℕ) (c : UInt8) : Screen :=
  if c = 'C'.toUInt8 then { s with col := s.col + max 1 n }
  else if c = 'D'.toUInt8 then { s with col := s.col - max 1 n }
  else if c = 'G'.toUInt8 then { s with col := n - 1 }
  else if c = 'K'.toUInt8 then
    if n = 0 then { s with row := fun i => if i < s.col then s.row i else blankByte }
    else if n = 1 then { s with row := fun i => if i ≤ s.col then blankByte else s.row i }
    else { s with row := fun _ => blankByte }
  else s

/-- What a byte does to the row; a newline goes to the front of a blank one. -/
def byte (s : Screen) (c : UInt8) : Screen :=
  match s.seq with
  | .ground =>
      if c = introByte then { s with seq := .escape }
      else if c = 8 then { s with col := s.col - 1 }
      else if c = '\r'.toUInt8 then { s with col := 0 }
      else if c = newline then { s with row := fun _ => blankByte, col := 0 }
      else if isPrint c then { s with row := Function.update s.row s.col c, col := s.col + 1 }
      else s
  | .escape => { s with seq := if c = '['.toUInt8 then .csi 0 else .ground }
  | .csi n =>
      if isDigit c then { s with seq := .csi (n * 10 + (digit c).toNat) }
      else { s.control n c with seq := .ground }

/-- What some bytes do. -/
def feed (s : Screen) (bs : Bytes) : Screen := bs.foldl byte s

@[simp] theorem feed_nil (s : Screen) : s.feed [] = s := rfl

@[simp] theorem feed_cons (s : Screen) (c : UInt8) (bs : Bytes) : s.feed (c :: bs) = (s.byte c).feed bs := rfl

theorem feed_append (s : Screen) (as bs : Bytes) : s.feed (as ++ bs) = (s.feed as).feed bs := List.foldl_append ..

end Screen

/-- The row that reads `x`. -/
def rowOf (x : Bytes) : ℕ → UInt8 := fun i => x.getD i blankByte

/-- **The row reads `x` and the cursor is in column `k`.** -/
structure Shows (s : Screen) (x : Bytes) (k : ℕ) : Prop where
  row : s.row = rowOf x
  col : s.col = k
  ground : s.seq = .ground

variable {s : Screen} {x w : Bytes} {k n : ℕ} {c : UInt8}

/-- Blanks at the end are not seen. -/
theorem rowOf_blanks (x : Bytes) (n : ℕ) : rowOf (x ++ List.replicate n blankByte) = rowOf x := by
  funext i
  rw [rowOf, rowOf, List.getD_eq_getElem?_getD, List.getD_eq_getElem?_getD]
  rcases Nat.lt_or_ge i x.length with hi | hi
  · rw [List.getElem?_append_left hi]
  · rw [List.getElem?_append_right hi, List.getElem?_eq_none hi, List.getElem?_replicate]
    split <;> rfl

/-- A character replaces the one in its column. -/
theorem update_rowOf (hk : k ≤ x.length) (c : UInt8) :
    Function.update (rowOf x) k c = rowOf (x.take k ++ c :: x.drop (k + 1)) := by
  have hlen : (x.take k).length = k := List.length_take_of_le hk
  funext i
  rw [rowOf, List.getD_eq_getElem?_getD]
  rcases Nat.lt_trichotomy i k with hi | rfl | hi
  · rw [Function.update_of_ne (Nat.ne_of_lt hi), List.getElem?_append_left (by omega),
      List.getElem?_take_of_lt hi, rowOf, List.getD_eq_getElem?_getD]
  · rw [Function.update_self, List.getElem?_append_right (by omega), hlen, Nat.sub_self]
    rfl
  · obtain ⟨j, rfl⟩ : ∃ j, i = k + 1 + j := ⟨i - (k + 1), by omega⟩
    rw [Function.update_of_ne (Nat.ne_of_gt hi), List.getElem?_append_right (by omega), hlen,
      show k + 1 + j - k = j + 1 by omega, List.getElem?_cons_succ, List.getElem?_drop, rowOf,
      List.getD_eq_getElem?_getD]

theorem byte_of_isPrint (hg : s.seq = .ground) (hc : isPrint c = true) :
    s.byte c = { s with row := Function.update s.row s.col c, col := s.col + 1 } := by
  have hne : ∀ d : UInt8, isPrint d = false → c ≠ d := fun d hd h => by
    rw [h, hd] at hc
    exact Bool.false_ne_true hc
  rw [Screen.byte, hg]
  dsimp only
  rw [if_neg (hne _ rfl), if_neg (hne _ rfl), if_neg (hne _ rfl), if_neg (hne _ rfl), if_pos hc]

namespace Shows

theorem blanks (h : Shows s x k) (n : ℕ) : Shows s (x ++ List.replicate n blankByte) k :=
  ⟨h.row.trans (rowOf_blanks x n).symm, h.col, h.ground⟩

theorem of_blanks (h : Shows s (x ++ List.replicate n blankByte) k) : Shows s x k :=
  ⟨h.row.trans (rowOf_blanks x n), h.col, h.ground⟩

/-- **Characters are put over what stands there.** -/
theorem put (h : Shows s x k) (hk : k ≤ x.length) (hw : ∀ c ∈ w, isPrint c = true) :
    Shows (s.feed w) (x.take k ++ (w ++ x.drop (k + w.length))) (k + w.length) := by
  induction w generalizing s x k with
  | nil => simpa using h
  | cons c w ih =>
    have hput : Shows (s.byte c) (x.take k ++ c :: x.drop (k + 1)) (k + 1) := by
      rw [byte_of_isPrint h.ground (hw c (.head _))]
      refine ⟨?_, congrArg (· + 1) h.col, h.ground⟩
      rw [h.row, h.col]
      exact update_rowOf hk c
    have hlen : (x.take k).length = k := List.length_take_of_le hk
    have hrest := ih hput (by simp [hlen]) fun d hd => hw d (.tail _ hd)
    have htake : (x.take k ++ c :: x.drop (k + 1)).take (k + 1) = x.take k ++ [c] := by
      rw [List.take_append, hlen, List.take_of_length_le (by omega), show k + 1 - k = 1 by omega]
      rfl
    have hdrop : (x.take k ++ c :: x.drop (k + 1)).drop (k + 1 + w.length) = x.drop (k + (w.length + 1)) := by
      rw [List.drop_append, hlen, List.drop_eq_nil_of_le (by omega), List.nil_append,
        show k + 1 + w.length - k = w.length + 1 by omega, List.drop_succ_cons, List.drop_drop]
      congr 1
      omega
    rw [htake, hdrop, List.append_assoc] at hrest
    rw [Screen.feed_cons, List.length_cons, show k + (w.length + 1) = k + 1 + w.length by omega]
    simpa [Nat.add_comm, Nat.add_left_comm] using hrest

/-- Characters are put over what stands behind `p`. -/
theorem putBehind {p : Bytes} (h : Shows s (p ++ x) (p.length + k)) (hk : k ≤ x.length)
    (hw : ∀ c ∈ w, isPrint c = true) :
    Shows (s.feed w) (p ++ (x.take k ++ (w ++ x.drop (k + w.length)))) (p.length + (k + w.length)) := by
  have hput := h.put (w := w) (by rw [List.length_append]; omega) hw
  rw [List.take_length_add_append, Nat.add_assoc, List.drop_length_add_append, List.append_assoc] at hput
  exact hput

theorem bs (h : Shows s x k) : Shows (s.byte 8) x (k - 1) := by
  have hb : s.byte 8 = { s with col := s.col - 1 } := by
    rw [Screen.byte, h.ground]
    rfl
  rw [hb]
  exact ⟨h.row, congrArg (· - 1) h.col, h.ground⟩

/-- A newline leaves a blank row. -/
theorem ended (h : Shows s x k) : Shows (s.byte newline) [] 0 := by
  have hb : s.byte newline = { s with row := fun _ => blankByte, col := 0 } := by
    rw [Screen.byte, h.ground]
    rfl
  rw [hb]
  exact ⟨rfl, rfl, h.ground⟩

/-- **Backspaces go back.** -/
theorem back (h : Shows s x k) (n : ℕ) : Shows (s.feed (List.replicate n 8)) x (k - n) := by
  induction n generalizing s k with
  | zero => exact h
  | succ n ih =>
    rw [List.replicate_succ, Screen.feed_cons, Nat.add_comm, ← Nat.sub_sub]
    exact ih h.bs

/-- Digits of a control sequence make up its number. -/
theorem feed_digits {ds : Bytes} (hd : ∀ c ∈ ds, isDigit c = true) (hs : s.seq = .csi n) :
    s.feed ds = { s with seq := .csi (ds.foldl (fun n c => n * 10 + (digit c).toNat) n) } := by
  induction ds generalizing s n with
  | nil => rw [Screen.feed_nil, List.foldl_nil, ← hs]
  | cons c ds ih =>
    have hc : s.byte c = { s with seq := .csi (n * 10 + (digit c).toNat) } := by
      rw [Screen.byte, hs]
      exact if_pos (hd c (.head _))
    rw [Screen.feed_cons, hc, ih (fun d h => hd d (.tail _ h)) rfl]
    rfl

/-- A control sequence does what its last byte says. -/
theorem feed_csi {ds : Bytes} (hg : s.seq = .ground) (hd : ∀ c ∈ ds, isDigit c = true) (hc : isDigit c = false) :
    s.feed (introByte :: '['.toUInt8 :: (ds ++ [c])) =
      { s.control (ds.foldl (fun n c => n * 10 + (digit c).toNat) 0) c with seq := .ground } := by
  have h₁ : s.byte introByte = { s with seq := .escape } := by
    rw [Screen.byte, hg]
    rfl
  have h₂ : ({ s with seq := .escape } : Screen).byte '['.toUInt8 = { s with seq := .csi 0 } := rfl
  rw [Screen.feed_cons, h₁, Screen.feed_cons, h₂, Screen.feed_append, feed_digits hd rfl]
  rw [Screen.feed_cons, Screen.feed_nil, Screen.byte]
  dsimp only
  rw [if_neg (by rw [hc]; exact Bool.false_ne_true)]
  unfold Screen.control
  split_ifs <;> rfl

section

variable {ds : Bytes} (hd : ∀ c ∈ ds, isDigit c = true)
  (hn : ds.foldl (fun n c => n * 10 + (digit c).toNat) 0 = n)

include hd hn

/-- **`ESC [ n D` goes back.** -/
theorem left (h : Shows s x k) (hpos : 0 < n) :
    Shows (s.feed (introByte :: '['.toUInt8 :: (ds ++ ['D'.toUInt8]))) x (k - n) := by
  have hD : s.control n 'D'.toUInt8 = { s with col := s.col - max 1 n } := by
    rw [Screen.control, if_neg (by decide), if_pos rfl]
  rw [feed_csi h.ground hd rfl, hn, hD, Nat.max_eq_right hpos]
  exact ⟨h.row, congrArg (· - n) h.col, rfl⟩

/-- **`ESC [ n C` goes on.** -/
theorem right (h : Shows s x k) (hpos : 0 < n) :
    Shows (s.feed (introByte :: '['.toUInt8 :: (ds ++ ['C'.toUInt8]))) x (k + n) := by
  have hC : s.control n 'C'.toUInt8 = { s with col := s.col + max 1 n } := by
    rw [Screen.control, if_pos rfl]
  rw [feed_csi h.ground hd rfl, hn, hC, Nat.max_eq_right hpos]
  exact ⟨h.row, congrArg (· + n) h.col, rfl⟩

/-- `ESC [ 2 K` blanks the row. -/
theorem blankRow (h : Shows s x k) (h2 : 2 ≤ n) :
    Shows (s.feed (introByte :: '['.toUInt8 :: (ds ++ ['K'.toUInt8]))) [] k := by
  rw [feed_csi h.ground hd rfl, hn]
  have hK : s.control n 'K'.toUInt8 = { s with row := fun _ => blankByte } := by
    rw [Screen.control, if_neg (by decide), if_neg (by decide), if_neg (by decide), if_pos rfl,
      if_neg (by omega), if_neg (by omega)]
  rw [hK]
  exact ⟨rfl, h.col, rfl⟩

/-- `ESC [ 0 G` goes to the first column. -/
theorem home (h : Shows s x k) (h0 : n = 0) :
    Shows (s.feed (introByte :: '['.toUInt8 :: (ds ++ ['G'.toUInt8]))) x 0 := by
  rw [feed_csi h.ground hd rfl, hn, h0]
  exact ⟨h.row, rfl, rfl⟩

end

end Shows

end Shish
