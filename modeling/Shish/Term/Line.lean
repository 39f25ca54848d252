import Mathlib.Algebra.Order.Ring.Nat
import Shish.Lib.Screen

/-!
# Term/Line — the line that is edited

The line editor keeps `term_cmdline` and `term_pos` and writes to the terminal what is to be seen of a change:
it never asks what stands there, and counts on the prompt and the line being there and on the cursor being where
`term_pos` says.  `Synced` is that.  It is kept by every change of the line that the editor knows, one lemma each.
-/

namespace Shish

/-! ## The state -/

/-- A key: its byte, and whether it comes later than 50ms after the one before was taken. -/
structure Key where
  byte : UInt8
  late : Bool := false
deriving DecidableEq

/-- What does not change while a line is edited: `term_dumb`, the prompt, and the commands that were entered
before, the newest first. -/
structure Terminal where
  dumb : Bool := false
  prompt : Bytes
  history : List Bytes := []

/-- The variables of the editor; `cursor` is `history_cursor` and `pending` is `history_pending`. -/
structure Term where
  cmdline : Bytes := []
  pos : ℕ := 0
  insert : Bool := true
  viCmd : Bool := false
  yank : Bytes := []
  fkey : UInt8 := 0
  fchar : UInt8 := 0
  cursor : ℕ := 0
  pending : Bytes := []
  input : List Key
  out : Bytes

/-- `fmt_ulong`. -/
def ulongText (n : ℕ) : Bytes := (Nat.toDigits 10 n).map Char.toUInt8

/-- `term_escape`. -/
def termEscape (n : ℕ) (type : Char) : Bytes := introByte :: '['.toUInt8 :: (ulongText n ++ [type.toUInt8])

variable (e : Terminal) (t : Term)

/-- `buffer_put` on `term_output`. -/
def Term.put (bs : Bytes) : Term := { t with out := t.out ++ bs }

/-! ## The changes -/

/-- `term_left`. -/
def termLeft (n : ℕ) : Term :=
  let n := min n t.pos
  { t.put (if 4 < n ∧ e.dumb = false then termEscape n 'D' else List.replicate n 8) with pos := t.pos - n }

/-- `term_right`. -/
def termRight (n : ℕ) : Term :=
  let n := min n (t.cmdline.length - t.pos)
  { t.put ((t.cmdline.drop t.pos).take n) with pos := t.pos + n }

/-- `term_home`. -/
def termHome : Term := termLeft e t t.pos

/-- `term_end`. -/
def termEnd : Term :=
  let n := t.cmdline.length - t.pos
  if n = 0 then t
  else
    { t.put (if 4 < n ∧ e.dumb = false then termEscape n 'C' else t.cmdline.drop t.pos) with
      pos := t.cmdline.length }

/-- `term_insertc`. -/
def termInsertc (c : UInt8) : Term :=
  let t' := t.put [c]
  if t.pos = t.cmdline.length then { t' with cmdline := t.cmdline ++ [c], pos := t.pos + 1 }
  else
    let len := t.cmdline.length - t.pos
    let cmdline := t.cmdline.take t.pos ++ c :: t.cmdline.drop t.pos
    let t' := t'.put (t.cmdline.drop t.pos)
    let t' := termLeft e { t' with cmdline, pos := cmdline.length - 1 } len
    { t' with pos := t'.pos + 1 }

/-- `term_overwritec`. -/
def termOverwritec (c : UInt8) : Term :=
  let cmdline := if t.pos = t.cmdline.length then t.cmdline ++ [c] else t.cmdline.set t.pos c
  { t.put [c] with cmdline, pos := t.pos + 1 }

/-- `term_backspace`. -/
def termBackspace : Term :=
  if t.pos = 0 then t
  else
    let t' :=
      if t.pos = t.cmdline.length then t.put [8, blankByte, 8]
      else
        let len := t.cmdline.length - t.pos
        termLeft e { t.put ([8] ++ t.cmdline.drop t.pos ++ [blankByte]) with pos := t.pos + (len + 1) } (len + 1)
    { t' with cmdline := t.cmdline.eraseIdx (t'.pos - 1), pos := t'.pos - 1 }

/-- `term_delete`. -/
def termDelete : Term :=
  if t.pos = t.cmdline.length then t
  else
    let len := t.cmdline.length - t.pos
    let t' := termLeft e { t.put (t.cmdline.drop (t.pos + 1) ++ [blankByte]) with pos := t.pos + len } len
    { t' with cmdline := t.cmdline.eraseIdx t'.pos }

/-- `term_setline`. -/
def termSetline (s : Bytes) : Term :=
  let oldlen := t.cmdline.length
  let t' := (termLeft e t t.pos).put s
  let t' :=
    if s.length < oldlen then
      termLeft e { t'.put (List.replicate (oldlen - s.length) blankByte) with pos := oldlen } (oldlen - s.length)
    else t'
  { t' with cmdline := s, pos := s.length }

/-- `term_erase`. -/
def termErase : Term := t.put (termEscape 2 'K' ++ termEscape 0 'G')

/-- `term_complete_redraw`. -/
def termCompleteRedraw : Term :=
  let tail := t.cmdline.length - t.pos
  termLeft e { (t.put e.prompt).put t.cmdline with pos := t.cmdline.length } tail

/-! ## What is seen -/

/-- The bytes are characters of ASCII. -/
def Printed (x : Bytes) : Prop := ∀ c ∈ x, isPrint c = true

instance (x : Bytes) : Decidable (Printed x) := List.decidableBAll (fun c => isPrint c = true) x

/-- The keys that are no characters: `^A`, `^C`, `^D`, `^E`, backspace, enter, `^R`, escape and delete.  Every
other control key would be put into the line as it is, but for a tab. -/
def editKeys : Bytes := [1, 3, 4, 5, 8, 10, 18, 27, 127]

/-- **Only characters are put into the line**: a key is one or is known to the editor, and no delete comes where
`r` of the command mode takes a character. -/
structure Typable (ks : List Key) : Prop where
  known : ∀ k ∈ ks, isPrint k.byte = true ∨ k.byte ∈ editKeys
  replaced : ¬['r'.toUInt8, 127] <:+: ks.map Key.byte

/-- **The terminal shows the prompt and the line, and the cursor is at `term_pos`.**  All texts the editor might
put there are characters. -/
structure Synced (s : Screen) : Prop where
  shows : Shows (s.feed t.out) (e.prompt ++ t.cmdline) (e.prompt.length + t.pos)
  pos_le : t.pos ≤ t.cmdline.length
  cmdline : Printed t.cmdline
  yank : Printed t.yank
  pending : Printed t.pending
  keys : Typable t.input

variable {e t} {s : Screen} {x w : Bytes} {k n p : ℕ} {c : UInt8}

theorem Typable.suffix {ks ks' : List Key} (h : Typable ks) (hs : ks' <:+ ks) : Typable ks' where
  known k hk := h.known k (hs.mem hk)
  replaced hr := h.replaced (hr.trans (hs.map Key.byte).isInfix)

theorem isDigit_ulongText (h : c ∈ ulongText n) : isDigit c = true := by
  obtain ⟨d, hd, rfl⟩ := List.mem_map.1 h
  have hdig := Nat.isDigit_of_mem_toDigits (by decide) (by decide) hd
  simp only [Char.isDigit, Bool.and_eq_true, decide_eq_true_eq, UInt32.le_iff_toNat_le] at hdig
  simp only [isDigit, Bool.and_eq_true, decide_eq_true_eq, UInt8.le_iff_toNat_le, Char.toUInt8,
    UInt32.toNat_toUInt8]
  have h48 : '0'.val.toNat = 48 := rfl
  have h57 : '9'.val.toNat = 57 := rfl
  omega

/-- The text of a number reads as the number. -/
theorem foldl_ulongText (n : ℕ) : (ulongText n).foldl (fun n c => n * 10 + (digit c).toNat) 0 = n := by
  have hfold : ∀ (l : List Char) (i : ℕ), (∀ d ∈ l, d.isDigit = true) →
      (l.map Char.toUInt8).foldl (fun n c => n * 10 + (digit c).toNat) i = Nat.ofDigitChars 10 l i := by
    intro l
    induction l with
    | nil => exact fun _ _ => rfl
    | cons d l ih =>
      intro i hl
      have hd := hl d (.head _)
      simp only [Char.isDigit, Bool.and_eq_true, decide_eq_true_eq, UInt32.le_iff_toNat_le] at hd
      have h48 : '0'.val.toNat = 48 := rfl
      have h57 : '9'.val.toNat = 57 := rfl
      have hval : (digit d.toUInt8).toNat = d.toNat - '0'.toNat := by
        rw [digit, UInt8.toNat_sub_of_le]
        · simp only [Char.toUInt8, UInt32.toNat_toUInt8, Char.toNat]
          omega
        · simp only [UInt8.le_iff_toNat_le, Char.toUInt8, UInt32.toNat_toUInt8]
          omega
      rw [List.map_cons, List.foldl_cons, ih _ fun c hc => hl c (.tail _ hc), Nat.ofDigitChars_cons, hval,
        Nat.mul_comm]
  rw [ulongText, hfold _ _ fun d hd => Nat.isDigit_of_mem_toDigits (by decide) (by decide) hd,
    Nat.ofDigitChars_ten_toDigits]

/-! ## Moving -/

@[simp] theorem termLeft_pos : (termLeft e t n).pos = t.pos - min n t.pos := rfl

@[simp] theorem termLeft_cmdline : (termLeft e t n).cmdline = t.cmdline := rfl

/-- **Going left moves the cursor by what `term_pos` lets it.** -/
theorem termLeft_shows (h : Shows (s.feed t.out) x k) :
    Shows (s.feed (termLeft e t n).out) x (k - min n t.pos) := by
  rw [termLeft, Term.put]
  dsimp only
  rw [Screen.feed_append]
  split
  case isTrue hn => exact Shows.left (fun _ => isDigit_ulongText) (foldl_ulongText _) h (by omega)
  case isFalse => exact h.back _

theorem Synced.left (h : Synced e t s) (n : ℕ) : Synced e (termLeft e t n) s where
  shows := by
    have hs := termLeft_shows (e := e) (n := n) h.shows
    rwa [Nat.add_sub_assoc (Nat.min_le_right _ _)] at hs
  pos_le := (Nat.sub_le _ _).trans h.pos_le
  cmdline := h.cmdline
  yank := h.yank
  pending := h.pending
  keys := h.keys

/-- Putting what stands there only moves the cursor. -/
theorem Shows.over {x' : Bytes} (h : Shows s (x' ++ x) (x'.length + k)) (hk : k ≤ x.length) (hx : Printed x)
    (hn : k + n ≤ x.length) : Shows (s.feed ((x.drop k).take n)) (x' ++ x) (x'.length + (k + n)) := by
  have hlen : ((x.drop k).take n).length = n := by
    rw [List.length_take, List.length_drop]
    omega
  have hput := h.putBehind (w := (x.drop k).take n) hk fun c hc => hx c (List.mem_of_mem_drop (List.mem_of_mem_take hc))
  rw [hlen, ← List.drop_drop, List.take_append_drop, List.take_append_drop] at hput
  exact hput

theorem Synced.right (h : Synced e t s) (n : ℕ) : Synced e (termRight t n) s where
  shows := by
    rw [termRight, Term.put]
    dsimp only
    rw [Screen.feed_append]
    have hpos := h.pos_le
    exact h.shows.over hpos h.cmdline (by omega)
  pos_le := by
    have hpos := h.pos_le
    rw [termRight, Term.put]
    dsimp only
    omega
  cmdline := h.cmdline
  yank := h.yank
  pending := h.pending
  keys := h.keys

theorem Synced.home (h : Synced e t s) : Synced e (termHome e t) s := h.left _

theorem Synced.toEnd (h : Synced e t s) : Synced e (termEnd e t) s := by
  have hpos := h.pos_le
  rw [termEnd]
  dsimp only
  split
  case isTrue => exact h
  case isFalse hn =>
    refine ⟨?_, le_refl _, h.cmdline, h.yank, h.pending, h.keys⟩
    rw [Term.put]
    dsimp only
    rw [Screen.feed_append]
    split
    case isTrue hlong =>
      have hright := Shows.right (fun _ => isDigit_ulongText) (foldl_ulongText _) h.shows (Nat.pos_of_ne_zero hn)
      rwa [Nat.add_assoc, Nat.add_sub_cancel' hpos] at hright
    case isFalse =>
      have hover := h.shows.over (n := t.cmdline.length - t.pos) hpos h.cmdline (by omega)
      rwa [List.take_of_length_le (by rw [List.length_drop]), Nat.add_sub_cancel' hpos] at hover

/-! ## Changing -/

theorem Printed.append {y : Bytes} (hx : Printed x) (hy : Printed y) : Printed (x ++ y) := fun c hc =>
  (List.mem_append.1 hc).elim (hx c) (hy c)

theorem Printed.take (hx : Printed x) (n : ℕ) : Printed (x.take n) := fun c hc => hx c (List.mem_of_mem_take hc)

theorem Printed.drop (hx : Printed x) (n : ℕ) : Printed (x.drop n) := fun c hc => hx c (List.mem_of_mem_drop hc)

theorem printed_blanks (n : ℕ) : Printed (List.replicate n blankByte) := fun c hc => by
  obtain rfl := List.eq_of_mem_replicate hc
  decide

theorem Synced.insertc (h : Synced e t s) (hc : isPrint c = true) : Synced e (termInsertc e t c) s := by
  have hpos := h.pos_le
  have hline : Printed (t.cmdline.take t.pos ++ c :: t.cmdline.drop t.pos) :=
    (h.cmdline.take _).append (List.forall_mem_cons.2 ⟨hc, h.cmdline.drop _⟩)
  have hw : Printed ([c] ++ t.cmdline.drop t.pos) := List.forall_mem_cons.2 ⟨hc, h.cmdline.drop _⟩
  have hput := h.shows.putBehind hpos hw
  have hrest : t.cmdline.drop (t.pos + (1 + (t.cmdline.length - t.pos))) = [] := List.drop_eq_nil_of_le (by omega)
  rw [List.length_append, List.length_singleton, List.length_drop, hrest, List.append_nil,
    Screen.feed_append] at hput
  rw [termInsertc]
  dsimp only
  split
  case isTrue hend =>
    rw [hend, List.drop_length, List.append_nil, List.take_length, Nat.sub_self] at hput
    rw [hend, List.take_length, List.drop_length] at hline
    refine ⟨?_, ?_, hline, h.yank, h.pending, h.keys⟩
    · simp only [Term.put, Screen.feed_append, hend]
      exact hput
    · rw [List.length_append, List.length_singleton, hend]
  case isFalse hne =>
    have hlen : (t.cmdline.take t.pos ++ c :: t.cmdline.drop t.pos).length = t.cmdline.length + 1 := by
      rw [List.length_append, List.length_cons, List.length_take_of_le hpos, List.length_drop]
      omega
    refine ⟨?_, ?_, hline, h.yank, h.pending, h.keys⟩
    · have hleft := termLeft_shows (e := e) (n := t.cmdline.length - t.pos)
        (t := { (t.put [c]).put (t.cmdline.drop t.pos) with
          cmdline := t.cmdline.take t.pos ++ c :: t.cmdline.drop t.pos,
          pos := (t.cmdline.take t.pos ++ c :: t.cmdline.drop t.pos).length - 1 })
        (by simpa only [Term.put, Screen.feed_append] using hput)
      simp only [termLeft_pos, termLeft_cmdline, hlen, List.singleton_append] at hleft ⊢
      convert hleft using 1
      omega
    · simp only [termLeft_pos, termLeft_cmdline, hlen]
      omega

theorem Synced.overwritec (h : Synced e t s) (hc : isPrint c = true) : Synced e (termOverwritec t c) s := by
  have hpos := h.pos_le
  have hw : Printed [c] := List.forall_mem_singleton.2 hc
  have hput := h.shows.putBehind hpos hw
  have hline : (if t.pos = t.cmdline.length then t.cmdline ++ [c] else t.cmdline.set t.pos c) =
      t.cmdline.take t.pos ++ ([c] ++ t.cmdline.drop (t.pos + [c].length)) := by
    split
    case isTrue hend =>
      rw [hend, List.take_length, List.drop_eq_nil_of_le (by simp), List.append_nil]
    case isFalse => exact List.set_eq_take_append_cons_drop.trans (if_pos (by omega))
  rw [termOverwritec, hline]
  refine ⟨?_, ?_, (h.cmdline.take _).append (hw.append (h.cmdline.drop _)), h.yank, h.pending, h.keys⟩
  · simp only [Term.put, Screen.feed_append]
    exact hput
  · simp only [List.length_append, List.length_take_of_le hpos, List.length_singleton, List.length_drop]
    omega

/-- Taking a character out: what is behind it is put one column before, and a blank at the end. -/
theorem Shows.close {x' : Bytes} (h : Shows s (x' ++ x) (x'.length + k)) (hk : k < x.length) (hx : Printed x) :
    Shows (s.feed (x.drop (k + 1) ++ [blankByte])) (x' ++ x.eraseIdx k) (x'.length + x.length) := by
  have hw : Printed (x.drop (k + 1) ++ [blankByte]) := (hx.drop _).append (printed_blanks 1)
  have hput := h.putBehind hk.le hw
  have hrest : x.drop (k + (x.length - (k + 1) + 1)) = [] := List.drop_eq_nil_of_le (by omega)
  rw [List.length_append, List.length_drop, List.length_singleton, hrest, List.append_nil,
    ← List.append_assoc (x.take k), ← List.eraseIdx_eq_take_drop_succ, ← List.append_assoc] at hput
  convert hput.of_blanks (n := 1) using 1
  omega

theorem Printed.eraseIdx (hx : Printed x) (k : ℕ) : Printed (x.eraseIdx k) := fun c hc =>
  hx c (List.mem_of_mem_eraseIdx hc)

theorem Synced.backspace (h : Synced e t s) : Synced e (termBackspace e t) s := by
  have hpos := h.pos_le
  rw [termBackspace]
  split
  case isTrue => exact h
  case isFalse h0 =>
    have hk : t.pos - 1 < t.cmdline.length := by omega
    have hbs := h.shows.bs
    rw [Nat.add_sub_assoc (Nat.one_le_iff_ne_zero.2 h0)] at hbs
    have hclose := hbs.close hk h.cmdline
    rw [Nat.sub_add_cancel (Nat.one_le_iff_ne_zero.2 h0)] at hclose
    dsimp only
    split
    case isTrue hend =>
      refine ⟨?_, ?_, h.cmdline.eraseIdx _, h.yank, h.pending, h.keys⟩
      · rw [hend, List.drop_length, List.nil_append] at hclose
        have hback := hclose.bs
        rw [Nat.add_sub_assoc (by omega)] at hback
        simp only [Term.put, Screen.feed_append, hend]
        exact hback
      · simp only [Term.put, List.length_eraseIdx, if_pos hk]
        omega
    case isFalse hne =>
      refine ⟨?_, ?_, h.cmdline.eraseIdx _, h.yank, h.pending, h.keys⟩
      · have hleft := termLeft_shows (e := e) (n := t.cmdline.length - t.pos + 1)
          (t := { t.put ([8] ++ t.cmdline.drop t.pos ++ [blankByte]) with
            pos := t.pos + (t.cmdline.length - t.pos + 1) })
          (by
            simp only [Term.put, Screen.feed_append, Screen.feed_cons, Screen.feed_nil] at hclose ⊢
            exact hclose)
        simp only [termLeft_pos] at hleft ⊢
        convert hleft using 2
        · congr 1
          omega
        · omega
      · simp only [termLeft_pos, List.length_eraseIdx]
        split <;> omega

theorem Synced.delete (h : Synced e t s) : Synced e (termDelete e t) s := by
  have hpos := h.pos_le
  rw [termDelete]
  split
  case isTrue => exact h
  case isFalse hne =>
    have hk : t.pos < t.cmdline.length := by omega
    have hclose := h.shows.close hk h.cmdline
    have hleft := termLeft_shows (e := e) (n := t.cmdline.length - t.pos)
      (t := { t.put (t.cmdline.drop (t.pos + 1) ++ [blankByte]) with
        pos := t.pos + (t.cmdline.length - t.pos) })
      (by simpa only [Term.put, Screen.feed_append] using hclose)
    refine ⟨?_, ?_, h.cmdline.eraseIdx _, h.yank, h.pending, h.keys⟩
    · simp only [termLeft_pos] at hleft ⊢
      convert hleft using 2
      · congr 1
        omega
      · omega
    · simp only [termLeft_pos, List.length_eraseIdx]
      split <;> omega

/-- **A line that is put in place of another leaves nothing of it behind.** -/
theorem Synced.setline (h : Synced e t s) (hw : Printed w) : Synced e (termSetline e t w) s := by
  have hpos := h.pos_le
  have hhome := (h.left t.pos).shows
  rw [termLeft_pos, Nat.min_self, Nat.sub_self, termLeft_cmdline] at hhome
  have hput := hhome.putBehind (Nat.zero_le _) hw
  rw [List.take_zero, List.nil_append, Nat.zero_add, ← Screen.feed_append] at hput
  rw [termSetline]
  dsimp only
  split
  case isTrue hlt =>
    have hk : w.length ≤ (w ++ t.cmdline.drop w.length).length := by simp
    have hblank := hput.putBehind hk (printed_blanks (t.cmdline.length - w.length))
    rw [List.length_replicate, List.take_left, Nat.add_sub_cancel' hlt.le,
      List.drop_eq_nil_of_le (by rw [List.length_append, List.length_drop]; omega), List.append_nil,
      ← List.append_assoc] at hblank
    have hleft := termLeft_shows (e := e) (n := t.cmdline.length - w.length)
      (t := { ((termLeft e t t.pos).put w).put (List.replicate (t.cmdline.length - w.length) blankByte) with
        pos := t.cmdline.length })
      (by simpa only [Term.put, Screen.feed_append] using hblank.of_blanks)
    refine ⟨?_, le_refl _, hw, h.yank, h.pending, h.keys⟩
    convert hleft using 1
    simp only
    omega
  case isFalse hge =>
    rw [List.drop_eq_nil_of_le (Nat.le_of_not_lt hge), List.append_nil] at hput
    exact ⟨hput, le_refl _, hw, h.yank, h.pending, h.keys⟩

/-! ## Drawing anew -/

/-- `term_erase` leaves a blank row. -/
theorem termErase_shows (h : Shows (s.feed t.out) x k) : Shows (s.feed (termErase t).out) [] 0 := by
  rw [termErase, Term.put]
  dsimp only
  rw [Screen.feed_append, Screen.feed_append]
  exact (h.blankRow (fun _ => isDigit_ulongText) (foldl_ulongText 2) le_rfl).home (fun _ => isDigit_ulongText)
    (foldl_ulongText 0) rfl

/-- **On a blank row the prompt and the line are drawn, and the cursor goes to its place.** -/
theorem synced_redraw (h : Shows (s.feed t.out) [] 0) (hp : Printed e.prompt) (hline : Printed t.cmdline)
    (hyank : Printed t.yank) (hpend : Printed t.pending)
    (hkeys : Typable t.input) :
    Synced e (termCompleteRedraw e t) s := by
  have hput := h.put (le_refl _) (hp.append hline)
  simp only [List.take_nil, List.nil_append, List.drop_nil, List.append_nil, Nat.zero_add,
    List.length_append, Screen.feed_append] at hput
  have hleft := termLeft_shows (e := e) (n := t.cmdline.length - t.pos)
    (t := { (t.put e.prompt).put t.cmdline with pos := t.cmdline.length })
    (by simpa only [Term.put, Screen.feed_append] using hput)
  refine ⟨?_, ?_, hline, hyank, hpend, hkeys⟩
  · rw [termCompleteRedraw]
    rw [Nat.add_sub_assoc (Nat.min_le_right _ _)] at hleft
    exact hleft
  · rw [termCompleteRedraw]
    exact Nat.sub_le _ _

end Shish
