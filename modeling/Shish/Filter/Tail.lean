import Mathlib.Algebra.Order.Ring.Nat
import Mathlib.Data.Nat.Basic
import Shish.Lib.Bytes
import Shish.Lib.Lines

/-!
# Filter/Tail — the last lines of a file that comes in chunks

`tail_feed` puts what comes behind what it has kept, and drops the oldest lines when there are many.  `Sound`
is what it keeps up: only whole lines have gone, and none of the last ones.  So `tail_done` has the last lines
of the file, however it was cut (`file_out`), and `tail_step` puts them out file by file (`steps_files`).
-/

namespace Shish

/-- `struct tail`, without `-f` and `+N`; `several` says that there are two operands. -/
structure Tail where
  /-- The number of lines or bytes. -/
  count : ℕ
  /-- `-c`. -/
  bytes : Bool
  /-- `-q`. -/
  quiet : Bool
  /-- `-v`. -/
  verbose : Bool
  /-- Whether `files[0]` and `files[1]` are there. -/
  several : Bool
  /-- A file is being read. -/
  opened : Bool := false
  /-- A file has been shown. -/
  started : Bool := false
  /-- Newlines in `buf`. -/
  nl : ℕ := 0
  buf : Bytes := []
  out : Bytes := []
  head : Bytes := []

namespace Tail

variable (t : Tail)

/-- The loop of `tail_trim`: `extra` lines go from the front of the buffer. -/
def dropLines : ℕ → ℕ → Bytes → ℕ × Bytes
  | 0, nl, buf => (nl, buf)
  | extra + 1, nl, buf =>
      let k := buf.idxOf newline
      if k < buf.length then dropLines extra (nl - 1) (buf.drop (k + 1)) else (nl, [])

/-- `lines` in `tail_trim`: an unterminated last line counts at the end of a file. -/
def bufLines (final : Bool) : ℕ :=
  t.nl + if final ∧ t.buf ≠ [] ∧ t.buf.getLast? ≠ some newline then 1 else 0

/-- `tail_trim`; where the source subtracts only when the difference is positive, `-` is 0. -/
def trim (final : Bool) : Tail :=
  if t.bytes then { t with buf := t.buf.drop (t.buf.length - t.count) }
  else
    { t with
      nl := (dropLines (t.bufLines final - t.count) t.nl t.buf).1
      buf := (dropLines (t.bufLines final - t.count) t.nl t.buf).2 }

/-- An `unsigned long`. -/
def ulong (n : ℕ) : ℕ := n % 2 ^ 64

/-- `tail_feed`. -/
def feed (p : Bytes) : Tail :=
  let t := { t with buf := t.buf ++ p, nl := t.nl + p.count newline }
  if (if t.bytes then ulong (2 * t.count + 4096) < t.buf.length else ulong (2 * t.count + 64) < t.nl) then
    t.trim false
  else t

/-- `tail_header`. -/
def header (name : Bytes) : Tail :=
  { t with
    head :=
      if t.verbose || (!t.quiet && t.several) then
        (if t.started then [newline] else []) ++ ascii "==> " ++
          (if name = ascii "-" then ascii "standard input" else name) ++ ascii " <==" ++ [newline]
      else [] }

/-- `tail_done`. -/
def done : Tail :=
  { t.trim true with
    out := (t.trim true).head ++ (t.trim true).buf
    buf := []
    nl := 0
    opened := false
    started := true }

/-! ## What `tail_step` does -/

/-- A call of `filter_in_peek`: the name of the operand when it has just been opened, and the bytes that are
there; a file without a byte has none. -/
structure Peek where
  newfile : Option Bytes
  data : Bytes

/-- A new file in `tail_step`. -/
def enter (name : Bytes) : Tail := { { t with opened := true }.header name with started := true }

/-- What `tail_step` hands on when it is not empty. -/
def unit (out : Bytes) : List Bytes := if out = [] then [] else [out]

/-- The bytes that are there go into the buffer; an empty file is closed. -/
def read (p : Bytes) : Tail := if p = [] then t else t.feed p

/-- The units `tail_step` makes of what there is to peek. -/
def steps : Tail → List Peek → List Bytes
  | t, [] => if t.opened then unit t.done.out else []
  | t, ⟨some name, p⟩ :: ps =>
      if t.opened then unit t.done.out ++ ((t.done.enter name).read p).steps ps
      else ((t.enter name).read p).steps ps
  | t, ⟨none, p⟩ :: ps => (t.read p).steps ps

example (nl : ℕ) (buf : Bytes) : dropLines 0 nl buf = (nl, buf) ∧ t.steps [] = if t.opened then unit t.done.out else [] := by
  rw [dropLines, steps]
  simp

/-! ## Lines dropped from the front -/

theorem idxOf_line {w : Bytes} (hw : newline ∉ w) (b : Bytes) : (w ++ newline :: b).idxOf newline = w.length := by
  rw [List.idxOf_append_of_notMem hw, List.idxOf_cons_self, Nat.add_zero]

/-- **The loop drops lines and counts them.** -/
theorem dropLines_eq (extra : ℕ) : ∀ buf : Bytes, dropLines extra (buf.count newline) buf =
    ((((endedLines newline buf).drop extra).flatten).count newline,
      ((endedLines newline buf).drop extra).flatten) := by
  induction extra with
  | zero =>
    intro buf
    rw [List.drop_zero, flatten_endedLines]
    rfl
  | succ extra ih =>
    intro buf
    rcases line_cases newline buf with hb | ⟨w, b', rfl, hw⟩
    · have hd : ((endedLines newline buf).drop (extra + 1)).flatten = [] := by
        rcases eq_or_ne buf [] with rfl | hne
        · rfl
        · rw [endedLines_text hb hne]
          simp
      rw [hd, dropLines, List.idxOf_eq_length hb, if_neg (Nat.lt_irrefl _), List.count_eq_zero_of_not_mem hb]
      rfl
    · have hcount : (w ++ newline :: b').count newline - 1 = b'.count newline := by
        rw [List.count_append, List.count_eq_zero_of_not_mem hw, List.count_cons_self]
        omega
      have hdrop : (w ++ newline :: b').drop (w.length + 1) = b' := by simp
      rw [dropLines, idxOf_line hw, if_pos (by simp), hcount, hdrop, ih, endedLines_line hw]
      rfl

/-! ## What is kept -/

/-- The counter is right, and of all that has come only whole lines are gone, and only when there are
enough behind them. -/
structure Sound (all : Bytes) : Prop where
  nl : t.bytes = false → t.nl = t.buf.count newline
  kept : ∃ d, all = d ++ t.buf ∧
    if t.bytes then d = [] ∨ t.count ≤ t.buf.length
    else (d = [] ∨ d.getLast? = some newline) ∧ (d = [] ∨ t.count ≤ t.buf.count newline)

variable {t} {all : Bytes}

theorem Sound.feed_more (h : t.Sound all) (p : Bytes) :
    { t with buf := t.buf ++ p, nl := t.nl + p.count newline }.Sound (all ++ p) := by
  obtain ⟨hnl, d, rfl, hd⟩ := h
  refine ⟨fun hb => ?_, d, by simp, ?_⟩
  · rw [List.count_append, ← hnl hb]
  · change if t.bytes then _ else _
    split_ifs at hd ⊢ with hb
    · exact hd.imp_right fun h => Nat.le_trans h (by simp)
    · exact ⟨hd.1, hd.2.imp_right fun h => Nat.le_trans h (by simp)⟩

theorem trim_lines (hb : t.bytes = false) (hnl : t.nl = t.buf.count newline) (final : Bool) :
    t.trim final = { t with
      nl := ((endedLines newline t.buf).drop (t.bufLines final - t.count)).flatten.count newline
      buf := ((endedLines newline t.buf).drop (t.bufLines final - t.count)).flatten } := by
  have hd := dropLines_eq (t.bufLines final - t.count) t.buf
  rw [← hnl] at hd
  rw [trim, if_neg (by simp [hb]), hd]

theorem trim_bytes (hb : t.bytes = true) (final : Bool) :
    t.trim final = { t with buf := t.buf.drop (t.buf.length - t.count) } := if_pos hb

/-- The counter is right behind `tail_trim`. -/
theorem trim_nl (h : t.bytes = false → t.nl = t.buf.count newline) (final : Bool) :
    (t.trim final).bytes = false → (t.trim final).nl = (t.trim final).buf.count newline := by
  cases hb : t.bytes with
  | true =>
    rw [trim_bytes hb]
    simp [hb]
  | false =>
    rw [trim_lines hb (h hb)]
    exact fun _ => rfl

theorem Sound.trim (h : t.Sound all) : (t.trim false).Sound all := by
  refine ⟨trim_nl h.nl false, ?_⟩
  obtain ⟨hnl, d, rfl, hd⟩ := h
  cases hb : t.bytes with
  | true =>
    rw [hb, if_pos rfl] at hd
    rw [trim_bytes hb]
    refine ⟨d ++ t.buf.take (t.buf.length - t.count), by simp, ?_⟩
    rw [if_pos hb]
    rcases le_or_gt t.count t.buf.length with hle | hlt
    · right
      rw [List.length_drop, Nat.sub_sub_self hle]
    · rw [Nat.sub_eq_zero_of_le (Nat.le_of_lt hlt), List.take_zero, List.append_nil, List.drop_zero]
      exact hd
  | false =>
    rw [hb, if_neg Bool.false_ne_true] at hd
    rw [trim_lines hb (hnl hb)]
    have hlines : t.bufLines false = t.buf.count newline := by
      rw [bufLines, if_neg (by simp), hnl hb, Nat.add_zero]
    simp only [hlines, hb, Bool.false_eq_true, if_false]
    rcases le_or_gt (t.buf.count newline) t.count with hle | hlt
    · rw [Nat.sub_eq_zero_of_le hle, List.drop_zero, flatten_endedLines]
      exact ⟨d, rfl, hd⟩
    · have hextra : t.buf.count newline - t.count ≤ t.buf.count newline := Nat.sub_le _ _
      refine ⟨d ++ ((endedLines newline t.buf).take (t.buf.count newline - t.count)).flatten, ?_, ?_, .inr ?_⟩
      · rw [List.append_assoc, ← List.flatten_append, List.take_append_drop, flatten_endedLines]
      · rcases take_endedLines_end hextra with h | h
        · rw [h, List.append_nil]
          exact hd.1
        · right
          rw [List.getLast?_append, h]
          rfl
      · rw [count_drop_endedLines hextra]
        omega

/-- **A chunk keeps it up.** -/
theorem Sound.feed (h : t.Sound all) (p : Bytes) : (t.feed p).Sound (all ++ p) := by
  unfold Tail.feed
  extract_lets t'
  have h' : t'.Sound (all ++ p) := h.feed_more p
  by_cases hfull : if t'.bytes then ulong (2 * t'.count + 4096) < t'.buf.length else ulong (2 * t'.count + 64) < t'.nl
  · rw [if_pos hfull]
    exact h'.trim
  · rw [if_neg hfull]
    exact h'

theorem Sound.foldl_feed (chunks : List Bytes) : ∀ {t : Tail} {all : Bytes}, t.Sound all →
    (chunks.foldl Tail.feed t).Sound (all ++ chunks.flatten) := by
  induction chunks with
  | nil => intro t all h; simpa using h
  | cons c cs ih =>
    intro t all h
    rw [List.foldl_cons, List.flatten_cons, ← List.append_assoc]
    exact ih (h.feed c)

/-! ## The options stay -/

@[simp] theorem trim_bytes_eq (final : Bool) : (t.trim final).bytes = t.bytes := by
  unfold trim
  split_ifs <;> rfl

@[simp] theorem trim_count (final : Bool) : (t.trim final).count = t.count := by
  unfold trim
  split_ifs <;> rfl

@[simp] theorem trim_head (final : Bool) : (t.trim final).head = t.head := by
  unfold trim
  split_ifs <;> rfl

@[simp] theorem trim_opened (final : Bool) : (t.trim final).opened = t.opened := by
  unfold trim
  split_ifs <;> rfl

theorem feed_keeps (p : Bytes) : (t.feed p).bytes = t.bytes ∧ (t.feed p).count = t.count ∧
    (t.feed p).head = t.head ∧ (t.feed p).opened = t.opened := by
  unfold feed
  extract_lets t'
  split_ifs <;> simp [t']

theorem foldl_feed_keeps (chunks : List Bytes) : ∀ t : Tail, (chunks.foldl feed t).bytes = t.bytes ∧
    (chunks.foldl feed t).count = t.count ∧ (chunks.foldl feed t).head = t.head ∧
    (chunks.foldl feed t).opened = t.opened := by
  induction chunks with
  | nil => exact fun t => ⟨rfl, rfl, rfl, rfl⟩
  | cons c cs ih =>
    intro t
    obtain ⟨h₁, h₂, h₃, h₄⟩ := ih (t.feed c)
    obtain ⟨g₁, g₂, g₃, g₄⟩ := @feed_keeps t c
    exact ⟨h₁.trans g₁, h₂.trans g₂, h₃.trans g₃, h₄.trans g₄⟩

/-! ## What comes out -/

/-- The end of a file: its last lines, or its last bytes. -/
def last (bytes : Bool) (n : ℕ) (b : Bytes) : Bytes :=
  if bytes then b.drop (b.length - n) else lastLines newline n b

/-- **What `tail_trim` leaves at the end.** -/
theorem Sound.trim_true (h : t.Sound all) : (t.trim true).buf = last t.bytes t.count all := by
  obtain ⟨hnl, d, rfl, hd⟩ := h
  unfold last
  cases hb : t.bytes with
  | true =>
    rw [hb, if_pos rfl] at hd
    rw [trim_bytes hb, if_pos rfl, List.length_append]
    rcases hd with rfl | hd
    · simp
    · have hfront : d.length + t.buf.length - t.count = d.length + (t.buf.length - t.count) := by omega
      rw [hfront, List.drop_append, List.drop_eq_nil_of_le (Nat.le_add_right _ _), List.nil_append,
        Nat.add_sub_cancel_left]
  | false =>
    rw [hb, if_neg Bool.false_ne_true] at hd
    have hlines : t.bufLines true = lineCount newline t.buf := by
      rw [bufLines, hnl hb, lineCount]
      congr 1
      cases hl : t.buf.getLast? with
      | none =>
        rw [List.getLast?_eq_none_iff] at hl
        simp [hl]
      | some c =>
        have hne : t.buf ≠ [] := fun h => by simp [h] at hl
        by_cases hc : c = newline <;> simp [hne, hc]
    have hle : t.buf.count newline ≤ lineCount newline t.buf := Nat.le_add_right _ _
    rw [if_neg Bool.false_ne_true, lastLines_append hd.1 (hd.2.imp_right fun h => Nat.le_trans h hle),
      trim_lines hb (hnl hb), hlines, lastLines, length_endedLines]

/-- A file: its name, and the chunks it comes in. -/
structure File where
  name : Bytes
  chunks : List Bytes
  nonempty : ∀ c ∈ chunks, c ≠ [] := by decide

/-- A file is read from its start to its end. -/
def file (t : Tail) (f : File) : Tail := (f.chunks.foldl feed (t.enter f.name)).done

/-- Nothing of an earlier file is left. -/
structure Fresh (t : Tail) : Prop where
  buf : t.buf = []
  nl : t.nl = 0

theorem Fresh.sound (h : t.Fresh) : t.Sound [] :=
  ⟨fun _ => by rw [h.nl, h.buf]; rfl, [], by rw [h.buf]; rfl, by simp⟩

theorem fresh_done : t.done.Fresh := ⟨rfl, rfl⟩

theorem Fresh.enter (h : t.Fresh) (name : Bytes) : (t.enter name).Fresh := ⟨h.buf, h.nl⟩

theorem done_out (h : t.Sound all) : t.done.out = t.head ++ last t.bytes t.count all := by
  change (t.trim true).head ++ (t.trim true).buf = _
  rw [trim_head, h.trim_true]

/-- **A file's last lines.** -/
theorem Fresh.file_out (h : t.Fresh) (f : File) :
    (t.file f).out = (t.enter f.name).head ++ last t.bytes t.count f.chunks.flatten := by
  obtain ⟨h₁, h₂, h₃, -⟩ := foldl_feed_keeps f.chunks (t.enter f.name)
  rw [file, done_out ((h.enter f.name).sound.foldl_feed f.chunks), h₁, h₂, h₃]
  rfl

/-! ## File by file -/

/-- What `filter_in_peek` shows of a file. -/
def File.peeks (f : File) : List Peek :=
  match f.chunks with
  | [] => [⟨some f.name, []⟩]
  | c :: cs => ⟨some f.name, c⟩ :: cs.map (⟨none, ·⟩)

/-- The rest of a file goes into the buffer. -/
theorem steps_chunks {cs : List Bytes} (hcs : ∀ c ∈ cs, c ≠ []) (ps : List Peek) (t : Tail) :
    t.steps (cs.map (⟨none, ·⟩) ++ ps) = (cs.foldl feed t).steps ps := by
  induction cs generalizing t with
  | nil => rfl
  | cons c cs ih =>
    have hread : t.read c = t.feed c := if_neg (hcs c (.head _))
    rw [List.map_cons, List.cons_append, steps, hread, ih (fun c' hc' => hcs c' (.tail _ hc'))]
    rfl

/-- A file at the front of what there is to peek. -/
theorem steps_file (f : File) (ps : List Peek) : t.steps (f.peeks ++ ps) =
    (if t.opened then unit t.done.out else []) ++
      (f.chunks.foldl feed ((if t.opened then t.done else t).enter f.name)).steps ps := by
  obtain ⟨name, chunks, hne⟩ := f
  cases chunks with
  | nil =>
    change t.steps (⟨some name, []⟩ :: ps) = _
    rw [steps]
    split_ifs <;> rfl
  | cons c cs =>
    have hread : ∀ t : Tail, t.read c = t.feed c := fun t => if_neg (hne c (.head _))
    change t.steps (⟨some name, c⟩ :: (cs.map (⟨none, ·⟩) ++ ps)) = _
    rw [steps]
    split_ifs <;> rw [hread, steps_chunks fun c' hc' => hne c' (.tail _ hc')] <;> rfl

/-- What is put out for files, one behind the other. -/
def outs (t : Tail) : List File → Bytes
  | [] => []
  | f :: fs => (t.file f).out ++ outs (t.file f) fs

@[simp] theorem flatten_unit (b : Bytes) : (unit b).flatten = b := by
  unfold unit
  split_ifs with h <;> simp [h]

theorem steps_opened (fs : List File) : ∀ {t : Tail}, t.opened = true →
    (t.steps (fs.flatMap File.peeks)).flatten = t.done.out ++ t.done.outs fs := by
  induction fs with
  | nil =>
    intro t ht
    rw [List.flatMap_nil, steps, if_pos ht, flatten_unit, outs, List.append_nil]
  | cons f fs ih =>
    intro t ht
    have hopen : (f.chunks.foldl feed (t.done.enter f.name)).opened = true :=
      (foldl_feed_keeps f.chunks (t.done.enter f.name)).2.2.2
    rw [List.flatMap_cons, steps_file, if_pos ht, if_pos ht, List.flatten_append, flatten_unit, ih hopen]
    rfl

/-- **`tail_step` puts out file after file.** -/
theorem steps_files (ht : t.opened = false) (fs : List File) :
    (t.steps (fs.flatMap File.peeks)).flatten = t.outs fs := by
  cases fs with
  | nil => rw [List.flatMap_nil, steps, if_neg (by simp [ht])]; rfl
  | cons f fs =>
    have hopen : (f.chunks.foldl feed (t.enter f.name)).opened = true :=
      (foldl_feed_keeps f.chunks (t.enter f.name)).2.2.2
    rw [List.flatMap_cons, steps_file, ht, if_neg Bool.false_ne_true, if_neg Bool.false_ne_true,
      List.nil_append, steps_opened fs hopen]
    rfl

/-! ## Any order of the calls -/

/-- A call of one of the functions that touch the buffer. -/
inductive Call
  | feed (p : Bytes)
  | trim (final : Bool)
  | enter (name : Bytes)
  | done

/-- What a call does. -/
def Call.run (t : Tail) : Call → Tail
  | feed p => t.feed p
  | trim final => t.trim final
  | enter name => t.enter name
  | done => t.done

/-- The counter of newlines is right in line mode. -/
def Counted (t : Tail) : Prop := t.bytes = false → t.nl = t.buf.count newline

theorem Counted.feed (h : t.Counted) (p : Bytes) : (t.feed p).Counted := by
  unfold Tail.feed
  extract_lets t'
  have h' : t'.Counted := fun hb => by
    change t.nl + p.count newline = (t.buf ++ p).count newline
    rw [List.count_append, h hb]
  by_cases hfull : if t'.bytes then ulong (2 * t'.count + 4096) < t'.buf.length else ulong (2 * t'.count + 64) < t'.nl
  · rw [if_pos hfull]
    exact trim_nl h' false
  · rw [if_neg hfull]
    exact h'

/-- **One call keeps the counter right.** -/
theorem Counted.run (h : t.Counted) (c : Call) : (c.run t).Counted := by
  cases c with
  | feed p => exact h.feed p
  | trim final => exact trim_nl h final
  | enter name => exact h
  | done => exact fun _ => rfl

theorem Counted.foldl_run (cs : List Call) : ∀ {t : Tail}, t.Counted → (cs.foldl Call.run t).Counted := by
  induction cs with
  | nil => exact fun h => h
  | cons c cs ih => exact fun h => ih (h.run c)

theorem Call.run_bytes (c : Call) : (c.run t).bytes = t.bytes := by
  cases c with
  | feed p => exact (feed_keeps p).1
  | trim final => exact trim_bytes_eq final
  | enter name => rfl
  | done => exact trim_bytes_eq true

theorem foldl_run_bytes (cs : List Call) : ∀ t : Tail, (cs.foldl Call.run t).bytes = t.bytes := by
  induction cs with
  | nil => exact fun _ => rfl
  | cons c cs ih => exact fun t => (ih (c.run t)).trans c.run_bytes

/-! ## The last lines of a file -/

/-- `tail`'s state when it starts, with its options. -/
def start (count : ℕ) (bytes quiet verbose several : Bool) : Tail := { count, bytes, quiet, verbose, several }

/-- Files read one after the other. -/
theorem Fresh.foldl_file (fs : List File) : ∀ {t : Tail}, t.Fresh → (fs.foldl file t).Fresh ∧
    (fs.foldl file t).bytes = t.bytes ∧ (fs.foldl file t).count = t.count := by
  induction fs with
  | nil => exact fun h => ⟨h, rfl, rfl⟩
  | cons f fs ih =>
    intro t h
    obtain ⟨h₁, h₂, -⟩ := foldl_feed_keeps f.chunks (t.enter f.name)
    obtain ⟨g₁, g₂, g₃⟩ := ih (t := t.file f) fresh_done
    refine ⟨g₁, g₂.trans ?_, g₃.trans ?_⟩
    · exact (trim_bytes_eq true).trans h₁
    · exact (trim_count true).trans h₂

/-- **`tail_done` has the last lines of the file.**  This holds behind any files, for any chunks the file comes
in and any count; and `nl` counts the newlines in the buffer behind every call. -/
theorem done_last (count : ℕ) (bytes quiet verbose several : Bool) :
    (∀ (files : List File) (f : File),
      ((files.foldl file (start count bytes quiet verbose several)).file f).out =
        ((files.foldl file (start count bytes quiet verbose several)).enter f.name).head ++
          if bytes then f.chunks.flatten.drop (f.chunks.flatten.length - count)
          else lastLines newline count f.chunks.flatten) ∧
    ∀ calls : List Call,
      (calls.foldl Call.run (start count false quiet verbose several)).nl =
        (calls.foldl Call.run (start count false quiet verbose several)).buf.count newline := by
  refine ⟨fun files f => ?_, fun calls => ?_⟩
  · obtain ⟨hfresh, hbytes, hcount⟩ := @Fresh.foldl_file files (start count bytes quiet verbose several) ⟨rfl, rfl⟩
    rw [hfresh.file_out, hbytes, hcount]
    rfl
  · have hcounted : (start count false quiet verbose several).Counted := fun _ => rfl
    exact hcounted.foldl_run calls (foldl_run_bytes calls _)

/-- The last two lines of three, cut in the middle of one. -/
example : ((start 2 false false false false).steps
    [⟨some (ascii "-"), ascii "ab"⟩, ⟨none, ascii "c\nd\n\ne"⟩]).flatten = ascii "\ne" := by decide +kernel

end Tail

end Shish
