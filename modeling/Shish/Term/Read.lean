import Shish.Term.Vi

/-!
# Term/Read — reading a line from the terminal

`term_read` shows the prompt and takes keys until one of them ends the line.  Whatever is typed, edited, recalled
or searched for on the way, the terminal shows the line as it is and the cursor where the next change will be made
(`termRead_synced`), as long as only characters get into the line.

Not there: the completion of file names behind a tab, and the banners of jobs that end while a line is read.
-/

namespace Shish

variable (e : Terminal) (t : Term)

/-! ## Escape sequences -/

/-- `term_vi_escape`: whether the escape was one by itself.  A key that comes too late, or never, belongs to no
sequence. -/
def termViEscape : Term × Bool :=
  match t.input with
  | [] => (viCommand e t, true)
  | k :: _ =>
      if k.late then (viCommand e t, true)
      else if k.byte = '['.toUInt8 ∨ k.byte = 'O'.toUInt8 then (t, false)
      else (viCommand e t, true)

/-- The loop of `term_ansi`: the characters of a sequence, the last of them, and the keys behind it. -/
def ansiRead : List Key → Option (Bytes × UInt8 × List Key)
  | [] => none
  | k :: ks =>
      if isDigit k.byte || k.byte == ';'.toUInt8 then (ansiRead ks).map fun r => (k.byte :: r.1, r.2)
      else some ([k.byte], k.byte, ks)

/-- `num` of `term_ansi`, from `buf`; `none` where the digits leave no room for an end. -/
def ansiNum (args : Bytes) : Option ℕ :=
  let buf := args.take 16
  let digits := buf.takeWhile isDigit
  if digits.length = 16 then none
  else some (if digits = [] then 1 else digits.foldl (fun n c => n * 10 + (digit c).toNat) 0)

/-- The commands of `term_ansi`. -/
def ansiCommand (c : UInt8) (num : ℕ) : Option Term :=
  match Char.ofNat c.toNat with
  | 'A' => historyPrev e t
  | 'B' => some (historyNext e t)
  | 'C' => some (termRight t num)
  | 'D' => some (termLeft e t num)
  | '~' =>
      some (if num = 2 then { t with insert := !t.insert } else if num = 3 then termDelete e t
        else if num = 1 then termHome e t else if num = 4 then termEnd e t else t)
  | _ => some t

/-- `term_ansi` behind the `ESC`. -/
def ansiSequence : Option Term :=
  match t.input with
  | [] => some t
  | k :: ks =>
      let t' := { t with input := ks }
      if k.byte ≠ '['.toUInt8 then some t'
      else
        match ansiRead ks with
        | none => some { t with input := [] }
        | some r => (ansiNum r.1).bind (ansiCommand e { t with input := r.2.2 } r.2.1)

/-- `term_ansi`. -/
def termAnsi : Option Term :=
  let r := termViEscape e t
  if r.2 then some r.1 else ansiSequence e r.1

/-! ## The loop -/

/-- How a turn of the loop ends: the loop goes on, or the line is complete, or there is none, or there are no keys
left; `tab` asks for a completion, and `gone` is behind a step that has no meaning. -/
inductive Turn
  | goes (t : Term)
  | line (t : Term)
  | eof (t : Term)
  | waits
  | tab
  | gone

/-- A step that may have no meaning. -/
def Turn.ofOption : Option Term → Turn
  | some t => .goes t
  | none => .gone

/-- `term_newline`. -/
def termNewline : Term := { t.put [newline] with cmdline := t.cmdline ++ [newline], pos := 0 }

/-- What a key does, when it is no command. -/
def termKey (c : UInt8) : Turn :=
  match c.toNat with
  | 3 => .line (termNewline { t with cmdline := [] })
  | 10 => .line (termNewline t)
  | 1 => .goes (termHome e t)
  | 18 => .goes (termSearch e t)
  | 5 => .goes (termEnd e t)
  | 4 => if t.cmdline = [] then .eof (t.put (ascii "EOF" ++ [newline])) else .goes t
  | 27 => .ofOption (termAnsi e t)
  | 127 | 8 => .goes (termBackspace e t)
  | 9 => .tab
  | _ => .goes (if t.insert then termInsertc e t c else termOverwritec t c)

/-- A turn of the loop of `term_read`. -/
def termTurn : Turn :=
  match t.input with
  | [] => .waits
  | k :: ks =>
      let t' := { t with input := ks }
      if t.viCmd && isPrint k.byte then .ofOption (termVimode e t' k) else termKey e t' k.byte

/-- What `term_read` does in front of the loop. -/
def termStart : Term := { t.put e.prompt with viCmd := false }

/-! ## What is seen -/

/-- **A line can be read**: the row is blank, the line is empty, and the texts that are kept are characters. -/
structure Ready (s : Screen) : Prop where
  shows : Shows (s.feed t.out) [] 0
  pos : t.pos = 0
  yank : Printed t.yank
  pending : Printed t.pending
  keys : Typable t.input

/-- **What is right about a turn.**  When the line is complete, it is what was seen, and the next one can be read. -/
def Turn.Fine (s : Screen) : Turn → Prop
  | .goes t => Synced e t s
  | .line t => (∃ x, t.cmdline = x ++ [newline] ∧ Printed x) ∧ Ready t s
  | .eof t => Ready t s ∧ t.cmdline = []
  | .waits | .tab | .gone => True

variable {e t} {s : Screen} {k : Key} {c : UInt8}

theorem Ready.start (h : Ready t s) (he : e.Plain) (hline : t.cmdline = []) : Synced e (termStart e t) s where
  shows := by
    have hput := h.shows.put (le_refl _) he.prompt
    rw [← Screen.feed_append] at hput
    simpa [termStart, Term.put, hline, h.pos] using hput
  pos_le := by
    rw [termStart, Term.put]
    dsimp only
    rw [h.pos]
    exact Nat.zero_le _
  cmdline := by
    rw [termStart, Term.put]
    dsimp only
    rw [hline]
    exact List.forall_mem_nil _
  yank := h.yank
  pending := h.pending
  keys := h.keys

theorem Synced.entered (h : Synced e t s) : Ready (termNewline t) s where
  shows := by
    rw [termNewline, Term.put]
    dsimp only
    rw [Screen.feed_append]
    exact h.shows.ended
  pos := rfl
  yank := h.yank
  pending := h.pending
  keys := h.keys

theorem ansiRead_suffix : ∀ {ks : List Key} {r : Bytes × UInt8 × List Key}, ansiRead ks = some r → r.2.2 <:+ ks
  | [], _, h => by cases h
  | k :: ks, r, h => by
      rw [ansiRead] at h
      split at h
      · obtain ⟨r', hr', rfl⟩ := Option.map_eq_some_iff.1 h
        exact (ansiRead_suffix hr').trans (List.suffix_cons k ks)
      · obtain rfl := Option.some.inj h
        exact List.suffix_cons k ks

theorem Synced.ansiCommand {num : ℕ} {t' : Term} (h : Synced e t s) (he : e.Plain)
    (ht : Shish.ansiCommand e t c num = some t') : Synced e t' s := by
  rw [Shish.ansiCommand] at ht
  split at ht
  case h_1 => exact h.prev he ht
  all_goals obtain rfl := Option.some.inj ht
  case h_2 => exact h.next he
  case h_3 => exact h.right _
  case h_4 => exact h.left _
  case h_5 =>
    split_ifs
    · exact { h with }
    · exact h.delete
    · exact h.home
    · exact h.toEnd
    · exact h
  case h_6 => exact h

theorem Synced.command (h : Synced e t s) : Synced e (viCommand e t) s :=
  Synced.left (t := { t with viCmd := true }) { h with } 1

theorem Synced.escape (h : Synced e t s) : Synced e (termViEscape e t).1 s := by
  rw [termViEscape]
  split
  · exact h.command
  · split_ifs
    · exact h.command
    · exact h
    · exact h.command

theorem Synced.sequence {t' : Term} (h : Synced e t s) (he : e.Plain) (ht : ansiSequence e t = some t') :
    Synced e t' s := by
  rw [ansiSequence] at ht
  split at ht
  case h_1 =>
    obtain rfl := Option.some.inj ht
    exact h
  case h_2 k ks hin =>
    have hks : ks <:+ t.input := hin ▸ List.suffix_cons k ks
    dsimp only at ht
    split at ht
    case isTrue =>
      obtain rfl := Option.some.inj ht
      exact { h with keys := h.keys.suffix hks }
    case isFalse =>
      split at ht
      case h_1 =>
        obtain rfl := Option.some.inj ht
        exact { h with keys := h.keys.suffix List.nil_suffix }
      case h_2 r hr =>
        obtain ⟨num, -, ht⟩ := Option.bind_eq_some_iff.1 ht
        exact Synced.ansiCommand (t := { t with input := r.2.2 })
          { h with keys := h.keys.suffix ((ansiRead_suffix hr).trans hks) } he ht

theorem Synced.ansi {t' : Term} (h : Synced e t s) (he : e.Plain) (ht : termAnsi e t = some t') :
    Synced e t' s := by
  rw [termAnsi] at ht
  split at ht
  · obtain rfl := Option.some.inj ht
    exact h.escape
  · exact h.escape.sequence he ht

theorem Turn.fine_ofOption {o : Option Term} (h : ∀ t, o = some t → Synced e t s) :
    (Turn.ofOption o).Fine e s := by
  cases o with
  | none => trivial
  | some t => exact h t rfl

/-- `^D` on an empty line. -/
theorem Synced.eof (h : Synced e t s) (hline : t.cmdline = []) :
    Ready (t.put (ascii "EOF" ++ [newline])) s where
  shows := by
    have heof : Printed (ascii "EOF") := by decide
    have hput := h.shows.putBehind h.pos_le heof
    rw [Term.put]
    dsimp only
    rw [Screen.feed_append, Screen.feed_append]
    exact hput.ended
  pos := Nat.le_zero.1 (hline ▸ h.pos_le : t.pos ≤ ([] : Bytes).length)
  yank := h.yank
  pending := h.pending
  keys := h.keys

/-- A key that is no editing key is a character. -/
theorem isPrint_of_known (hc : isPrint c = true ∨ c ∈ editKeys) (hne : ∀ d ∈ editKeys, c.toNat ≠ d.toNat) :
    isPrint c = true :=
  hc.resolve_right fun hm => hne c hm rfl

/-- **Every key keeps the terminal in step.** -/
theorem Synced.key (h : Synced e t s) (he : e.Plain) (hc : isPrint c = true ∨ c ∈ editKeys) :
    (termKey e t c).Fine e s := by
  rw [termKey]
  split
  case h_1 =>
    have hready : Ready (termNewline { t with cmdline := [] }) s := { h.entered with }
    exact ⟨⟨[], rfl, List.forall_mem_nil _⟩, hready⟩
  case h_2 => exact ⟨⟨t.cmdline, rfl, h.cmdline⟩, h.entered⟩
  case h_3 => exact h.home
  case h_4 => exact h.search he
  case h_5 => exact h.toEnd
  case h_6 =>
    split
    case isTrue hline => exact ⟨h.eof hline, hline⟩
    case isFalse => exact h
  case h_7 => exact Turn.fine_ofOption fun t' ht' => h.ansi he ht'
  case h_8 => exact h.backspace
  case h_9 => exact h.backspace
  case h_10 => trivial
  case h_11 =>
    have hp : isPrint c = true := by
      refine isPrint_of_known hc ?_
      simp only [editKeys, List.forall_mem_cons, List.not_mem_nil, false_imp_iff, implies_true, and_true]
      tauto
    dsimp only [Turn.Fine]
    split
    · exact h.insertc hp
    · exact h.overwritec hp

/-- **A turn keeps the terminal in step.** -/
theorem Synced.turn (h : Synced e t s) (he : e.Plain) : (termTurn e t).Fine e s := by
  rw [termTurn]
  cases hin : t.input with
  | nil => trivial
  | cons k ks =>
    have hkeys : Typable (k :: ks) := hin ▸ h.keys
    have htaken : Synced e { t with input := ks } s := { h with keys := hkeys.suffix (List.suffix_cons k ks) }
    dsimp only
    split
    · exact Turn.fine_ofOption fun t' ht' => htaken.vimode he hkeys ht'
    · exact htaken.key he (hkeys.known k (.head _))

end Shish
