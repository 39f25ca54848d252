import Shish.Term.Recall

/-!
# Term/Vi — the command mode

Behind an escape a key is a command: a motion, an operator with a motion, a single edit or the way back to typing,
most of them with a count.  Counts and positions are words of 64 bits, and a motion without a target gives a
negative number.

`b` and `B` read a character of an empty line, `p` copies a character behind the end of the line when the cursor
stands there, and `r` with a count that wraps around writes far behind it; such a command is `none`.
-/

namespace Shish

/-- `(long)n`. -/
def toLong (n : ℕ) : ℤ := if n < 2 ^ 63 then n else n - 2 ^ 64

/-- `vi_class`: 0 for a blank, 1 in a word, 2 for punctuation, which `big` takes for a word. -/
def viClass (c : UInt8) (big : Bool) : ℕ :=
  if isBlankByte c then 0
  else if big then 1
  else if isDigit c || ('a'.toUInt8 ≤ c && c ≤ 'z'.toUInt8) || ('A'.toUInt8 ≤ c && c ≤ 'Z'.toUInt8) ||
    c == '_'.toUInt8 then 1
  else 2

/-- `while(p < len && f(s[p])) p++`. -/
def skipOn (s : Bytes) (f : UInt8 → Bool) (p : ℕ) : ℕ := p + ((s.drop p).takeWhile f).length

/-- `while(p > 0 && f(s[p])) p--`, with what is read at `p` as a function. -/
def skipBack (f : ℕ → Bool) : ℕ → ℕ
  | 0 => 0
  | p + 1 => if f (p + 1) then skipBack f p else p + 1

/-- A round of `w`. -/
def wordOn (s : Bytes) (big : Bool) (p : ℕ) : ℕ :=
  let k := if p < s.length then viClass (s.getD p 0) big else 0
  skipOn s (fun c => viClass c big == 0) (if k = 0 then p else skipOn s (fun c => viClass c big == k) p)

/-- A round of `b`. -/
def wordBack (s : Bytes) (big : Bool) (p : ℕ) : ℕ :=
  let p := skipBack (fun p => viClass (s.getD p 0) big == 0) (p - 1)
  skipBack (fun i => viClass (s.getD (i - 1) 0) big == viClass (s.getD p 0) big) p

/-- `while(p + 1 < len && f(p)) p++`: `n` is how far it can go. -/
def skipBelow (f : ℕ → Bool) : ℕ → ℕ → ℕ
  | 0, p => p
  | n + 1, p => if f p then skipBelow f n (p + 1) else p

/-- A round of `e`. -/
def wordEnd (s : Bytes) (big : Bool) (p : ℕ) : ℕ :=
  let p := if p + 1 < s.length then p + 1 else p
  let p := skipBelow (fun p => viClass (s.getD p 0) big == 0) (s.length - (p + 1)) p
  skipBelow (fun i => viClass (s.getD (i + 1) 0) big == viClass (s.getD p 0) big) (s.length - (p + 1)) p

/-- The next `ch` behind `i`. -/
def findOn (s : Bytes) (ch : UInt8) (i : ℕ) : Option ℕ :=
  let j := skipOn s (· != ch) (i + 1)
  if j < s.length then some j else none

/-- The next `ch` in front of `i`. -/
def findBack (s : Bytes) (ch : UInt8) : ℕ → Option ℕ
  | 0 => none
  | i + 1 => if s[i]? = some ch then some i else findBack s ch i

/-- The rounds of `vi_find`. -/
def findTimes (find : ℕ → Option ℕ) : ℕ → ℕ → Option ℕ
  | 0, i => some i
  | n + 1, i => (find i).bind (findTimes find n)

/-- `vi_find`. -/
def viFind (s : Bytes) (key ch : UInt8) (cnt pos : ℕ) : ℤ :=
  let on := key = 'f'.toUInt8 ∨ key = 't'.toUInt8
  match findTimes (if on then findOn s ch else findBack s ch) cnt pos with
  | none => -1
  | some i => if key = 't'.toUInt8 then i - 1 else if key = 'T'.toUInt8 then i + 1 else i

/-- The key `,` repeats: the one of the other direction. -/
def otherKey (c : UInt8) : UInt8 :=
  if c = 'f'.toUInt8 then 'F'.toUInt8 else if c = 'F'.toUInt8 then 'f'.toUInt8
  else if c = 't'.toUInt8 then 'T'.toUInt8 else 't'.toUInt8

/-- The keys of a string. -/
def oneOf (c : UInt8) (keys : String) : Bool := (ascii keys).contains c

variable (e : Terminal) (t : Term)

/-- The motions of `vi_motion` that read no key: the target, negative when there is none, and whether the
character there belongs to it. -/
def viTarget (m : UInt8) (n : ℕ) : Option (ℤ × Bool) :=
  let s := t.cmdline
  let big := oneOf m "WBE"
  if m = 'h'.toUInt8 then
    let target := t.pos - toLong n
    if 2 ^ 63 ≤ target then none else some (if target < 0 then 0 else target, false)
  else if m = 'l'.toUInt8 then
    let target := t.pos + toLong n
    if 2 ^ 63 ≤ target then none else some (if s.length < target then s.length else target, false)
  else if m = '0'.toUInt8 then some (0, false)
  else if m = '^'.toUInt8 then some (skipOn s (fun c => viClass c false == 0) 0, false)
  else if m = '$'.toUInt8 then some (↑(s.length - 1), true)
  else if oneOf m "wW" then some (↑((wordOn s big)^[n] t.pos), false)
  else if oneOf m "bB" then if n ≠ 0 ∧ s = [] then none else some (↑((wordBack s big)^[n] t.pos), false)
  else if oneOf m "eE" then if n ≠ 0 ∧ s = [] then none else some (↑((wordEnd s big)^[n] t.pos), true)
  else if oneOf m ";," then
    if t.fkey = 0 then some (-1, false)
    else
      let c := if m = ','.toUInt8 then otherKey t.fkey else t.fkey
      some (viFind s c t.fchar n t.pos, oneOf c "ft")
  else some (-1, false)

/-- `vi_motion`. -/
def viMotion (m : UInt8) (n : ℕ) : Option (Term × ℤ × Bool) :=
  if oneOf m "fFtT" then
    match t.input with
    | [] => some (t, -1, false)
    | k :: ks =>
        some ({ t with input := ks, fkey := m, fchar := k.byte }, viFind t.cmdline m k.byte n t.pos, oneOf m "ft")
  else (viTarget t m n).map fun r => (t, r)

/-- `vi_count` behind the digits that make `n`: the count, the key behind it and the keys that are left.  Where
they end within the count the key is the last digit. -/
def viCount (n : ℕ) (k : Key) : List Key → ℕ × Key × List Key
  | [] =>
      if isDigit k.byte ∧ (k.byte ≠ '0'.toUInt8 ∨ n ≠ 0) then ((n * 10 + (digit k.byte).toNat) % 2 ^ 64, k, [])
      else (n, k, [])
  | k' :: ks =>
      if isDigit k.byte ∧ (k.byte ≠ '0'.toUInt8 ∨ n ≠ 0) then
        viCount ((n * 10 + (digit k.byte).toNat) % 2 ^ 64) k' ks
      else (n, k, k' :: ks)

/-- `vi_set`. -/
def viSet (n : Bytes) (pos : ℕ) : Term :=
  let pos := if t.viCmd ∧ n.length ≤ pos then n.length - 1 else pos
  termLeft e (termSetline e t n) (n.length - pos)

/-- `vi_apply`. -/
def viApply (op : Char) (a b : ℕ) : Term :=
  let b := min b t.cmdline.length
  if b ≤ a then t
  else
    let t' := { t with yank := (t.cmdline.drop a).take (b - a), viCmd := t.viCmd && op != 'c' }
    if op = 'y' then termRight (termLeft e t' (t.pos - a)) (a - t.pos)
    else viSet e t' (t.cmdline.take a ++ t.cmdline.drop b) a

/-- `at` of `vi_paste`. -/
def pasteAt (after : Bool) : ℕ := t.pos + if after ∧ t.cmdline ≠ [] then 1 else 0

/-- `vi_paste`. -/
def viPaste (after : Bool) : Option Term :=
  let k := pasteAt t after
  if t.yank = [] then some t
  else if t.cmdline.length < k then none
  else some (viSet e t (t.cmdline.take k ++ t.yank ++ t.cmdline.drop k) (k + t.yank.length - 1))

/-- `vi_command`. -/
def viCommand : Term := termLeft e { t with viCmd := true } 1

/-- What `r` makes of the line. -/
def viReplace (c : UInt8) (cnt : ℕ) : Option Term :=
  let len := t.cmdline.length
  let pos := t.pos
  if 32 ≤ c ∧ c < 128 ∧ (pos + cnt) % 2 ^ 64 ≤ len then
    if len < pos + cnt then none
    else
      some (viSet e t (t.cmdline.take pos ++ (List.replicate cnt c ++ t.cmdline.drop (pos + cnt))) (pos + cnt - 1))
  else some t

/-- The commands of `term_vimode` that are no motion and no operator; `cnt` is their count. -/
def viEdit (c : UInt8) (cnt : ℕ) : Option Term :=
  let len := t.cmdline.length
  let pos := t.pos
  match Char.ofNat c.toNat with
  | 'x' => some (viApply e t 'd' pos ((pos + cnt) % 2 ^ 64))
  | 'X' => some (viApply e t 'd' (pos - cnt) pos)
  | 'D' => some (viApply e t 'd' pos len)
  | 'C' => some (viApply e t 'c' pos len)
  | 's' => some (viApply e t 'c' pos ((pos + cnt) % 2 ^ 64))
  | 'S' => some (viApply e t 'c' 0 len)
  | 'p' => viPaste e t true
  | 'P' => viPaste e t false
  | 'i' => some { t with viCmd := false }
  | 'a' => some (termRight { t with viCmd := false } 1)
  | 'I' => some (termHome e { t with viCmd := false })
  | 'A' => some (termEnd e { t with viCmd := false })
  | 'r' =>
      match t.input with
      | [] => some t
      | k :: ks => viReplace e { t with input := ks } k.byte cnt
  | 'k' => historyPrev e t
  | 'j' => some (historyNext e t)
  | '/' => some (termSearch e t)
  | _ => some t

/-- An operator on what the motion `c` goes over. -/
def viOperate (op : Char) (c : UInt8) (cnt : ℕ) : Option Term :=
  let pos := t.pos
  let word := op = 'c' ∧ oneOf c "wW" ∧ pos < t.cmdline.length ∧ viClass (t.cmdline.getD pos 0) false ≠ 0
  let c := if word then (if c = 'w'.toUInt8 then 'e'.toUInt8 else 'E'.toUInt8) else c
  (viMotion t c cnt).map fun r =>
    if r.2.1 < 0 then r.1
    else if r.2.1.toNat < pos then viApply e r.1 op r.2.1.toNat pos
    else viApply e r.1 op pos (r.2.1.toNat + if r.2.2 then 1 else 0)

/-- The cursor goes to the target of a motion. -/
def viGo (pos target : ℕ) : Term :=
  if target < pos then termLeft e t (pos - target) else termRight t (target - pos)

/-- A motion, or a command that is none. -/
def viMove (c : UInt8) (cnt : ℕ) : Option Term :=
  let len := t.cmdline.length
  let pos := t.pos
  (viMotion t c cnt).bind fun r =>
    if 0 ≤ r.2.1 then
      let target := if len ≠ 0 ∧ len ≤ r.2.1.toNat then len - 1 else r.2.1.toNat
      some (viGo e r.1 pos target)
    else viEdit e r.1 c cnt

/-- `n ? n : 1`. -/
def atLeastOne (n : ℕ) : ℕ := if n = 0 then 1 else n

/-- `term_vimode`. -/
def termVimode (k : Key) : Option Term :=
  let r := viCount 0 k t.input
  let t' := { t with input := r.2.2 }
  if oneOf r.2.1.byte "dcy" then
    match r.2.2 with
    | [] => some t'
    | k :: ks =>
        let op := Char.ofNat r.2.1.byte.toNat
        let r' := viCount 0 k ks
        let t' := { t with input := r'.2.2 }
        let cnt := atLeastOne r.1 * atLeastOne r'.1 % 2 ^ 64
        if r'.2.1.byte = r.2.1.byte then some (viApply e t' op 0 t.cmdline.length)
        else viOperate e t' op r'.2.1.byte cnt
  else viMove e t' r.2.1.byte (atLeastOne r.1)

/-! ## What is seen -/

variable {e t} {s : Screen} {n : Bytes} {k : Key}

theorem Synced.set (h : Synced e t s) (hn : Printed n) (pos : ℕ) : Synced e (viSet e t n pos) s :=
  (h.setline hn).left _

theorem Synced.apply (h : Synced e t s) (op : Char) (a b : ℕ) : Synced e (viApply e t op a b) s := by
  have hyank : Printed ((t.cmdline.drop a).take (min b t.cmdline.length - a)) := (h.cmdline.drop _).take _
  have htaken : Synced e { t with
      yank := (t.cmdline.drop a).take (min b t.cmdline.length - a), viCmd := t.viCmd && op != 'c' } s :=
    { h with yank := hyank }
  rw [viApply]
  dsimp only
  split
  · exact h
  · split
    · exact (htaken.left _).right _
    · exact htaken.set ((h.cmdline.take _).append (h.cmdline.drop _)) _

theorem Synced.paste {after : Bool} {t' : Term} (h : Synced e t s) (ht : viPaste e t after = some t') :
    Synced e t' s := by
  rw [viPaste] at ht
  split at ht
  · obtain rfl := Option.some.inj ht
    exact h
  · split at ht
    · cases ht
    · obtain rfl := Option.some.inj ht
      exact h.set (((h.cmdline.take _).append h.yank).append (h.cmdline.drop _)) _

/-- A count takes keys from the front. -/
theorem viCount_suffix : ∀ (ks : List Key) (n : ℕ) (k : Key),
    (viCount n k ks).2.1 :: (viCount n k ks).2.2 <:+ k :: ks
  | [], n, k => by
      rw [viCount]
      split <;> exact List.suffix_rfl
  | k' :: ks, n, k => by
      rw [viCount]
      split
      · exact (viCount_suffix ks _ k').trans (List.suffix_cons k _)
      · exact List.suffix_rfl

/-- **A motion changes nothing but what `;` repeats and what is left of the keys.** -/
theorem Synced.motion {c : UInt8} {cnt : ℕ} {r : Term × ℤ × Bool} (h : Synced e t s)
    (hr : viMotion t c cnt = some r) : Synced e r.1 s ∧ (c = 'r'.toUInt8 → r.1 = t) := by
  rw [viMotion] at hr
  split at hr
  case isTrue hc =>
    have hne : c ≠ 'r'.toUInt8 := fun hr => by
      rw [hr] at hc
      exact Bool.false_ne_true hc
    cases hin : t.input with
    | nil =>
      rw [hin] at hr
      obtain rfl := Option.some.inj hr
      exact ⟨h, fun _ => rfl⟩
    | cons k ks =>
      rw [hin] at hr
      obtain rfl := Option.some.inj hr
      have hks : Typable ks := h.keys.suffix (hin ▸ List.suffix_cons k ks)
      exact ⟨{ h with keys := hks }, fun hc => absurd hc hne⟩
  case isFalse =>
    obtain ⟨x, -, rfl⟩ := Option.map_eq_some_iff.1 hr
    exact ⟨h, fun _ => rfl⟩

/-- **An operator keeps the terminal in step.** -/
theorem Synced.operate {op : Char} {c : UInt8} {cnt : ℕ} {t' : Term} (h : Synced e t s)
    (ht : viOperate e t op c cnt = some t') : Synced e t' s := by
  obtain ⟨r, hr, rfl⟩ := Option.map_eq_some_iff.1 ht
  have hmoved := (h.motion hr).1
  split
  · exact hmoved
  · split
    · exact hmoved.apply _ _ _
    · exact hmoved.apply _ _ _

/-- The character `r` takes, when the keys are characters. -/
theorem Typable.replacing {k : Key} {ks : List Key} {c : Key} (hk : Typable (c :: k :: ks))
    (hc : c.byte = 'r'.toUInt8) (hlow : 32 ≤ k.byte) : isPrint k.byte = true := by
  rcases hk.known k (.tail _ (.head _)) with hp | hm
  · exact hp
  · have hdel : ∀ d ∈ editKeys, 32 ≤ d → d = 127 := by simp [editKeys]
    refine absurd ⟨[], ks.map Key.byte, ?_⟩ hk.replaced
    rw [List.map_cons, List.map_cons, hc, hdel _ hm hlow]
    rfl

theorem Synced.replace {c : UInt8} {cnt : ℕ} {t' : Term} (h : Synced e t s) (hc : 32 ≤ c → isPrint c = true)
    (ht : viReplace e t c cnt = some t') : Synced e t' s := by
  rw [viReplace] at ht
  split at ht
  case isTrue hlow =>
    split at ht
    · cases ht
    · obtain rfl := Option.some.inj ht
      have hrep : Printed (List.replicate cnt c) := fun d hd => by
        rw [List.eq_of_mem_replicate hd]
        exact hc hlow.1
      exact h.set ((h.cmdline.take _).append (hrep.append (h.cmdline.drop _))) _
  case isFalse =>
    obtain rfl := Option.some.inj ht
    exact h

/-- A byte is the one of the character it stands for. -/
theorem byte_of_ofNat {c : UInt8} (h : Char.ofNat c.toNat = 'r') : c = 'r'.toUInt8 := by
  have hall : ∀ n : Fin 256, Char.ofNat n = 'r' → (.ofNat n : UInt8) = 'r'.toUInt8 := by decide +kernel
  have hc := hall ⟨c.toNat, c.toNat_lt⟩ h
  rwa [UInt8.ofNat_toNat] at hc

/-- **A single edit keeps the terminal in step.** -/
theorem Synced.edit {c : Key} {cnt : ℕ} {t' : Term} (h : Synced e t s) (he : e.Plain)
    (hc : c.byte = 'r'.toUInt8 → Typable (c :: t.input)) (ht : viEdit e t c.byte cnt = some t') :
    Synced e t' s := by
  have htyping : Synced e { t with viCmd := false } s := { h with }
  rw [viEdit] at ht
  split at ht
  case h_7 => exact h.paste ht
  case h_8 => exact h.paste ht
  case h_13 hr =>
    have hbyte := byte_of_ofNat hr
    split at ht
    case h_1 =>
      obtain rfl := Option.some.inj ht
      exact h
    case h_2 k ks hin =>
      have hkeys : Typable (c :: k :: ks) := hin ▸ hc hbyte
      have hks : Typable ks := hkeys.suffix ((List.suffix_cons k ks).trans (List.suffix_cons c _))
      exact Synced.replace (t := { t with input := ks }) { h with keys := hks } (hkeys.replacing hbyte) ht
  case h_14 => exact h.prev he ht
  all_goals obtain rfl := Option.some.inj ht
  case h_9 => exact htyping
  case h_10 => exact htyping.right 1
  case h_11 => exact htyping.home
  case h_12 => exact htyping.toEnd
  case h_15 => exact h.next he
  case h_16 => exact h.search he
  case h_17 => exact h
  all_goals exact h.apply _ _ _

theorem Synced.go (h : Synced e t s) (pos target : ℕ) : Synced e (viGo e t pos target) s := by
  rw [viGo]
  split
  · exact h.left _
  · exact h.right _

theorem Synced.move {c : Key} {cnt : ℕ} {t' : Term} (h : Synced e t s) (he : e.Plain)
    (hc : Typable (c :: t.input)) (ht : viMove e t c.byte cnt = some t') : Synced e t' s := by
  obtain ⟨r, hr, ht⟩ := Option.bind_eq_some_iff.1 ht
  obtain ⟨hmoved, hsame⟩ := h.motion hr
  split at ht
  case isTrue =>
    obtain rfl := Option.some.inj ht
    exact hmoved.go _ _
  case isFalse => exact hmoved.edit he (fun hbyte => (hsame hbyte).symm ▸ hc) ht

/-- **A command keeps the terminal in step.** -/
theorem Synced.vimode {t' : Term} (h : Synced e t s) (he : e.Plain) (hk : Typable (k :: t.input))
    (ht : termVimode e t k = some t') : Synced e t' s := by
  have hcount := viCount_suffix t.input 0 k
  have hrest : Typable (viCount 0 k t.input).2.2 := hk.suffix ((List.suffix_cons _ _).trans hcount)
  have htaken : Synced e { t with input := (viCount 0 k t.input).2.2 } s := { h with keys := hrest }
  rw [termVimode] at ht
  split at ht
  case isTrue =>
    split at ht
    case h_1 =>
      obtain rfl := Option.some.inj ht
      exact htaken
    case h_2 k' ks hks =>
      have hrest' : Typable (viCount 0 k' ks).2.2 :=
        hrest.suffix (((List.suffix_cons _ _).trans (viCount_suffix ks 0 k')).trans (hks ▸ List.suffix_rfl))
      have htaken' : Synced e { t with input := (viCount 0 k' ks).2.2 } s := { h with keys := hrest' }
      dsimp only at ht
      split at ht
      · obtain rfl := Option.some.inj ht
        exact htaken'.apply _ _ _
      · exact htaken'.operate ht
  case isFalse => exact htaken.move he (hk.suffix hcount) ht

end Shish
