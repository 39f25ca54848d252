import Shish.History.File
import Shish.Lib.Ring
import Shish.Lib.Run
import Shish.Scan

/-!
# History/Session — the commands of a session, in memory and on disk

`history_add` puts a command into the session's ring and appends it to the history file, as one line
whatever bytes it has.

The ring is rebuilt whenever `$HISTSIZE` asks for another capacity.  `scan_ulong` reads that into an
`unsigned long`, and the ring's own numbers are `unsigned int`s: as long as the capacity asked for
is not cut down to 0 or below the number of commands there are, and the sums of indices fit, the
ring holds the newest commands in order (`session_holds`).  What a run of `history_add` appends to
the file is read back as it was (`history_readBack`).
-/

namespace Shish

/-! ## One command, one line -/

/-- `history_encode`. -/
def historyEncode (s : Str) : Str :=
  s.flatMap fun c =>
    if c = '\\' then ['\\', '\\'] else if c = '\n' then ['\\', 'n']
    else if c = '\r' then ['\\', 'r'] else [c]

/-- `history_decode`: an escape it does not know keeps both bytes. -/
def historyDecode : Str → Str
  | [] => []
  | [c] => [c]
  | c :: d :: s =>
      if c = '\\' then
        if d = 'n' then '\n' :: historyDecode s
        else if d = 'r' then '\r' :: historyDecode s
        else if d = '\\' then '\\' :: historyDecode s
        else '\\' :: d :: historyDecode s
      else c :: historyDecode (d :: s)

theorem historyDecode_cons {c : Char} (hc : c ≠ '\\') (s : Str) :
    historyDecode (c :: s) = c :: historyDecode s := by
  cases s with
  | nil => rfl
  | cons d s => rw [historyDecode, if_neg hc]

/-- **Decoding undoes encoding.** -/
theorem historyDecode_encode : ∀ s, historyDecode (historyEncode s) = s
  | [] => rfl
  | c :: s => by
      have ih := historyDecode_encode s
      have hcons : historyEncode (c :: s) = (if c = '\\' then ['\\', '\\'] else
          if c = '\n' then ['\\', 'n'] else if c = '\r' then ['\\', 'r'] else [c]) ++
            historyEncode s := rfl
      rw [hcons]
      split_ifs with h₁ h₂ h₃
      · simp [historyDecode, ih, h₁]
      · simp [historyDecode, ih, h₂]
      · simp [historyDecode, ih, h₃]
      · exact (historyDecode_cons h₁ _).trans (congrArg (c :: ·) ih)

/-- **An encoded command is one line.** -/
theorem newline_notMem_historyEncode (s : Str) : '\n' ∉ historyEncode s := by
  simp only [historyEncode, List.mem_flatMap, not_exists, not_and]
  intro c _
  split_ifs with h₁ h₂ h₃ <;> simp
  exact fun h => h₂ h.symm

/-! ## The session -/

/-- `scan_ulong`: the number the digits in front make, without those that no longer fit. -/
def scanUlong (l : ℕ) : Str → ℕ
  | [] => l
  | c :: t =>
      if parseIsdigit c then
        let L := l * 10 + (c.toNat - 48)
        if L ≥ 2 ^ 64 then l else scanUlong L t
      else l

/-- The session ring (`history_session` and its numbers), `$HISTSIZE`, empty when it is not set, and
the history file. -/
structure History where
  histsize : Str
  ring : Ring Str
  file : Str

/-- The capacity `$HISTSIZE` asks for: `DEFAULT_HISTSIZE` when it is no number or 0. -/
def newcap (histsize : Str) : ℕ :=
  if scanUlong 0 histsize = 0 then 128 else scanUlong 0 histsize

/-- `history_session_resize`; `none` for an index taken modulo 0. -/
def historySessionResize (h : History) : Option History :=
  let newcap := newcap h.histsize
  let r := h.ring
  if newcap = r.cap then some h
  else
    let n := if r.count > newcap then newcap % 2 ^ 32 else r.count
    if r.cap = 0 ∧ r.count ≠ 0 then none
    else
      some { h with
        ring :=
          { slots := fun i =>
              if i < n then r.slots ((r.head + (r.count - n) + i) % 2 ^ 32 % r.cap) else none
            cap := newcap % 2 ^ 32
            count := n
            head := 0 } }

/-- `history_add`: a full ring gives its oldest command up. -/
def historyAdd (h : History) (s : Str) : Option History :=
  if s = [] then some h
  else do
    let h ← historySessionResize h
    if h.ring.cap = 0 then none
    else
      let r := h.ring
      let r := if r.count = r.cap then
          { r with
            slots := Function.update r.slots r.head none
            head := (r.head + 1) % 2 ^ 32 % r.cap
            count := r.count - 1 }
        else r
      let idx := (r.head + r.count) % 2 ^ 32 % r.cap
      some { h with
        ring :=
          { r with slots := Function.update r.slots idx (some s), count := (r.count + 1) % 2 ^ 32 }
        file := h.file ++ historyEncode s ++ ['\n'] }

/-- `history_clear`. -/
def historyClear (h : History) : Option History :=
  if h.ring.cap = 0 ∧ h.ring.count ≠ 0 then none
  else some { h with ring := { h.ring with slots := fun _ => none, count := 0, head := 0 } }

/-- `history_init`, as far as the session is concerned. -/
def historyStart (histsize file : Str) : Option History :=
  historySessionResize ⟨histsize, ⟨fun _ => none, 0, 0, 0⟩, file⟩

/-- What may happen to a session: a command is entered, `$HISTSIZE` is assigned, `history -c`. -/
inductive HistoryOp where
  | add (s : Str)
  | histsize (v : Str)
  | clear
  deriving DecidableEq

def historyStep (h : History) : HistoryOp → Option History
  | .add s => historyAdd h s
  | .histsize v => some { h with histsize := v }
  | .clear => historyClear h

/-! ## What it is for -/

/-- The ring's capacity for a value of `$HISTSIZE`. -/
def capFor (histsize : Str) : ℕ := newcap histsize % 2 ^ 32

/-- `$HISTSIZE` and the commands the session is to remember. -/
abbrev Recent := Str × List Str

/-- **A command is remembered behind the others**, of which the newest stay. -/
def recentStep (m : Recent) : HistoryOp → Recent
  | .add s => if s = [] then m else (m.1, (m.2 ++ [s]).rtake (capFor m.1))
  | .histsize v => (v, m.2)
  | .clear => (m.1, [])

def recent (histsize : Str) (ops : List HistoryOp) : Recent := ops.foldl recentStep (histsize, [])

/-- The sums of indices `history_add` computes in a full ring, or in one that is not. -/
def indexSum (r : Ring Str) : ℕ :=
  if r.count = r.cap then (r.head + 1) % r.cap + (r.cap - 1) else r.head + r.count

/-- **When `history_add` does its work**: the capacity asked for is not cut down to 0 or below the
number of commands that are kept, and the sums of indices fit an `unsigned int`. -/
def Fits (h : History) : HistoryOp → Prop
  | .add s => s ≠ [] →
      capFor h.histsize ≠ 0 ∧ min h.ring.count (newcap h.histsize) ≤ capFor h.histsize ∧
        if newcap h.histsize = h.ring.cap then indexSum h.ring < 2 ^ 32
        else h.ring.head + h.ring.count ≤ 2 ^ 32
  | _ => True

instance (h : History) : DecidablePred (Fits h)
  | .add s => inferInstanceAs (Decidable (s ≠ [] → _))
  | .histsize _ | .clear => isTrue trivial

/-! ## The ring holds them -/

section

variable {h : History} {m : Recent}

/-- **What a session keeps**: its ring holds the commands to be remembered, and its numbers are
those of an `unsigned int`. -/
structure Remembers (h : History) (m : Recent) : Prop where
  histsize : h.histsize = m.1
  holds : h.ring.Holds m.2
  cap_lt : h.ring.cap < 2 ^ 32

theorem newcap_pos (v : Str) : newcap v ≠ 0 := by
  unfold newcap
  split_ifs with h
  · decide
  · exact h

theorem capFor_of_fits {v : Str} {k : ℕ} (h : min k (newcap v) ≤ capFor v) :
    min k (newcap v) = min k (capFor v) := by
  have hle : capFor v ≤ newcap v := Nat.mod_le _ _
  have hlt : capFor v < 2 ^ 32 := Nat.mod_lt _ (by decide)
  rcases Nat.lt_or_ge (newcap v) (2 ^ 32) with hsmall | hbig
  · rw [capFor, Nat.mod_eq_of_lt hsmall]
  · omega

/-- In a ring that starts at its first slot the sums of indices fit. -/
theorem indexSum_start {r : Ring Str} (h0 : r.head = 0) (hle : r.count ≤ r.cap)
    (hlt : r.cap < 2 ^ 32) : indexSum r < 2 ^ 32 := by
  unfold indexSum
  split_ifs
  · have hone := Nat.mod_le (r.head + 1) r.cap
    omega
  · omega

/-- The ring behind `history_session_resize` is the old one rebuilt. -/
theorem historySessionResize_eq {l : List Str} (hold : h.ring.Holds l)
    (hcap : newcap h.histsize ≠ h.ring.cap) (hsum : h.ring.head + h.ring.count ≤ 2 ^ 32)
    (hmin : min h.ring.count (newcap h.histsize) ≤ capFor h.histsize) :
    historySessionResize h = some { h with
      ring := h.ring.rebuild (min h.ring.count (capFor h.histsize)) (capFor h.histsize) } := by
  have hpos : h.ring.cap ≠ 0 := Nat.ne_of_gt (Nat.lt_of_le_of_lt (Nat.zero_le _) hold.head_lt)
  have hmin' := capFor_of_fits hmin
  have hlt : capFor h.histsize < 2 ^ 32 := Nat.mod_lt _ (by decide)
  have hn : (if h.ring.count > newcap h.histsize then newcap h.histsize % 2 ^ 32 else h.ring.count) =
      min h.ring.count (capFor h.histsize) := by
    split_ifs with hgt
    · change capFor h.histsize = _
      omega
    · omega
  unfold historySessionResize
  simp only [if_neg hcap, hn]
  rw [if_neg fun hz => hpos hz.1]
  congr 2
  unfold Ring.rebuild
  congr 1
  funext i
  split_ifs with hi
  · rw [Ring.slot, Nat.mod_eq_of_lt (a := h.ring.head + _ + _) (by omega), Nat.add_assoc]
  · rfl

/-- **Resizing keeps the newest commands**, all of them when there is room. -/
theorem Remembers.resize (hr : Remembers h m) {s : Str} (hs : s ≠ []) (hf : Fits h (.add s)) :
    ∃ h', historySessionResize h = some h' ∧ Remembers h' (m.1, m.2.rtake (capFor m.1)) ∧
      h'.ring.cap = capFor m.1 ∧ indexSum h'.ring < 2 ^ 32 ∧ h'.file = h.file := by
  obtain ⟨hc0, hmin, hsum⟩ := hf hs
  have hlen := hr.holds.length
  have hle := hr.holds.le_cap
  have hhead := hr.holds.head_lt
  have hlt : capFor h.histsize < 2 ^ 32 := Nat.mod_lt _ (by decide)
  rw [← hr.histsize]
  by_cases hcap : newcap h.histsize = h.ring.cap
  · have hsame : capFor h.histsize = h.ring.cap := by
      rw [capFor, hcap, Nat.mod_eq_of_lt hr.cap_lt]
    rw [if_pos hcap] at hsum
    refine ⟨h, if_pos hcap, ⟨rfl, ?_, hr.cap_lt⟩, hsame.symm, hsum, rfl⟩
    rw [List.rtake, hsame, Nat.sub_eq_zero_of_le (by omega), List.drop_zero]
    exact hr.holds
  · rw [if_neg hcap] at hsum
    refine ⟨_, historySessionResize_eq hr.holds hcap hsum hmin, ⟨rfl, ?_, hlt⟩, rfl, ?_, rfl⟩
    · have hdrop : m.2.rtake (min h.ring.count (capFor h.histsize)) =
          m.2.rtake (capFor h.histsize) := by
        unfold List.rtake
        congr 1
        omega
      rw [← hdrop]
      exact hr.holds.rebuild (Nat.min_le_left _ _) (Nat.min_le_right _ _) (Nat.pos_of_ne_zero hc0)
    · exact indexSum_start rfl (Nat.min_le_right _ _) hlt

/-- A command goes behind the others, of which the oldest goes when there are as many as fit. -/
theorem Ring.Holds.push {r : Ring Str} {l : List Str} (hl : r.Holds l) (hcap : r.cap < 2 ^ 32)
    (hsum : indexSum r < 2 ^ 32) (s : Str) :
    let r' := if r.count = r.cap then
        { r with
          slots := Function.update r.slots r.head none
          head := (r.head + 1) % 2 ^ 32 % r.cap
          count := r.count - 1 }
      else r
    let idx := (r'.head + r'.count) % 2 ^ 32 % r'.cap
    Ring.Holds { r' with slots := Function.update r'.slots idx (some s), count := (r'.count + 1) % 2 ^ 32 }
      ((l ++ [s]).rtake r.cap) ∧ r'.cap = r.cap := by
  have hhead := hl.head_lt
  have hlen := hl.length
  have hle := hl.le_cap
  dsimp only
  by_cases hfull : r.count = r.cap
  · simp only [if_pos hfull]
    rw [indexSum, if_pos hfull] at hsum
    obtain ⟨a, l, rfl⟩ := List.exists_cons_of_length_pos (by omega : 0 < l.length)
    have hmod : (r.head + 1) % 2 ^ 32 = r.head + 1 := Nat.mod_eq_of_lt (by omega)
    have hmod' : ((r.head + 1) % r.cap + (r.count - 1)) % 2 ^ 32 =
        (r.head + 1) % r.cap + (r.count - 1) := Nat.mod_eq_of_lt (by omega)
    have hcount : (r.count - 1 + 1) % 2 ^ 32 = r.count - 1 + 1 := Nat.mod_eq_of_lt (by omega)
    have htake : (a :: l ++ [s]).rtake r.cap = l ++ [s] := by
      rw [List.length_cons] at hlen
      rw [List.rtake, List.cons_append, List.length_cons, List.length_append, List.length_singleton,
        show l.length + 1 + 1 - r.cap = 1 by omega]
      rfl
    rw [hmod, hmod', hcount, htake]
    exact ⟨hl.dropFirst.put (show r.count - 1 < r.cap by omega) s, trivial⟩
  · simp only [if_neg hfull]
    rw [indexSum, if_neg hfull] at hsum
    have hcount : (r.count + 1) % 2 ^ 32 = r.count + 1 := Nat.mod_eq_of_lt (by omega)
    have htake : (l ++ [s]).rtake r.cap = l ++ [s] := by
      rw [List.rtake, List.length_append, List.length_singleton,
        Nat.sub_eq_zero_of_le (by omega), List.drop_zero]
    rw [Nat.mod_eq_of_lt hsum, hcount, htake]
    exact ⟨hl.put (by omega) s, trivial⟩

/-- What `history_add` leaves in the file. -/
theorem historyAdd_file {h' : History} {s : Str} (hs : s ≠ []) (ha : historyAdd h s = some h') :
    h'.file = h.file ++ historyEncode s ++ ['\n'] := by
  rw [historyAdd, if_neg hs] at ha
  obtain ⟨h₁, hres, ha⟩ := Option.bind_eq_some_iff.1 ha
  have hfile : h₁.file = h.file := by
    unfold historySessionResize at hres
    simp only at hres
    split_ifs at hres <;> exact Option.some.inj hres ▸ rfl
  dsimp only at ha
  by_cases hcap : h₁.ring.cap = 0
  · simp [hcap] at ha
  · rw [if_neg hcap] at ha
    rw [← Option.some.inj ha, ← hfile]

theorem rtake_rtake_append {l : List Str} {k : ℕ} (hk : k ≠ 0) (s : Str) :
    (l.rtake k ++ [s]).rtake k = (l ++ [s]).rtake k := by
  obtain ⟨k, rfl⟩ := Nat.exists_eq_succ_of_ne_zero hk
  rw [List.rtake_concat_succ, List.rtake_concat_succ]
  congr 1
  simp only [List.rtake, List.length_drop, List.drop_drop]
  congr 1
  omega

/-- **A command is entered.** -/
theorem Remembers.add (hr : Remembers h m) {s : Str} (hf : Fits h (.add s)) :
    ∃ h', historyAdd h s = some h' ∧ Remembers h' (recentStep m (.add s)) := by
  by_cases hs : s = []
  · refine ⟨h, if_pos hs, ?_⟩
    rwa [recentStep, if_pos hs]
  obtain ⟨h₁, hres, hr₁, hcap, hsum, -⟩ := hr.resize hs hf
  have hc0 : capFor m.1 ≠ 0 := hr.histsize ▸ (hf hs).1
  obtain ⟨hpush, hcap'⟩ := hr₁.holds.push hr₁.cap_lt hsum s
  have hkept : (m.2.rtake (capFor m.1) ++ [s]).rtake h₁.ring.cap =
      (m.2 ++ [s]).rtake (capFor m.1) := by
    rw [hcap, rtake_rtake_append hc0]
  rw [hkept] at hpush
  rw [historyAdd, if_neg hs, hres]
  refine ⟨_, if_neg (by rw [hcap]; exact hc0), ?_⟩
  rw [recentStep, if_neg hs]
  exact ⟨hr₁.histsize, hpush, (hcap'.trans_lt hr₁.cap_lt)⟩

/-- **Every step keeps what the session remembers**, and none takes an index modulo 0. -/
theorem Remembers.step (hr : Remembers h m) {op : HistoryOp} (hf : Fits h op) :
    ∃ h', historyStep h op = some h' ∧ Remembers h' (recentStep m op) := by
  have hhead := hr.holds.head_lt
  cases op with
  | add s => exact hr.add hf
  | histsize v => exact ⟨_, rfl, rfl, hr.holds, hr.cap_lt⟩
  | clear =>
    refine ⟨_, if_neg fun hz => by omega, hr.histsize, ⟨?_, Nat.zero_le _, rfl, nofun⟩, hr.cap_lt⟩
    exact Nat.lt_of_le_of_lt (Nat.zero_le _) hhead

theorem Remembers.run : ∀ {ops : List HistoryOp} {h : History} {m : Recent}, Remembers h m →
    Along historyStep Fits h ops →
      ∃ h', runs historyStep h ops = some h' ∧ Remembers h' (ops.foldl recentStep m)
  | [], h, _, hr, _ => ⟨h, rfl, hr⟩
  | op :: ops, h, m, hr, ⟨hf, hrest⟩ => by
      obtain ⟨h₁, hstep, hr₁⟩ := hr.step hf
      obtain ⟨h', hrun, hr'⟩ := hr₁.run (hrest h₁ hstep)
      exact ⟨h', by rw [runs, hstep, Option.bind_some, hrun], hr'⟩

theorem historyStart_remembers {v : Str} (hv : capFor v ≠ 0) (file : Str) :
    ∃ h, historyStart v file = some h ∧ Remembers h (v, []) ∧ h.file = file := by
  have hcap : newcap v ≠ 0 := newcap_pos v
  have hstart : historyStart v file = some ⟨v, ⟨fun _ => none, capFor v, 0, 0⟩, file⟩ := by
    simp only [historyStart, historySessionResize, if_neg hcap]
    rfl
  refine ⟨_, hstart, ⟨rfl, ⟨Nat.pos_of_ne_zero hv, Nat.zero_le _, rfl, ?_⟩, ?_⟩, rfl⟩
  · exact fun i hi => absurd hi (Nat.not_lt_zero i)
  · exact Nat.mod_lt _ (by decide)

/-- The commands entered since the session began or was cleared. -/
def entered : List HistoryOp → List Str
  | [] => []
  | .add s :: ops => if HistoryOp.clear ∈ ops ∨ s = [] then entered ops else s :: entered ops
  | _ :: ops => entered ops

/-- What is remembered is the end of what was entered. -/
theorem recent_suffix (ops : List HistoryOp) (m : Recent) :
    (ops.foldl recentStep m).2 <:+ (if HistoryOp.clear ∈ ops then [] else m.2) ++ entered ops := by
  induction ops generalizing m with
  | nil => simp [entered]
  | cons op ops ih =>
    have ih := ih (recentStep m op)
    by_cases hc : HistoryOp.clear ∈ ops
    · simp only [hc, List.mem_cons, or_true, if_true, List.nil_append] at ih ⊢
      cases op <;> simpa [entered, hc] using ih
    simp only [hc, if_false] at ih
    cases op with
    | histsize v => simpa [entered, hc, recentStep] using ih
    | clear => simpa [entered, recentStep] using ih
    | add s =>
      by_cases hs : s = []
      · simpa [entered, hc, recentStep, hs] using ih
      · simp only [recentStep, if_neg hs] at ih
        simp only [entered, hc, hs, List.mem_cons, reduceCtorEq, or_self, if_false, List.foldl_cons,
          recentStep]
        refine ih.trans ?_
        have hsuf := (List.drop_suffix ((m.2 ++ [s]).length - capFor m.1) (m.2 ++ [s]))
        obtain ⟨front, hfront⟩ := hsuf
        refine ⟨front, ?_⟩
        rw [← List.append_assoc, List.rtake, hfront]
        simp

/-- **The session ring.**  In a session whose additions all fit, no index is taken modulo 0, the
ring's capacity is positive and its indices are in range, and it holds the newest commands, oldest
first: those that `recent` says, the end of what was entered. -/
theorem session_holds {v : Str} {file : Str} {h₀ : History} {ops : List HistoryOp}
    (hv : capFor v ≠ 0) (h0 : historyStart v file = some h₀) (hok : Along historyStep Fits h₀ ops) :
    ∃ h, runs historyStep h₀ ops = some h ∧ 0 < h.ring.cap ∧ h.ring.head < h.ring.cap ∧
      h.ring.count ≤ h.ring.cap ∧ h.ring.items = (recent v ops).2.map some ∧
      (recent v ops).2.length = h.ring.count ∧ (recent v ops).2 <:+ entered ops := by
  obtain ⟨h₁, hs, hr, -⟩ := historyStart_remembers hv file
  obtain rfl := Option.some.inj (h0.symm.trans hs)
  obtain ⟨h, hrun, hr'⟩ := hr.run hok
  have hhead := hr'.holds.head_lt
  refine ⟨h, hrun, by omega, hhead, hr'.holds.le_cap, hr'.holds.items, hr'.holds.length, ?_⟩
  have hsuf := recent_suffix ops (v, [])
  split_ifs at hsuf <;> exact hsuf

/-- With `HISTSIZE` unset, then 1. -/
theorem session_holds_one : ∃ h₀ h, historyStart [] [] = some h₀ ∧
    runs historyStep h₀ [.add ['a'], .histsize ['1'], .add ['b'], .add ['c']] = some h ∧
    0 < h.ring.cap ∧ h.ring.items = [some ['c']] := by
  obtain ⟨h₀, h0⟩ : ∃ h₀, historyStart [] [] = some h₀ := ⟨_, rfl⟩
  have hok : (historyStart [] []).all fun h₀ => decide (Along historyStep Fits h₀
      [.add ['a'], .histsize ['1'], .add ['b'], .add ['c']]) := by decide
  rw [h0, Option.all_some, decide_eq_true_eq] at hok
  obtain ⟨h, hrun, hcap, -, -, hitems, -⟩ := session_holds (by decide) h0 hok
  exact ⟨h₀, h, h0, hrun, hcap, hitems⟩

/-- **`HISTSIZE=4294967296` makes the capacity 0**, and the next command takes an index modulo it. -/
theorem session_divides : ∃ h₀ h, historyStart [] [] = some h₀ ∧
    runs historyStep h₀ [.histsize "4294967296".toList] = some h ∧
    historyStep h (.add ['a']) = none := by
  refine ⟨_, _, rfl, rfl, ?_⟩
  exact Option.isNone_iff_eq_none.1 (by decide)

/-! ## Reading the file back -/

/-- The loop of a caller of `history_file_next` that decodes every entry. -/
def historyRead (map : Str) (n pos : ℕ) : Option (List Str) :=
  (historyForward map n pos).map (List.map historyDecode)

theorem historyRead_gives (map : Str) (pos : ℕ) :
    Gives (historyRead map) pos ((lines '\n' (map.drop pos)).map historyDecode) := by
  obtain ⟨N, hN⟩ := historyFileNext_gives map pos
  exact ⟨N, fun n hn => by simp only [historyRead, hN n hn, Option.map_some]⟩

/-- What a run of `history_add` leaves in the file. -/
theorem runs_historyAdd_file : ∀ {cmds : List Str} {h h' : History}, (∀ s ∈ cmds, s ≠ []) →
    runs historyAdd h cmds = some h' →
      h'.file = h.file ++ unlines '\n' (cmds.map historyEncode)
  | [], h, h', _, hrun => by
      obtain rfl := Option.some.inj hrun
      exact (List.append_nil _).symm
  | s :: cmds, h, h', hne, hrun => by
      obtain ⟨h₁, ha, hrun⟩ := Option.bind_eq_some_iff.1 hrun
      rw [runs_historyAdd_file (fun t ht => hne t (.tail _ ht)) hrun,
        historyAdd_file (hne s (.head _)) ha]
      simp [unlines]

/-- **What is added is read back.**  The commands a run of `history_add` appends to a history file
that is empty or ends with a newline are, decoded, the entries `history_file_next` finds behind the
ones that were there. -/
theorem history_readBack {h h' : History} {cmds : List Str}
    (hfile : h.file = [] ∨ h.file.getLast? = some '\n') (hne : ∀ s ∈ cmds, s ≠ [])
    (hrun : runs historyAdd h cmds = some h') :
    Gives (historyRead h'.file) h.file.length cmds ∧
      ∀ old, Gives (historyRead h.file) 0 old → Gives (historyRead h'.file) 0 (old ++ cmds) := by
  have hadd := runs_historyAdd_file hne hrun
  have hdecode : (cmds.map historyEncode).map historyDecode = cmds := by
    rw [List.map_map]
    exact (List.map_congr_left fun s _ => historyDecode_encode s).trans (List.map_id cmds)
  have hlines : ∀ l ∈ cmds.map historyEncode, '\n' ∉ l := by
    intro l hl
    obtain ⟨s, -, rfl⟩ := List.mem_map.1 hl
    exact newline_notMem_historyEncode s
  have hnew : lines '\n' (unlines '\n' (cmds.map historyEncode)) = cmds.map historyEncode := by
    simpa using lines_unlines hlines []
  constructor
  · have := historyRead_gives h'.file h.file.length
    rwa [hadd, List.drop_left, hnew, hdecode, ← hadd] at this
  · intro old hold
    have heq := hold.unique (historyRead_gives h.file 0)
    have hread := historyRead_gives h'.file 0
    rw [List.drop_zero] at heq hread
    have hall : lines '\n' h'.file = lines '\n' h.file ++ cmds.map historyEncode := by
      rw [hadd]
      conv_lhs => rw [← unlines_lines hfile]
      rw [lines_unlines (newline_notMem_lines h.file), hnew]
    rwa [hall, List.map_append, hdecode, ← heq] at hread

/-- A command with a newline in it and one that ends in a backslash, added to a file with an entry. -/
theorem history_readBack_two : ∃ h h' : History, h.file = "ls\n".toList ∧
    runs historyAdd h ["a\nb".toList, "c\\".toList] = some h' ∧
    Gives (historyRead h'.file) 3 ["a\nb".toList, "c\\".toList] := by
  obtain ⟨h, h0⟩ : ∃ h, historyStart [] "ls\n".toList = some h := ⟨_, rfl⟩
  have hfile : h.file = "ls\n".toList := by
    obtain rfl := Option.some.inj h0
    rfl
  have hrun : ((historyStart [] "ls\n".toList).bind fun h =>
      runs historyAdd h ["a\nb".toList, "c\\".toList]).isSome := by decide
  rw [h0, Option.bind_some] at hrun
  obtain ⟨h', hrun⟩ := Option.isSome_iff_exists.1 hrun
  have hread := (history_readBack (by rw [hfile]; exact .inr rfl) (by decide) hrun).1
  rw [hfile] at hread
  exact ⟨h, h', hfile, hrun, hread⟩

end

end Shish
