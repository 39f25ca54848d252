import Shish.Lib.Split
import Shish.Wordlist.Cat

/-!
# Wordlist/Keeps — what the calls on a wordlist preserve

Without literal text and globbing every call is made of four steps: a field is opened, text is
appended to the open field, the open field is closed, and the last closed field is given up if it
is pending.  `Keeps` collects what a property has to satisfy at each, and `Keeps.cat` and its
siblings carry it through the calls.
-/

namespace Shish

namespace Wordlist

/-- The closed fields. -/
def fields (wl : Wordlist) : List Str := (List.range wl.n).map fun i => (wl.v i).getD []

/-- There is an open field. -/
def isOpen (wl : Wordlist) : Bool := wl.has && !wl.closed

/-- The bits that keep an empty field. -/
def keep (wl : Wordlist) : Bool := wl.state.quoted || wl.state.nosplit || wl.state.split

/-- Appends text to the open field. -/
def extend (b : Str) (flags : XFlags) (wl : Wordlist) : Wordlist :=
  { wl with cur := wl.cur ++ b, state := wl.state.or flags }

/-- Closes the open field as it is. -/
def freeze (wl : Wordlist) : Wordlist := { wl.push with closed := true }

variable {wl : Wordlist}

@[simp] theorem push_n : wl.push.n = wl.n + 1 := rfl

theorem push_v_lt {i : ℕ} (hi : i < wl.n) : wl.push.v i = wl.v i := by
  simp only [push]
  rw [if_neg (by omega), if_neg (by omega), if_neg (by omega)]

@[simp] theorem push_v_last : wl.push.v wl.n = some wl.cur := by simp [push]

@[simp] theorem push_v_n : wl.push.v (wl.n + 1) = none := by simp [push]

theorem fields_push : wl.push.fields = wl.fields ++ [wl.cur] := by
  simp only [fields, push_n, List.range_succ, List.map_append, List.map_cons, List.map_nil]
  congr 1
  · exact List.map_congr_left fun i hi => by rw [push_v_lt (List.mem_range.1 hi)]
  · simp

theorem fields_drop : wl.drop.fields = wl.fields.dropLast := by
  have h : wl.drop.fields = (List.range (wl.n - 1)).map fun i => (wl.v i).getD [] := by
    refine List.map_congr_left fun i hi => ?_
    have hi : i < wl.n - 1 := List.mem_range.1 hi
    simp only [drop]
    rw [if_neg (by omega)]
  rw [h, fields]
  cases wl.n with
  | zero => rfl
  | succ n => rw [List.range_succ, List.map_append]; simp

theorem fields_freeze : wl.freeze.fields = wl.fields ++ [wl.cur] := fields_push

theorem fields_leave : wl.leave.fields = if wl.pend then wl.fields.dropLast else wl.fields := by
  unfold leave settle
  split_ifs
  · exact fields_drop
  · rfl

@[simp] theorem fields_extend (b : Str) (flags : XFlags) : (wl.extend b flags).fields = wl.fields := rfl

@[simp] theorem fields_start : wl.start.fields = wl.fields := by
  unfold start
  split_ifs <;> rfl

@[simp] theorem length_fields : wl.fields.length = wl.n := by simp [fields]

/-- **Consistency**, as far as neither literal text nor globbing is involved. -/
structure Ok (wl : Wordlist) : Prop where
  str : wl.str = false
  room : wl.n < wl.a
  null : wl.v wl.n = none
  slots : ∀ i < wl.n, (wl.v i).isSome
  mark : wl.mark ≤ wl.n
  has : wl.closed → wl.has
  cur : wl.isOpen = false → wl.cur = []
  closed : wl.closed → wl.mark < wl.n
  pend : wl.pend → wl.closed ∧ wl.v (wl.n - 1) = some []
  last : wl.closed → wl.pend = false → wl.v (wl.n - 1) = some [] → wl.keep
  literal : wl.state.literal = false
  glob : wl.state.glob = false
  globres : wl.state.globres → wl.noglob

end Wordlist

/-- Flags of a chunk that is no literal text and is not globbed; a quoted chunk of a pattern would
be escaped. -/
structure XFlags.Plain (flags : XFlags) (noglob : Bool) : Prop where
  literal : flags.literal = false
  glob : flags.glob = false
  globres : flags.globres → noglob
  pattern : flags.quoted → flags.pattern = false

namespace Wordlist

variable {wl : Wordlist} {flags : XFlags} {b t : Str}

theorem isOpen_iff : wl.isOpen ↔ wl.has ∧ wl.closed = false := by
  simp [isOpen]

theorem isOpen_start : wl.start.isOpen := by
  unfold start
  split_ifs <;> simp_all [isOpen, sibling]

theorem start_eq_self (h : wl.isOpen) : wl.start = wl := by
  obtain ⟨h, h'⟩ := isOpen_iff.1 h
  simp [start, h, h']

theorem start_eq_sibling (h : wl.has) (h' : wl.closed) : wl.start = wl.sibling := by
  simp [start, h, h']

theorem Ok.not_closed (h : wl.Ok) (hh : wl.has = false) : wl.closed = false := by
  by_contra hc
  exact absurd (h.has (by simpa using hc)) (by simp [hh])

theorem Ok.start (h : wl.Ok) : wl.start.Ok := by
  unfold Wordlist.start
  split_ifs with hh hc
  · have hc := h.not_closed (by simpa using hh)
    have hp : wl.pend = false := by
      by_contra hp
      exact absurd (h.pend (by simpa using hp)).1 (by simp [hc])
    exact { h with
      has := nofun
      cur := fun _ => rfl
      closed := nofun
      pend := fun hp' => absurd hp' (by simp [hp])
      last := nofun
      literal := rfl
      glob := rfl
      globres := nofun }
  · exact { h with
      has := nofun
      cur := fun _ => rfl
      closed := nofun
      pend := nofun
      last := nofun
      literal := rfl
      glob := rfl
      globres := nofun }
  · exact h

theorem Ok.extend (h : wl.Ok) (ho : wl.isOpen) (hf : flags.Plain wl.noglob) :
    (wl.extend b flags).Ok := by
  have hc : wl.closed = false := (isOpen_iff.1 ho).2
  exact { h with
    cur := fun hn => absurd (ho.symm.trans hn) nofun
    last := fun hc' => absurd hc' (by simp [Wordlist.extend, hc])
    literal := by simp [Wordlist.extend, XFlags.or, h.literal, hf.literal]
    glob := by simp [Wordlist.extend, XFlags.or, h.glob, hf.glob]
    globres := by
      simp only [Wordlist.extend, XFlags.or, Bool.or_eq_true]
      exact fun hg => hg.elim h.globres hf.globres }

theorem Ok.freeze (h : wl.Ok) (ho : wl.isOpen) : wl.freeze.Ok := by
  have hroom := h.room
  have hmark := h.mark
  exact {
    str := h.str
    room := by
      simp only [Wordlist.freeze, push]
      split_ifs <;> omega
    null := push_v_n
    slots := by
      intro i hi
      change (wl.push.v i).isSome
      rcases Nat.lt_succ_iff_lt_or_eq.1 hi with hi | rfl
      · rw [push_v_lt hi]
        exact h.slots i hi
      · rw [push_v_last]
        rfl
    mark := Nat.le_succ_of_le hmark
    has := fun _ => (isOpen_iff.1 ho).1
    cur := fun _ => rfl
    closed := fun _ => Nat.lt_succ_of_le hmark
    pend := by
      intro hp
      change (wl.cur.isEmpty && !wl.keep) = true at hp
      refine ⟨rfl, push_v_last.trans ?_⟩
      simp_all
    last := by
      intro _ hp hv
      change (wl.cur.isEmpty && !wl.keep) = false at hp
      have hcur : wl.cur = [] := Option.some.inj (push_v_last.symm.trans hv)
      change wl.keep = true
      simpa [hcur] using hp
    literal := h.literal
    glob := h.glob
    globres := h.globres }

theorem Ok.leave (h : wl.Ok) (hc : wl.closed) : wl.leave.Ok := by
  have hroom := h.room
  have hmark := h.closed hc
  have hcur : wl.cur = [] := h.cur (by simp [isOpen, hc])
  unfold Wordlist.leave settle
  split_ifs with hp
  · exact {
      str := h.str
      room := by
        change wl.n - 1 < wl.a
        omega
      null := by simp [drop]
      slots := by
        intro i hi
        change i < wl.n - 1 at hi
        simp only [drop]
        rw [if_neg (by omega)]
        exact h.slots i (by omega)
      mark := by
        change wl.mark ≤ wl.n - 1
        omega
      has := nofun
      cur := fun _ => hcur
      closed := nofun
      pend := nofun
      last := nofun
      literal := h.literal
      glob := h.glob
      globres := h.globres }
  · exact { h with
      has := nofun
      cur := fun _ => hcur
      closed := nofun
      pend := fun hp' => absurd hp' hp
      last := nofun }

/-- Without globbing and literal text a field is closed as it is. -/
theorem finish_eq (hf : flags.Plain wl.noglob) : wl.finish flags = wl.freeze := by
  unfold finish freeze
  rw [hf.glob, hf.literal]
  by_cases hg : flags.globres
  · simp [hg, Wordlist.glob, hf.globres hg]
  · simp [hg]

/-! ## The calls as steps -/

@[simp] theorem start_ifs : wl.start.ifs = wl.ifs := by
  unfold start
  split_ifs <;> rfl

@[simp] theorem start_noglob : wl.start.noglob = wl.noglob := by
  unfold start
  split_ifs <;> rfl

@[simp] theorem leave_ifs : wl.leave.ifs = wl.ifs := by
  unfold leave settle
  split_ifs <;> rfl

@[simp] theorem leave_noglob : wl.leave.noglob = wl.noglob := by
  unfold leave settle
  split_ifs <;> rfl

theorem catText_eq {haveField : Bool} (hopen : haveField → wl.isOpen) (hb : b ≠ []) :
    catText flags haveField b wl = wl.start.extend b flags := by
  cases haveField with
  | true => simp [catText, hb, start_eq_self (hopen rfl), extend]
  | false => simp [catText, hb, extend]

/-- An empty chunk of text does nothing. -/
theorem catText_nil {haveField : Bool} : catText flags haveField [] wl = wl := rfl

/-- A chunk without a character of `ifs`. -/
theorem catLoop_text {haveField : Bool} (hb : ∀ c ∈ b, isIfs wl.ifs c = false) :
    catLoop flags haveField b wl = catText flags haveField b wl := by
  have hdrop : b.dropWhile (!isIfs wl.ifs ·) = [] := by
    rw [List.dropWhile_eq_nil_iff]
    simpa using hb
  rw [catLoop]
  split
  · rfl
  · rename_i h
    rw [hdrop] at h
    cases h

/-- **Text, a run of characters of `ifs` and the rest.** -/
theorem catLoop_run {haveField : Bool} {x r y : Str} (hx : ∀ c ∈ x, isIfs wl.ifs c = false)
    (hr : ∀ c ∈ r, isIfs wl.ifs c) (hr' : r ≠ []) (hy : ∀ c ∈ y.head?, isIfs wl.ifs c = false) :
    catLoop flags haveField (x ++ (r ++ y)) wl =
      catLoop flags false y (catRun flags (haveField || !x.isEmpty) (r.countP (!isWs wl.ifs ·))
        (catText flags haveField x wl)) := by
  obtain ⟨c, t, rfl⟩ := List.exists_cons_of_ne_nil hr'
  have hx' : ∀ a ∈ x, (!isIfs wl.ifs a) = true := by simpa using hx
  have hhead : ∀ a ∈ ((c :: t) ++ y).head?, (!isIfs wl.ifs a) = false := by
    simpa using hr c List.mem_cons_self
  have hdrop : (x ++ ((c :: t) ++ y)).dropWhile (!isIfs wl.ifs ·) = c :: (t ++ y) :=
    dropWhile_append_of hx' hhead
  have htake : (x ++ ((c :: t) ++ y)).takeWhile (!isIfs wl.ifs ·) = x :=
    takeWhile_append_of hx' hhead
  rw [catLoop]
  split
  · rename_i h
    rw [hdrop] at h
    cases h
  · rename_i c' t' h
    rw [hdrop] at h
    obtain ⟨rfl, rfl⟩ := List.cons.inj h
    have hrun : (c :: (t ++ y)).takeWhile (isIfs wl.ifs) = c :: t :=
      takeWhile_append_of (x := c :: t) hr hy
    simp only [htake, hrun]
    rw [dropWhile_append_of (fun a ha => hr a (List.mem_cons_of_mem _ ha)) hy]

/-- What a property has to satisfy at each step; `t` is the text so far. -/
structure Keeps (P : Str → Wordlist → Prop) : Prop where
  start : ∀ {t wl}, wl.Ok → P t wl → P t wl.start
  extend : ∀ {t wl b flags}, wl.Ok → wl.isOpen → P t wl → P (t ++ b) (wl.extend b flags)
  freeze : ∀ {t wl}, wl.Ok → wl.isOpen → P t wl → P t wl.freeze
  leave : ∀ {t wl}, wl.Ok → wl.closed → P t wl → P t wl.leave

/-- A property, of a consistent wordlist with the given `ifs`. -/
structure Holds (P : Str → Wordlist → Prop) (ifs : Str) (noglob : Bool) (t : Str) (wl : Wordlist) :
    Prop where
  ok : wl.Ok
  ifs : wl.ifs = ifs
  noglob : wl.noglob = noglob
  prop : P t wl

section Holds

variable {P : Str → Wordlist → Prop} {ifs : Str} {noglob : Bool}

theorem Holds.start (h : Holds P ifs noglob t wl) (K : Keeps P) : Holds P ifs noglob t wl.start :=
  ⟨h.ok.start, start_ifs.trans h.ifs, start_noglob.trans h.noglob, K.start h.ok h.prop⟩

theorem Holds.extend (h : Holds P ifs noglob t wl) (K : Keeps P) (ho : wl.isOpen)
    (hf : flags.Plain noglob) : Holds P ifs noglob (t ++ b) (wl.extend b flags) :=
  ⟨h.ok.extend ho (h.noglob ▸ hf), h.ifs, h.noglob, K.extend h.ok ho h.prop⟩

theorem Holds.freeze (h : Holds P ifs noglob t wl) (K : Keeps P) (ho : wl.isOpen) :
    Holds P ifs noglob t wl.freeze :=
  ⟨h.ok.freeze ho, h.ifs, h.noglob, K.freeze h.ok ho h.prop⟩

theorem Holds.leave (h : Holds P ifs noglob t wl) (K : Keeps P) (hc : wl.closed) :
    Holds P ifs noglob t wl.leave :=
  ⟨h.ok.leave hc, leave_ifs.trans h.ifs, leave_noglob.trans h.noglob, K.leave h.ok hc h.prop⟩

theorem Holds.catText (h : Holds P ifs noglob t wl) (K : Keeps P) (hf : flags.Plain noglob)
    {haveField : Bool} (hopen : haveField → wl.isOpen) :
    Holds P ifs noglob (t ++ b) (catText flags haveField b wl) ∧
      (haveField || !b.isEmpty → (catText flags haveField b wl).isOpen) := by
  rcases eq_or_ne b [] with rfl | hb
  · simpa [catText_nil] using ⟨h, hopen⟩
  · rw [catText_eq hopen hb]
    exact ⟨(h.start K).extend K isOpen_start hf, fun _ => @isOpen_start wl⟩

theorem Holds.catEmpty (K : Keeps P) (hf : flags.Plain noglob) : ∀ (k : ℕ) {wl : Wordlist},
    Holds P ifs noglob t wl → wl.closed → Holds P ifs noglob t (catEmpty flags k wl)
  | 0, _, h, _ => h
  | k + 1, wl, h, hc => by
      have hs := start_eq_sibling (h.ok.has hc) hc
      rw [Wordlist.catEmpty, ← hs, finish_eq (by rw [start_noglob, h.noglob]; exact hf)]
      exact Holds.catEmpty K hf k ((h.start K).freeze K isOpen_start) rfl

theorem Holds.catRun (h : Holds P ifs noglob t wl) (K : Keeps P) (hf : flags.Plain noglob)
    {haveField : Bool} (hopen : haveField → wl.isOpen) (nws : ℕ) :
    Holds P ifs noglob t (catRun flags haveField nws wl) := by
  unfold Wordlist.catRun
  split_ifs with hn ho hhave
  · rw [finish_eq (h.noglob ▸ hf)]
    refine h.freeze K ?_
    rcases Bool.or_eq_true .. ▸ ho with ho | ho
    · exact hopen ho
    · exact (Bool.and_eq_true .. ▸ ho).1
  · exact h
  · rw [finish_eq (h.noglob ▸ hf)]
    exact Holds.catEmpty K hf _ (h.freeze K (hopen hhave)) rfl
  · rw [finish_eq (by rw [start_noglob, h.noglob]; exact hf)]
    exact Holds.catEmpty K hf _ ((h.start K).freeze K isOpen_start) rfl

/-- **Splitting keeps what every step keeps**; the text grows by what is not of `ifs`. -/
theorem Holds.catLoop (K : Keeps P) (hf : flags.Plain noglob) (b : Str) :
    ∀ {t : Str} {wl : Wordlist} {haveField : Bool}, Holds P ifs noglob t wl →
      (haveField → wl.isOpen) →
      Holds P ifs noglob (t ++ b.filter (!isIfs ifs ·)) (catLoop flags haveField b wl) := by
  induction b using cut_induction (isIfs ifs) with
  | text b hb =>
    intro t wl haveField h hopen
    have hfilter : b.filter (!isIfs ifs ·) = b := List.filter_eq_self.2 (by simpa using hb)
    rw [hfilter, catLoop_text (h.ifs ▸ hb)]
    exact (h.catText K hf hopen).1
  | run x r y hx hr hr' hy ih =>
    intro t wl haveField h hopen
    have hfilter : (x ++ (r ++ y)).filter (!isIfs ifs ·) = x ++ y.filter (!isIfs ifs ·) := by
      have h₁ : x.filter (!isIfs ifs ·) = x := List.filter_eq_self.2 (by simpa using hx)
      have h₂ : r.filter (!isIfs ifs ·) = [] := List.filter_eq_nil_iff.2 (by simpa using hr)
      rw [List.filter_append, List.filter_append, h₁, h₂, List.nil_append]
    have htext := h.catText K hf (b := x) hopen
    rw [hfilter, catLoop_run (h.ifs ▸ hx) (h.ifs ▸ hr) hr' (h.ifs ▸ hy), ← List.append_assoc]
    exact ih (htext.1.catRun K hf htext.2 _) nofun

/-- A chunk of an expansion. -/
theorem cat_unquoted (h : wl.Ok) (hf : flags.Plain noglob) (hq : flags.quoted = false)
    (hn : flags.nosplit = false) :
    wl.cat b flags =
      if b.isEmpty then wl else wl.catLoop flags (wl.isOpen && !wl.cur.isEmpty) b := by
  have hliteral := hf.literal
  cases flags
  simp_all [cat, isOpen, h.str]

/-- A quoted chunk. -/
theorem cat_quoted (h : wl.Ok) (hf : flags.Plain noglob) (hq : flags.quoted) :
    wl.cat b flags = wl.start.extend b flags := by
  have hliteral := hf.literal
  have hpattern := hf.pattern hq
  cases flags
  simp_all [cat, catWhole, extend, h.str]

theorem Holds.cat (h : Holds P ifs noglob t wl) (K : Keeps P) (hf : flags.Plain noglob)
    (hq : flags.quoted ∨ flags.nosplit = false) :
    Holds P ifs noglob (t ++ if flags.quoted then b else b.filter (!isIfs ifs ·))
      (wl.cat b flags) := by
  by_cases hquoted : flags.quoted
  · rw [cat_quoted h.ok hf hquoted, if_pos hquoted]
    exact (h.start K).extend K isOpen_start hf
  · have hq' : flags.quoted = false := by simpa using hquoted
    rw [cat_unquoted h.ok hf hq' (hq.resolve_left hquoted), if_neg hquoted]
    split_ifs with hb
    · simpa [List.isEmpty_iff.1 hb] using h
    · exact Holds.catLoop K hf b h fun ho => (Bool.and_eq_true .. ▸ ho).1

/-- A list without a field has nothing to give up. -/
theorem leave_eq_self (h : wl.Ok) (hh : wl.has = false) : wl.leave = wl := by
  have hc := h.not_closed hh
  have hp : wl.pend = false := by
    by_contra hp
    exact absurd (h.pend (by simpa using hp)).1 (by simp [hc])
  cases wl
  simp_all [leave, settle]

/-- The end of a field: it is closed, and given up if it is pending. -/
def done (wl : Wordlist) : Wordlist := (if wl.isOpen then wl.freeze else wl).leave

theorem leave_freeze : wl.freeze.leave = wl.push.leave := by
  have hpend : wl.freeze.pend = wl.push.pend := rfl
  unfold leave settle
  rw [hpend]
  split_ifs <;> rfl

theorem brk_eq (h : wl.Ok) : wl.brk = wl.done := by
  unfold brk done
  by_cases hh : wl.has
  · rw [h.str, hh]
    by_cases hc : wl.closed
    · simp [isOpen, hc, leave]
    · simp [isOpen, hc, hh, leave_freeze]
  · have hh : wl.has = false := by simpa using hh
    simp [hh, isOpen, leave_eq_self h hh]

/-- Taking a closed field back and closing it again changes nothing. -/
theorem push_take (h : wl.Ok) (hc : wl.closed) (hp : wl.pend = false) :
    wl.take.push = { wl with closed := false } := by
  have hroom := h.room
  have hn := h.closed hc
  have hcur : wl.cur = [] := h.cur (by simp [isOpen, hc])
  obtain ⟨f, hf⟩ := Option.isSome_iff_exists.1 (h.slots (wl.n - 1) (by omega))
  have hsucc : wl.n - 1 + 1 = wl.n := by omega
  have hfull : ¬wl.a < wl.n - 1 + 2 := by omega
  have hv : (fun i => if i = wl.n then none else if i = wl.n - 1 then some f
      else if i = wl.n - 1 then none else wl.v i) = wl.v := by
    funext i
    split_ifs with h₁ h₂
    · rw [h₁, h.null]
    · rw [h₂, hf]
    · rfl
  have hkeep : (f.isEmpty && !wl.keep) = false := by
    by_contra hne
    simp only [Bool.not_eq_false, Bool.and_eq_true, List.isEmpty_iff, Bool.not_eq_true'] at hne
    have := h.last hc hp (hne.1 ▸ hf)
    rw [hne.2] at this
    exact absurd this nofun
  rw [keep] at hkeep
  simp only [push, take, drop, hsucc, hfull, false_and, if_false, hf, Option.getD_some, hv, hkeep]
  rw [← hp, ← hcur]

theorem complete_eq (h : wl.Ok) {w : Wordlist} (hs : w.state = wl.state)
    (hg : w.noglob = wl.noglob) : w.complete = w := by
  unfold complete
  rw [hs, h.glob, h.literal]
  by_cases hr : wl.state.globres
  · simp [hr, Wordlist.glob, hg, h.globres hr]
  · simp [hr]

theorem close_eq (h : wl.Ok) : wl.close.1 = { wl.done with mark := wl.done.n } := by
  have hdone : (if wl.retake.has && !wl.retake.closed then wl.retake.complete.push
      else wl.retake).leave = wl.done := by
    unfold retake
    split_ifs with ht ho ho
    · simp only [Bool.and_eq_true, Bool.not_eq_true'] at ht
      obtain ⟨⟨⟨hc, hp⟩, -⟩, -⟩ := ht
      rw [complete_eq (w := wl.take) h rfl rfl, push_take h hc hp]
      simp [done, isOpen, hc, leave, settle, hp]
    · simp only [Bool.and_eq_true] at ht
      simp [take, drop, h.has ht.1.1.1] at ho
    · rw [complete_eq h rfl rfl, done, isOpen, if_pos ho, leave_freeze]
    · rw [done, isOpen, if_neg ho]
  unfold close
  rw [if_neg (by simp [h.str])]
  simp only [hdone]

theorem Holds.done (h : Holds P ifs noglob t wl) (K : Keeps P) :
    Holds P ifs noglob t wl.done := by
  unfold Wordlist.done
  split_ifs with ho
  · exact (h.freeze K ho).leave K rfl
  · by_cases hc : wl.closed
    · exact h.leave K hc
    · have hh : wl.has = false := by
        by_contra hh
        exact ho (isOpen_iff.2 ⟨by simpa using hh, by simpa using hc⟩)
      rwa [leave_eq_self h.ok hh]

end Holds

end Wordlist

end Shish
