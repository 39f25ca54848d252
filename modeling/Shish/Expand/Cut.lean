import Mathlib.Data.List.Forall2
import Shish.Expand.Pattern

/-!
# Expand/Cut — how a word is cut into fields

`Cutter` does what a wordlist does to the chunks of a word, on segments instead of text: it knows
where fields start and end and what they are made of, and nothing of backslashes and patterns.  A
wordlist that gets the same chunks has the fields of the cutter, each as its draft leaves it
(`Tracks`).
-/

namespace Shish

/-! ## The cutter -/

/-- The fields cut off so far, and the open one; the bits are those of a `Wordlist`. -/
structure Cutter where
  done : List (Ending × List Seg)
  segs : List Seg
  has : Bool
  closed : Bool
  pend : Bool
  quoted : Bool
  split : Bool
deriving DecidableEq, Repr

/-- A field without text. -/
def blank (segs : List Seg) : Bool := segs.all (·.marks.isEmpty)

namespace Cutter

/-- Nothing was cut yet. -/
def init : Cutter := ⟨[], [], false, false, false, false, false⟩

/-- `sibling`. -/
def sibling (c : Cutter) : Cutter :=
  { c with pend := false, closed := false, quoted := false, split := true, segs := [] }

/-- `start`. -/
def start (c : Cutter) : Cutter :=
  if !c.has then { c with has := true, closed := false, quoted := false, split := false, segs := [] }
  else if c.closed then c.sibling
  else c

/-- A segment goes to the open field. -/
def add (c : Cutter) (seg : Seg) (quoted : Bool) : Cutter :=
  { c with segs := c.segs ++ [seg], quoted := c.quoted || quoted }

/-- `wordlist_push`. -/
def push (c : Cutter) (ending : Ending) : Cutter :=
  { c with
    done := c.done ++ [(ending, c.segs)]
    pend := blank c.segs && !(c.quoted || c.split)
    segs := [] }

/-- `finish`. -/
def finish (c : Cutter) : Cutter := { c.push .cut with closed := true }

/-- The end of a field: a pending one is given up. -/
def leave (c : Cutter) : Cutter :=
  { c with
    done := if c.pend then c.done.dropLast else c.done
    pend := false
    has := false
    closed := false }

/-- A whole chunk: text, or a quoted value. -/
def whole (c : Cutter) (seg : Seg) (quoted : Bool) : Cutter := c.start.add seg quoted

/-- Text of a value up to a delimiter. -/
def text (haveField : Bool) (v : Str) (c : Cutter) : Cutter :=
  if v.isEmpty then c else (if haveField then c else c.start).add (.val false v) false

/-- An empty field for each further delimiter. -/
def empties : ℕ → Cutter → Cutter
  | 0, c => c
  | k + 1, c => empties k c.sibling.finish

/-- A run of delimiters, `nws` of which are no white space. -/
def run (haveField : Bool) (nws : ℕ) (c : Cutter) : Cutter :=
  if nws = 0 then
    if haveField || (c.has && !c.closed && c.quoted) then c.finish else c
  else empties (nws - 1) (if haveField then c else c.start).finish

/-- The loop of `wordlist_cat`. -/
def loop (ifs : Str) (haveField : Bool) (b : Str) (c : Cutter) : Cutter :=
  match _hb : b.dropWhile (!isIfs ifs ·) with
  | [] => text haveField b c
  | a :: t =>
      let v := b.takeWhile (!isIfs ifs ·)
      let nws := ((a :: t).takeWhile (isIfs ifs)).countP (!isWs ifs ·)
      loop ifs false (t.dropWhile (isIfs ifs)) (run (haveField || !v.isEmpty) nws (text haveField v c))
termination_by b.length
decreasing_by
  have h₁ : (a :: t).length ≤ b.length := _hb ▸ (List.dropWhile_sublist _).length_le
  have h₂ : (t.dropWhile (isIfs ifs)).length ≤ t.length := (List.dropWhile_sublist _).length_le
  simp only [List.length_cons] at h₁
  omega

/-- An unquoted value. -/
def value (ifs v : Str) (c : Cutter) : Cutter :=
  if v.isEmpty then c else c.loop ifs (c.has && !c.closed && !blank c.segs) v

/-- `wordlist_break`. -/
def brk (c : Cutter) : Cutter :=
  if !c.has then c else (if c.closed then c else c.push .brk).leave

/-- `wordlist_close`: a field that the last delimiter closed is looked at once more. -/
def close (c : Cutter) : Cutter :=
  (if c.closed then
    { c with done := if c.pend then c.done
        else c.done.dropLast ++ (c.done.getLast?.map fun f => (.last, f.2)).toList }
  else if c.has then c.push .word else c).leave

end Cutter

/-! ## Globbing a field of a wordlist -/

namespace Wordlist

/-- All but the fields, the open field and the state. -/
structure SameFrame (wl w : Wordlist) : Prop where
  str : w.str = wl.str
  noglob : w.noglob = wl.noglob
  globbed : w.globbed = wl.globbed
  ifs : w.ifs = wl.ifs
  has : w.has = wl.has
  closed : w.closed = wl.closed

theorem SameFrame.refl {wl : Wordlist} : wl.SameFrame wl := ⟨rfl, rfl, rfl, rfl, rfl, rfl⟩

theorem SameFrame.trans {wl w w' : Wordlist} (h : wl.SameFrame w) (h' : w.SameFrame w') :
    wl.SameFrame w' :=
  ⟨h'.str.trans h.str, h'.noglob.trans h.noglob, h'.globbed.trans h.globbed, h'.ifs.trans h.ifs,
    h'.has.trans h.has, h'.closed.trans h.closed⟩

variable {A : List Mark → Option (List Str)} {wl : Wordlist} {flags : XFlags}

/-- The bits of the state that say whether an empty field is kept. -/
def SameKeep (st st' : XFlags) : Prop :=
  st'.nosplit = st.nosplit ∧ st'.quoted = st.quoted ∧ st'.split = st.split

/-- The matches of a pattern become fields. -/
theorem push_catPaths (hf : flags.nosplit = false) : ∀ {ps : List Str} {wl : Wordlist}, ps ≠ [] →
    [] ∉ ps → wl.cur = [] → SameKeep wl.state (wl.state.or flags) →
    wl.SameFrame (catPaths flags ps wl) ∧ SameKeep wl.state (catPaths flags ps wl).state ∧
      (catPaths flags ps wl).cur ≠ [] ∧ (catPaths flags ps wl).push.fields = wl.fields ++ ps
  | [], wl, h, _, _, _ => absurd rfl h
  | [p], wl, _, hp, hc, _ => by
      have hne : p ≠ [] := fun h => hp (h ▸ List.mem_singleton_self _)
      refine ⟨⟨rfl, rfl, rfl, rfl, rfl, rfl⟩, ⟨rfl, rfl, rfl⟩, ?_, ?_⟩
      · simpa [catPaths, hc] using hne
      · rw [fields_push]
        simp [catPaths, hc, fields]
  | p :: q :: ps, wl, _, hp, hc, hk => by
      obtain ⟨w, hw⟩ : ∃ w : Wordlist, w =
        { ({ wl with cur := wl.cur ++ p } : Wordlist).push with state := wl.state.or flags } := ⟨_, rfl⟩
      have hstate : w.state = wl.state.or flags := by rw [hw]
      have hfields : w.fields = wl.fields ++ [p] := by
        have := @fields_push { wl with cur := wl.cur ++ p }
        rw [hw]
        simpa [fields, hc] using this
      have heq : catPaths flags (p :: q :: ps) wl = catPaths flags (q :: ps) w := by
        rw [hw]
        simp [catPaths, hf, push]
      obtain ⟨hframe', hkeep', hne', hfields'⟩ := @push_catPaths hf (q :: ps) w (by simp)
        (fun h => hp (.tail _ h)) (by rw [hw]; rfl)
        (by rw [hstate, XFlags.or_self_right]; exact ⟨rfl, rfl, rfl⟩)
      rw [hstate] at hkeep'
      rw [heq]
      refine ⟨SameFrame.trans ?_ hframe', ?_, hne', ?_⟩
      · rw [hw]
        exact ⟨rfl, rfl, rfl, rfl, rfl, rfl⟩
      · exact ⟨hkeep'.1.trans hk.1, hkeep'.2.1.trans hk.2.1, hkeep'.2.2.trans hk.2.2⟩
      · rw [hfields', hfields, List.append_assoc]
        rfl

/-- **What `wordlist_glob` leaves**, entered as fields. -/
theorem push_glob (hA : Globbing A) (hg : wl.globbed = fun s => A (patternOf s))
    (hn : wl.noglob = false) (hf : flags.nosplit = false)
    (hk : SameKeep wl.state (wl.state.or flags)) :
    wl.SameFrame (wl.glob flags) ∧ SameKeep wl.state (wl.glob flags).state ∧
      ((wl.glob flags).cur = [] ↔ wl.cur = []) ∧
      (wl.glob flags).push.fields = wl.fields ++ Draft.globs A flags.globres wl.cur := by
  have hans : wl.globbed wl.cur = A (patternOf wl.cur) := by rw [hg]
  unfold Draft.globs
  split
  · next hs =>
    have heq : wl.glob flags = wl := by
      simp only [Bool.and_eq_true] at hs
      simp [Wordlist.glob, hs.1, hs.2]
    rw [heq]
    exact ⟨.refl, ⟨rfl, rfl, rfl⟩, Iff.rfl, fields_push⟩
  · next hs =>
    cases hps : A (patternOf wl.cur) with
    | some ps =>
      have heq : wl.glob flags = catPaths flags ps { wl with cur := [] } := by
        unfold Wordlist.glob
        refine (if_neg (by simpa [hn] using hs)).trans ((if_neg (by simp [hn])).trans ?_)
        rw [hans, hps]
      rw [heq]
      obtain ⟨hne, hnil⟩ := hA.paths _ _ hps
      have hcur : wl.cur ≠ [] := by
        intro h
        rw [h] at hps
        exact hnil (by rw [hA.plain _ _ rfl hps]; exact List.mem_singleton_self _)
      obtain ⟨hframe, hkeep, hne', hfields⟩ :=
        @push_catPaths _ hf ps { wl with cur := [] } hne hnil rfl hk
      exact ⟨⟨hframe.str, hframe.noglob, hframe.globbed, hframe.ifs, hframe.has, hframe.closed⟩, hkeep,
        iff_of_false hne' hcur, hfields⟩
    | none =>
      have heq : wl.glob flags =
          if flags.globres then wl else { wl with cur := unescape parseIsesc wl.cur } := by
        unfold Wordlist.glob
        refine (if_neg (by simpa [hn] using hs)).trans ((if_neg (by simp [hn])).trans ?_)
        rw [hans, hps]
      rw [heq]
      cases flags.globres with
      | true => exact ⟨.refl, ⟨rfl, rfl, rfl⟩, Iff.rfl, fields_push⟩
      | false => exact ⟨⟨rfl, rfl, rfl, rfl, rfl, rfl⟩, ⟨rfl, rfl, rfl⟩, unescape_eq_nil, fields_push⟩

end Wordlist

/-! ## What became of the fields -/

section Good

variable (A : List Mark → Option (List Str)) (globres : Bool) (base : List Str)

/-- What became of a field, if it is one that ends as it should. -/
def Good (f : Ending × List Seg) (r : List Str) : Prop :=
  fieldOk globres f.1 f.2 = true → r = refField A (f.2.flatMap Seg.marks)

/-- The fields of earlier words, and what became of the fields cut off since. -/
def Became (done : List (Ending × List Seg)) (fields : List Str) : Prop :=
  ∃ rs, List.Forall₂ (Good A globres) done rs ∧ fields = base ++ rs.flatten

variable {A globres base} {d : Draft} {t : List Mark} {segs : List Seg} {fields r : List Str}
  {done : List (Ending × List Seg)} {f : Ending × List Seg}

theorem Became.append (h : Became A globres base done fields) (hf : Good A globres f r) :
    Became A globres base (done ++ [f]) (fields ++ r) := by
  obtain ⟨rs, hrs, rfl⟩ := h
  exact ⟨rs ++ [r], List.rel_append hrs (.cons hf .nil), by simp⟩

theorem good_cut (hA : Globbing A) (hs : ∀ seg ∈ segs, seg.Ok) :
    Good A globres (.cut, segs) ((Draft.ofSegs globres segs).cut A globres) := by
  intro h
  simp only [fieldOk, Bool.and_eq_true] at h
  exact (Draft.stands_ofSegs hs).cut_eq hA h.1 h.2

theorem good_brk (hs : ∀ seg ∈ segs, seg.Ok) :
    Good A globres (.brk, segs) [(Draft.ofSegs globres segs).cur] := by
  intro h
  simp only [fieldOk, Bool.and_eq_true] at h
  exact (Draft.stands_ofSegs hs).asIs_eq h.1 h.2

theorem good_word (hA : Globbing A) (hs : ∀ seg ∈ segs, seg.Ok) :
    Good A globres (.word, segs) ((Draft.ofSegs globres segs).complete A) := by
  intro h
  simp only [fieldOk, Bool.and_eq_true] at h
  exact (Draft.stands_ofSegs hs).complete_eq hA h.1 h.2

theorem ofSegs_append (seg : Seg) :
    Draft.ofSegs globres (segs ++ [seg]) = (Draft.ofSegs globres segs).add globres seg := by
  simp [Draft.ofSegs]

theorem store_eq_nil : store t = [] ↔ t = [] := by
  cases t with
  | nil => simp [store]
  | cons m t =>
    simp only [store, List.flatMap_cons]
    split_ifs <;> simp

theorem Draft.cur_add_eq_nil {seg : Seg} :
    (d.add globres seg).cur = [] ↔ d.cur = [] ∧ seg.marks = [] := by
  cases seg with
  | lit t g =>
    simp only [Draft.add, Seg.marks, List.append_eq_nil_iff]
    split_ifs
    · rw [store_eq_nil]
    · rw [unescape_eq_nil, store_eq_nil]
  | quo x =>
    unfold Draft.add
    by_cases hx : x = []
    · simp [hx, Seg.marks]
    · simp only [hx, List.isEmpty_iff, if_false, List.append_eq_nil_iff, Seg.marks,
        List.map_eq_nil_iff]
      simp
  | val quoted v => simp [Draft.add, Seg.marks]

/-- The text is empty if there is none in the segments. -/
theorem Draft.cur_eq_nil (segs : List Seg) :
    (Draft.ofSegs globres segs).cur = [] ↔ blank segs = true := by
  induction segs using List.reverseRecOn with
  | nil => simp [Draft.ofSegs, Draft.init, blank]
  | append_singleton segs seg ih =>
    rw [ofSegs_append, Draft.cur_add_eq_nil, ih]
    simp [blank]

end Good

/-- The bits of a draft, in the state of a wordlist. -/
structure Draft.Bits (d : Draft) (st : XFlags) : Prop where
  literal : st.literal = d.literal
  unescaped : st.unescaped = d.unescaped
  glob : st.glob = d.glob
  globres : st.globres = d.globres

/-- The last field was closed by a delimiter, and may be looked at again at the end of the word. -/
structure LastCut (A : List Mark → Option (List Str)) (globres : Bool) (base : List Str)
    (wl : Wordlist) (done : List (Ending × List Seg)) (segs : List Seg) (fields r : List Str) :
    Prop where
  ok : ∀ seg ∈ segs, seg.Ok
  became : Became A globres base done fields
  fields : wl.fields = fields ++ r
  good : Good A globres (.cut, segs) r
  pend : wl.pend = true → r.length = 1
  nonempty : r ≠ []
  kept : wl.pend = false → wl.keep = true ∨ r.getLast? ≠ some []
  same : (Draft.ofSegs globres segs).calm = true →
    (!globres || !(Draft.ofSegs globres segs).special) = true →
      r = [(Draft.ofSegs globres segs).cur] ∧ (Draft.ofSegs globres segs).Bits wl.state

/-- **A wordlist has the fields of a cutter.** -/
structure Tracks (A : List Mark → Option (List Str)) (ifs : Str) (globres : Bool) (base : List Str)
    (wl : Wordlist) (c : Cutter) : Prop where
  str : wl.str = false
  noglob : wl.noglob = false
  globbed : wl.globbed = fun s => A (patternOf s)
  ifs : wl.ifs = ifs
  has : wl.has = c.has
  closed : wl.closed = c.closed
  pend : wl.pend = c.pend
  hasClosed : c.closed = true → c.has = true
  pendClosed : c.pend = true → c.closed = true
  nosplit : c.has = true → wl.state.nosplit = false
  quoted : c.has = true → wl.state.quoted = c.quoted
  split : c.has = true → wl.state.split = c.split
  segs : ∀ seg ∈ c.segs, seg.Ok
  cur : c.has = true → c.closed = false → wl.cur = (Draft.ofSegs globres c.segs).cur
  bits : c.has = true → c.closed = false → (Draft.ofSegs globres c.segs).Bits wl.state
  done : c.closed = false → Became A globres base c.done wl.fields
  last : c.closed = true → ∃ done segs fields r, c.done = done ++ [(.cut, segs)] ∧
    LastCut A globres base wl done segs fields r

section Tracks

variable {A : List Mark → Option (List Str)} {ifs : Str} {globres : Bool} {base : List Str}
  {wl : Wordlist} {c : Cutter}

theorem Tracks.became (h : Tracks A ifs globres base wl c) :
    Became A globres base c.done wl.fields := by
  cases hc : c.closed with
  | false => exact h.done hc
  | true =>
    obtain ⟨done, segs, fields, r, hdone, hl⟩ := h.last hc
    rw [hdone, hl.fields]
    exact hl.became.append hl.good

theorem bits_init : (Draft.ofSegs globres []).Bits .default := ⟨rfl, rfl, rfl, rfl⟩

theorem Tracks.start (h : Tracks A ifs globres base wl c) :
    Tracks A ifs globres base wl.start c.start ∧ c.start.has = true ∧ c.start.closed = false := by
  cases hh : c.has with
  | false =>
    have hw : wl.has = false := h.has.trans hh
    have hc : c.closed = false := by
      by_contra hc
      have := h.hasClosed (by simpa using hc)
      rw [hh] at this
      cases this
    have hp : c.pend = false := by
      by_contra hp
      have := h.pendClosed (by simpa using hp)
      rw [hc] at this
      cases this
    simp only [Wordlist.start, Cutter.start, hw, hh, Bool.not_false, if_true]
    refine ⟨⟨h.str, h.noglob, h.globbed, h.ifs, rfl, rfl, h.pend, (fun h => by cases h), fun hp' => ?_, fun _ => rfl,
      fun _ => rfl, fun _ => rfl, (fun _ h => by cases h), fun _ _ => rfl, fun _ _ => bits_init, fun _ => h.done hc,
      (fun h => by cases h)⟩, trivial, trivial⟩
    rw [hp] at hp'
    cases hp'
  | true =>
    have hw : wl.has = true := h.has.trans hh
    cases hc : c.closed with
    | true =>
      have hwc : wl.closed = true := h.closed.trans hc
      simp only [Wordlist.start, Cutter.start, hw, hwc, hh, hc, Bool.not_true, Bool.false_eq_true,
        if_false, if_true]
      exact ⟨⟨h.str, h.noglob, h.globbed, h.ifs, hw.trans hh.symm, rfl, rfl, (fun h => by cases h), (fun h => by cases h),
        fun _ => rfl, fun _ => rfl, fun _ => rfl, (fun _ h => by cases h), fun _ _ => rfl,
        fun _ _ => ⟨rfl, rfl, rfl, rfl⟩, fun _ => h.became, (fun h => by cases h)⟩, hh, rfl⟩
    | false =>
      have hwc : wl.closed = false := h.closed.trans hc
      simp only [Wordlist.start, Cutter.start, hw, hwc, hh, hc, Bool.not_true, Bool.false_eq_true,
        if_false]
      exact ⟨h, trivial, trivial⟩

/-- A segment goes to the open field. -/
theorem Tracks.add (h : Tracks A ifs globres base wl c) (hc : c.closed = false)
    {seg : Seg} {q : Bool} (hseg : seg.Ok) {st : XFlags}
    (hbits : ((Draft.ofSegs globres c.segs).add globres seg).Bits st) (hn : st.nosplit = false)
    (hq : st.quoted = (c.quoted || q)) (hs : st.split = c.split) :
    Tracks A ifs globres base
      { wl with cur := ((Draft.ofSegs globres c.segs).add globres seg).cur, state := st }
      (c.add seg q) where
  str := h.str
  noglob := h.noglob
  globbed := h.globbed
  ifs := h.ifs
  has := h.has
  closed := h.closed
  pend := h.pend
  hasClosed := h.hasClosed
  pendClosed := h.pendClosed
  nosplit := fun _ => hn
  quoted := fun _ => hq
  split := fun _ => hs
  segs := by
    intro s hs
    rcases List.mem_append.1 hs with hs | hs
    · exact h.segs s hs
    · rwa [List.mem_singleton.1 hs]
  cur := fun _ _ => by rw [Cutter.add, ofSegs_append]
  bits := fun _ _ => by rwa [Cutter.add, ofSegs_append]
  done := fun _ => h.done hc
  last := fun hc' => absurd (hc.symm.trans hc') (by decide)

/-- The flags of a chunk of unquoted text. -/
def litFlags (g : Bool) : XFlags := { XFlags.default with literal := true, glob := g }

/-- The flags of a quoted chunk. -/
def quoFlags (literal : Bool) : XFlags := { XFlags.default with quoted := true, literal := literal }

/-- The flags of an unquoted value. -/
def valFlags (globres : Bool) : XFlags := { XFlags.default with globres := globres }

/-- **Unquoted text.** -/
theorem Tracks.lit (h : Tracks A ifs globres base wl c) {t : List Mark} {g : Bool}
    (ht : (Seg.lit t g).Ok) :
    Tracks A ifs globres base (wl.cat (store t) (litFlags g)) (c.whole (.lit t g) false) := by
  obtain ⟨h', hh, hc⟩ := h.start
  have hb := h'.bits hh hc
  have hcat : wl.cat (store t) (litFlags g) = { wl.start with
      cur := ((Draft.ofSegs globres c.start.segs).add globres (.lit t g)).cur,
      state := wl.start.state.or (litFlags g) } := by
    have hcat : wl.cat (store t) (litFlags g) = wl.catLiteral (store t) (litFlags g) := by
      simp [Wordlist.cat, litFlags, XFlags.default, h.str]
    rw [hcat]
    simp only [Wordlist.catLiteral, Draft.add, h'.cur hh hc, hb.unescaped]
    cases (Draft.ofSegs globres c.start.segs).unescaped <;> cases g <;>
      simp [litFlags, XFlags.default]
  rw [hcat]
  refine h'.add hc ht ⟨?_, ?_, ?_, ?_⟩ ?_ ?_ ?_
  · simp [XFlags.or, litFlags, Draft.add]
  · simpa [XFlags.or, litFlags, XFlags.default, Draft.add] using hb.unescaped
  · simp [XFlags.or, litFlags, Draft.add, hb.glob]
  · simpa [XFlags.or, litFlags, XFlags.default, Draft.add] using hb.globres
  · simpa [XFlags.or, litFlags, XFlags.default] using h'.nosplit hh
  · simpa [XFlags.or, litFlags, XFlags.default] using h'.quoted hh
  · simpa [XFlags.or, litFlags, XFlags.default] using h'.split hh

/-- **Quoted text.** -/
theorem Tracks.quo (h : Tracks A ifs globres base wl c) (x : Str) :
    Tracks A ifs globres base (wl.cat (escape x) (quoFlags !x.isEmpty)) (c.whole (.quo x) true) := by
  obtain ⟨h', hh, hc⟩ := h.start
  have hb := h'.bits hh hc
  have hcat : wl.cat (escape x) (quoFlags !x.isEmpty) = wl.catWhole (escape x) (quoFlags !x.isEmpty) := by
    simp [Wordlist.cat, quoFlags, XFlags.default, h.str]
  have hcat : wl.cat (escape x) (quoFlags !x.isEmpty) = { wl.start with
      cur := ((Draft.ofSegs globres c.start.segs).add globres (.quo x)).cur,
      state := { wl.start.state.or (quoFlags !x.isEmpty) with
        unescaped := wl.start.state.unescaped || !x.isEmpty } } := by
    rw [hcat]
    by_cases hx : x = []
    · simp [Wordlist.catWhole, Draft.add, hx, h'.cur hh hc, quoFlags, XFlags.default, XFlags.or]
    · simp [Wordlist.catWhole, Draft.add, hx, h'.cur hh hc, quoFlags, XFlags.default, XFlags.or,
        hb.literal, hb.unescaped, hb.glob, unescape_escape]
  rw [hcat]
  refine h'.add hc (show (Seg.quo x).Ok from trivial) ⟨?_, ?_, ?_, ?_⟩ ?_ ?_ ?_
  · by_cases hx : x = [] <;> simp [XFlags.or, quoFlags, Draft.add, hx, hb.literal]
  · by_cases hx : x = [] <;> simp [Draft.add, hx, hb.unescaped]
  · by_cases hx : x = [] <;> simp [XFlags.or, quoFlags, XFlags.default, Draft.add, hx, hb.glob]
  · by_cases hx : x = [] <;> simp [XFlags.or, quoFlags, XFlags.default, Draft.add, hx, hb.globres]
  · simpa [XFlags.or, quoFlags, XFlags.default] using h'.nosplit hh
  · simp [XFlags.or, quoFlags]
  · simpa [XFlags.or, quoFlags, XFlags.default] using h'.split hh

/-- **A quoted value.** -/
theorem Tracks.quotedValue (h : Tracks A ifs globres base wl c) (v : Str) :
    Tracks A ifs globres base (wl.cat v (quoFlags false)) (c.whole (.val true v) true) := by
  obtain ⟨h', hh, hc⟩ := h.start
  have hb := h'.bits hh hc
  have hcat : wl.cat v (quoFlags false) = { wl.start with
      cur := ((Draft.ofSegs globres c.start.segs).add globres (.val true v)).cur,
      state := wl.start.state.or (quoFlags false) } := by
    simp [Wordlist.cat, Wordlist.catWhole, Draft.add, h'.cur hh hc, quoFlags, XFlags.default, h.str]
  rw [hcat]
  refine h'.add hc (show (Seg.val true v).Ok from trivial) ⟨?_, ?_, ?_, ?_⟩ ?_ ?_ ?_
  · simpa [XFlags.or, quoFlags, Draft.add] using hb.literal
  · simpa [XFlags.or, quoFlags, XFlags.default, Draft.add] using hb.unescaped
  · simpa [XFlags.or, quoFlags, XFlags.default, Draft.add] using hb.glob
  · simpa [XFlags.or, quoFlags, XFlags.default, Draft.add] using hb.globres
  · simpa [XFlags.or, quoFlags, XFlags.default] using h'.nosplit hh
  · simp [XFlags.or, quoFlags]
  · simpa [XFlags.or, quoFlags, XFlags.default] using h'.split hh

/-- Text of an unquoted value. -/
theorem Tracks.text (h : Tracks A ifs globres base wl c) {haveField : Bool}
    (hf : haveField = true → c.has = true ∧ c.closed = false) (v : Str) :
    Tracks A ifs globres base (Wordlist.catText (valFlags globres) haveField v wl)
      (c.text haveField v) := by
  by_cases hv : v = []
  · subst hv
    exact h
  · obtain ⟨h', hh, hc⟩ : Tracks A ifs globres base (if haveField then wl else wl.start)
        (if haveField then c else c.start) ∧ (if haveField then c else c.start).has = true ∧
        (if haveField then c else c.start).closed = false := by
      cases haveField with
      | true => exact ⟨h, hf rfl⟩
      | false => exact h.start
    have hb := h'.bits hh hc
    simp only [Wordlist.catText, Cutter.text, hv, List.isEmpty_iff, if_false]
    have hcur : (if haveField then wl else wl.start).cur ++ v =
        ((Draft.ofSegs globres (if haveField then c else c.start).segs).add globres (.val false v)).cur := by
      simp [Draft.add, h'.cur hh hc]
    rw [hcur]
    refine h'.add hc (show (Seg.val false v).Ok from trivial) ⟨?_, ?_, ?_, ?_⟩ ?_ ?_ ?_
    · simpa [XFlags.or, valFlags, XFlags.default, Draft.add] using hb.literal
    · simpa [XFlags.or, valFlags, XFlags.default, Draft.add] using hb.unescaped
    · simpa [XFlags.or, valFlags, XFlags.default, Draft.add] using hb.glob
    · simp [XFlags.or, valFlags, Draft.add, hb.globres]
    · simpa [XFlags.or, valFlags, XFlags.default] using h'.nosplit hh
    · simpa [XFlags.or, valFlags, XFlags.default] using h'.quoted hh
    · simpa [XFlags.or, valFlags, XFlags.default] using h'.split hh

theorem Tracks.open_blank (h : Tracks A ifs globres base wl c) (hh : c.has = true)
    (hc : c.closed = false) : wl.cur = [] ↔ blank c.segs = true := by
  rw [h.cur hh hc, Draft.cur_eq_nil]

/-- A delimiter globs the field as it is. -/
theorem Tracks.cutField (hA : Globbing A) (h : Tracks A ifs globres base wl c) (hh : c.has = true)
    (hc : c.closed = false) :
    ∃ w, wl.finish (valFlags globres) = { w.push with closed := true } ∧ wl.SameFrame w ∧
      Wordlist.SameKeep wl.state w.state ∧ (w.cur = [] ↔ wl.cur = []) ∧
      w.push.fields = wl.fields ++ (Draft.ofSegs globres c.segs).cut A globres ∧
      ((Draft.ofSegs globres c.segs).calm = true →
        (!globres || !(Draft.ofSegs globres c.segs).special) = true → w = wl) := by
  have hd := h.cur hh hc
  cases globres with
  | false =>
    refine ⟨wl, ?_, .refl, ⟨rfl, rfl, rfl⟩, Iff.rfl, ?_, fun _ _ => rfl⟩
    · simp [Wordlist.finish, valFlags, XFlags.default]
    · rw [Wordlist.fields_push, hd]
      rfl
  | true =>
    obtain ⟨hframe, hkeep, hnil, hfields⟩ := @Wordlist.push_glob A wl (valFlags true) hA h.globbed
      h.noglob rfl (by simp [Wordlist.SameKeep, XFlags.or, valFlags, XFlags.default])
    refine ⟨wl.glob (valFlags true), ?_, hframe, hkeep, hnil, ?_, fun hcalm hs => ?_⟩
    · simp [Wordlist.finish, valFlags, XFlags.default]
    · rw [hfields, hd]
      rfl
    · have hs : (Draft.ofSegs true c.segs).special = false := by simpa using hs
      have hany := (Draft.stands_ofSegs h.segs).any_cur hcalm
      rw [hs, ← hd] at hany
      simp [Wordlist.glob, valFlags, hany]

theorem globs_ne_nil (hA : Globbing A) (r : Bool) (cur : Str) : Draft.globs A r cur ≠ [] := by
  unfold Draft.globs
  split_ifs
  · simp
  · cases hps : A (patternOf cur) with
    | some ps => exact (hA.paths _ _ hps).1
    | none => simp
  · cases hps : A (patternOf cur) with
    | some ps => exact (hA.paths _ _ hps).1
    | none => simp

theorem cut_ne_nil (hA : Globbing A) (d : Draft) : d.cut A globres ≠ [] := by
  unfold Draft.cut
  split_ifs
  · exact globs_ne_nil hA true d.cur
  · simp

/-- The last of the new fields is the one that was pushed. -/
theorem getLast_of_push {w : Wordlist} {fields r : List Str} (hr : r ≠ [])
    (h : w.push.fields = fields ++ r) : r.getLast? = some w.cur := by
  have := congrArg List.getLast? h
  rw [Wordlist.fields_push, List.getLast?_append_of_ne_nil _ hr] at this
  simpa using this.symm

/-- **A delimiter.** -/
theorem Tracks.finish (hA : Globbing A) (h : Tracks A ifs globres base wl c) (hh : c.has = true)
    (hc : c.closed = false) :
    Tracks A ifs globres base (wl.finish (valFlags globres)) c.finish := by
  obtain ⟨w, hw, hframe, ⟨hn, hq, hs⟩, hnil, hfields, hsame⟩ := h.cutField hA hh hc
  have hkeep : w.state.nosplit = false ∧ w.state.quoted = c.quoted ∧ w.state.split = c.split :=
    ⟨hn.trans (h.nosplit hh), hq.trans (h.quoted hh), hs.trans (h.split hh)⟩
  have hpend : w.push.pend = (blank c.segs && !(c.quoted || c.split)) := by
    have hcur : w.cur.isEmpty = blank c.segs := by
      rw [Bool.eq_iff_iff, List.isEmpty_iff, hnil, h.open_blank hh hc]
    simp [Wordlist.push, hcur, hkeep]
  rw [hw]
  refine ⟨hframe.str.trans h.str, hframe.noglob.trans h.noglob, hframe.globbed.trans h.globbed,
    hframe.ifs.trans h.ifs, hframe.has.trans h.has, rfl, hpend, fun _ => hh, fun _ => rfl,
    fun _ => hkeep.1, fun _ => hkeep.2.1, fun _ => hkeep.2.2, (fun _ h => by cases h), (fun _ h => by cases h), (fun _ h => by cases h), (fun h => by cases h), fun _ => ?_⟩
  refine ⟨c.done, c.segs, wl.fields, _, rfl, h.segs, h.done hc, hfields, good_cut hA h.segs, ?_,
    cut_ne_nil hA _, fun hp => ?_, ?_⟩
  · intro hp
    have hb : blank c.segs = true := by
      have := hpend.symm.trans hp
      simp only [Bool.and_eq_true] at this
      exact this.1
    rw [← @Draft.cur_eq_nil globres c.segs] at hb
    unfold Draft.cut
    split_ifs
    · simp [Draft.globs, hb]
    · rfl
  · rw [getLast_of_push (cut_ne_nil hA _) hfields]
    have hp : (w.cur.isEmpty && !(w.state.quoted || w.state.nosplit || w.state.split)) = false := hp
    have hk : Wordlist.keep { w.push with closed := true } =
      (w.state.quoted || w.state.nosplit || w.state.split) := rfl
    rw [hk]
    cases hk : w.state.quoted || w.state.nosplit || w.state.split with
    | true => exact .inl rfl
    | false =>
      rw [hk] at hp
      exact .inr (by simpa using hp)
  · intro hcalm hns
    obtain rfl := hsame hcalm hns
    exact ⟨(Draft.stands_ofSegs h.segs).cut_of_not_special hcalm hns, h.bits hh hc⟩

theorem Tracks.start_of_closed (h : Tracks A ifs globres base wl c) (hc : c.closed = true) :
    wl.start = wl.sibling ∧ c.start = c.sibling :=
  have hh := h.hasClosed hc
  ⟨Wordlist.start_eq_sibling (h.has.trans hh) (h.closed.trans hc), by simp [Cutter.start, hh, hc]⟩

/-- An empty field for each further delimiter. -/
theorem Tracks.empties (hA : Globbing A) : ∀ (k : ℕ) {wl : Wordlist} {c : Cutter},
    Tracks A ifs globres base wl c → c.closed = true →
    Tracks A ifs globres base (Wordlist.catEmpty (valFlags globres) k wl) (c.empties k) ∧
      (c.empties k).closed = true
  | 0, _, _, h, hc => ⟨h, hc⟩
  | k + 1, wl, c, h, hc => by
      obtain ⟨hw, hcs⟩ := h.start_of_closed hc
      obtain ⟨h', hh', hc'⟩ := h.start
      have hf := h'.finish hA hh' hc'
      rw [hw, hcs] at hf
      exact Tracks.empties hA k hf rfl

/-- A run of delimiters.  Behind it no field is open, or an empty one that may be continued. -/
theorem Tracks.run (hA : Globbing A) (h : Tracks A ifs globres base wl c) {haveField : Bool}
    (hf : haveField = true → c.has = true ∧ c.closed = false) (nws : ℕ) :
    Tracks A ifs globres base (Wordlist.catRun (valFlags globres) haveField nws wl)
      (c.run haveField nws) := by
  have hcond : (wl.has && !wl.closed && (wl.state.quoted || wl.state.nosplit)) =
      (c.has && !c.closed && c.quoted) := by
    rw [h.has, h.closed]
    cases hh : c.has with
    | false => rfl
    | true => rw [h.nosplit hh, h.quoted hh, Bool.or_false]
  unfold Wordlist.catRun Cutter.run
  rw [hcond]
  by_cases hn : nws = 0
  · rw [if_pos hn, if_pos hn]
    split_ifs with hopen
    · have hopen : c.has = true ∧ c.closed = false := by
        simp only [Bool.or_eq_true, Bool.and_eq_true, Bool.not_eq_true'] at hopen
        exact hopen.elim hf And.left
      exact h.finish hA hopen.1 hopen.2
    · exact h
  · rw [if_neg hn, if_neg hn]
    refine (Tracks.empties hA (nws - 1) ?_ rfl).1
    cases haveField with
    | true => exact h.finish hA (hf rfl).1 (hf rfl).2
    | false =>
      obtain ⟨h', hh', hc'⟩ := h.start
      exact h'.finish hA hh' hc'

theorem Tracks.text_open (h : Tracks A ifs globres base wl c) {haveField : Bool}
    (hf : haveField = true → c.has = true ∧ c.closed = false) {v : Str}
    (ho : (haveField || !v.isEmpty) = true) :
    (c.text haveField v).has = true ∧ (c.text haveField v).closed = false := by
  unfold Cutter.text
  split_ifs with hv hh
  · exact hf (by simpa [hv] using ho)
  · exact hf hh
  · exact h.start.2

/-- **An unquoted value** is split. -/
theorem Tracks.loop (hA : Globbing A) (v : Str) (haveField : Bool) {wl : Wordlist} {c : Cutter}
    (h : Tracks A ifs globres base wl c)
    (hf : haveField = true → c.has = true ∧ c.closed = false) :
    Tracks A ifs globres base (Wordlist.catLoop (valFlags globres) haveField v wl)
      (c.loop ifs haveField v) := by
  have hifs := h.ifs
  fun_induction Cutter.loop ifs haveField v c generalizing wl with
  | case1 haveField b c hb =>
    have hloop : Wordlist.catLoop (valFlags globres) haveField b wl =
        Wordlist.catText (valFlags globres) haveField b wl := by
      rw [Wordlist.catLoop]
      split
      · rfl
      · next heq =>
        rw [hifs, hb] at heq
        cases heq
    rw [hloop]
    exact h.text hf b
  | case2 haveField b c a t hb v nws =>
    rename_i ih
    have hloop : Wordlist.catLoop (valFlags globres) haveField b wl =
        Wordlist.catLoop (valFlags globres) false (t.dropWhile (isIfs ifs))
          (Wordlist.catRun (valFlags globres) (haveField || !v.isEmpty) nws
            (Wordlist.catText (valFlags globres) haveField v wl)) := by
      rw [Wordlist.catLoop]
      split
      · next heq =>
        rw [hifs, hb] at heq
        cases heq
      · next heq =>
        rw [hifs, hb] at heq
        obtain ⟨rfl, rfl⟩ := List.cons.inj heq
        rw [hifs]
    rw [hloop]
    have ht := h.text hf v
    exact ih (ht.run hA (fun ho => h.text_open hf ho) nws) nofun (ht.run hA (fun ho => h.text_open hf ho) nws).ifs

theorem Tracks.value (hA : Globbing A) (h : Tracks A ifs globres base wl c) (v : Str) :
    Tracks A ifs globres base (wl.cat v (valFlags globres)) (c.value ifs v) := by
  have hopen : (wl.has && !wl.closed && !wl.cur.isEmpty) = (c.has && !c.closed && !blank c.segs) := by
    rw [h.has, h.closed]
    cases hh : c.has with
    | false => rfl
    | true =>
      cases hc : c.closed with
      | true => rfl
      | false =>
        have := h.open_blank hh hc
        rw [Bool.eq_iff_iff]
        simp [this]
  have hcat : wl.cat v (valFlags globres) = if v.isEmpty then wl
      else wl.catLoop (valFlags globres) (c.has && !c.closed && !blank c.segs) v := by
    simp only [Wordlist.cat, valFlags, XFlags.default, h.str, hopen]
    rfl
  rw [hcat]
  unfold Cutter.value
  split_ifs
  · exact h
  · refine h.loop hA v _ fun ho => ?_
    simp only [Bool.and_eq_true, Bool.not_eq_true'] at ho
    exact ho.1

/-- The end of a field. -/
theorem Tracks.leave {w : Wordlist} {c' : Cutter} (hstr : w.str = false) (hnoglob : w.noglob = false)
    (hglobbed : w.globbed = fun s => A (patternOf s)) (hifs : w.ifs = ifs) (hpend : w.pend = c'.pend)
    (hsegs : ∀ seg ∈ c'.segs, seg.Ok) (hdone : Became A globres base c'.done w.fields)
    (hdrop : c'.pend = true → Became A globres base c'.done.dropLast w.fields.dropLast) :
    Tracks A ifs globres base w.leave c'.leave := by
  have hframe : w.SameFrame { w.leave with has := w.has, closed := w.closed } := by
    unfold Wordlist.leave Wordlist.settle
    split_ifs <;> exact ⟨rfl, rfl, rfl, rfl, rfl, rfl⟩
  refine ⟨hframe.str.trans hstr, hframe.noglob.trans hnoglob, hframe.globbed.trans hglobbed,
    hframe.ifs.trans hifs, rfl, rfl, ?_, nofun, nofun, nofun, nofun, nofun, hsegs, nofun, nofun,
    fun _ => ?_, nofun⟩
  · unfold Wordlist.leave Wordlist.settle
    split_ifs with hp
    · rfl
    · exact Bool.eq_false_iff.2 hp
  · rw [Wordlist.fields_leave, hpend, Cutter.leave]
    split_ifs with hp
    · exact hdrop hp
    · exact hdone

/-- A field is entered by `wordlist_push` and is the last of its word, or of its argument. -/
theorem Tracks.leave_push (h : Tracks A ifs globres base wl c) (hh : c.has = true)
    (hc : c.closed = false) {w : Wordlist} (hframe : wl.SameFrame w)
    (hkeep : Wordlist.SameKeep wl.state w.state) (hnil : w.cur = [] ↔ wl.cur = [])
    {ending : Ending} {r : List Str} (hfields : w.push.fields = wl.fields ++ r)
    (hone : w.cur = [] → r.length = 1) (hgood : Good A globres (ending, c.segs) r) :
    Tracks A ifs globres base w.push.leave (c.push ending).leave := by
  obtain ⟨hn, hq, hs⟩ := hkeep
  refine Tracks.leave (hframe.str.trans h.str) (hframe.noglob.trans h.noglob)
    (hframe.globbed.trans h.globbed) (hframe.ifs.trans h.ifs) ?_ nofun ?_ fun hp => ?_
  · have hcur : w.cur.isEmpty = blank c.segs := by
      rw [Bool.eq_iff_iff, List.isEmpty_iff, hnil, h.open_blank hh hc]
    simp [Wordlist.push, Cutter.push, hcur, hn.trans (h.nosplit hh), hq.trans (h.quoted hh),
      hs.trans (h.split hh)]
  · rw [hfields]
    exact (h.done hc).append hgood
  · have hb : blank c.segs = true := by
      have hp : (blank c.segs && !(c.quoted || c.split)) = true := hp
      simp only [Bool.and_eq_true] at hp
      exact hp.1
    have hr := hone (hnil.2 ((h.open_blank hh hc).2 hb))
    obtain ⟨x, rfl⟩ := List.length_eq_one_iff.1 hr
    rw [hfields]
    simpa [Cutter.push] using h.done hc

/-- A pending field is given up. -/
theorem Tracks.leave_closed (h : Tracks A ifs globres base wl c) (hc : c.closed = true) :
    Tracks A ifs globres base wl.leave c.leave := by
  refine Tracks.leave h.str h.noglob h.globbed h.ifs h.pend h.segs h.became fun hp => ?_
  obtain ⟨done, segs, fields, r, hdone, hl⟩ := h.last hc
  obtain ⟨x, rfl⟩ := List.length_eq_one_iff.1 (hl.pend (h.pend.trans hp))
  rw [hdone, hl.fields]
  simpa using hl.became

/-- **Between two positional parameters.** -/
theorem Tracks.brk (h : Tracks A ifs globres base wl c) :
    Tracks A ifs globres base wl.brk c.brk := by
  unfold Wordlist.brk Cutter.brk
  rw [h.str, h.has, h.closed]
  cases hh : c.has with
  | false => simpa using h
  | true =>
    cases hc : c.closed with
    | true => simpa using h.leave_closed hc
    | false =>
      simp only [Bool.not_true, Bool.or_self, Bool.false_eq_true, if_false]
      refine h.leave_push hh hc .refl ⟨rfl, rfl, rfl⟩ Iff.rfl Wordlist.fields_push (fun _ => rfl) ?_
      rw [h.cur hh hc]
      exact good_brk h.segs

/-- The draft a wordlist shows of its open field. -/
def Wordlist.draft (wl : Wordlist) : Draft :=
  ⟨wl.cur, [], wl.state.literal, wl.state.unescaped, wl.state.glob, wl.state.globres, true⟩

theorem Draft.Bits.complete_eq {d : Draft} (hb : d.Bits wl.state) (hc : wl.cur = d.cur) :
    wl.draft.complete A = d.complete A := by
  simp [Draft.complete, Wordlist.draft, hb.glob, hb.globres, hb.literal, hb.unescaped, hc]

theorem complete_ne_nil (hA : Globbing A) (d : Draft) : d.complete A ≠ [] := by
  unfold Draft.complete
  split_ifs
  · exact globs_ne_nil hA _ _
  · exact globs_ne_nil hA _ _
  · simp
  · simp

/-- **The end of the word globs or unescapes the open field.** -/
theorem push_complete (hA : Globbing A) (hg : wl.globbed = fun s => A (patternOf s))
    (hn : wl.noglob = false) (hs : wl.state.nosplit = false) :
    wl.SameFrame wl.complete ∧ Wordlist.SameKeep wl.state wl.complete.state ∧
      (wl.complete.cur = [] ↔ wl.cur = []) ∧
      wl.complete.push.fields = wl.fields ++ wl.draft.complete A := by
  have hdraft : wl.draft.complete A =
      if wl.state.glob then Draft.globs A wl.state.globres wl.cur
      else if wl.state.globres then Draft.globs A true wl.cur
      else if wl.state.literal && !wl.state.unescaped then [unescape parseIsesc wl.cur]
      else [wl.cur] := rfl
  rw [hdraft, Wordlist.complete]
  have hself : ∀ g, Wordlist.SameKeep wl.state (wl.state.or { wl.state with glob := g }) :=
    fun g => by simp [Wordlist.SameKeep, XFlags.or]
  by_cases hglob : wl.state.glob = true
  · rw [if_pos hglob, if_pos hglob]
    exact Wordlist.push_glob hA hg hn hs (hself _)
  rw [if_neg hglob, if_neg hglob]
  by_cases hres : wl.state.globres = true
  · rw [if_pos hres, if_pos hres]
    have := Wordlist.push_glob hA hg hn hs (hself wl.state.glob)
    rwa [hres] at this
  rw [if_neg hres, if_neg hres]
  by_cases hlit : (wl.state.literal && !wl.state.unescaped) = true
  · rw [if_pos hlit, if_pos hlit]
    exact ⟨⟨rfl, rfl, rfl, rfl, rfl, rfl⟩, ⟨rfl, rfl, rfl⟩, unescape_eq_nil,
      Wordlist.fields_push⟩
  · rw [if_neg hlit, if_neg hlit]
    exact ⟨.refl, ⟨rfl, rfl, rfl⟩, Iff.rfl, Wordlist.fields_push⟩

/-- What is left of an empty field is one empty field. -/
theorem complete_of_nil (hA : Globbing A) {d : Draft} (h : d.cur = []) :
    (d.complete A).length = 1 := by
  have hans : A (patternOf []) = none := by
    cases hps : A (patternOf []) with
    | none => rfl
    | some ps =>
      have := (hA.paths _ _ hps).2
      rw [hA.plain _ _ rfl hps] at this
      exact absurd (List.mem_singleton_self _) this
  have hglobs : ∀ r, (Draft.globs A r []).length = 1 := by
    intro r
    cases r <;> simp [Draft.globs, hans]
  unfold Draft.complete
  rw [h]
  split_ifs
  · exact hglobs _
  · exact hglobs _
  · rfl
  · rfl

theorem Tracks.leave_idle (h : Tracks A ifs globres base wl c) (hp : c.pend = false) :
    Tracks A ifs globres base wl.leave c.leave :=
  Tracks.leave h.str h.noglob h.globbed h.ifs h.pend h.segs h.became fun hp' => by
    rw [hp] at hp'
    cases hp'

theorem getLast_fields (hn : wl.n ≠ 0) : wl.fields.getLast? = some wl.take.cur := by
  obtain ⟨n, hn⟩ := Nat.exists_eq_succ_of_ne_zero hn
  simp [Wordlist.fields, Wordlist.take, hn, List.range_succ]

/-- The last field is as it should be if the end of the word does not touch it. -/
theorem LastCut.good_last (hA : Globbing A) {done : List (Ending × List Seg)} {segs : List Seg}
    {fields r : List Str} (hl : LastCut A globres base wl done segs fields r) {r' : List Str}
    (hr : r = [(Draft.ofSegs globres segs).cur] → (Draft.ofSegs globres segs).Bits wl.state →
      r' = (Draft.ofSegs globres segs).complete A) : Good A globres (.last, segs) r' := by
  intro hok
  simp only [fieldOk, Bool.and_eq_true] at hok
  obtain ⟨hcalm, hns, hw⟩ := hok
  obtain ⟨hone, hbits⟩ := hl.same hcalm hns
  rw [hr hone hbits]
  exact (Draft.stands_ofSegs hl.ok).complete_eq hA hcalm hw

/-- The field a delimiter closed last, at the end of the word. -/
theorem Tracks.close_last (hA : Globbing A) (h : Tracks A ifs globres base wl c)
    (hc : c.closed = true) (hp : c.pend = false) {done : List (Ending × List Seg)} {segs : List Seg}
    {fields r : List Str} (hl : LastCut A globres base wl done segs fields r) :
    Became A globres base (done ++ [(.last, segs)]) (if wl.retake.has && !wl.retake.closed
      then wl.retake.complete.push else wl.retake).leave.fields := by
  have hh := h.has.trans (h.hasClosed hc)
  have hc' := h.closed.trans hc
  have hp' := h.pend.trans hp
  have hn : wl.n ≠ 0 := by
    rw [← Wordlist.length_fields, hl.fields]
    simp [hl.nonempty]
  have hlast : r.getLast? = some wl.take.cur := by
    have := getLast_fields hn
    rwa [hl.fields, List.getLast?_append_of_ne_nil _ hl.nonempty] at this
  cases hbits : wl.state.glob || wl.state.globres || wl.state.literal with
  | false =>
    have hretake : wl.retake = wl := by simp [Wordlist.retake, hbits]
    rw [hretake, hh, hc', Bool.not_true, Bool.and_false, if_neg (by decide), Wordlist.fields_leave,
      hp', if_neg (by decide), hl.fields]
    refine hl.became.append (hl.good_last hA fun hr hb => ?_)
    simp only [Bool.or_eq_false_iff, hb.glob, hb.globres, hb.literal] at hbits
    simp [Draft.complete, hbits, hr]
  | true =>
    have hretake : wl.retake = wl.take := by simp [Wordlist.retake, hc', hp', hn, hbits]
    have hopen : (wl.take.has && !wl.take.closed) = true := by simp [Wordlist.take, Wordlist.drop, hh]
    have hs : wl.take.state.nosplit = false := h.nosplit (h.hasClosed hc)
    obtain ⟨-, ⟨hk₁, hk₂, hk₃⟩, hnil, hfields⟩ := @push_complete A wl.take hA h.globbed h.noglob hs
    have hpend : wl.take.complete.push.pend = false := by
      have hkeep : wl.keep = (wl.take.complete.state.quoted || wl.take.complete.state.nosplit ||
          wl.take.complete.state.split) := by
        rw [hk₁, hk₂, hk₃]
        rfl
      have hpend : wl.take.complete.push.pend = (wl.take.complete.cur.isEmpty && !wl.keep) := by
        rw [hkeep]
        rfl
      rw [hpend]
      rcases hl.kept hp' with hk | hne
      · simp [hk]
      · have : wl.take.complete.cur ≠ [] := fun h => hne (by rw [hlast, hnil.1 h])
        simp [this]
    rw [hretake, hopen, if_pos rfl, Wordlist.fields_leave, hpend, if_neg (by decide), hfields]
    have htake : wl.take.fields = fields ++ r.dropLast := by
      have : wl.take.fields = wl.fields.dropLast := Wordlist.fields_drop
      rw [this, hl.fields, List.dropLast_append_of_ne_nil hl.nonempty]
    rw [htake, List.append_assoc]
    refine hl.became.append (hl.good_last hA fun hr hb => ?_)
    rw [hr, List.getLast?_singleton, Option.some.injEq] at hlast
    rw [hr, List.dropLast_singleton, List.nil_append]
    exact @Draft.Bits.complete_eq A wl.take _ hb hlast.symm

/-- **The end of the word.** -/
theorem Tracks.close (hA : Globbing A) (h : Tracks A ifs globres base wl c) :
    Became A globres base c.close.done wl.close.1.fields := by
  have hfields : wl.close.1.fields = (if wl.retake.has && !wl.retake.closed
      then wl.retake.complete.push else wl.retake).leave.fields := by
    simp only [Wordlist.close, h.str, Bool.false_eq_true, if_false]
    rfl
  rw [hfields]
  cases hc : c.closed with
  | false =>
    have hretake : wl.retake = wl := by simp [Wordlist.retake, h.closed, hc]
    have hp : c.pend = false := by
      by_contra hp
      have := h.pendClosed (by simpa using hp)
      rw [hc] at this
      cases this
    rw [hretake, h.has, h.closed, hc]
    cases hh : c.has with
    | false => simpa [Cutter.close, hc, hh] using (h.leave_idle hp).became
    | true =>
      obtain ⟨hframe, hkeep, hnil, hpush⟩ := push_complete hA h.globbed h.noglob (h.nosplit hh)
      have hdraft : wl.draft.complete A = (Draft.ofSegs globres c.segs).complete A :=
        (h.bits hh hc).complete_eq (h.cur hh hc)
      have ht : Tracks A ifs globres base wl.complete.push.leave (c.push .word).leave := by
        refine h.leave_push hh hc hframe hkeep hnil hpush (fun hcur => ?_) ?_
        · exact complete_of_nil hA (hnil.1 hcur)
        · rw [hdraft]
          exact good_word hA h.segs
      simpa [Cutter.close, hc, hh] using ht.became
  | true =>
    cases hp : c.pend with
    | true =>
      have hretake : wl.retake = wl := by simp [Wordlist.retake, h.pend, hp]
      have hclose : c.close = c.leave := by simp [Cutter.close, Cutter.leave, hc, hp]
      rw [hretake, h.closed, hc, hclose]
      simpa using (h.leave_closed hc).became
    | false =>
      obtain ⟨done, segs, fields, r, hdone, hl⟩ := h.last hc
      have hclose : c.close.done = done ++ [(.last, segs)] := by
        simp [Cutter.close, hc, hp, hdone, Cutter.leave]
      rw [hclose]
      exact h.close_last hA hc hp hl

end Tracks

end Shish
