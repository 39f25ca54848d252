import Shish.Wordlist.Keeps

/-!
# Wordlist/Conserve — no text is lost, doubled or moved

Runs of calls on a wordlist, with quoted chunks and results of expansions.  Whatever the order of
the calls, the list stays consistent, the fields of earlier words stay as they are, and the fields
of a word hold its text in order: the quoted chunks, each whole inside one field, and the characters
of the others that are not of `ifs`.
-/

namespace Shish

/-- A call on a wordlist. -/
inductive Call
  | cat (b : Str) (flags : XFlags)
  | brk
  | close
deriving DecidableEq, Repr

namespace Call

/-- Calls without literal text and globbing; a chunk is quoted or may be split. -/
def Plain (noglob : Bool) : Call → Prop
  | .cat _ flags => flags.Plain noglob ∧ (flags.quoted ∨ flags.nosplit = false)
  | _ => True

/-- What a call adds to the text of the word. -/
def text (ifs : Str) : Call → Str
  | .cat b flags => if flags.quoted then b else b.filter (!isIfs ifs ·)
  | _ => []

end Call

namespace Wordlist

/-- One call. -/
def step (wl : Wordlist) : Call → Wordlist
  | .cat b flags => wl.cat b flags
  | .brk => wl.brk
  | .close => wl.close.1

/-- A run of calls. -/
def run (wl : Wordlist) (calls : List Call) : Wordlist := calls.foldl step wl

/-- The text of a word. -/
def wordText (ifs : Str) (word : List Call) : Str := word.flatMap (Call.text ifs)

variable {wl : Wordlist} {ifs : Str} {noglob : Bool} {c : Call} {t : Str}

theorem run_append (cs ds : List Call) : wl.run (cs ++ ds) = (wl.run cs).run ds :=
  List.foldl_append

/-! ## Consistency -/

/-- Any property that holds of consistent wordlists holds trivially along. -/
theorem keeps_true : Keeps fun _ _ => True := ⟨fun _ _ => trivial, fun _ _ _ => trivial,
  fun _ _ _ => trivial, fun _ _ _ => trivial⟩

theorem Ok.done (h : wl.Ok) : wl.done.Ok :=
  (Holds.done (P := fun _ _ => True) (t := []) ⟨h, rfl, rfl, trivial⟩ keeps_true).ok

/-- `wordlist_close` starts a new word. -/
theorem Ok.mark_n (h : wl.Ok) (hc : wl.closed = false) : Ok { wl with mark := wl.n } :=
  { h with
    mark := Nat.le_refl _
    closed := fun hc' => absurd hc' (by simp [hc])
    cur := h.cur }

theorem init_ok (ifs : Option Str) (noglob : Bool) (junk : ℕ → Option Str)
    (globbed : Str → Option (List Str)) : (init ifs noglob junk globbed).Ok where
  str := rfl
  room := by simp [init]
  null := rfl
  slots := by simp [init]
  mark := Nat.le_refl _
  has := nofun
  cur := fun _ => rfl
  closed := nofun
  pend := nofun
  last := nofun
  literal := rfl
  glob := rfl
  globres := nofun

section Steps

variable {P : Str → Wordlist → Prop}

/-- **A call that does not end the word keeps what every step keeps.** -/
theorem Holds.step (h : Holds P ifs noglob t wl) (K : Keeps P) (hc : c.Plain noglob)
    (hne : c ≠ .close) : Holds P ifs noglob (t ++ c.text ifs) (wl.step c) := by
  cases c with
  | cat b flags => exact h.cat K hc.1 hc.2
  | brk =>
    simp only [Wordlist.step, Call.text, List.append_nil]
    rw [brk_eq h.ok]
    exact h.done K
  | close => exact absurd rfl hne

theorem Holds.run (K : Keeps P) : ∀ (word : List Call) {t : Str} {wl : Wordlist},
    Holds P ifs noglob t wl → (∀ c ∈ word, c.Plain noglob ∧ c ≠ .close) →
      Holds P ifs noglob (t ++ wordText ifs word) (wl.run word)
  | [], _, _, h, _ => by
      rw [wordText, List.flatMap_nil, List.append_nil]
      exact h
  | c :: cs, t, wl, h, hw => by
      have h₁ := hw c List.mem_cons_self
      have := Holds.run K cs (h.step K h₁.1 h₁.2) fun d hd => hw d (List.mem_cons_of_mem _ hd)
      rw [List.append_assoc] at this
      exact this

end Steps

theorem done_closed : wl.done.closed = false := by
  unfold done leave
  rfl

/-- A consistent wordlist with the given `ifs`. -/
def Fine (ifs : Str) (noglob : Bool) (wl : Wordlist) : Prop :=
  wl.Ok ∧ wl.ifs = ifs ∧ wl.noglob = noglob

theorem Fine.holds (h : Fine ifs noglob wl) {P : Str → Wordlist → Prop} (hp : P t wl) :
    Holds P ifs noglob t wl :=
  ⟨h.1, h.2.1, h.2.2, hp⟩

/-- **Every call keeps a wordlist consistent.** -/
theorem Fine.step (h : Fine ifs noglob wl) (hc : c.Plain noglob) : Fine ifs noglob (wl.step c) := by
  have h' := h.holds (P := fun _ _ => True) (t := []) trivial
  by_cases hclose : c = .close
  · subst hclose
    have hd := h'.done keeps_true
    change Fine ifs noglob wl.close.1
    rw [close_eq h.1]
    exact ⟨hd.ok.mark_n done_closed, hd.ifs, hd.noglob⟩
  · have := h'.step keeps_true hc hclose
    exact ⟨this.ok, this.ifs, this.noglob⟩

theorem Fine.run : ∀ (cs : List Call) {wl : Wordlist}, Fine ifs noglob wl →
    (∀ c ∈ cs, c.Plain noglob) → Fine ifs noglob (wl.run cs)
  | [], _, h, _ => h
  | c :: cs, _, h, hcs =>
      Fine.run cs (h.step (hcs c List.mem_cons_self)) fun d hd => hcs d (List.mem_cons_of_mem _ hd)

/-! ## What holds within a word -/

/-- What holds in the word that starts with the wordlist `wl₀`: the fields of earlier words are as
they were, and the fields of the word and the open one hold its text. -/
structure Since (wl₀ : Wordlist) (t : Str) (wl : Wordlist) : Prop where
  mark : wl.mark = wl₀.mark
  frame : ∀ i < wl₀.mark, wl.v i = wl₀.v i
  text : (wl.fields.drop wl₀.mark).flatten ++ wl.cur = t

/-- A pending field is the empty last one. -/
theorem Ok.fields_pend (h : wl.Ok) (hp : wl.pend) : wl.fields = wl.fields.dropLast ++ [[]] := by
  obtain ⟨hc, hv⟩ := h.pend hp
  have hn := h.closed hc
  have hsucc : wl.n = wl.n - 1 + 1 := by omega
  have hf : wl.fields =
      (List.range (wl.n - 1)).map (fun i => (wl.v i).getD []) ++ [(wl.v (wl.n - 1)).getD []] := by
    unfold fields
    conv_lhs => rw [hsucc, List.range_succ, List.map_append]
    rfl
  rw [hf, List.dropLast_concat, hv]
  rfl

theorem start_mark : wl.start.mark = wl.mark := by
  unfold start
  split_ifs <;> rfl

theorem start_v : wl.start.v = wl.v := by
  unfold start
  split_ifs <;> rfl

theorem Ok.start_cur (h : wl.Ok) : wl.start.cur = wl.cur := by
  by_cases ho : wl.isOpen
  · rw [start_eq_self ho]
  · rw [h.cur (by simpa using ho)]
    unfold Wordlist.start
    split_ifs with h₁ h₂
    · rfl
    · rfl
    · exact absurd (isOpen_iff.2 ⟨by simpa using h₁, by simpa using h₂⟩) ho

theorem leave_mark : wl.leave.mark = wl.mark := by
  unfold leave settle
  split_ifs <;> rfl

theorem leave_cur : wl.leave.cur = wl.cur := by
  unfold leave settle
  split_ifs <;> rfl

theorem Ok.leave_v (h : wl.Ok) (hc : wl.closed) {i : ℕ} (hi : i < wl.mark) :
    wl.leave.v i = wl.v i := by
  have hn := h.closed hc
  unfold Wordlist.leave settle
  split_ifs
  · simp only [drop]
    rw [if_neg (by omega)]
  · rfl

variable {wl₀ : Wordlist}

theorem since_keeps : Keeps (Since wl₀) where
  start h hs := ⟨start_mark.trans hs.mark, fun i hi => by
    rw [start_v]
    exact hs.frame i hi, by
    rw [fields_start, h.start_cur, hs.text]⟩
  extend h _ hs := ⟨hs.mark, hs.frame, by rw [← hs.text, List.append_assoc]; rfl⟩
  freeze {t wl} h _ hs := by
    have hm := h.mark
    rw [hs.mark] at hm
    refine ⟨hs.mark, fun i hi => ?_, ?_⟩
    · rw [← hs.frame i hi]
      exact push_v_lt (hi.trans_le hm)
    · have hcur : wl.freeze.cur = [] := rfl
      rw [fields_freeze, List.drop_append_of_le_length (by simpa using hm), List.flatten_append,
        hcur, List.append_nil, List.flatten_singleton, hs.text]
  leave {t wl} h hc hs := by
    have hm := h.closed hc
    rw [hs.mark] at hm
    refine ⟨leave_mark.trans hs.mark, fun i hi => ?_, ?_⟩
    · rw [h.leave_v hc (hs.mark ▸ hi), hs.frame i hi]
    · rw [leave_cur, fields_leave, ← hs.text]
      split_ifs with hp
      · have hlen : wl₀.mark ≤ wl.fields.dropLast.length := by
          rw [List.length_dropLast, length_fields]
          omega
        conv_rhs => rw [h.fields_pend hp, List.drop_append_of_le_length hlen]
        simp
      · rfl

/-- The fields of the word so far, with the open one. -/
def wordFields (wl₀ wl : Wordlist) : List Str :=
  wl.fields.drop wl₀.mark ++ if wl.isOpen then [wl.cur] else []

/-- A quoted chunk `b` behind the text `t₁` of its word lies whole inside a field, and so that what
went before it and what followed are where they belong.  The field will not be dropped. -/
structure Kept (wl₀ : Wordlist) (t₁ b t : Str) (wl : Wordlist) : Prop where
  since : Since wl₀ t wl
  whole : ∃ F₁ x y F₂, wordFields wl₀ wl = F₁ ++ (x ++ b ++ y) :: F₂ ∧ F₁.flatten ++ x = t₁ ∧
    t₁ ++ b ++ (y ++ F₂.flatten) = t ∧
    (F₂ = [] → if wl.isOpen then wl.state.quoted = true else wl.pend = false)

theorem wordFields_start (h : wl.Ok) (ho : wl.isOpen = false) :
    wordFields wl₀ wl.start = wordFields wl₀ wl ++ [[]] := by
  rw [wordFields, wordFields, fields_start, isOpen_start, ho, h.start_cur, h.cur ho]
  simp

theorem kept_keeps {t₁ b : Str} : Keeps (Kept wl₀ t₁ b) where
  start {t wl} h hk := by
    refine ⟨since_keeps.start h hk.since, ?_⟩
    by_cases ho : wl.isOpen
    · rw [start_eq_self ho]
      exact hk.whole
    · obtain ⟨F₁, x, y, F₂, hF, h₁, h₂, -⟩ := hk.whole
      refine ⟨F₁, x, y, F₂ ++ [[]], ?_, h₁, ?_, by simp⟩
      · rw [wordFields_start h (by simpa using ho), hF]
        simp
      · simpa using h₂
  extend {t wl b' flags} h ho hk := by
    refine ⟨since_keeps.extend h ho hk.since, ?_⟩
    have ho' : (wl.extend b' flags).isOpen := ho
    obtain ⟨F₁, x, y, F₂, hF, h₁, h₂, h₃⟩ := hk.whole
    rw [wordFields, if_pos ho] at hF
    rw [if_pos ho] at h₃
    simp only [wordFields, if_pos ho', fields_extend]
    rcases List.eq_nil_or_concat' F₂ with rfl | ⟨G, z, rfl⟩
    · obtain ⟨hfields, hcur⟩ := List.append_inj' hF rfl
      refine ⟨F₁, x, y ++ b', [], ?_, h₁, ?_, fun _ => ?_⟩
      · rw [hfields, extend, (List.cons.inj hcur).1]
        simp
      · rw [← h₂]
        simp
      · simp [extend, XFlags.or, h₃ rfl]
    · rw [← List.cons_append, ← List.append_assoc] at hF
      obtain ⟨hfields, hcur⟩ := List.append_inj' hF rfl
      refine ⟨F₁, x, y, G ++ [z ++ b'], ?_, h₁, ?_, by simp⟩
      · rw [hfields, extend, (List.cons.inj hcur).1]
        simp
      · rw [← h₂]
        simp
  freeze {t wl} h ho hk := by
    refine ⟨since_keeps.freeze h ho hk.since, ?_⟩
    have hm := h.mark
    rw [hk.since.mark] at hm
    obtain ⟨F₁, x, y, F₂, hF, h₁, h₂, h₃⟩ := hk.whole
    rw [if_pos ho] at h₃
    have hnot : wl.freeze.isOpen = false := by simp [isOpen, freeze]
    refine ⟨F₁, x, y, F₂, ?_, h₁, h₂, fun hF₂ => ?_⟩
    · rw [← hF, wordFields, wordFields, hnot, if_pos ho, fields_freeze,
        List.drop_append_of_le_length (by simpa using hm)]
      simp
    · simp [freeze, push, h₃ hF₂]
  leave {t wl} h hc hk := by
    refine ⟨since_keeps.leave h hc hk.since, ?_⟩
    have hm := h.closed hc
    rw [hk.since.mark] at hm
    obtain ⟨F₁, x, y, F₂, hF, h₁, h₂, h₃⟩ := hk.whole
    have hnot : wl.isOpen = false := by simp [isOpen, hc]
    have hnot' : wl.leave.isOpen = false := by simp [isOpen, leave]
    simp only [wordFields, hnot, hnot', Bool.false_eq_true, if_false, List.append_nil] at hF h₃ ⊢
    have hpend : wl.leave.pend = false := by
      unfold Wordlist.leave settle
      split_ifs with hp
      · rfl
      · simpa using hp
    rw [fields_leave]
    split_ifs with hp
    · -- the pending field is not the one with `b`
      obtain ⟨G, z, rfl⟩ := (List.eq_nil_or_concat' F₂).resolve_left fun hn =>
        absurd (h₃ hn) (by simp [hp])
      have hlen : wl₀.mark ≤ wl.fields.dropLast.length := by
        rw [List.length_dropLast, length_fields]
        omega
      rw [h.fields_pend hp, List.drop_append_of_le_length hlen, ← List.cons_append,
        ← List.append_assoc] at hF
      obtain ⟨hfields, hz⟩ := List.append_inj' hF rfl
      obtain rfl := (List.cons.inj hz).1
      refine ⟨F₁, x, y, G, hfields, h₁, ?_, fun _ => hpend⟩
      simpa using h₂
    · exact ⟨F₁, x, y, F₂, hF, h₁, h₂, fun _ => hpend⟩

/-- A quoted chunk starts out whole. -/
theorem Holds.quoted {b : Str} {flags : XFlags} (h : Holds (Since wl₀) ifs noglob t wl)
    (hf : flags.Plain noglob) (hq : flags.quoted) :
    Holds (Kept wl₀ t b) ifs noglob (t ++ b) (wl.cat b flags) := by
  have hs := h.start since_keeps
  have he := hs.extend since_keeps (b := b) isOpen_start hf
  have ho : (wl.start.extend b flags).isOpen := @isOpen_start wl
  rw [cat_quoted h.ok hf hq]
  refine ⟨he.ok, he.ifs, he.noglob, he.prop, wl.start.fields.drop wl₀.mark, wl.start.cur, [], [],
    ?_, hs.prop.text, by simp, fun _ => ?_⟩
  · have hcur : (wl.start.extend b flags).cur = wl.start.cur ++ b := rfl
    rw [wordFields, if_pos ho, hcur, fields_extend, List.append_nil]
  · rw [if_pos ho]
    simp [Wordlist.extend, XFlags.or, hq]

/-! ## Whole runs -/

/-- A call leaves the fields of earlier words alone. -/
theorem Fine.step_frame (h : Fine ifs noglob wl) (hc : c.Plain noglob) :
    wl.mark ≤ (wl.step c).mark ∧ ∀ i < wl.mark, (wl.step c).v i = wl.v i := by
  have hs : Holds (Since wl) ifs noglob ((wl.fields.drop wl.mark).flatten ++ wl.cur) wl :=
    h.holds ⟨rfl, fun _ _ => rfl, rfl⟩
  by_cases hclose : c = .close
  · subst hclose
    have hd := (hs.done since_keeps)
    change wl.mark ≤ wl.close.1.mark ∧ ∀ i < wl.mark, wl.close.1.v i = wl.v i
    rw [close_eq h.1]
    exact ⟨hd.prop.mark ▸ hd.ok.mark, hd.prop.frame⟩
  · have := (hs.step since_keeps hc hclose).prop
    exact ⟨this.mark.ge, this.frame⟩

theorem Fine.run_frame : ∀ (cs : List Call) {wl : Wordlist}, Fine ifs noglob wl →
    (∀ c ∈ cs, c.Plain noglob) → ∀ i < wl.mark, (wl.run cs).v i = wl.v i
  | [], _, _, _, _, _ => rfl
  | c :: cs, wl, h, hcs, i, hi => by
      have hc := hcs c List.mem_cons_self
      obtain ⟨hm, hv⟩ := h.step_frame hc
      rw [← hv i hi]
      exact Fine.run_frame cs (h.step hc) (fun d hd => hcs d (List.mem_cons_of_mem _ hd)) i
        (hi.trans_le hm)

/-- Between two words there is no field. -/
theorem mark_eq_n (h : wl.Ok) : (wl.step .close).mark = (wl.step .close).n ∧
    (wl.step .close).cur = [] := by
  change wl.close.1.mark = wl.close.1.n ∧ wl.close.1.cur = []
  rw [close_eq h]
  exact ⟨rfl, h.done.cur (by simp [isOpen, done, leave])⟩

/-- **Runs of calls keep a wordlist consistent, leave the fields of earlier words alone and conserve
the text of every word.** -/
theorem calls_conserve (ifs : Option Str) (noglob : Bool) (junk : ℕ → Option Str)
    (globbed : Str → Option (List Str)) (calls : List Call)
    (hcalls : ∀ c ∈ calls, c.Plain noglob) :
    let wl := (init ifs noglob junk globbed).run calls
    wl.v wl.n = none ∧ wl.n < wl.a ∧ wl.mark ≤ wl.n ∧
    (wl.pend → 0 < wl.n ∧ wl.v (wl.n - 1) = some []) ∧
    (∀ more, (∀ c ∈ more, c.Plain noglob) → ∀ i < wl.mark, (wl.run more).v i = wl.v i) ∧
    (calls = [] ∨ calls.getLast? = some .close →
      ∀ word, (∀ c ∈ word, c.Plain noglob ∧ c ≠ .close) →
        let fs := (wl.run (word ++ [.close])).fields.drop wl.mark
        fs.flatten = wordText (ifs.getD []) word ∧
        ∀ pre b flags post, word = pre ++ .cat b flags :: post → flags.quoted →
          ∃ F₁ x y F₂, fs = F₁ ++ (x ++ b ++ y) :: F₂ ∧
            F₁.flatten ++ x = wordText (ifs.getD []) pre ∧
            y ++ F₂.flatten = wordText (ifs.getD []) post) := by
  intro wl
  have h : Fine (ifs.getD []) noglob wl :=
    Fine.run calls ⟨init_ok ifs noglob junk globbed, rfl, rfl⟩ hcalls
  refine ⟨h.1.null, h.1.room, h.1.mark, fun hp => ?_, fun more hmore => h.run_frame more hmore,
    fun hend word hword => ?_⟩
  · obtain ⟨hc, hv⟩ := h.1.pend hp
    exact ⟨Nat.zero_lt_of_lt (h.1.closed hc), hv⟩
  have hstart : wl.mark = wl.n ∧ wl.cur = [] := by
    rcases hend with rfl | hend
    · exact ⟨rfl, rfl⟩
    · obtain ⟨cs, rfl⟩ := List.getLast?_eq_some_iff.1 hend
      have hcs := Fine.run cs ⟨init_ok ifs noglob junk globbed, rfl, rfl⟩ fun c hc =>
        hcalls c (List.mem_append_left _ hc)
      change (run _ (cs ++ [.close])).mark = (run _ (cs ++ [.close])).n ∧
        (run _ (cs ++ [.close])).cur = []
      rw [run_append]
      exact mark_eq_n hcs.1
  have hs : Holds (Since wl) (ifs.getD []) noglob [] wl :=
    h.holds ⟨rfl, fun _ _ => rfl, by
      rw [hstart.2, hstart.1, List.drop_of_length_le (by simp)]
      rfl⟩
  have hclose : (wl.run (word ++ [.close])).fields = (wl.run word).done.fields := by
    rw [run_append]
    change (wl.run word).close.1.fields = _
    rw [close_eq (hs.run since_keeps word hword).ok]
    rfl
  intro fs
  have hcur : (wl.run word).done.isOpen = false := by simp [isOpen, done, leave]
  constructor
  · have hd := (hs.run since_keeps word hword).done since_keeps
    have htext := hd.prop.text
    rw [hd.ok.cur hcur, List.append_nil, List.nil_append] at htext
    rw [← htext, ← hclose]
  · rintro pre b flags post rfl hq
    have hcat := hword (.cat b flags) (by simp)
    have hpre := hs.run since_keeps pre fun c hc => hword c (by simp [hc])
    have hb := hpre.quoted (b := b) hcat.1.1 hq
    have hpost := (hb.run kept_keeps post fun c hc => hword c (by simp [hc])).done kept_keeps
    obtain ⟨F₁, x, y, F₂, hF, h₁, h₂, -⟩ := hpost.prop.whole
    have hrun : ((wl.run pre).cat b flags).run post = wl.run (pre ++ .cat b flags :: post) := by
      rw [run_append]
      rfl
    rw [hrun, wordFields, hcur, ← hclose] at hF
    simp only [Bool.false_eq_true, if_false, List.append_nil] at hF
    refine ⟨F₁, x, y, F₂, hF, by simpa using h₁, ?_⟩
    exact List.append_cancel_left h₂

/-- The word `"a b"$x` with a blank and a letter in `x`. -/
theorem calls_conserve_quoted :
    let word := [Call.cat ['a', ' ', 'b'] { XFlags.default with quoted := true },
      Call.cat [' ', 'c'] .default]
    (∀ c ∈ word, c.Plain false ∧ c ≠ .close) ∧
    ((init (some [' ']) false (fun _ => none) fun _ => none).run (word ++ [.close])).fields.flatten =
      ['a', ' ', 'b', 'c'] := by
  intro word
  have hword : ∀ c ∈ word, c.Plain false ∧ c ≠ .close := by
    intro c hc
    rcases List.mem_cons.1 hc with rfl | hc
    · exact ⟨⟨⟨rfl, rfl, nofun, fun _ => rfl⟩, .inl rfl⟩, nofun⟩
    · obtain rfl := List.mem_singleton.1 hc
      exact ⟨⟨⟨rfl, rfl, nofun, fun _ => rfl⟩, .inr rfl⟩, nofun⟩
  refine ⟨hword, ?_⟩
  have := calls_conserve (some [' ']) false (fun _ => none) (fun _ => none) [] nofun
  exact (this.2.2.2.2.2 (.inl rfl) word hword).1

end Wordlist

end Shish
