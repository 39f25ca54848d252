import Shish.Expand.Arg
import Shish.Wordlist.Keeps

/-!
# Expand/Literal — words of literal text

The text of a literal chunk has a backslash in front of every quoted character of `C_ESC`, and
`wordlist_cat` takes these away at one of three times: as the chunk comes, when the next one comes,
or when the word ends.  Whichever it is, a word of such chunks becomes one field, of the texts of the
chunks one behind the other (`expandArg_literal`).
-/

namespace Shish

variable {κ : Type}

/-! ## Escaped text -/

variable {c : Char} {x y s t : Str}

example (S : Shell κ) (wl : Wordlist) : unescape parseIsesc ['a'] = ['a'] ∧ expandWords S wl [] = some wl := by
  simp [unescape, expandWords]

theorem unescape_eq_nil {pred : Char → Bool} {x : Str} : unescape pred x = [] ↔ x = [] := by
  fun_cases unescape pred x <;> simp_all

theorem unescape_cons (h : c ≠ '\\') :
    unescape parseIsesc (c :: t) = c :: unescape parseIsesc t := by
  rw [unescape]
  rintro d t' rfl
  exact absurd rfl h

theorem unescape_escape_append : ∀ (x t : Str),
    unescape parseIsesc (escape x ++ t) = x ++ unescape parseIsesc t
  | [], _ => rfl
  | c :: x, t => by
      rw [escape_cons, List.append_assoc]
      by_cases hc : parseIsesc c
      · simp [escape, hc, unescape]
        exact unescape_escape_append x t
      · have hne : c ≠ '\\' := by
          rintro rfl
          exact absurd (by decide) hc
        simp only [escape, hc, List.flatMap_cons, List.flatMap_nil, List.append_nil, List.cons_append,
          List.nil_append, Bool.false_eq_true, if_false, unescape_cons hne, List.cons.injEq, true_and]
        exact unescape_escape_append x t

theorem unescape_escape (x : Str) : unescape parseIsesc (escape x) = x := by
  have := unescape_escape_append x []
  simpa [unescape] using this

/-- No backslash of the text reaches for what follows it. -/
def Whole (s : Str) : Prop :=
  ∀ t, unescape parseIsesc (s ++ t) = unescape parseIsesc s ++ unescape parseIsesc t

theorem whole_escape (x : Str) : Whole (escape x) := fun t => by
  rw [unescape_escape_append, unescape_escape]

theorem Whole.append (hs : Whole s) (ht : Whole t) : Whole (s ++ t) := fun u => by
  rw [List.append_assoc, hs, ht, hs, List.append_assoc]

/-! ## The open field -/

/-- Flags of a literal chunk that is no pattern; an empty chunk is not marked as one. -/
structure XFlags.Lit (flags : XFlags) (b : Str) : Prop where
  literal : flags.literal = !b.isEmpty
  whole : b = [] → flags.quoted || flags.nosplit
  glob : flags.glob = false
  globres : flags.globres = false
  pattern : flags.pattern = false
  subword : flags.subword = false
  unescaped : flags.unescaped = false

namespace Wordlist

variable {wl : Wordlist} {flags : XFlags} {b : Str}

/-- The open field stands for `t`: its text, with its backslashes still in it if they go at the end
of the word. -/
structure Bears (wl : Wordlist) (t : Str) : Prop where
  str : wl.str = false
  open_ : wl.isOpen
  glob : wl.state.glob = false
  globres : wl.state.globres = false
  pattern : wl.state.pattern = false
  text : if wl.state.unescaped then wl.cur = t
    else if wl.state.literal then unescape parseIsesc wl.cur = t ∧ Whole wl.cur
    else wl.cur = [] ∧ t = []

theorem Bears.start (hs : wl.str = false) (hh : wl.has = false) : wl.start.Bears [] := by
  have h : wl.start = { wl with has := true, closed := false, state := .default, cur := [] } := by
    simp [Wordlist.start, hh]
  rw [h]
  exact ⟨hs, rfl, rfl, rfl, rfl, ⟨rfl, rfl⟩⟩

theorem start_start : wl.start.start = wl.start := start_eq_self isOpen_start

theorem Bears.catWhole (h : wl.Bears t) (hf : flags.Lit b) :
    (wl.catWhole b flags).Bears (t ++ unescape parseIsesc b) := by
  obtain ⟨hstr, hopen, hglob, hglobres, hpat, htext⟩ := h
  unfold Wordlist.catWhole
  rw [start_eq_self hopen]
  by_cases hb : b = []
  · subst hb
    have hlit : flags.literal = false := hf.literal
    simp only [hlit, Bool.false_and, Bool.false_eq_true, if_false, hf.pattern, List.append_nil,
      unescape]
    refine ⟨hstr, hopen, ?_, ?_, ?_, ?_⟩
    all_goals simp_all [XFlags.or, hf.glob, hf.globres, hf.pattern, hf.unescaped]
  · have hlit : flags.literal = true := by
      rw [hf.literal]
      simpa using hb
    simp only [hlit, hf.pattern, Bool.not_false, Bool.and_self, if_true, Bool.true_and]
    refine ⟨hstr, hopen, ?_, ?_, ?_, ?_⟩
    · simp [XFlags.or, hglob, hf.glob]
    · simp [XFlags.or, hglobres, hf.globres]
    · simp [XFlags.or, hpat, hf.pattern]
    · simp only [if_true]
      congr 1
      cases hu : wl.state.unescaped <;> cases hl : wl.state.literal <;> simp_all

theorem Bears.catLiteral (h : wl.Bears t) (hf : flags.Lit b) (hb : b ≠ []) (hw : Whole b) :
    (wl.catLiteral b flags).Bears (t ++ unescape parseIsesc b) := by
  obtain ⟨hstr, hopen, hglob, hglobres, hpat, htext⟩ := h
  have hlit : flags.literal = true := by
    rw [hf.literal]
    simpa using hb
  unfold Wordlist.catLiteral
  rw [start_eq_self hopen]
  refine ⟨hstr, hopen, ?_, ?_, ?_, ?_⟩
  · simp [XFlags.or, hglob, hf.glob]
  · simp [XFlags.or, hglobres, hf.globres]
  · simp [XFlags.or, hpat, hf.pattern]
  · cases hu : wl.state.unescaped <;> cases hl : wl.state.literal
    all_goals simp_all [XFlags.or, hf.glob, hf.pattern, hf.unescaped]
    rw [← htext.1]
    exact ⟨htext.2 b, htext.2.append hw⟩

/-- A literal chunk is never split. -/
theorem cat_lit (hs : wl.str = false) (hf : flags.Lit b) : wl.cat b flags =
    if flags.nosplit || flags.quoted then wl.catWhole b flags else wl.catLiteral b flags := by
  unfold Wordlist.cat
  simp only [hs, Bool.or_false]
  split
  · rfl
  · next hq =>
    have hlit : flags.literal = true := by
      rw [hf.literal]
      simpa using fun hb => hq (by simpa [Bool.or_comm] using hf.whole hb)
    rw [if_pos (by simp [hlit, hf.subword])]

/-- **A literal chunk.** -/
theorem Bears.cat (h : wl.Bears t) (hf : flags.Lit b) (hw : Whole b) :
    (wl.cat b flags).Bears (t ++ unescape parseIsesc b) := by
  rw [cat_lit h.str hf]
  split
  · exact h.catWhole hf
  · next hq =>
    refine h.catLiteral hf ?_ hw
    rintro rfl
    exact hq (by simpa [Bool.or_comm] using hf.whole rfl)

theorem str_start : wl.start.str = wl.str := by
  unfold Wordlist.start
  split_ifs <;> rfl

/-- It opens a field if there is none. -/
theorem cat_lit_start (hs : wl.str = false) (hf : flags.Lit b) :
    wl.cat b flags = wl.start.cat b flags := by
  rw [cat_lit hs hf, cat_lit (str_start.trans hs) hf]
  simp only [Wordlist.catWhole, Wordlist.catLiteral, start_start]

/-- It closes none. -/
theorem fields_cat_lit (hs : wl.str = false) (hf : flags.Lit b) : (wl.cat b flags).fields = wl.fields := by
  rw [cat_lit hs hf]
  split
  · simp only [Wordlist.catWhole]
    split_ifs <;> exact fields_start
  · exact fields_start

theorem keep_cat_lit (h : wl.Bears t) (hf : flags.Lit b) (hk : wl.keep ∨ flags.quoted ∨ flags.nosplit) :
    (wl.cat b flags).keep := by
  have hor : ((wl.state.or flags).quoted || (wl.state.or flags).nosplit ||
      (wl.state.or flags).split) = true := by
    simp only [keep] at hk
    simp only [XFlags.or]
    grind
  rw [cat_lit h.str hf]
  split
  · simp only [Wordlist.catWhole, start_eq_self h.open_]
    split_ifs <;> exact hor
  · simp only [Wordlist.catLiteral, start_eq_self h.open_]
    exact hor

/-- **The end of the word.** -/
theorem Bears.close (h : wl.Bears t) (hk : wl.keep ∨ t ≠ []) :
    wl.close.1.fields = wl.fields ++ [t] := by
  obtain ⟨hstr, hopen, hglob, hglobres, hpat, htext⟩ := h
  obtain ⟨hhas, hclosed⟩ := isOpen_iff.1 hopen
  have hc : wl.complete.cur = t ∧ wl.complete.state = wl.state ∧ wl.complete.fields = wl.fields := by
    unfold Wordlist.complete
    simp only [hglob, hglobres, Bool.false_eq_true, if_false]
    split
    · next hl =>
      simp only [Bool.and_eq_true, Bool.not_eq_true'] at hl
      simp only [hl.1, hl.2, Bool.false_eq_true, if_false, if_true] at htext
      exact ⟨htext.1, rfl, rfl⟩
    · next hl =>
      refine ⟨?_, rfl, rfl⟩
      cases hu : wl.state.unescaped <;> cases hl' : wl.state.literal <;> simp_all
  obtain ⟨hcur, hstate, hfields⟩ := hc
  have hpend : wl.complete.push.pend = false := by
    simp only [Wordlist.push, hcur, hstate]
    rcases hk with hk | hk
    · simp only [keep] at hk
      simp [hk]
    · simp [hk]
  have hretake : wl.retake = wl := by simp [Wordlist.retake, hclosed]
  simp only [Wordlist.close, hstr, Bool.false_eq_true, if_false, hretake, hhas, hclosed, Bool.not_false,
    Bool.and_self, if_true]
  have : (wl.complete.push.leave).fields = wl.fields ++ [t] := by
    rw [fields_leave, hpend, fields_push, hcur, hfields]
    rfl
  exact this

end Wordlist

/-! ## Words -/

/-- A chunk of literal text that is no pattern. -/
def Part.Literal : Part κ → Prop
  | .str quot flag s => flag.glob = false ∧ flag.heredoc = false ∧ Whole s ∧ (s = [] → quot ≠ .unquoted)
  | _ => False

/-- What a literal chunk stands for. -/
def Part.text : Part κ → Str
  | .str _ _ s => unescape parseIsesc s
  | _ => []

theorem literal_escape {quot : Quoting} (x : Str) (h : x = [] → quot ≠ .unquoted) :
    (.str quot .none (escape x) : Part κ).Literal := by
  refine ⟨rfl, rfl, whole_escape x, fun hx => h ?_⟩
  rw [← unescape_escape x, hx]
  rfl

/-- Flags of a word as a whole. -/
structure XFlags.Base (flags : XFlags) : Prop where
  literal : flags.literal = false
  quoted : flags.quoted = false
  glob : flags.glob = false
  globres : flags.globres = false
  pattern : flags.pattern = false
  subword : flags.subword = false
  unescaped : flags.unescaped = false

section Words

variable {S : Shell κ} {wl : Wordlist} {flags : XFlags} {globres : Bool}

theorem lit_partFlags {quot : Quoting} {flag : SFlags} (hf : flags.Base)
    (hp : (.str quot flag s : Part κ).Literal) :
    (partFlags globres flags (.str quot flag s : Part κ)).Lit s := by
  obtain ⟨hglob, hhere, -, hne⟩ := hp
  refine ⟨?_, ?_, ?_, hf.globres, hf.pattern, hf.subword, hf.unescaped⟩
  · simp [partFlags, hf.literal, hhere]
  · intro hs
    simp [partFlags, hne hs]
  · simp [partFlags, hf.glob, hglob]

variable (S globres)

theorem expandPart_literal {part : Part κ} (h : wl.Bears t) (hf : flags.Base) (hp : part.Literal) :
    ∃ wl', expandPart S globres flags wl part = some wl' ∧ wl'.Bears (t ++ part.text) ∧
      wl'.fields = wl.fields ∧ (wl.keep ∨ part.quot ≠ .unquoted ∨ flags.nosplit → wl'.keep) := by
  cases part with
  | param | subst => exact hp.elim
  | str quot flag s =>
    have hl : (partFlags globres flags (.str quot flag s : Part κ)).Lit s := lit_partFlags hf hp
    refine ⟨_, rfl, h.cat hl hp.2.2.1, Wordlist.fields_cat_lit h.str hl, fun hk => ?_⟩
    refine Wordlist.keep_cat_lit h hl (hk.imp_right ?_)
    rintro (hq | hn)
    · left
      simpa [partFlags, Part.quot] using .inr hq
    · right
      simp [partFlags, hn]

/-- The chunks of a word, one after the other. -/
theorem foldlM_literal (hf : flags.Base) : ∀ {parts : List (Part κ)} {wl : Wordlist} {t : Str},
    wl.Bears t → (∀ part ∈ parts, part.Literal) →
      ∃ wl', parts.foldlM (expandPart S globres flags) wl = some wl' ∧
        wl'.Bears (t ++ parts.flatMap Part.text) ∧ wl'.fields = wl.fields ∧
        (wl.keep ∨ (∃ part ∈ parts, part.quot ≠ .unquoted) ∨ flags.nosplit ∧ parts ≠ [] → wl'.keep)
  | [], wl, t, h, _ => ⟨wl, rfl, by simpa using h, rfl, by simp⟩
  | part :: parts, wl, t, h, hp => by
      obtain ⟨wl₁, h₁, hb₁, hf₁, hk₁⟩ := expandPart_literal S globres h hf (hp part (.head _))
      obtain ⟨wl₂, h₂, hb₂, hf₂, hk₂⟩ := foldlM_literal hf hb₁ fun q hq => hp q (.tail _ hq)
      refine ⟨wl₂, by simp [List.foldlM_cons, h₁, h₂], by simpa using hb₂, hf₂.trans hf₁, fun hk => ?_⟩
      refine hk₂ ?_
      rcases hk with hk | ⟨q, hq, hne⟩ | ⟨hn, -⟩
      · exact .inl (hk₁ (.inl hk))
      · rcases List.mem_cons.1 hq with rfl | hq
        · exact .inl (hk₁ (.inr (.inl hne)))
        · exact .inr (.inl ⟨q, hq, hne⟩)
      · exact .inl (hk₁ (.inr (.inr hn)))

/-- **A word of literal text** is one field, of the texts of its chunks. -/
theorem expandArg_literal {parts : List (Part κ)} (hf : flags.Base) (hs : wl.str = false)
    (hh : wl.has = false) (hne : parts ≠ []) (hp : ∀ part ∈ parts, part.Literal)
    (hk : (∃ part ∈ parts, part.quot ≠ .unquoted) ∨ flags.nosplit ∨ parts.flatMap Part.text ≠ []) :
    ∃ wl', expandArg S parts flags wl = some wl' ∧ wl'.Bears (parts.flatMap Part.text) ∧
      wl'.close.1.fields = wl.fields ++ [parts.flatMap Part.text] := by
  obtain ⟨part, parts, rfl⟩ := List.exists_cons_of_ne_nil hne
  have h := Wordlist.Bears.start hs hh
  have hstart : expandArg S (part :: parts) flags wl = expandArg S (part :: parts) flags wl.start := by
    cases part with
    | param | subst => exact (hp _ (.head _)).elim
    | str quot flag s =>
      simp only [expandArg, List.foldlM_cons, expandPart,
        Wordlist.cat_lit_start hs (lit_partFlags hf (hp _ (.head _)))]
  obtain ⟨wl', hw, hb, hfields, hkeep⟩ := foldlM_literal S (expandGlobresOk (part :: parts)) hf h hp
  rw [List.nil_append] at hb
  refine ⟨wl', hstart.trans hw, hb, ?_⟩
  rw [hb.close ?_, hfields, Wordlist.fields_start]
  rcases hk with hk | hk | hk
  · exact .inl (hkeep (.inr (.inl hk)))
  · exact .inl (hkeep (.inr (.inr ⟨hk, hne⟩)))
  · exact .inr hk

theorem expandIsEmptyAt_literal {parts : List (Part κ)} (hp : ∀ part ∈ parts, part.Literal) :
    expandIsEmptyAt S parts = false := by
  have h : parts.any Part.isParam = false := by
    rw [List.any_eq_false]
    intro part hpart
    have := hp part hpart
    cases part with
    | param | subst => exact this.elim
    | str => simp [Part.isParam]
  unfold expandIsEmptyAt
  rw [h, Bool.and_false, Bool.false_and]

/-- The same as an argument of a command. -/
theorem expandArgs_literal (wl : Wordlist) {parts : List (Part κ)} (hs : wl.str = false)
    (hh : wl.has = false)
    (hp : ∀ part ∈ parts, part.Literal) (hq : ∃ part ∈ parts, part.quot ≠ .unquoted)
    (hbrace : expandBraceNeeded S parts = false) (htilde : expandTildeNeeded parts = false) :
    ∃ wl', expandArgs S parts wl = some wl' ∧
      wl'.fields = wl.fields ++ [parts.flatMap Part.text] := by
  have hne : parts ≠ [] := by
    rintro rfl
    simp at hq
  have hbase : XFlags.default.Base := ⟨rfl, rfl, rfl, rfl, rfl, rfl, rfl⟩
  obtain ⟨wl', hw, -, hfields⟩ := expandArg_literal S hbase hs hh hne hp (.inl hq)
  refine ⟨wl'.close.1, ?_, hfields⟩
  simp [expandArgs, hbrace, htilde, expandWords, expandIsEmptyAt_literal S hp, hw]

/-- The same as an assignment. -/
theorem expandVars_literal (wl : Wordlist) {parts : List (Part κ)} (hs : wl.str = false)
    (hh : wl.has = false) (hne : parts ≠ []) (hp : ∀ part ∈ parts, part.Literal)
    (htilde : expandTildeAssignNeeded parts = false) :
    ∃ wl', expandVars S parts wl = some wl' ∧
      wl'.fields = wl.fields ++ [parts.flatMap Part.text] := by
  have hbase : ({ XFlags.default with nosplit := true } : XFlags).Base :=
    ⟨rfl, rfl, rfl, rfl, rfl, rfl, rfl⟩
  obtain ⟨wl', hw, hb, hfields⟩ := expandArg_literal S hbase hs hh hne hp (.inr (.inl rfl))
  have hstate : ({ wl' with state := { wl'.state with glob := false, globres := false } } :
      Wordlist) = wl' := by
    have hglob := hb.glob
    have hglobres := hb.globres
    obtain ⟨_, _, _, _, _, _, state, _, _⟩ := wl'
    cases state
    simp_all
  refine ⟨wl'.close.1, ?_, hfields⟩
  simp only [expandVars, htilde, Bool.false_eq_true, if_false, hw, Option.map_some]
  exact congrArg (fun wl : Wordlist => some wl.close.1) hstate

end Words

/-! ## A bare shell -/

theorem fields_init (ifs : Option Str) (noglob : Bool) (junk : ℕ → Option Str)
    (globbed : Str → Option (List Str)) : (Wordlist.init ifs noglob junk globbed).fields = [] :=
  rfl

/-- No grammar, no parameters: for words without substitutions. -/
def Grammar.none : Grammar Empty :=
  ⟨fun _ _ _ => .none, fun _ _ _ => .none, fun _ _ _ => .none, fun _ _ _ _ _ => .none⟩

/-- A shell without parameters. -/
def Shell.bare : Shell Empty where
  args := []
  var := fun _ => none
  value := fun _ => none
  ifs := " \t\n".toList
  nounset := false
  braceexpand := true
  oper := fun _ _ _ _ => none
  subst := fun _ _ _ => none
  rewriteWord := fun parts => [parts]
  rewriteVar := fun parts => parts

end Shish
