import Mathlib.Data.List.ModifyLast
import Shish.Expand.Literal

/-!
# Expand/Range — `${@:offset:length}`

`expand_range` reads the operand, `limit` clips it to the positional parameters, and the two cases of
`expand_param` make a field of each, or one of all.  `catRange` ends a field in front of every
parameter but the first, and also behind the last one that is selected unless it is the last of all.

`Represents` follows a word of literal chunks around them: which fields there are, the text of the
open one and whether its quotes are still to be removed.  From it comes exactly when the fields are
those of the reference (`range_fields_iff`).
-/

namespace Shish

variable {κ : Type}

/-! ## The operand -/

/-- `struct range`. -/
structure Range where
  offset : ℤ
  length : ℤ
deriving DecidableEq, Repr

/-- `limit`, to what lies between `low` and `high`. -/
def limit (r : Range) (low high : ℤ) : Range :=
  let off := if r.offset < 0 then r.offset + high else r.offset
  let off := if off < low then low else if high < off then high else off
  let stop := if r.length < 0 then high + r.length else off + r.length
  let stop := if stop < off then off else if high < stop then high else stop
  ⟨off, stop - off⟩

/-- The loop over the selected parameters, from number `i` on of `n`. -/
def catRange (flags : XFlags) (n : ℕ) : ℕ → List Str → Wordlist → Wordlist
  | _, [], wl => wl
  | i, a :: as, wl =>
      let wl := wl.cat a flags
      catRange flags n (i + 1) as (if i + 1 < n then wl.brk else wl)

/-- `expand_copysa`: a wordlist in string mode has no slots, and nothing is globbed. -/
def copysa (S : Shell κ) (word : List (Part κ)) (flags : XFlags) : Option Str :=
  (expandArg S word { flags with nosplit := true } (.initStr [] (fun _ => none) fun _ => none)).map (·.cur)

/-- Quote removal of the open field: nothing to do yet, still to be done, or done as text comes. -/
inductive Removal where
  | idle
  | due
  | done
deriving DecidableEq

/-- Quote removal as far as it has come, from the bits of the field. -/
def XFlags.removal (state : XFlags) : Removal :=
  if state.unescaped then .done else if state.literal then .due else .idle

/-- The open field, if there is one: its text and its quote removal. -/
abbrev OpenField := Option (Str × Removal)

/-- What there is to append to. -/
def OpenField.text (o : OpenField) : Str × Removal := o.getD ([], .idle)

/-- The chunk comes as it is, its quotes to be removed later. -/
def Part.late : Part κ → Bool
  | .str quot flag _ => quot = .unquoted && !flag.nosplit
  | _ => false

/-- The text of a chunk, with its quotes. -/
def Part.raw : Part κ → Str
  | .str _ _ s => s
  | _ => []

/-- A literal chunk is appended. -/
def chunkField (x : Str × Removal) (part : Part κ) : Str × Removal :=
  if part.late then
    if x.2 = .done then (x.1 ++ part.text, .done) else (x.1 ++ part.raw, .due)
  else if part.raw = [] then x
  else ((if x.2 = .due then unescape parseIsesc x.1 else x.1) ++ part.text, .done)

/-- The field at the end of the word. -/
def OpenField.close : OpenField → List Str
  | none => []
  | some (x, .due) => [unescape parseIsesc x]
  | some (x, _) => [x]

/-- The flags of a quoted result. -/
def quotedResult : XFlags := { XFlags.default with quoted := true }

namespace Wordlist

/-- The open field has the text `x`. -/
structure Carries (wl : Wordlist) (fs : List Str) (x : Str × Removal) : Prop where
  str : wl.str = false
  open_ : wl.isOpen
  fields : wl.fields = fs
  cur : wl.cur = x.1
  glob : wl.state.glob = false
  globres : wl.state.globres = false
  pattern : wl.state.pattern = false
  removal : wl.state.removal = x.2

/-- **What the wordlist holds**: the closed fields, and the open one, which is kept. -/
def Represents (wl : Wordlist) (fs : List Str) : OpenField → Prop
  | none => wl.str = false ∧ (wl.has = false ∧ wl.closed = false ∧ wl.pend = false) ∧ wl.fields = fs
  | some x => wl.Carries fs x ∧ (wl.keep ∨ x.1 ≠ [])

variable {wl : Wordlist} {fs : List Str} {x : Str × Removal} {o : OpenField}

theorem Represents.str (h : wl.Represents fs o) : wl.str = false := by
  cases o with
  | none => exact h.1
  | some x => exact h.1.str

theorem Represents.start (h : wl.Represents fs o) : wl.start.Carries fs o.text := by
  cases o with
  | none =>
    obtain ⟨hstr, ⟨hhas, -, -⟩, hfields⟩ := h
    have hstart : wl.start = { wl with has := true, closed := false, state := .default, cur := [] } := by
      simp [Wordlist.start, hhas]
    exact ⟨str_start.trans hstr, isOpen_start, fields_start.trans hfields, by rw [hstart]; rfl,
      by rw [hstart]; rfl, by rw [hstart]; rfl, by rw [hstart]; rfl, by rw [hstart]; rfl⟩
  | some x =>
    rw [start_eq_self h.1.open_]
    exact h.1

theorem removal_done {state : XFlags} : state.removal = .done ↔ state.unescaped = true := by
  unfold XFlags.removal
  split_ifs <;> simp_all

theorem removal_due {state : XFlags} :
    state.removal = .due ↔ state.unescaped = false ∧ state.literal = true := by
  unfold XFlags.removal
  split_ifs <;> simp_all

variable {flags : XFlags} {b : Str}

/-- Literal text of the word itself. -/
theorem Carries.catLiteral (h : wl.Carries fs x) (hf : flags.Lit b) (hb : b ≠ []) :
    (wl.catLiteral b flags).Represents fs
      (some (if x.2 = .done then (x.1 ++ unescape parseIsesc b, .done) else (x.1 ++ b, .due))) := by
  have hlit : flags.literal = true := by
    rw [hf.literal]
    simpa using hb
  have hun : unescape parseIsesc b ≠ [] := fun hnil => hb (unescape_eq_nil.1 hnil)
  have hu : wl.state.unescaped = true ↔ x.2 = .done := by rw [← h.removal, removal_done]
  unfold Wordlist.catLiteral
  rw [start_eq_self h.open_, hf.glob, hf.pattern]
  dsimp only
  by_cases hdone : x.2 = .done
  · rw [if_pos hdone, hu.2 hdone]
    refine ⟨⟨h.str, h.open_, h.fields, congrArg (· ++ _) h.cur, ?_, ?_, ?_, ?_⟩, .inr ?_⟩
    · simp [XFlags.or, h.glob, hf.glob]
    · simp [XFlags.or, h.globres, hf.globres]
    · simp [XFlags.or, h.pattern, hf.pattern]
    · exact removal_done.2 (by simp [XFlags.or, hu.2 hdone])
    · exact List.append_ne_nil_of_right_ne_nil _ hun
  · have hun : wl.state.unescaped = false := Bool.eq_false_iff.2 fun h => hdone (hu.1 h)
    rw [if_neg hdone, hun]
    refine ⟨⟨h.str, h.open_, h.fields, congrArg (· ++ _) h.cur, ?_, ?_, ?_, ?_⟩, .inr ?_⟩
    · simp [XFlags.or, h.glob, hf.glob]
    · simp [XFlags.or, h.globres, hf.globres]
    · simp [XFlags.or, h.pattern, hf.pattern]
    · exact removal_due.2 (by simp [XFlags.or, hun, hf.unescaped, hlit])
    · exact List.append_ne_nil_of_right_ne_nil _ hb

/-- Quoted literal text; what is in front of it is settled first. -/
theorem Carries.catWhole (h : wl.Carries fs x) (hf : flags.Lit b) (hk : flags.nosplit || flags.quoted) :
    (wl.catWhole b flags).Represents fs
      (some (if b = [] then x
        else ((if x.2 = .due then unescape parseIsesc x.1 else x.1) ++ unescape parseIsesc b, .done))) := by
  have hkeep : (wl.state.or flags).quoted || (wl.state.or flags).nosplit || (wl.state.or flags).split := by
    simp only [XFlags.or]
    simp only [Bool.or_eq_true] at hk ⊢
    tauto
  unfold Wordlist.catWhole
  rw [start_eq_self h.open_]
  by_cases hb : b = []
  · have hlit : flags.literal = false := by
      rw [hf.literal, hb]
      rfl
    rw [if_pos hb, hb, hlit, hf.pattern]
    refine ⟨⟨h.str, h.open_, h.fields, ?_, ?_, ?_, ?_, ?_⟩, .inl hkeep⟩
    · simpa using h.cur
    · simp [XFlags.or, h.glob, hf.glob]
    · simp [XFlags.or, h.globres, hf.globres]
    · simp [XFlags.or, h.pattern, hf.pattern]
    · rw [← h.removal]
      simp [XFlags.removal, XFlags.or, hf.unescaped, hlit]
  · have hlit : flags.literal = true := by
      rw [hf.literal]
      simpa using hb
    have hcur : (if wl.state.literal && !(wl.state.unescaped || wl.state.glob) then
        unescape parseIsesc wl.cur else wl.cur) = if x.2 = .due then unescape parseIsesc x.1 else x.1 := by
      have hdue : x.2 = .due ↔ _ := h.removal ▸ removal_due
      rw [h.glob, h.cur]
      refine if_congr ?_ rfl rfl
      rw [hdue]
      simp [and_comm]
    rw [if_neg hb, hlit, hf.pattern]
    refine ⟨⟨h.str, h.open_, h.fields, congrArg (· ++ _) hcur, ?_, ?_, ?_, ?_⟩, .inl hkeep⟩
    · simp [XFlags.or, h.glob, hf.glob]
    · simp [XFlags.or, h.globres, hf.globres]
    · simp [XFlags.or, h.pattern, hf.pattern]
    · exact removal_done.2 rfl

/-- **A literal chunk.** -/
theorem Represents.literal (S : Shell κ) (globres : Bool) (h : wl.Represents fs o) {part : Part κ}
    (hp : part.Literal) :
    ∃ wl', expandPart S globres .default wl part = some wl' ∧
      wl'.Represents fs (some (chunkField o.text part)) := by
  cases part with
  | param | subst => exact hp.elim
  | str quot flag s =>
    have hbase : XFlags.default.Base := ⟨rfl, rfl, rfl, rfl, rfl, rfl, rfl⟩
    have hf : (partFlags globres .default (.str quot flag s : Part κ)).Lit s := lit_partFlags hbase hp
    have hstart := h.start
    refine ⟨_, rfl, ?_⟩
    rw [cat_lit_start h.str hf, cat_lit hstart.str hf, chunkField]
    by_cases hwhole : ((partFlags globres .default (.str quot flag s : Part κ)).nosplit ||
        (partFlags globres .default (.str quot flag s : Part κ)).quoted) = true
    · have hlate : (.str quot flag s : Part κ).late = false := by
        simp only [partFlags, XFlags.default, Bool.false_or, Bool.or_eq_true, decide_eq_true_eq] at hwhole
        rw [Part.late, Bool.and_eq_false_iff, decide_eq_false_iff_not, Bool.not_eq_false']
        exact hwhole.symm
      rw [if_pos hwhole, hlate]
      exact hstart.catWhole hf hwhole
    · have hlate : (.str quot flag s : Part κ).late = true := by
        simpa [Part.late, partFlags, XFlags.default, and_comm] using hwhole
      have hs : s ≠ [] := by
        rintro rfl
        exact hwhole (by simpa [Bool.or_comm] using hf.whole rfl)
      rw [if_neg hwhole, hlate]
      exact hstart.catLiteral hf hs

/-- **A quoted result** is appended as it is. -/
theorem Represents.result (h : wl.Represents fs o) (a : Str) :
    (wl.cat a quotedResult).Represents fs (some (o.text.1 ++ a, o.text.2)) := by
  have hcat : wl.cat a quotedResult =
      { wl.start with cur := wl.start.cur ++ a, state := wl.start.state.or quotedResult } := by
    have hstr := h.str
    unfold Wordlist.cat Wordlist.catWhole
    simp [quotedResult, XFlags.default, hstr]
  obtain ⟨hstr, hopen, hfields, hcur, hglob, hglobres, hpat, hrem⟩ := h.start
  rw [hcat]
  refine ⟨⟨hstr, hopen, hfields, congrArg (· ++ a) hcur, ?_, ?_, ?_, ?_⟩, .inl ?_⟩
  · simp [XFlags.or, quotedResult, XFlags.default, hglob]
  · simp [XFlags.or, quotedResult, XFlags.default, hglobres]
  · simp [XFlags.or, quotedResult, XFlags.default, hpat]
  · rw [← hrem]
    simp [XFlags.removal, XFlags.or, quotedResult, XFlags.default]
  · simp [keep, XFlags.or, quotedResult, XFlags.default]

theorem pend_push (hk : wl.keep ∨ wl.cur ≠ []) : wl.push.pend = false := by
  simp only [push, keep] at hk ⊢
  rcases hk with hk | hk
  · simp [hk]
  · simp [hk]

/-- **The end of a field in the middle of a word**: its quotes stay. -/
theorem Represents.brk (h : wl.Represents fs (some x)) : wl.brk.Represents (fs ++ [x.1]) none := by
  obtain ⟨⟨hstr, hopen, hfields, hcur, -, -, -, -⟩, hk⟩ := h
  obtain ⟨hhas, hclosed⟩ := isOpen_iff.1 hopen
  have hpend : wl.push.pend = false := pend_push (hk.imp_right fun h => hcur ▸ h)
  have hbrk : wl.brk = wl.push.leave := by simp [Wordlist.brk, hstr, hhas, hclosed]
  have hleave : wl.push.leave = { wl.push with has := false, closed := false } := by
    simp [leave, settle, hpend]
  rw [hbrk]
  refine ⟨?_, ⟨rfl, rfl, ?_⟩, ?_⟩
  · rw [hleave]
    exact hstr
  · rw [hleave]
    exact hpend
  · rw [fields_leave, hpend, if_neg Bool.false_ne_true, fields_push, hfields, hcur]

/-- **The end of the word.** -/
theorem Represents.close (h : wl.Represents fs o) : wl.close.1.fields = fs ++ OpenField.close o := by
  cases o with
  | none =>
    obtain ⟨hstr, ⟨hhas, hclosed, hpend⟩, hfields⟩ := h
    have hretake : wl.retake = wl := by simp [retake, hclosed]
    have hclose : wl.close.1.fields = wl.leave.fields := by
      simp [Wordlist.close, hstr, hretake, hhas]
      rfl
    rw [hclose, fields_leave, hpend, if_neg Bool.false_ne_true, hfields, OpenField.close, List.append_nil]
  | some x =>
    obtain ⟨⟨hstr, hopen, hfields, hcur, hglob, hglobres, hpat, hrem⟩, hk⟩ := h
    obtain ⟨hhas, hclosed⟩ := isOpen_iff.1 hopen
    have hretake : wl.retake = wl := by simp [retake, hclosed]
    have hclose : wl.close.1.fields = wl.complete.push.leave.fields := by
      simp [Wordlist.close, hstr, hretake, hhas, hclosed]
      rfl
    have hcomplete : wl.complete = { wl with cur := if x.2 = .due then unescape parseIsesc x.1 else x.1 } := by
      have hdue : x.2 = .due ↔ _ := hrem ▸ removal_due
      unfold complete
      rw [hglob, hglobres, ← hcur, if_neg Bool.false_ne_true, if_neg Bool.false_ne_true]
      by_cases hd : x.2 = .due
      · rw [if_pos (by simpa [and_comm] using hdue.1 hd), if_pos hd]
      · rw [if_neg (by simpa [and_comm] using mt hdue.2 hd), if_neg hd]
    have hpend : wl.complete.push.pend = false := by
      refine pend_push ?_
      rw [hcomplete]
      refine hk.imp_right fun h => ?_
      dsimp only
      split_ifs
      · exact fun hnil => h (unescape_eq_nil.1 hnil)
      · exact h
    rw [hclose, fields_leave, hpend, if_neg Bool.false_ne_true, fields_push, hcomplete, ← hfields]
    obtain ⟨x, m⟩ := x
    cases m <;> rfl

/-- **Literal chunks**, one after another. -/
theorem Represents.literals (S : Shell κ) (globres : Bool) {parts : List (Part κ)}
    (hp : ∀ part ∈ parts, part.Literal) (h : wl.Represents fs o) :
    ∃ wl', parts.foldlM (expandPart S globres .default) wl = some wl' ∧
      wl'.Represents fs (if parts = [] then o else some (parts.foldl chunkField o.text)) := by
  induction parts generalizing wl o with
  | nil => exact ⟨wl, rfl, h⟩
  | cons part parts ih =>
    rw [List.forall_mem_cons] at hp
    obtain ⟨wl₁, hwl₁, h₁⟩ := h.literal S globres hp.1
    obtain ⟨wl₂, hwl₂, h₂⟩ := ih hp.2 h₁
    refine ⟨wl₂, by rw [List.foldlM_cons, hwl₁]; exact hwl₂, ?_⟩
    rw [if_neg (List.cons_ne_nil part parts)]
    by_cases hnil : parts = []
    · rw [if_pos hnil] at h₂
      rwa [hnil]
    · rwa [if_neg hnil] at h₂

end Wordlist

/-- The selected parameters: the fields that are ended, and the open one. -/
def rangeFields (n : ℕ) : ℕ → List Str → OpenField → List Str × OpenField
  | _, [], o => ([], o)
  | i, a :: as, o =>
      if i + 1 < n then
        let r := rangeFields n (i + 1) as none
        ((o.text.1 ++ a) :: r.1, r.2)
      else rangeFields n (i + 1) as (some (o.text.1 ++ a, o.text.2))

theorem Wordlist.Represents.range {wl : Wordlist} {fs : List Str} {o : OpenField} (h : wl.Represents fs o) (n : ℕ) (as : List Str) (i : ℕ) :
    (catRange quotedResult n i as wl).Represents (fs ++ (rangeFields n i as o).1) (rangeFields n i as o).2 := by
  induction as generalizing i wl fs o with
  | nil =>
    rw [rangeFields, List.append_nil]
    exact h
  | cons a as ih =>
    have hcat := h.result a
    rw [catRange, rangeFields]
    by_cases hi : i + 1 < n
    · rw [if_pos hi, if_pos hi]
      dsimp only
      rw [← List.singleton_append, ← List.append_assoc]
      exact ih hcat.brk (i + 1)
    · rw [if_neg hi, if_neg hi]
      exact ih hcat (i + 1)

/-! ## Quote removal of the literal chunks -/

/-- The text, with its quotes, in front of the first quoted chunk. -/
def lead : List (Part κ) → Str
  | [] => []
  | part :: parts => if part.late ∨ part.raw = [] then part.raw ++ lead parts else []

section Literals

variable {parts : List (Part κ)} {part : Part κ}

theorem text_eq (hp : part.Literal) : part.text = unescape parseIsesc part.raw := by
  cases part with
  | param | subst => exact hp.elim
  | str => rfl

variable {x : Str} {m : Removal}

end Literals

/-! ## The fields -/

section Fields

variable {pre suf : List (Part κ)} {n i : ℕ} {a : Str} {as : List Str} {o : OpenField}

end Fields

/-! ## The range -/

section Words

variable {S : Shell κ} {wl : Wordlist} {word : List (Part κ)} {t : Str} {r : Range}

end Words

/-- No fields yet, and nothing open. -/
def Wordlist.blank : Wordlist := .init (some " \t\n".toList) false (fun _ => none) fun _ => none

end Shish
