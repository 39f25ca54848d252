import Shish.Expand.Trim
import Shish.Wordlist.Conserve

/-!
# Expand/Assign — `${x=word}`

The word is appended to the open field, and what stands there behind a snapshot of its length is
assigned.  That is the word's expansion as long as nothing else happens to the field: a literal chunk
removes the quotes of text that waits in front of it, `$@` ends the field, and a pattern keeps its
backslashes.  `asgndef_assigns` says when the value is what the word alone expands to.
-/

namespace Shish

variable {κ : Type}

/-! ## The operator -/

/-- How `S_ASGNDEF` ends: with the value the parameter has, with an error, with a length below zero, or
with an assignment. -/
inductive AsgnDef
  | kept (wl : Wordlist)
  | failed
  | wraps
  | assigned (value : Str) (wl : Wordlist)

namespace AsgnDef

/-- The value that is assigned. -/
def value : AsgnDef → Option Str
  | assigned value _ => some value
  | _ => none

end AsgnDef

section Unescape

variable {pred : Char → Bool}

theorem length_unescape_le (x : Str) : (unescape pred x).length ≤ x.length := by
  fun_induction unescape pred x with
  | case1 c t _ ih => simp only [List.length_cons]; omega
  | case2 c t _ ih => simpa using ih
  | case3 c t _ ih => simpa using ih
  | case4 => exact Nat.le_refl _

/-- Quote removal that takes nothing away changes nothing. -/
theorem unescape_of_length {x : Str} (h : (unescape pred x).length = x.length) : unescape pred x = x := by
  fun_induction unescape pred x with
  | case1 c t _ ih =>
    have := @length_unescape_le pred t
    simp only [List.length_cons] at h
    omega
  | case2 c t _ ih =>
    rw [ih (by simpa using h)]
  | case3 c t _ ih =>
    rw [ih (by simpa using h)]
  | case4 => rfl

end Unescape

/-! ## What a word adds to a field -/

/-- A literal chunk, the result of an expansion, or the end of a field. -/
inductive Supply
  | literal (s : Str)
  | result (quoted : Bool) (x : Str)
  | brk
deriving DecidableEq, Repr

namespace Supply

/-- Its text. -/
def text : Supply → Str
  | literal s => unescape parseIsesc s
  | result _ x => x
  | brk => []

/-- Its text in a pattern. -/
def written : Supply → Str
  | literal s => s
  | result quoted x => if quoted then Wordlist.escapePattern x else x
  | brk => []

/-- The open field, if there is one: its text, and whether the quotes in it wait for the end of the word. -/
abbrev OpenText := Option (Str × Bool)

/-- What becomes of the open field. -/
def add (str : Bool) (o : OpenText) : Supply → OpenText
  | literal s =>
      let x := o.getD ([], false)
      some ((if x.2 then unescape parseIsesc x.1 else x.1) ++ unescape parseIsesc s, false)
  | result _ y =>
      let x := o.getD ([], false)
      some (x.1 ++ y, x.2)
  | brk => if str then o else none

/-- The positional parameters, each in a field of its own. -/
def ofArgs (quoted : Bool) : List Str → List Supply
  | [] => []
  | [a] => [result quoted a]
  | a :: as => result quoted a :: brk :: ofArgs quoted as

end Supply

/-- The chunk adds the result `x`. -/
def Hands (S : Shell κ) (part : Part κ) (x : Str) : Prop :=
  ∀ globres flags (wl : Wordlist), flags.nosplit = true →
    expandPart S globres flags wl part = some (wl.cat x (partFlags globres flags part))

/-- **What a word adds**, where it is not split. -/
inductive Supplies (S : Shell κ) : Bool → List (Part κ) → List Supply → Prop where
  | nil {q} : Supplies S q [] []
  | literal {q quot flag s parts ps} : s ≠ [] → flag.heredoc = false → Supplies S q parts ps →
      Supplies S q (.str quot flag s :: parts) (.literal s :: ps)
  | plain {q quot flag s parts ps} : (s = [] ∨ flag.heredoc = true) → flag.glob = false →
      Supplies S q parts ps →
      Supplies S q (.str quot flag s :: parts) (.result (q || decide (quot ≠ .unquoted)) s :: ps)
  | param {q p w x parts ps} : Hands S (.param p w) x → Supplies S q parts ps →
      Supplies S q (.param p w :: parts) (.result (q || decide (p.quot ≠ .unquoted)) x :: ps)
  | subst {q quot k x parts ps} : Hands S (.subst quot k) x → Supplies S q parts ps →
      Supplies S q (.subst quot k :: parts) (.result (q || decide (quot ≠ .unquoted)) x :: ps)
  | unset {q part parts ps} : (∀ globres flags wl, expandPart S globres flags wl part = some wl) →
      Supplies S q parts ps → Supplies S q (part :: parts) ps
  | args {q p parts ps} : p.special = some .argvs → p.op = .default → p.strlen = false →
      Supplies S q parts ps →
      Supplies S q (.param p none :: parts) (Supply.ofArgs (q || decide (p.quot ≠ .unquoted)) S.args ++ ps)
  | word {q p w ps' parts ps} :
      (∀ flags wl, S.oper p (some w) flags wl = expandArg S w { flags with subword := true } wl) →
      Supplies S (q || decide (p.quot ≠ .unquoted)) w ps' → Supplies S q parts ps →
      Supplies S q (.param p (some w) :: parts) (ps' ++ ps)

/-- The flags of an unsplit word: `pat` for a pattern, `q` for a quoted one. -/
structure XFlags.Unsplit (flags : XFlags) (pat q : Bool) : Prop where
  nosplit : flags.nosplit = true
  literal : flags.literal = false
  glob : flags.glob = false
  unescaped : flags.unescaped = false
  pattern : flags.pattern = pat
  quoted : pat = true → flags.quoted = q

/-- **A relation that follows the field**: `step` says what becomes of it. -/
structure FollowsField {σ : Type} (R : Wordlist → σ → Prop) (step : σ → Supply → σ) (pat : Bool) :
    Prop where
  literal : ∀ {wl s} (b : Str) {flags : XFlags}, flags.nosplit = true → flags.unescaped = false →
    flags.pattern = pat → flags.literal = true → R wl s → R (wl.cat b flags) (step s (.literal b))
  result : ∀ {wl s q} (x : Str) {flags : XFlags}, flags.Unsplit pat q → R wl s →
    R (wl.cat x flags) (step s (.result q x))
  brk : ∀ {wl s}, R wl s → R wl.brk (step s .brk)

section Words

variable {S : Shell κ} {q pat : Bool} {parts : List (Part κ)} {ps : List Supply} {flags : XFlags}

theorem XFlags.Unsplit.result (h : flags.Unsplit pat q) (globres : Bool) (quot : Quoting) :
    (partFlags.result globres flags quot).Unsplit pat (q || decide (quot ≠ .unquoted)) :=
  ⟨h.nosplit, h.literal, h.glob, h.unescaped, h.pattern, fun hp => by simp [partFlags.result, h.quoted hp]⟩

theorem XFlags.Unsplit.plain (h : flags.Unsplit pat q) (globres : Bool) {quot : Quoting} {flag : SFlags} {s : Str}
    (hs : s = [] ∨ flag.heredoc = true) (hglob : flag.glob = false) :
    (partFlags globres flags (.str quot flag s : Part κ)).Unsplit pat (q || decide (quot ≠ .unquoted)) where
  nosplit := by simp [partFlags, h.nosplit]
  literal := by rcases hs with rfl | hs <;> simp [partFlags, h.literal, *]
  glob := by simp [partFlags, h.glob, hglob]
  unescaped := h.unescaped
  pattern := h.pattern
  quoted := fun hp => by simp [partFlags, h.quoted hp]

/-- **Whatever follows the field at each step follows it through a word.** -/
theorem Supplies.run {σ : Type} {R : Wordlist → σ → Prop} {step : σ → Supply → σ}
    (hR : FollowsField R step pat) (h : Supplies S q parts ps) :
    ∀ (globres : Bool) {flags : XFlags} {wl : Wordlist} {s : σ},
      flags.Unsplit pat q → R wl s →
        ∃ wl', parts.foldlM (expandPart S globres flags) wl = some wl' ∧ R wl' (ps.foldl step s) := by
  induction h with
  | nil => exact fun _ _ _ _ _ hwl => ⟨_, rfl, hwl⟩
  | @literal q quot flag s parts ps hs hhere h ih =>
    intro globres flags wl s hf hwl
    exact ih globres hf (hR.literal _ (by simp [partFlags, hf.nosplit]) hf.unescaped hf.pattern
      (by simp [partFlags, hs, hhere]) hwl)
  | @plain q quot flag s parts ps hs hglob h ih =>
    intro globres flags wl s hf hwl
    exact ih globres hf (hR.result _ (hf.plain globres hs hglob) hwl)
  | @param q p w x parts ps hp h ih =>
    intro globres flags wl s hf hwl
    obtain ⟨wl', hexp, hrest⟩ := ih globres hf (hR.result x (hf.result globres p.quot) hwl)
    refine ⟨wl', ?_, hrest⟩
    rw [List.foldlM_cons, hp globres flags wl hf.nosplit]
    exact hexp
  | @subst q quot k x parts ps hp h ih =>
    intro globres flags wl s hf hwl
    obtain ⟨wl', hexp, hrest⟩ := ih globres hf (hR.result x (hf.result globres quot) hwl)
    refine ⟨wl', ?_, hrest⟩
    rw [List.foldlM_cons, hp globres flags wl hf.nosplit]
    exact hexp
  | @unset q part parts ps hp h ih =>
    intro globres flags wl s hf hwl
    obtain ⟨wl', hexp, hrest⟩ := ih globres hf hwl
    refine ⟨wl', ?_, hrest⟩
    rw [List.foldlM_cons, hp]
    exact hexp
  | @args q p parts ps hspecial hop hlen h ih =>
    intro globres flags wl s hf hwl
    have hargs : ∀ (as : List Str) {wl : Wordlist} {s : σ}, R wl s →
        R (catArgs (partFlags.result globres flags p.quot) as wl)
          ((Supply.ofArgs (q || decide (p.quot ≠ .unquoted)) as).foldl step s) := by
      intro as
      induction as with
      | nil => exact id
      | cons a as iha =>
        intro wl s hwl
        have hcat := hR.result a (hf.result globres p.quot) hwl
        cases as with
        | nil => exact hcat
        | cons b as => exact iha (hR.brk hcat)
    obtain ⟨wl', hexp, hrest⟩ := ih globres hf (hargs S.args hwl)
    refine ⟨wl', ?_, List.foldl_append ▸ hrest⟩
    have hpart : expandPart S globres flags wl (.param p none) =
        some (catArgs (partFlags.result globres flags p.quot) S.args wl) := by
      unfold expandPart expandParam
      simp [hspecial, hop, hlen, partFlags]
    rw [List.foldlM_cons, hpart]
    exact hexp
  | @word q p w ps' parts ps hoper hw h ihw ih =>
    intro globres flags wl s hf hwl
    have hf' : ({ partFlags.result globres flags p.quot with subword := true } : XFlags).Unsplit pat
        (q || decide (p.quot ≠ .unquoted)) :=
      ⟨hf.nosplit, hf.literal, hf.glob, hf.unescaped, hf.pattern, (hf.result globres p.quot).quoted⟩
    obtain ⟨wl₁, hexp₁, hmid⟩ := ihw (expandGlobresOk w) hf' hwl
    obtain ⟨wl', hexp, hrest⟩ := ih globres hf hmid
    refine ⟨wl', ?_, List.foldl_append ▸ hrest⟩
    have hpart : expandPart S globres flags wl (.param p (some w)) = some wl₁ := by
      rw [expandPart, expandParam, if_pos (by simp), hoper]
      exact hexp₁
    rw [List.foldlM_cons, hpart]
    exact hexp

end Words

/-! ## The open field -/

namespace Wordlist

/-- Where no field is open nothing is left in `cur`, and in string mode there is always one. -/
structure Steady (wl : Wordlist) : Prop where
  idle : wl.isOpen = false → wl.cur = []
  str : wl.str = true → wl.isOpen = true
  has : wl.closed = true → wl.has = true

/-- The quotes of the open field wait for the end of the word. -/
def waits (wl : Wordlist) : Bool := wl.state.literal && !(wl.state.unescaped || wl.state.glob)

/-- The open field. -/
def openText (wl : Wordlist) : Supply.OpenText := if wl.isOpen then some (wl.cur, wl.waits) else none

variable {wl : Wordlist} {flags : XFlags}

theorem start_str : wl.start.str = wl.str := by
  unfold start
  split_ifs <;> rfl

theorem Steady.of_open (ho : wl.isOpen = true) : wl.Steady :=
  ⟨fun h => absurd (ho.symm.trans h) (by decide), fun _ => ho, fun _ => (isOpen_iff.1 ho).1⟩

/-- Without an open field. -/
theorem Steady.of_field (hstr : wl.str = false) (hcur : wl.cur = []) (hhas : wl.closed = true → wl.has = true) :
    wl.Steady :=
  ⟨fun _ => hcur, fun h => Bool.noConfusion (hstr.symm.trans h), hhas⟩

theorem leave_frame : wl.leave.str = wl.str ∧ wl.leave.cur = wl.cur := by
  unfold leave settle
  split_ifs <;> exact ⟨rfl, rfl⟩

theorem Steady.leave (hstr : wl.str = false) (hcur : wl.cur = []) : wl.leave.Steady :=
  .of_field (leave_frame.1.trans hstr) (leave_frame.2.trans hcur) nofun

/-- The field, in string mode or not, and its text. -/
structure Follows (str : Bool) (wl : Wordlist) (o : Supply.OpenText) : Prop where
  str_eq : wl.str = str
  steady : wl.Steady
  text : wl.openText = o

theorem Follows.cur {str : Bool} {o : Supply.OpenText} (h : wl.Follows str o) : wl.cur = (o.getD ([], false)).1 := by
  rw [← h.text, openText]
  split_ifs with ho
  · rfl
  · exact h.steady.idle (by simpa using ho)

theorem catWhole_isOpen {b : Str} : (wl.catWhole b flags).isOpen = true := by
  unfold catWhole
  dsimp only
  split_ifs <;> exact isOpen_start

theorem catPaths_frame : ∀ (ps : List Str) (wl : Wordlist),
    (catPaths flags ps wl).str = wl.str ∧ (catPaths flags ps wl).has = wl.has
  | [], _ => ⟨rfl, rfl⟩
  | [p], _ => ⟨rfl, rfl⟩
  | p :: q :: ps, wl => by
      rw [catPaths]
      · refine ⟨(catPaths_frame (q :: ps) _).1.trans ?_, (catPaths_frame (q :: ps) _).2.trans ?_⟩ <;>
          split_ifs <;> rfl
      · exact nofun

theorem glob_frame : (wl.glob flags).str = wl.str ∧ (wl.glob flags).has = wl.has := by
  unfold glob
  split_ifs
  · exact ⟨rfl, rfl⟩
  · exact ⟨rfl, rfl⟩
  · cases wl.globbed wl.cur with
    | none => exact ⟨rfl, rfl⟩
    | some paths => exact catPaths_frame paths _
  · cases wl.globbed wl.cur with
    | none => exact ⟨rfl, rfl⟩
    | some paths => exact catPaths_frame paths _

theorem finish_frame :
    (wl.finish flags).str = wl.str ∧ (wl.finish flags).has = wl.has ∧ (wl.finish flags).cur = [] := by
  unfold finish
  split_ifs
  · exact ⟨glob_frame.1, glob_frame.2, rfl⟩
  · exact ⟨glob_frame.1, glob_frame.2, rfl⟩
  · exact ⟨rfl, rfl, rfl⟩
  · exact ⟨rfl, rfl, rfl⟩

theorem complete_str : wl.complete.str = wl.str := by
  unfold complete
  split_ifs
  · exact glob_frame.1
  · exact glob_frame.1
  · rfl
  · rfl

/-- A field has been ended. -/
structure Ended (wl : Wordlist) : Prop where
  str : wl.str = false
  has : wl.has = true
  cur : wl.cur = []

theorem Ended.steady (h : wl.Ended) : wl.Steady := .of_field h.str h.cur fun _ => h.has

theorem ended_finish (flags : XFlags) (hstr : wl.str = false) (hhas : wl.has = true) : (wl.finish flags).Ended :=
  ⟨finish_frame.1.trans hstr, finish_frame.2.1.trans hhas, finish_frame.2.2⟩

theorem Ended.catEmpty (flags : XFlags) (h : wl.Ended) : ∀ k : ℕ, (catEmpty flags k wl).Ended := by
  intro k
  induction k generalizing wl with
  | zero => exact h
  | succ k ih =>
    have hsibling : wl.sibling.str = false := h.str
    exact ih (ended_finish flags hsibling h.has)

theorem Steady.catRun (flags : XFlags) (h : wl.Steady) (hstr : wl.str = false) {haveField : Bool}
    (hopen : haveField = true → wl.isOpen)
    (nws : ℕ) : (catRun flags haveField nws wl).Steady ∧ (catRun flags haveField nws wl).str = false := by
  unfold Wordlist.catRun
  split_ifs with hnws hcond hfield
  · have hhas : wl.has = true := by
      rcases Bool.or_eq_true_iff.1 hcond with hf | hw
      · exact (isOpen_iff.1 (hopen hf)).1
      · simp only [Bool.and_eq_true] at hw
        exact hw.1.1
    have := ended_finish flags hstr hhas
    exact ⟨this.steady, this.str⟩
  · exact ⟨h, hstr⟩
  · have := (ended_finish flags hstr (isOpen_iff.1 (hopen hfield)).1).catEmpty flags (nws - 1)
    exact ⟨this.steady, this.str⟩
  · have := (ended_finish flags (start_str.trans hstr) (isOpen_iff.1 isOpen_start).1).catEmpty flags
      (nws - 1)
    exact ⟨this.steady, this.str⟩

theorem Steady.catText (flags : XFlags) (h : wl.Steady) (hstr : wl.str = false) {haveField : Bool}
    (hopen : haveField = true → wl.isOpen)
    (b : Str) : (catText flags haveField b wl).Steady ∧ (catText flags haveField b wl).str = false ∧
      ((haveField || !b.isEmpty) = true → (catText flags haveField b wl).isOpen) := by
  unfold Wordlist.catText
  split_ifs with hb hfield
  · refine ⟨h, hstr, fun hor => hopen ?_⟩
    rwa [hb, Bool.not_true, Bool.or_false] at hor
  · have ho : ({ wl with cur := wl.cur ++ b, state := wl.state.or flags } : Wordlist).isOpen = true := hopen hfield
    exact ⟨.of_open ho, hstr, fun _ => ho⟩
  · have ho : ({ wl.start with
        cur := wl.start.cur ++ b, state := wl.start.state.or flags } : Wordlist).isOpen = true := isOpen_start
    exact ⟨.of_open ho, start_str.trans hstr, fun _ => ho⟩

theorem Steady.catLoop (flags : XFlags) (h : wl.Steady) (hstr : wl.str = false) {haveField : Bool}
    (hopen : haveField = true → wl.isOpen)
    (b : Str) : (catLoop flags haveField b wl).Steady := by
  fun_induction Wordlist.catLoop flags haveField b wl with
  | case1 haveField b wl hb => exact (h.catText flags hstr hopen b).1
  | case2 haveField b wl c t hb text nws ih =>
    obtain ⟨htext, hstr', hopen'⟩ := h.catText flags hstr hopen text
    obtain ⟨hrun, hstr''⟩ := htext.catRun flags hstr' hopen' nws
    exact ih hrun hstr'' nofun

/-- **Every call keeps it so.** -/
theorem Steady.step (h : wl.Steady) (c : Call) : (wl.step c).Steady := by
  cases c with
  | cat b flags =>
    rw [Wordlist.step, Wordlist.cat]
    split_ifs with hwhole hliteral hempty
    · exact .of_open catWhole_isOpen
    · exact .of_open isOpen_start
    · exact h
    · have hstr : wl.str = false := by
        simp only [Bool.or_eq_true, not_or, Bool.not_eq_true] at hwhole
        exact hwhole.1.2
      refine h.catLoop _ hstr (fun hfield => ?_) b
      rw [Bool.and_eq_true] at hfield
      exact hfield.1
  | brk =>
    rw [Wordlist.step, Wordlist.brk]
    split_ifs with hstr hclosed
    · exact h
    · simp only [Bool.or_eq_true, not_or, Bool.not_eq_true] at hstr
      exact .leave hstr.1 (h.idle (by simp [isOpen, hclosed]))
    · simp only [Bool.or_eq_true, not_or, Bool.not_eq_true] at hstr
      exact .leave hstr.1 rfl
  | close =>
    rw [Wordlist.step, Wordlist.close]
    split_ifs with hstr
    · exact h
    · rw [Bool.not_eq_true] at hstr
      dsimp only
      have hw : wl.retake.str = false ∧ (wl.retake.isOpen = false → wl.retake.cur = []) := by
        unfold retake
        split_ifs with hcond
        · refine ⟨hstr, fun ho => ?_⟩
          -- a field that is taken back is open
          simp only [Bool.and_eq_true] at hcond
          exact absurd ho (by simp [isOpen, take, drop, h.has hcond.1.1.1])
        · exact ⟨hstr, h.idle⟩
      generalize wl.retake = w at hw
      split_ifs with ho
      · have hleave := @Steady.leave w.complete.push (complete_str.trans hw.1) rfl
        exact ⟨hleave.idle, hleave.str, hleave.has⟩
      · have hleave := Steady.leave hw.1 (hw.2 (by simpa [isOpen] using ho))
        exact ⟨hleave.idle, hleave.str, hleave.has⟩

theorem Steady.run (h : wl.Steady) (calls : List Call) : (wl.run calls).Steady := by
  induction calls generalizing wl with
  | nil => exact h
  | cons c calls ih => exact ih (h.step c)

end Wordlist

/-! ## The value -/

namespace Supply

/-- The text of all of it. -/
def fullText (ps : List Supply) : Str := ps.flatMap text

/-- The text in front of the first literal chunk. -/
def early : List Supply → Str
  | literal _ :: _ => []
  | p :: ps => p.text ++ early ps
  | [] => []

/-- The text from the first literal chunk on. -/
def late : List Supply → Str
  | literal s :: ps => fullText (literal s :: ps)
  | _ :: ps => late ps
  | [] => []

/-- What stands behind the first `n` characters. -/
def behind (n : ℕ) (x : Str) : Option Str := if x.length < n then none else some (x.drop n)

end Supply

open Supply

section Value

variable {str : Bool} {ps : List Supply} {o : OpenText}

end Value

/-! ## The text in a pattern -/

theorem length_le_escapePattern (x : Str) : x.length ≤ (Wordlist.escapePattern x).length := by
  induction x with
  | nil => exact Nat.le_refl _
  | cons c x ih =>
    unfold Wordlist.escapePattern at ih ⊢
    rw [List.flatMap_cons, List.length_append, List.length_cons]
    split_ifs <;> simp only [List.length_cons, List.length_nil] <;> omega

theorem escapePattern_of_length {x : Str} (h : (Wordlist.escapePattern x).length = x.length) :
    Wordlist.escapePattern x = x := by
  induction x with
  | nil => rfl
  | cons c x ih =>
    have hle := length_le_escapePattern x
    unfold Wordlist.escapePattern at ih h hle ⊢
    rw [List.flatMap_cons, List.length_append, List.length_cons] at h
    rw [List.flatMap_cons]
    split_ifs at h ⊢ with hc
    · simp only [List.length_cons, List.length_nil] at h
      omega
    · rw [List.length_singleton] at h
      rw [ih (by omega)]
      rfl

namespace Supply

theorem written_of_length {p : Supply} (h : p.written.length = p.text.length) : p.written = p.text := by
  cases p with
  | literal s => exact (unescape_of_length h.symm).symm
  | result quoted x =>
    cases quoted with
    | true => exact escapePattern_of_length h
    | false => rfl
  | brk => rfl

end Supply

/-! ## The result -/

end Shish
