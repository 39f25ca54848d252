import Mathlib.Data.List.TakeWhile
import Mathlib.Data.UInt
import Shish.Xargs.Token

/-!
# Xargs/Batch — the batches of `xargs`

`builtin_xargs` reads one argument after the other and runs the utility when an argument does not fit behind those
it has, when there are `-n` of them and when there are `-L` lines.  It takes every argument for the end of a line
that has no blanks and newline behind it, so several arguments on one line are several lines.
-/

namespace Shish.Xargs

/-- A C string; it ends at the first null byte. -/
def cString (b : Bytes) : Bytes := b.takeWhile (· ≠ 0)

/-- The options, and the utility with its arguments. -/
structure Opts where
  sepmode : Mode := .blanks
  sep : UInt8 := newline
  eofstr : Option Bytes := none
  replstr : Option Bytes := none
  /-- `UINT64_MAX` for no limit. -/
  maxLines : UInt64 := 18446744073709551615
  /-- `UINT_MAX` for no limit. -/
  maxArgs : UInt32 := 4294967295
  maxSize : ℕ := 131072
  noRunNoargs : Bool := false
  exitIfSize : Bool := false
  util : List Bytes := [ascii "echo"]

/-- What is run: the utility with some arguments, or with a line in place of the replacement string. -/
inductive Exec
  | batch (items : List Bytes)
  | replace (line : Bytes)

/-- How it ends. -/
inductive Outcome
  | done
  /-- `-x` and "argument line too long". -/
  | lineTooLong
  /-- "argument too long". -/
  | argTooLong
  | unmatched
  deriving DecidableEq

/-- The local variables of the loop. -/
structure Pending where
  items : List Bytes := []
  lines : ℕ := 0
  used : ℕ
  ran : Bool := false

namespace Opts

variable (o : Opts)

/-- The size of some arguments, each with its null byte. -/
def argSize (items : List Bytes) : ℕ := (items.map (·.length + 1)).sum

/-- The size of the utility and its own arguments. -/
def base : ℕ := argSize o.util

/-- `-I` sets `-x`, and the mode when it is not set. -/
def mode : Mode := if o.replstr.isSome ∧ o.sepmode = .blanks then .lines else o.sepmode

def exits : Bool := o.exitIfSize || o.replstr.isSome

/-- `execute_batch`, with the arguments it has. -/
def executeBatch (items : List Bytes) : Exec := .batch (items.map cString)

/-- `-x` and a batch that is not full. -/
def lineTooLong (p : Pending) : Bool :=
  o.exits && ((o.maxArgs ≠ 4294967295 ∧ (p.items.length : ℤ) < o.maxArgs.toInt32.toInt) ∨
    (o.maxLines ≠ 18446744073709551615 ∧ p.lines < o.maxLines.toNat))

/-- Whether an argument counts as the end of a line. -/
def counts (eol : Bool) : Bool := o.maxLines ≠ 18446744073709551615 && eol

/-- Whether one more argument is enough; the number of arguments is compared with an `int`. -/
def full (p : Pending) (eol : Bool) : Bool :=
  (o.maxArgs ≠ 4294967295 && o.maxArgs.toInt32.toInt ≤ (p.items.length + 1 : ℤ)) ||
    (o.counts eol && o.maxLines.toNat ≤ p.lines + 1)

/-- An argument is put behind the others; when there are enough, they are run. -/
def addItem (p : Pending) (tok : Bytes) (eol : Bool) : List (List Bytes) × Pending :=
  if o.full p eol then ([p.items ++ [tok]], { used := o.base, ran := true })
  else
    ([], { items := p.items ++ [tok]
           lines := if o.counts eol then p.lines + 1 else p.lines
           used := p.used + tok.length + 1
           ran := p.ran })

/-- Whether an argument does not fit behind the ones already collected. -/
def overfull (p : Pending) (tok : Bytes) : Prop := p.items ≠ [] ∧ o.maxSize ≤ p.used + tok.length + 1

instance (p : Pending) (tok : Bytes) : Decidable (o.overfull p tok) := inferInstanceAs (Decidable (_ ∧ _))

/-- One turn of the loop, for an argument: what is run, and how it goes on. -/
def step (p : Pending) (tok : Bytes) (eol : Bool) : List (List Bytes) × Except Outcome Pending :=
  if o.overfull p tok then
    if o.lineTooLong p then ([], .error .lineTooLong)
    else if o.maxSize ≤ o.base + tok.length + 1 then ([p.items], .error .argTooLong)
    else
      let r := o.addItem { used := o.base, ran := true } tok eol
      (p.items :: r.1, .ok r.2)
  else if o.maxSize ≤ o.base + tok.length + 1 then ([], .error .argTooLong)
  else
    let r := o.addItem p tok eol
    (r.1, .ok r.2)

/-- The rest, or the one run that empty input still gets. -/
def rest (p : Pending) : List (List Bytes) :=
  if o.replstr.isNone ∧ (p.items ≠ [] ∨ (p.ran = false ∧ o.noRunNoargs = false)) then [p.items] else []

/-- Whether an argument ends the input (`-E`). -/
def isEof (tok : Bytes) : Bool :=
  o.mode ≠ .sep && o.eofstr.any fun e => e ≠ [] && cString tok == cString e

/-- The loop of `builtin_xargs`. -/
def loop (i : In) (p : Pending) : List Exec × Outcome :=
  match _h : token o.mode o.sep.toInt8.toInt i with
  | (.eof, _) => ((o.rest p).map executeBatch, .done)
  | (.unmatched, _) => ([], .unmatched)
  | (.arg tok eol, i') =>
      if o.isEof tok then ((o.rest p).map executeBatch, .done)
      else if o.replstr.isSome then
        let r := loop i' { p with ran := true }
        (.replace (cString tok) :: r.1, r.2)
      else
        match o.step p tok eol with
        | (runs, .error e) => (runs.map executeBatch, e)
        | (runs, .ok p') => (runs.map executeBatch ++ (loop i' p').1, (loop i' p').2)
termination_by i.stream.length
decreasing_by all_goals exact token_length _h

/-- `builtin_xargs`, with its input. -/
def xargs (input : Bytes) : List Exec × Outcome := o.loop ⟨none, input⟩ { used := o.base }

/-- The arguments of each run. -/
def batches (input : Bytes) : List (List Bytes) :=
  (o.xargs input).1.map fun
    | .batch items => items
    | .replace line => [line]

/-! ## The arguments, one after the other -/

/-- Only limits: blanks separate, and there is no `-E`, `-I` or `-x`. -/
structure Plain : Prop where
  blanks : o.sepmode = .blanks
  eofstr : o.eofstr = none
  replstr : o.replstr = none
  stays : o.exitIfSize = false

/-- One turn, with an argument that is not too long. -/
def turn (p : Pending) (tok : Bytes) (eol : Bool) : List (List Bytes) × Pending :=
  if o.overfull p tok then
    (p.items :: (o.addItem { used := o.base, ran := true } tok eol).1,
      (o.addItem { used := o.base, ran := true } tok eol).2)
  else o.addItem p tok eol

/-- What is run for some arguments. -/
def cuts (p : Pending) : List Arg → List (List Bytes)
  | [] => o.rest p
  | a :: as => (o.turn p a.bytes a.counted).1 ++ cuts (o.turn p a.bytes a.counted).2 as

variable {o}

theorem step_eq (ho : o.Plain) (p : Pending) {tok : Bytes} (hfit : o.base + tok.length + 1 < o.maxSize) (eol : Bool) :
    o.step p tok eol = ((o.turn p tok eol).1, .ok (o.turn p tok eol).2) := by
  have hlong : ¬ o.lineTooLong p = true := by simp [lineTooLong, exits, ho.stays, ho.replstr]
  rw [step, turn]
  split_ifs with hover hmax
  · omega
  · rfl
  · omega
  · rfl

theorem loop_eq (ho : o.Plain) {i : In} {syms : List Sym} (hlex : lex i.stream = some syms)
    (hdrop : dropsByte syms = false) (hfit : ∀ a ∈ scan none syms, o.base + a.bytes.length + 1 < o.maxSize)
    (p : Pending) : o.loop i p = ((o.cuts p (scan none syms)).map executeBatch, .done) := by
  have hmode : o.mode = .blanks := by simp [mode, ho.replstr, ho.blanks]
  have heof : ∀ tok, o.isEof tok = false := by
    intro tok
    simp [isEof, ho.eofstr]
  induction hn : (scan none syms).length generalizing i syms p with
  | zero =>
    have hnil := List.length_eq_zero_iff.1 hn
    have htok := (tokenLoop_scan o.sep.toInt8.toInt hlex none hdrop fun h => by cases h).1 hnil
    rw [loop, hnil, cuts]
    split
    · rfl
    · rename_i h
      rw [hmode, token] at h
      rw [Option.isSome_none, Option.getD_none, h] at htok
      cases htok
    · rename_i h
      rw [hmode, token] at h
      rw [Option.isSome_none, Option.getD_none, h] at htok
      cases htok
  | succ n ih =>
    obtain ⟨a, as, has⟩ := List.exists_cons_of_length_eq_add_one hn
    obtain ⟨i', syms', htok, hlex', hdrop', hscan⟩ :=
      (tokenLoop_scan o.sep.toInt8.toInt hlex none hdrop fun h => by cases h).2 a as has
    have htoken : token o.mode o.sep.toInt8.toInt i = (.arg a.bytes a.counted, i') := by rw [hmode]; exact htok
    rw [has] at hfit hn ⊢
    obtain ⟨hfita, hfitas⟩ := List.forall_mem_cons.1 hfit
    rw [loop, htoken]
    have hn' : (scan none syms').length = n := by rw [hscan]; exact Nat.succ.inj hn
    have hloop := ih hlex' hdrop' (hscan ▸ hfitas) (o.turn p a.bytes a.counted).2 hn'
    simp [heof, ho.replstr, step_eq ho p hfita, hloop, hscan, cuts]

/-- **The runs**, when nothing is lost and every argument fits. -/
theorem batches_eq (ho : o.Plain) {input : Bytes} {syms : List Sym} (hlex : lex input = some syms)
    (hdrop : dropsByte syms = false) (hfit : ∀ a ∈ words syms, o.base + a.length + 1 < o.maxSize) :
    o.batches input = (o.cuts { used := o.base } (scan none syms)).map (List.map cString) := by
  have hfit' : ∀ a ∈ scan none syms, o.base + a.bytes.length + 1 < o.maxSize := by
    intro a ha
    refine hfit a.bytes ?_
    rw [← (scan_words syms).1]
    exact List.mem_map_of_mem ha
  have hloop := @loop_eq o ho ⟨none, input⟩ syms hlex hdrop hfit' { used := o.base }
  rw [batches, xargs, hloop, List.map_map]
  rfl

/-! ## What is kept -/

theorem addItem_flatten (p : Pending) (tok : Bytes) (eol : Bool) :
    (o.addItem p tok eol).1.flatten ++ (o.addItem p tok eol).2.items = p.items ++ [tok] := by
  rw [addItem]
  split_ifs <;> simp

theorem turn_flatten (p : Pending) (tok : Bytes) (eol : Bool) :
    (o.turn p tok eol).1.flatten ++ (o.turn p tok eol).2.items = p.items ++ [tok] := by
  rw [turn]
  split_ifs
  · rw [List.flatten_cons, List.append_assoc, addItem_flatten]
    rfl
  · exact addItem_flatten p tok eol

/-- **No argument is lost**, and they stay in order. -/
theorem cuts_flatten (ho : o.Plain) (p : Pending) (as : List Arg) :
    (o.cuts p as).flatten = p.items ++ as.map Arg.bytes := by
  induction as generalizing p with
  | nil =>
    rw [cuts, rest, ho.replstr, List.map_nil, List.append_nil]
    by_cases hitems : p.items = []
    · split_ifs <;> simp [hitems]
    · rw [if_pos ⟨rfl, .inl hitems⟩]
      simp
  | cons a as ih =>
    rw [cuts, List.flatten_append, ih, ← List.append_assoc, turn_flatten, List.append_assoc]
    rfl

/-- What holds of what is kept for a run, and of every run. -/
def Ok (o : Opts) (items : List Bytes) : Prop :=
  items ≠ [] → o.base + argSize items < o.maxSize ∧ (o.maxArgs ≠ 0 → o.maxArgs ≠ 4294967295 → items.length ≤ o.maxArgs.toNat)

/-- The invariant of the loop. -/
structure Inv (o : Opts) (p : Pending) : Prop where
  used : p.used = o.base + argSize p.items
  room : p.items ≠ [] → p.used < o.maxSize
  few : o.maxArgs ≠ 0 → o.maxArgs ≠ 4294967295 → p.items.length < o.maxArgs.toNat

theorem inv_empty (o : Opts) (b : Bool) : Inv o { used := o.base, ran := b } := by
  refine ⟨rfl, fun h => absurd rfl h, fun h0 _ => ?_⟩
  exact Nat.pos_of_ne_zero fun h => h0 (UInt32.toNat_inj.1 h)

theorem Inv.ok {p : Pending} (h : Inv o p) : Ok o p.items :=
  fun hne => ⟨h.used ▸ h.room hne, fun h0 hmax => (h.few h0 hmax).le⟩

theorem toInt_le (x : UInt32) : x.toInt32.toInt ≤ (x.toNat : ℤ) := by
  show x.toBitVec.toInt ≤ (x.toBitVec.toNat : ℤ)
  rw [BitVec.toInt_eq_toNat_cond]
  split_ifs <;> omega

theorem addItem_inv {p : Pending} (h : Inv o p) {tok : Bytes} (hfit : p.used + tok.length + 1 < o.maxSize) (eol : Bool) :
    (∀ b ∈ (o.addItem p tok eol).1, b ≠ [] ∧ Ok o b) ∧ Inv o (o.addItem p tok eol).2 ∧
      ((o.addItem p tok eol).2.items ≠ [] ∨ (o.addItem p tok eol).2.ran = true) := by
  have hsize : o.base + argSize (p.items ++ [tok]) = p.used + tok.length + 1 := by
    rw [h.used]
    simp [argSize]
    omega
  rw [addItem]
  by_cases hfull : o.full p eol = true
  · rw [if_pos hfull]
    refine ⟨fun b hb => ?_, inv_empty o true, .inr rfl⟩
    rw [List.mem_singleton.1 hb]
    refine ⟨by simp, fun _ => ⟨by rw [hsize]; exact hfit, fun h0 hmax => ?_⟩⟩
    rw [List.length_append, List.length_singleton]
    exact h.few h0 hmax
  · rw [if_neg hfull]
    refine ⟨fun b hb => absurd hb List.not_mem_nil, ⟨hsize.symm, fun _ => hfit, fun h0 hmax => ?_⟩, .inl (by simp)⟩
    have hlt : ¬ o.maxArgs.toInt32.toInt ≤ (p.items.length + 1 : ℤ) := by
      intro hle
      refine hfull (Bool.or_eq_true _ _ ▸ .inl ?_)
      simpa using And.intro hmax hle
    have hint := toInt_le o.maxArgs
    rw [List.length_append, List.length_singleton]
    omega

theorem turn_inv {p : Pending} (h : Inv o p) {tok : Bytes} (hfit : o.base + tok.length + 1 < o.maxSize) (eol : Bool) :
    (∀ b ∈ (o.turn p tok eol).1, b ≠ [] ∧ Ok o b) ∧ Inv o (o.turn p tok eol).2 ∧
      ((o.turn p tok eol).2.items ≠ [] ∨ (o.turn p tok eol).2.ran = true) := by
  rw [turn]
  split_ifs with hover
  · obtain ⟨hb, hinv, hsome⟩ := addItem_inv (inv_empty o true) hfit eol
    exact ⟨List.forall_mem_cons.2 ⟨⟨hover.1, h.ok⟩, hb⟩, hinv, hsome⟩
  · refine addItem_inv h ?_ eol
    by_cases hitems : p.items = []
    · rw [h.used, hitems]
      exact hfit
    · exact lt_of_not_ge fun hle => hover ⟨hitems, hle⟩

/-- **Every run is within the limits**, and has an argument if there is any. -/
theorem cuts_ok {p : Pending} (h : Inv o p) {as : List Arg}
    (hfit : ∀ a ∈ as, o.base + a.bytes.length + 1 < o.maxSize) :
    (∀ b ∈ o.cuts p as, Ok o b) ∧ (p.items ≠ [] ∨ p.ran = true ∨ as ≠ [] → ∀ b ∈ o.cuts p as, b ≠ []) := by
  induction as generalizing p with
  | nil =>
    have hrest : ∀ b ∈ o.rest p, b = p.items ∧ (p.items ≠ [] ∨ p.ran = false) := by
      intro b hb
      rw [rest] at hb
      split_ifs at hb with hsome
      · exact ⟨List.mem_singleton.1 hb, hsome.2.imp id And.left⟩
      · exact absurd hb List.not_mem_nil
    rw [cuts]
    refine ⟨fun b hb => (hrest b hb).1 ▸ h.ok, fun hne b hb => ?_⟩
    obtain ⟨rfl, hitems⟩ := hrest b hb
    rcases hne with hne | hran | hne
    · exact hne
    · exact hitems.resolve_right (by simp [hran])
    · exact absurd rfl hne
  | cons a as ih =>
    obtain ⟨hfita, hfitas⟩ := List.forall_mem_cons.1 hfit
    obtain ⟨hb, hinv, hsome⟩ := turn_inv h hfita a.counted
    obtain ⟨hok, hne⟩ := ih hinv hfitas
    rw [cuts]
    refine ⟨List.forall_mem_append.2 ⟨fun b hmem => (hb b hmem).2, hok⟩, fun _ => ?_⟩
    exact List.forall_mem_append.2 ⟨fun b hmem => (hb b hmem).1, hne (hsome.imp id .inl)⟩

/-! ## Only lines -/

/-- The options with the other limits out of reach of some arguments. -/
def lifted (o : Opts) (args : List Bytes) : Opts :=
  { o with maxArgs := 4294967295, maxSize := o.base + argSize args + 1 }

/-- What `-L` counts to; the first line is always one. -/
def lineMax (o : Opts) : ℕ := max o.maxLines.toNat 1

/-- The runs of some arguments, behind those that are kept, are the pieces of the counted ends. -/
theorem cuts_chop (ho : o.Plain) (hmax : o.maxArgs = 4294967295) (hlines : o.maxLines ≠ 18446744073709551615)
    {p : Pending} (hp : p.lines < o.lineMax) (as : List Arg) (hne : p.items ≠ [] ∨ as ≠ [])
    (hfit : p.used + argSize (as.map Arg.bytes) < o.maxSize) (hbase : o.base ≤ p.used) :
    o.cuts p as = (p.items ++ (splitAfter Arg.counted (o.lineMax - p.lines) as).1.map Arg.bytes) ::
      (chop Arg.counted o.lineMax (splitAfter Arg.counted (o.lineMax - p.lines) as).2).map (List.map Arg.bytes) := by
  induction as generalizing p with
  | nil =>
    have hitems := hne.resolve_right fun h => h rfl
    rw [cuts, rest, ho.replstr, if_pos ⟨rfl, .inl hitems⟩]
    simp [splitAfter]
  | cons a as ih =>
    have hsize : argSize ((a :: as).map Arg.bytes) = a.bytes.length + 1 + argSize (as.map Arg.bytes) := rfl
    have hover : ¬ o.overfull p a.bytes := by
      rintro ⟨_, hle⟩
      omega
    have hfull : o.full p a.counted = (a.counted && o.maxLines.toNat ≤ p.lines + 1) := by
      simp [full, counts, hmax, hlines]
    have hcounts : o.counts a.counted = a.counted := by simp [counts, hlines]
    have hmaxdef : o.lineMax = max o.maxLines.toNat 1 := rfl
    rw [cuts, turn, if_neg hover, addItem, hfull, hcounts, splitAfter]
    by_cases hcut : a.counted = true ∧ o.lineMax - p.lines ≤ 1
    · have htrue : (a.counted && decide (o.maxLines.toNat ≤ p.lines + 1)) = true := by
        rw [hcut.1, Bool.true_and, decide_eq_true_eq]
        omega
      rw [if_pos hcut, if_pos htrue]
      by_cases has : as = []
      · subst has
        simp [cuts, rest]
      · have := @ih { used := o.base, ran := true } (by rw [hmaxdef]; exact Nat.lt_of_lt_of_le Nat.one_pos (le_max_right _ _))
          (.inr has) (by show o.base + _ < _; omega) (Nat.le_refl _)
        rw [List.singleton_append, this, chop_eq has]
        rfl
    · have hfalse : ¬ (a.counted && decide (o.maxLines.toNat ≤ p.lines + 1)) = true := by
        rw [Bool.and_eq_true, decide_eq_true_eq]
        rintro ⟨hc, hle⟩
        exact hcut ⟨hc, by omega⟩
      rw [if_neg hcut, if_neg hfalse, List.nil_append]
      by_cases hc : a.counted = true
      · have hlt : p.lines + 1 < o.lineMax := by
          by_contra hge
          exact hcut ⟨hc, by omega⟩
        rw [if_pos hc, if_pos hc]
        have := @ih { items := p.items ++ [a.bytes], lines := p.lines + 1, used := p.used + a.bytes.length + 1, ran := p.ran }
          hlt (.inl (by simp)) (by show p.used + _ + 1 + _ < _; omega) (by show o.base ≤ p.used + _ + 1; omega)
        rw [this]
        simp [Nat.sub_sub]
      · rw [if_neg hc, if_neg hc]
        have := @ih { items := p.items ++ [a.bytes], lines := p.lines, used := p.used + a.bytes.length + 1, ran := p.ran }
          hp (.inl (by simp)) (by show p.used + _ + 1 + _ < _; omega) (by show o.base ≤ p.used + _ + 1; omega)
        rw [this]
        simp

end Opts

/-! ## The lines of a batch -/

/-- The batches are `k` lines each, but for the last one. -/
def InLines (k : ℕ) (batches : List (List Bytes)) (lines : List (List Bytes)) : Prop :=
  ∃ gs : List (List (List Bytes)), gs.flatten = lines ∧ gs.map List.flatten = batches ∧ ∀ g ∈ gs.dropLast, g.length = k

/-- **The arguments that are counted end their lines**, all that are counted up to the last cut. -/
def LinesCounted (k : ℕ) (args : List Arg) : Prop :=
  (k = 0 → args.dropLast.countP Arg.counted = 0) ∧
    ∀ a ∈ (args.filter Arg.counted).take (k * (args.dropLast.countP Arg.counted / k)), a.ends = true

instance (k : ℕ) (args : List Arg) : Decidable (LinesCounted k args) := inferInstanceAs (Decidable (_ ∧ _))

theorem counted_of_ends {a : Arg} (h : a.ends = true) : a.counted = true := by
  have hline : a.stop = .line := by simpa [Arg.ends] using h
  simp [Arg.counted, hline]

/-- The pieces of the counted ends are lines if and only if the counted ends are ends of lines. -/
theorem inLines_iff (k : ℕ) (args : List Arg) :
    InLines k ((chop Arg.counted (max k 1) args).map (List.map Arg.bytes))
      ((chop Arg.ends 1 args).map (List.map Arg.bytes)) ↔ LinesCounted k args := by
  rw [InLines, groups_map Arg.bytes (by rw [flatten_chop, flatten_chop])]
  rcases Nat.eq_zero_or_pos k with rfl | hk
  · rw [LinesCounted, Nat.zero_mul, List.take_zero]
    have hone : max 0 1 = 1 := rfl
    by_cases hargs : args = []
    · subst hargs
      exact ⟨fun _ => ⟨fun _ => rfl, fun _ h => absurd h List.not_mem_nil⟩, fun _ => ⟨[], by simp⟩⟩
    · have hchop : chop Arg.counted 1 args = _ := chop_eq hargs
      have hsingle := chop_single (p := Arg.counted) Nat.one_pos (l := args)
      rw [hone]
      constructor
      · rintro ⟨gs, hflat, hmap, hlen⟩
        refine ⟨fun _ => ?_, fun _ h => absurd h List.not_mem_nil⟩
        -- a group of no lines would be an empty batch
        have hnone : gs.dropLast = [] := by
          refine List.eq_nil_iff_forall_not_mem.2 fun g hg => ?_
          have hnil : g.flatten = [] := by rw [List.length_eq_zero_iff.1 (hlen g hg)]; rfl
          have hmem : [] ∈ (chop Arg.counted 1 args) := by
            rw [← hmap, ← hnil]
            exact List.mem_map_of_mem (List.dropLast_subset _ hg)
          exact chop_mem_ne_nil hmem rfl
        have hlength : (chop Arg.counted 1 args).length ≤ 1 := by
          have := congrArg List.length hnone
          rw [List.length_dropLast, List.length_nil] at this
          rw [← hmap, List.length_map]
          omega
        rw [hchop, List.length_cons] at hlength
        have hrest : chop Arg.counted 1 (splitAfter Arg.counted 1 args).2 = [] :=
          List.length_eq_zero_iff.1 (by omega)
        have := hsingle.1 (by_contra fun hne => chop_ne_nil hne hrest)
        omega
      · rintro ⟨hcount, -⟩
        have hrest := hsingle.2 (by rw [hcount rfl]; exact Nat.one_pos)
        have hwhole := splitAfter_append (p := Arg.counted) 1 args
        rw [hrest, List.append_nil] at hwhole
        rw [hchop, hrest, hwhole, chop_nil]
        exact ⟨[chop Arg.ends 1 args], by simp [flatten_chop]⟩
  · rw [Nat.max_eq_left hk, chop_groups hk args fun a _ => counted_of_ends, LinesCounted]
    exact ⟨fun h => ⟨fun h0 => absurd h0 (Nat.ne_of_gt hk), h⟩, And.right⟩

theorem argLines_eq (syms : List Sym) : argLines syms = (chop Arg.ends 1 (scan none syms)).map (List.map Arg.bytes) :=
  ((scan_lines syms).1 false).symm

/-! ## All of it -/

theorem cString_eq_iff (b : Bytes) : cString b = b ↔ 0 ∉ b := by
  rw [cString, List.takeWhile_eq_self_iff]
  constructor
  · intro h hmem
    exact absurd (h 0 hmem) (by decide)
  · intro h x hx
    have : x ≠ 0 := fun h0 => h (h0 ▸ hx)
    simpa using this

theorem map_cString_eq_iff (bs : List Bytes) : bs.map cString = bs ↔ ∀ b ∈ bs, 0 ∉ b := by
  induction bs with
  | nil => simp
  | cons b bs ih => rw [List.map_cons, List.cons.injEq, ih, cString_eq_iff, List.forall_mem_cons]

namespace Opts

variable {o : Opts}

theorem argSize_cString (bs : List Bytes) : argSize (bs.map cString) ≤ argSize bs := by
  induction bs with
  | nil => exact Nat.le_refl _
  | cons b bs ih =>
    have hlen : (cString b).length ≤ b.length := (List.takeWhile_prefix _).length_le
    have h1 : argSize ((b :: bs).map cString) = (cString b).length + 1 + argSize (bs.map cString) := rfl
    have h2 : argSize (b :: bs) = b.length + 1 + argSize bs := rfl
    omega

theorem argSize_mem {bs : List Bytes} {b : Bytes} (h : b ∈ bs) : b.length + 1 ≤ argSize bs := by
  induction bs with
  | nil => exact absurd h List.not_mem_nil
  | cons c bs ih =>
    have hcons : argSize (c :: bs) = c.length + 1 + argSize bs := rfl
    rcases List.mem_cons.1 h with rfl | h
    · omega
    · have := ih h
      omega

/-- Without null bytes the arguments are what they are. -/
theorem map_cString_cuts (ho : o.Plain) {p : Pending} (hp : p.items = []) {syms : List Sym}
    (hclean : ∀ a ∈ words syms, 0 ∉ a) :
    (o.cuts p (scan none syms)).map (List.map cString) = o.cuts p (scan none syms) := by
  have hflat := cuts_flatten ho p (scan none syms)
  rw [(scan_words syms).1, hp, List.nil_append] at hflat
  have hbatch : ∀ b ∈ o.cuts p (scan none syms), b.map cString = id b := by
    intro b hb
    refine (map_cString_eq_iff b).2 fun a ha => hclean a ?_
    rw [← hflat]
    exact List.mem_flatten.2 ⟨b, hb, ha⟩
  rw [List.map_congr_left hbatch, List.map_id]

/-- The runs with the other limits out of reach. -/
theorem batches_lifted (ho : o.Plain) {input : Bytes} {syms : List Sym} (hlex : lex input = some syms)
    (hdrop : dropsByte syms = false) (hclean : ∀ a ∈ words syms, 0 ∉ a) (hlines : o.maxLines ≠ 18446744073709551615)
    (hargs : scan none syms ≠ []) :
    (o.lifted (words syms)).batches input =
      (chop Arg.counted o.lineMax (scan none syms)).map (List.map Arg.bytes) := by
  have ho' : (o.lifted (words syms)).Plain := ⟨ho.blanks, ho.eofstr, ho.replstr, ho.stays⟩
  have hfit : ∀ a ∈ words syms, (o.lifted (words syms)).base + a.length + 1 < (o.lifted (words syms)).maxSize := by
    intro a ha
    have := argSize_mem ha
    show o.base + a.length + 1 < o.base + argSize (words syms) + 1
    omega
  have hwords := (scan_words syms).1
  have hcuts := @cuts_chop (o.lifted (words syms)) ho' rfl hlines { used := o.base }
    (Nat.lt_of_lt_of_le Nat.one_pos (le_max_right _ _)) (scan none syms) (.inr hargs)
    (by rw [hwords]; exact Nat.lt_succ_self _) (Nat.le_refl _)
  rw [batches_eq ho' hlex hdrop hfit]
  refine (map_cString_cuts ho' rfl hclean).trans (hcuts.trans ?_)
  rw [chop_eq hargs]
  rfl

/-- The runs of an input without arguments: one, or none with `-r`. -/
theorem batches_nil (ho : o.Plain) {input : Bytes} {syms : List Sym} (hlex : lex input = some syms)
    (hdrop : dropsByte syms = false) (hwords : words syms = []) :
    o.batches input = if o.noRunNoargs then [] else [[]] := by
  have hscan : scan none syms = [] := List.map_eq_nil_iff.1 ((scan_words syms).1.trans hwords)
  rw [batches_eq ho hlex hdrop (by rw [hwords]; exact fun a h => absurd h List.not_mem_nil), hscan, cuts, rest,
    ho.replstr]
  cases o.noRunNoargs <;> rfl

/-- The batches are the lines, `k` at a time, if and only if the counted arguments end their lines. -/
theorem batches_inLines (ho : o.Plain) {input : Bytes} {syms : List Sym} (hlex : lex input = some syms)
    (hdrop : dropsByte syms = false) (hclean : ∀ a ∈ words syms, 0 ∉ a) (hlines : o.maxLines ≠ 18446744073709551615)
    (hfree : o.batches input = (o.lifted (words syms)).batches input) :
    InLines o.maxLines.toNat (o.batches input) (argLines syms) ↔ LinesCounted o.maxLines.toNat (scan none syms) := by
  rw [argLines_eq]
  by_cases hargs : scan none syms = []
  · have hwords : words syms = [] := by rw [← (scan_words syms).1, hargs]; rfl
    rw [batches_nil ho hlex hdrop hwords, hargs, chop_nil]
    refine ⟨fun _ => ⟨fun _ => rfl, fun a h => absurd h (by simp)⟩, fun _ => ?_⟩
    cases o.noRunNoargs with
    | true => exact ⟨[], rfl, rfl, fun g h => absurd h List.not_mem_nil⟩
    | false => exact ⟨[[]], rfl, rfl, fun g h => absurd h List.not_mem_nil⟩
  · rw [hfree, batches_lifted ho hlex hdrop hclean hlines hargs]
    exact inLines_iff _ _

end Opts

/-- **`xargs`.**  Where nothing is lost, the arguments of the runs are those of the input if there is no null byte
in them; the runs are within `-n` and `-s`; and with `-L` they have the arguments of so many lines if the arguments
that are counted end their lines. -/
theorem xargs_batches {o : Opts} (ho : o.Plain) {input : Bytes} {syms : List Sym} (hlex : lex input = some syms)
    (hfit : ∀ a ∈ words syms, o.base + a.length + 1 < o.maxSize) (hdrop : dropsByte syms = false) :
    ((o.batches input).flatten = words syms ↔ ∀ a ∈ words syms, 0 ∉ a) ∧
    ((o.maxArgs ≠ 4294967295 → ∀ b ∈ o.batches input, b.length ≤ o.maxArgs.toNat) ↔
      (o.maxArgs = 0 → words syms = [])) ∧
    ((∀ b ∈ o.batches input, o.base + Opts.argSize b < o.maxSize) ↔
      (words syms = [] → o.noRunNoargs = false → o.base < o.maxSize)) ∧
    ((∀ a ∈ words syms, 0 ∉ a) → o.maxLines ≠ 18446744073709551615 →
      o.batches input = (o.lifted (words syms)).batches input →
      (InLines o.maxLines.toNat (o.batches input) (argLines syms) ↔
        LinesCounted o.maxLines.toNat (scan none syms))) := by
  have heq := Opts.batches_eq ho hlex hdrop hfit
  have hwords := (scan_words syms).1
  have hflat := Opts.cuts_flatten ho { used := o.base } (scan none syms)
  rw [hwords, List.nil_append] at hflat
  have hfit' : ∀ a ∈ scan none syms, o.base + a.bytes.length + 1 < o.maxSize := by
    intro a ha
    refine hfit a.bytes ?_
    rw [← hwords]
    exact List.mem_map_of_mem ha
  obtain ⟨hok, hne⟩ := Opts.cuts_ok (Opts.inv_empty o false) hfit'
  have hflat' : (o.batches input).flatten = (words syms).map cString := by
    rw [heq, ← hflat, List.map_flatten]
  refine ⟨by rw [hflat', map_cString_eq_iff], ⟨fun h h0 => ?_, fun h hmax b hb => ?_⟩, ⟨fun h hnil hrun => ?_, fun h b hb => ?_⟩,
    fun hclean hlines hfree => Opts.batches_inLines ho hlex hdrop hclean hlines hfree⟩
  · -- with `-n 0` there is no argument
    have hempty : (o.batches input).flatten = [] := by
      refine List.flatten_eq_nil_iff.2 fun b hb => List.length_eq_zero_iff.1 ?_
      have := h (by rw [h0]; decide) b hb
      rw [h0] at this
      exact Nat.le_zero.1 this
    rw [hflat', List.map_eq_nil_iff] at hempty
    exact hempty
  · rw [heq] at hb
    obtain ⟨c, hc, rfl⟩ := List.mem_map.1 hb
    rw [List.length_map]
    by_cases hcnil : c = []
    · rw [hcnil]
      exact Nat.zero_le _
    · refine (hok c hc hcnil).2 (fun h0 => hcnil ?_) hmax
      have hnil := List.flatten_eq_nil_iff.1 (hflat.trans (h h0))
      exact hnil c hc
  · have := h [] (by rw [Opts.batches_nil ho hlex hdrop hnil, hrun]; exact List.mem_singleton.2 rfl)
    exact this
  · by_cases hnil : words syms = []
    · rw [Opts.batches_nil ho hlex hdrop hnil] at hb
      cases hrun : o.noRunNoargs with
      | true => rw [hrun] at hb; exact absurd hb List.not_mem_nil
      | false =>
        rw [hrun] at hb
        rw [List.mem_singleton.1 hb]
        exact h hnil hrun
    · rw [heq] at hb
      obtain ⟨c, hc, rfl⟩ := List.mem_map.1 hb
      have hargs : scan none syms ≠ [] := fun h0 => hnil (by rw [← hwords, h0]; rfl)
      have hsize := (hok c hc (hne (.inr (.inr hargs)) c hc)).1
      have := Opts.argSize_cString c
      omega

/-- Two lines, with `-n 1`. -/
theorem xargs_batches_two :
    (({ maxArgs := 1 } : Opts).batches (ascii "a\nb")).flatten = words [.chars (ascii "a"), .newline, .chars (ascii "b")] ∧
      ∀ b ∈ ({ maxArgs := 1 } : Opts).batches (ascii "a\nb"), b.length ≤ 1 := by
  have hlex : lex (ascii "a\nb") = some [.chars (ascii "a"), .newline, .chars (ascii "b")] := by decide +kernel
  obtain ⟨hwords, hfew, -⟩ := @xargs_batches { maxArgs := 1 } ⟨rfl, rfl, rfl, rfl⟩ (ascii "a\nb") _ hlex
    (by decide +kernel) (by decide +kernel)
  exact ⟨hwords.2 (by decide +kernel), hfew.2 (by decide) (by decide)⟩

/-- In `a \rb` the `b` is lost; `a b` is two runs with `-L 1`. -/
theorem xargs_loses :
    (lex (ascii "a \rb") = some [.chars (ascii "a"), .blank, .cr, .chars (ascii "b")] ∧
      (({} : Opts).batches (ascii "a \rb")).flatten ≠ words [.chars (ascii "a"), .blank, .cr, .chars (ascii "b")]) ∧
    lex (ascii "a b") = some [.chars (ascii "a"), .blank, .chars (ascii "b")] ∧
      ¬ InLines 1 (({ maxLines := 1 } : Opts).batches (ascii "a b"))
        (argLines [.chars (ascii "a"), .blank, .chars (ascii "b")]) := by
  have hlex : lex (ascii "a b") = some [.chars (ascii "a"), .blank, .chars (ascii "b")] := by decide +kernel
  refine ⟨⟨by decide +kernel, by decide +kernel⟩, hlex, fun h => ?_⟩
  have hiff := @Opts.batches_inLines { maxLines := 1 } ⟨rfl, rfl, rfl, rfl⟩ (ascii "a b") _ hlex (by decide +kernel)
    (by decide +kernel) (by decide) (by decide +kernel)
  exact absurd (hiff.1 h) (by decide +kernel)

end Shish.Xargs
