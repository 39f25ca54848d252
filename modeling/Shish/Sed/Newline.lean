import Shish.Sed.Flag

/-!
# Sed/Newline — a last line without a newline

`sed_out_pattern` leaves the newline out whenever the last line has none, not only at the end of the output.  A run
on lines that all have one does the same steps (`step_twin`), and puts out a newline behind each of these texts.  So
the output is that of the ended input, less a newline at its end, if and only if at most one newline is left out and
nothing but newlines comes behind it (`newline_iff`).
-/

namespace Shish.Sed

variable {e : Engine}

/-! ## What is left out -/

/-- A command calls `sed_out_pattern`, where its address matches. -/
def Body.prints (b : Body e) (s : State e) : Bool :=
  match b with
  | .p => true
  | .n => !s.autoprintOff
  | .s b => (substExec b s).1 && b.print
  | _ => false

/-- The step of a state calls `sed_out_pattern`. -/
def prints (s : State e) : Bool :=
  match s.phase with
  | .cmd pc =>
      match s.cmds[pc]? with
      | none => false
      | some c => (matched c pc s).1 && (matched c pc s).2.1.body.prints (matched c pc s).2.2
  | .endCycle => !s.suppressPrint && !s.autoprintOff
  | _ => false

/-- **A newline is left out** in the step of a state. -/
def omits (s : State e) : Bool := prints s && !s.curHadNl

/-- Some steps, and behind how many items of the output a newline was left out. -/
def ran : ℕ → State e → Option (List ℕ × State e)
  | 0, s => some ([], s)
  | n + 1, s => (ran n s).bind fun r =>
      (step r.2).map fun s' => (if omits r.2 then r.1 ++ [r.2.out.length + 1] else r.1, s')

/-! ## The output -/

/-- The bytes that are put out, `w` being what was written to files so far: `r` puts out what there is in a file,
and a file of `w` may be the output. -/
def bytesFrom (file : List (ℕ × Bytes) → Bytes → Bytes) (stdout : ℕ → Bool) : List (ℕ × Bytes) → List Output → Bytes
  | _, [] => []
  | w, .text s :: l => s ++ bytesFrom file stdout w l
  | w, .rfile name :: l => file w name ++ bytesFrom file stdout w l
  | w, .wfile i s :: l => (if stdout i then s else []) ++ bytesFrom file stdout (w ++ [(i, s)]) l

/-- The output of a run. -/
def bytes (file : List (ℕ × Bytes) → Bytes → Bytes) (stdout : ℕ → Bool) (l : List Output) : Bytes :=
  bytesFrom file stdout [] l

/-! ## The same run, with newlines -/

/-- The line, ended. -/
def ended (l : Bytes × Bool) : Bytes × Bool := (l.1, true)

/-- The state where every line has a newline, and another output. -/
def State.twin (s : State e) (out : List Output) : State e :=
  { s with curHadNl := true, input := s.input.map ended, next := s.next.map ended, out := out }

/-- What a step puts out, with the newline that was left out. -/
def widen : Bool → List Output → List Output
  | true, x :: l => x :: .text [newline] :: l
  | _, l => l

namespace State
variable (s : State e) (o : List Output)

theorem readAhead_twin : (s.twin o).readAhead = s.readAhead.twin o := by
  rcases s with ⟨cmds, autoprintOff, phase, input, next⟩
  cases next with
  | some l => rfl
  | none => cases input <;> rfl

theorem fetchLine_twin : (s.twin o).fetchLine =
    s.fetchLine.map fun r => (r.1, true, r.2.2.1, r.2.2.2.twin o) := by
  unfold fetchLine
  rw [readAhead_twin]
  generalize s.readAhead = s'
  rcases s' with ⟨cmds, autoprintOff, phase, input, next⟩
  cases next with
  | none => rfl
  | some l => cases input <;> rfl

theorem readLine_twin (f : Bytes → Bytes) : (s.twin o).readLine f = (s.readLine f).map (twin · o) := by
  unfold readLine
  rw [fetchLine_twin, Option.map_map, Option.map_map]
  rfl

theorem readAhead_out : s.readAhead.out = s.out := by
  rw [readAhead]
  split <;> rfl

variable {s}

theorem readLine_out {s' : State e} {f : Bytes → Bytes} (h : s.readLine f = some s') : s'.out = s.out := by
  obtain ⟨r, hr, rfl⟩ := Option.map_eq_some_iff.1 h
  rw [fetchLine] at hr
  split at hr
  · cases hr
  · cases hr
    exact (readAhead_out _).trans (readAhead_out s)

end State

/-! ## Addresses -/

section Address
variable (s : State e) (o : List Output)

theorem addrMatch_twin (a : Addr e) : addrMatch a (s.twin o) = ((addrMatch a s).1, (addrMatch a s).2.twin o) := by
  cases a with
  | step first step =>
    simp only [addrMatch]
    split_ifs <;> rfl
  | regex re =>
    simp only [addrMatch]
    have hre : (s.twin o).lastRe = s.lastRe := rfl
    rw [hre]
    cases re.or s.lastRe <;> rfl
  | _ => rfl

theorem rangeCloses_twin (c : Cmd e) :
    rangeCloses c (s.twin o) = ((rangeCloses c s).1, (rangeCloses c s).2.twin o) := by
  simp only [rangeCloses]
  split
  · rfl
  · rfl
  · exact addrMatch_twin s o _
  · rfl
  · rfl

theorem opened_twin (c : Cmd e) : c.opened (s.twin o) = c.opened s := rfl

theorem rangeMatch_twin (c : Cmd e) :
    rangeMatch c (s.twin o) = ((rangeMatch c s).1, (rangeMatch c s).2.1, (rangeMatch c s).2.2.twin o) := by
  have hzero : c.fromZero (s.twin o) = c.fromZero s := rfl
  simp only [rangeMatch, hzero]
  generalize (if c.fromZero s = true then { c with inRange := true } else c) = c'
  simp only [addrMatch_twin, rangeCloses_twin, opened_twin]
  split_ifs <;> rfl

theorem matched_twin (c : Cmd e) (pc : ℕ) :
    matched c pc (s.twin o) = ((matched c pc s).1, (matched c pc s).2.1, (matched c pc s).2.2.twin o) := by
  simp only [matched, rangeMatch_twin]
  rfl

theorem addrMatch_out (a : Addr e) :
    (addrMatch a s).2.out = s.out ∧ (addrMatch a s).2.curHadNl = s.curHadNl := by
  cases a with
  | step first step =>
    simp only [addrMatch]
    split_ifs <;> exact ⟨rfl, rfl⟩
  | regex re =>
    simp only [addrMatch]
    cases re.or s.lastRe <;> exact ⟨rfl, rfl⟩
  | _ => exact ⟨rfl, rfl⟩

theorem matched_out (c : Cmd e) (pc : ℕ) :
    (matched c pc s).2.2.out = s.out ∧ (matched c pc s).2.2.curHadNl = s.curHadNl := by
  change (rangeMatch c s).2.2.out = s.out ∧ (rangeMatch c s).2.2.curHadNl = s.curHadNl
  simp only [rangeMatch]
  generalize (if c.fromZero s = true then { c with inRange := true } else c) = c'
  have hcloses : (rangeCloses c' s).2.out = s.out ∧ (rangeCloses c' s).2.curHadNl = s.curHadNl := by
    simp only [rangeCloses]
    split
    · exact ⟨rfl, rfl⟩
    · exact ⟨rfl, rfl⟩
    · exact addrMatch_out s _
    · exact ⟨rfl, rfl⟩
    · exact ⟨rfl, rfl⟩
  split_ifs
  all_goals first
    | exact ⟨rfl, rfl⟩
    | exact addrMatch_out s _
    | exact hcloses

end Address

/-! ## Steps -/

/-- **The twin follows**: what is put out is put out there, with the newline that is left out if `b`. -/
def Follows (o : List Output) (b : Bool) (s s' t : State e) : Prop :=
  ∃ new, s'.out = s.out ++ new ∧ (b = true → new ≠ []) ∧ t = s'.twin (o ++ widen b new)

theorem widen_append (b : Bool) {l : List Output} (h : b = true → l ≠ []) (l' : List Output) :
    widen b (l ++ l') = widen b l ++ l' := by
  cases b with
  | false => rfl
  | true =>
    obtain ⟨x, l, rfl⟩ := List.exists_cons_of_ne_nil (h rfl)
    rfl

namespace Follows
variable {o : List Output} {b : Bool} {s s' t : State e}

theorem silent (hout : s'.out = s.out) (ht : t = s'.twin o) : Follows o false s s' t :=
  ⟨[], by rw [hout, List.append_nil], nofun, by rw [ht]; simp [widen]⟩

theorem puts (new : List Output) (hout : s'.out = s.out ++ new) (ht : t = s'.twin (o ++ new)) :
    Follows o false s s' t :=
  ⟨new, hout, nofun, ht⟩

/-- Only what was put out before matters. -/
theorem of_out {s₁ : State e} (hout : s₁.out = s.out) (h : Follows o b s₁ s' t) : Follows o b s s' t := by
  obtain ⟨new, hnew, hne, ht⟩ := h
  exact ⟨new, by rw [hnew, hout], hne, ht⟩

/-- Something more is put out. -/
theorem andThen (h : Follows o b s s' t) {f : State e → State e}
    (hf : ∀ s o, Follows o false s (f s) (f (s.twin o))) : Follows o b s (f s') (f t) := by
  obtain ⟨new, hout, hne, rfl⟩ := h
  obtain ⟨new', hout', -, ht⟩ := hf s' (o ++ widen b new)
  refine ⟨new ++ new', by rw [hout', hout, List.append_assoc], fun hb hnil => ?_, ?_⟩
  · exact hne hb (List.append_eq_nil_iff.1 hnil).1
  · rw [ht, widen_append b hne, List.append_assoc]
    rfl

end Follows

section Commands
variable (s : State e) (o : List Output)

theorem goto_follows (pc : ℕ) : Follows o false s (s.goto pc) ((s.twin o).goto pc) := .silent rfl rfl

theorem endCycle_follows (suppress quit : Bool) (status : ℤ) :
    Follows o false s (s.endCycle suppress quit status) ((s.twin o).endCycle suppress quit status) := .silent rfl rfl

theorem pendingFlush_follows : Follows o false s s.pendingFlush (s.twin o).pendingFlush := .puts _ rfl rfl

theorem outWfileLine_follows (idx : Option ℕ) (x : Bytes) :
    Follows o false s (s.outWfileLine idx x) ((s.twin o).outWfileLine idx x) := by
  cases idx with
  | none => exact .silent rfl rfl
  | some i => exact .puts _ rfl rfl

/-- A line on its own. -/
theorem putLine_follows (x : Bytes) :
    Follows o false s ((s.put x).put [newline]) (((s.twin o).put x).put [newline]) :=
  .puts [.text x, .text [newline]] (List.append_assoc ..) (by simp [State.twin, State.put])

/-- **`sed_out_pattern`.** -/
theorem outPattern_follows : Follows o (!s.curHadNl) s s.outPattern (s.twin o).outPattern := by
  have htwin : (s.twin o).outPattern = s.twin (o ++ [.text s.pattern, .text [newline]]) := by
    simp [State.outPattern, State.twin, State.put]
  rw [htwin]
  cases hnl : s.curHadNl with
  | true =>
    refine ⟨[.text s.pattern, .text [newline]], ?_, (fun h => by cases h), ?_⟩
    · simp [State.outPattern, hnl, State.put]
    · simp [State.outPattern, hnl, State.put, widen, State.twin]
  | false =>
    refine ⟨[.text s.pattern], ?_, (fun _ h => by cases h), ?_⟩
    · simp [State.outPattern, hnl, State.put]
    · simp [State.outPattern, hnl, State.put, widen, State.twin]

theorem substExec_follows (b : Subst e) : (substExec b s).2.out = s.out ∧ (substExec b s).2.curHadNl = s.curHadNl ∧
    substExec b (s.twin o) = ((substExec b s).1, (substExec b s).2.twin o) := by
  have hre : (s.twin o).lastRe = s.lastRe := rfl
  have hpattern : (s.twin o).pattern = s.pattern := rfl
  simp only [substExec, hre, hpattern]
  cases b.re.or s.lastRe with
  | none => exact ⟨rfl, rfl, rfl⟩
  | some re =>
    simp only
    rcases e.replace re b.repl s.pattern b.nth b.global with _ | ⟨text, _ | n⟩ <;> exact ⟨rfl, rfl, rfl⟩

/-- What `n` and `N` do with the line that is read. -/
theorem readLine_follows (f : State e → Bytes → Bytes) (hf : ∀ s o, f (s.twin o) = f s) (pc : ℕ) :
    Follows o false s
      (match s.readLine (f s) with | none => s.endCycle true true 0 | some s' => s'.goto pc)
      (match (s.twin o).readLine (f (s.twin o)) with
        | none => (s.twin o).endCycle true true 0
        | some s' => s'.goto pc) := by
  rw [hf, State.readLine_twin]
  cases hr : s.readLine (f s) with
  | none => exact endCycle_follows s o _ _ _
  | some s' => exact (goto_follows s' o pc).of_out (State.readLine_out hr)

/-- **What a command does.** -/
theorem execCmd_follows (c : Cmd e) (pc : ℕ) :
    Follows o (c.body.prints s && !s.curHadNl) s (execCmd c pc s) (execCmd c pc (s.twin o)) := by
  simp only [execCmd]
  cases hbody : c.body with
  | p => exact (outPattern_follows s o).andThen fun s o => goto_follows s o _
  | n =>
    have hprint : Follows o ((!s.autoprintOff) && !s.curHadNl) s (if s.autoprintOff then s else s.outPattern)
        (if (s.twin o).autoprintOff then s.twin o else (s.twin o).outPattern) := by
      have hauto : (s.twin o).autoprintOff = s.autoprintOff := rfl
      rw [hauto]
      cases s.autoprintOff with
      | true => exact .silent rfl rfl
      | false => exact outPattern_follows s o
    exact (hprint.andThen pendingFlush_follows).andThen fun s o =>
      readLine_follows s o (fun _ => id) (fun _ _ => rfl) (pc + 1)
  | N => exact readLine_follows s o (fun s l => s.pattern ++ newline :: l) (fun _ _ => rfl) (pc + 1)
  | s b =>
    obtain ⟨hout, hnl, htwin⟩ := substExec_follows s o b
    simp only [Body.prints, htwin]
    cases (substExec b s).1 with
    | false => exact .silent hout rfl
    | true =>
      have hprint : Follows o (b.print && !s.curHadNl) s
          (if b.print then (substExec b s).2.outPattern else (substExec b s).2)
          (if b.print then ((substExec b s).2.twin o).outPattern else (substExec b s).2.twin o) := by
        rw [← hnl]
        cases b.print with
        | true => exact (outPattern_follows _ o).of_out hout
        | false => exact .silent hout rfl
      simp only [if_true, Bool.true_and]
      exact hprint.andThen fun s o =>
        (outWfileLine_follows s o b.wfile s.pattern).andThen fun s o => goto_follows s o (pc + 1)
  | lineno => exact (putLine_follows s o _).andThen fun s o => goto_follows s o _
  | i text => exact (putLine_follows s o text).andThen fun s o => goto_follows s o _
  | c text =>
    have hfire : Follows o false s
        (if c.naddr < 2 ∨ c.negate ∨ !c.inRange then (s.put text).put [newline] else s)
        (if c.naddr < 2 ∨ c.negate ∨ !c.inRange then ((s.twin o).put text).put [newline] else s.twin o) := by
      split_ifs
      · exact putLine_follows s o text
      · exact .silent rfl rfl
    exact hfire.andThen (f := fun s => ({ s with pattern := [] } : State e).endCycle true false 0) fun s o =>
      .silent rfl rfl
  | D =>
    have hpattern : (s.twin o).pattern = s.pattern := rfl
    simp only [hpattern]
    split_ifs <;> exact .silent rfl rfl
  | P => exact (putLine_follows s o _).andThen fun s o => goto_follows s o _
  | l width => exact .puts [.text _] rfl rfl
  | w idx => exact (outWfileLine_follows s o idx _).andThen fun s o => goto_follows s o _
  | t jump =>
    have hflag : (s.twin o).tflag = s.tflag := rfl
    simp only [hflag]
    cases s.tflag <;> exact .silent rfl rfl
  | T jump =>
    have hflag : (s.twin o).tflag = s.tflag := rfl
    simp only [hflag]
    cases s.tflag <;> exact .silent rfl rfl
  | _ => exact .silent rfl rfl

/-- **Every step is done by the twin as well.** -/
theorem step_twin {s' : State e} (h : step s = some s') :
    ∃ t', step (s.twin o) = some t' ∧ Follows o (omits s) s s' t' := by
  rw [step] at h
  have hphase : (s.twin o).phase = s.phase := rfl
  rw [step, hphase, omits, prints]
  cases hp : s.phase with
  | fetch =>
    rw [hp] at h
    simp only [State.readLine_twin] at h ⊢
    cases hr : s.readLine id with
    | none =>
      rw [hr] at h
      obtain rfl := Option.some.inj h
      exact ⟨_, rfl, .silent rfl rfl⟩
    | some s₁ =>
      rw [hr] at h
      obtain rfl := Option.some.inj h
      have hout := State.readLine_out hr
      exact ⟨_, rfl, .silent hout rfl⟩
  | cmd pc =>
    rw [hp] at h
    have hcmds : (s.twin o).cmds = s.cmds := rfl
    simp only [hcmds] at h ⊢
    cases hc : s.cmds[pc]? with
    | none =>
      rw [hc] at h
      obtain rfl := Option.some.inj h
      exact ⟨_, rfl, .silent rfl rfl⟩
    | some c =>
      rw [hc] at h
      obtain rfl := Option.some.inj h
      refine ⟨_, rfl, ?_⟩
      obtain ⟨hout, hnl⟩ := matched_out s c pc
      simp only [turn, matched_twin]
      cases (matched c pc s).1 with
      | true =>
        simp only [Bool.true_and, if_true, ← hnl]
        exact (execCmd_follows _ o _ pc).of_out hout
      | false =>
        simp only [Bool.false_and, Bool.false_eq_true, if_false]
        split <;> exact .silent hout rfl
  | endCycle =>
    rw [hp] at h
    obtain rfl := Option.some.inj h
    refine ⟨_, rfl, ?_⟩
    have hprint : Follows o ((!s.suppressPrint && !s.autoprintOff) && !s.curHadNl) s
        (if !s.suppressPrint && !s.autoprintOff then s.outPattern else s)
        (if !s.suppressPrint && !s.autoprintOff then (s.twin o).outPattern else s.twin o) := by
      cases (!s.suppressPrint && !s.autoprintOff) with
      | true => exact outPattern_follows s o
      | false => exact .silent rfl rfl
    exact (hprint.andThen pendingFlush_follows).andThen
      (f := fun s => { s with phase := if s.quit then .done else .fetch }) fun s o => .silent rfl rfl
  | done =>
    rw [hp] at h
    cases h

end Commands

/-! ## Runs -/

/-- **The output with the newlines that were left out**, behind these numbers of items. -/
inductive Widened : List ℕ → List Output → List Output → Prop
  | nil : Widened [] [] []
  | same {g l l'} (new : List Output) : Widened g l l' → Widened g (l ++ new) (l' ++ new)
  | gap {g l l'} (x : Output) (new : List Output) : Widened g l l' →
      Widened (g ++ [l.length + 1]) (l ++ x :: new) (l' ++ x :: .text [newline] :: new)

/-- `t` is the twin of `s`, but for the flag before the first line is read. -/
def IsTwin (s t : State e) (o : List Output) : Prop :=
  t = s.twin o ∨ (s.phase = .fetch ∨ s.phase = .done) ∧ t = { s.twin o with curHadNl := false }

/-- Before a line is read the flag says nothing. -/
theorem readLine_flag (s : State e) (b : Bool) (f : Bytes → Bytes) :
    ({ s with curHadNl := b } : State e).readLine f = s.readLine f := by
  rcases s with ⟨cmds, autoprintOff, phase, input, next⟩
  cases next with
  | none =>
    cases input with
    | nil => rfl
    | cons l rest => cases rest <;> rfl
  | some l => cases input <;> rfl

theorem isTwin_step {s s' t : State e} {o : List Output} (ht : IsTwin s t o) (h : step s = some s') :
    ∃ t' new, step t = some t' ∧ s'.out = s.out ++ new ∧ (omits s = true → new ≠ []) ∧
      IsTwin s' t' (o ++ widen (omits s) new) := by
  rcases ht with rfl | ⟨hphase, rfl⟩
  · obtain ⟨t', ht', new, hout, hne, htwin⟩ := step_twin s o h
    exact ⟨t', new, ht', hout, hne, .inl htwin⟩
  · rw [step] at h
    rcases hphase with hp | hp
    · have homits : omits s = false := by rw [omits, prints, hp]; rfl
      have hread : ({ s.twin o with curHadNl := false } : State e).readLine id =
          (s.readLine id).map (State.twin · o) := by
        rw [readLine_flag, State.readLine_twin]
      have hfetch : ({ s.twin o with curHadNl := false } : State e).phase = .fetch := hp
      have hwiden : o ++ widen false [] = o := List.append_nil o
      rw [hp] at h
      rw [homits, step, hfetch]
      simp only [hread] at h ⊢
      cases hr : s.readLine id with
      | none =>
        rw [hr] at h
        obtain rfl := Option.some.inj h
        refine ⟨_, [], rfl, (List.append_nil _).symm, (fun h => by cases h), .inr ⟨.inr rfl, ?_⟩⟩
        rw [hwiden]
        rfl
      | some s₁ =>
        rw [hr] at h
        obtain rfl := Option.some.inj h
        have hout := State.readLine_out hr
        refine ⟨_, [], rfl, ?_, (fun h => by cases h), .inl ?_⟩
        · rw [List.append_nil]
          exact hout
        · rw [hwiden]
          rfl
    · rw [hp] at h
      cases h

/-- **The run on lines that all have a newline.** -/
theorem ran_twin {s₀ t₀ : State e} (h₀ : IsTwin s₀ t₀ []) (hout : s₀.out = []) : ∀ (n : ℕ) {g : List ℕ} {s : State e},
    ran n s₀ = some (g, s) → ∃ g' t o, ran n t₀ = some (g', t) ∧ IsTwin s t o ∧ Widened g s.out o
  | 0, g, s, h => by
      cases h
      exact ⟨[], t₀, [], rfl, h₀, hout ▸ .nil⟩
  | n + 1, g, s, h => by
      obtain ⟨⟨g₁, s₁⟩, hn, hstep⟩ := Option.bind_eq_some_iff.1 h
      obtain ⟨s₂, hs, heq⟩ := Option.map_eq_some_iff.1 hstep
      cases heq
      obtain ⟨g', t, o, hrun, htwin, hwide⟩ := ran_twin h₀ hout n hn
      obtain ⟨t', new, ht', hnew, hne, htwin'⟩ := isTwin_step htwin hs
      refine ⟨if omits t then g' ++ [t.out.length + 1] else g', t', _, ?_, htwin', ?_⟩
      · rw [ran, hrun, Option.bind_some, ht', Option.map_some]
      · rw [hnew]
        cases hom : omits s₁ with
        | false => exact .same new hwide
        | true =>
          obtain ⟨x, new', rfl⟩ := List.exists_cons_of_ne_nil (hne hom)
          exact .gap x new' hwide

/-! ## The bytes -/

section Bytes
variable (file : List (ℕ × Bytes) → Bytes → Bytes) (stdout : ℕ → Bool)

/-- What is written to files. -/
def written : List Output → List (ℕ × Bytes)
  | [] => []
  | .wfile i s :: l => (i, s) :: written l
  | _ :: l => written l

theorem bytesFrom_append (w : List (ℕ × Bytes)) (l l' : List Output) :
    bytesFrom file stdout w (l ++ l') = bytesFrom file stdout w l ++ bytesFrom file stdout (w ++ written l) l' := by
  induction l generalizing w with
  | nil => rw [List.nil_append, written, List.append_nil, bytesFrom, List.nil_append]
  | cons x l ih =>
    cases x with
    | text s => simp only [List.cons_append, bytesFrom, written, ih, List.append_assoc]
    | rfile name => simp only [List.cons_append, bytesFrom, written, ih, List.append_assoc]
    | wfile i s => simp [bytesFrom, written, ih]

theorem written_append (l l' : List Output) : written (l ++ l') = written l ++ written l' := by
  induction l with
  | nil => rfl
  | cons x l ih => cases x <;> simp [written, ih]

variable {file stdout} {g : List ℕ} {l l' : List Output}

theorem Widened.written (h : Widened g l l') : Sed.written l' = Sed.written l := by
  induction h with
  | nil => rfl
  | same new _ ih => rw [written_append, written_append, ih]
  | gap x new _ ih =>
    rw [written_append, written_append, ih]
    cases x <;> rfl

/-- Each gap is one byte more. -/
theorem Widened.length (h : Widened g l l') :
    (bytes file stdout l').length = (bytes file stdout l).length + g.length := by
  induction h with
  | nil => rfl
  | same new h ih =>
    unfold bytes at ih ⊢
    rw [bytesFrom_append, bytesFrom_append, h.written, List.length_append, List.length_append, ih]
    omega
  | gap x new h ih =>
    unfold bytes at ih ⊢
    rw [bytesFrom_append, bytesFrom_append, h.written, List.length_append, List.length_append, ih, List.length_append]
    cases x <;> simp only [bytesFrom, List.length_append, List.length_cons, List.length_nil] <;> omega

theorem Widened.eq_of_nil (h : Widened g l l') (hg : g = []) : l' = l := by
  induction h with
  | nil => rfl
  | same new _ ih => rw [ih hg]
  | gap x new _ _ => simp at hg

/-- The place of the only gap. -/
theorem Widened.one (h : Widened g l l') {q : ℕ} (hg : g = [q]) :
    ∃ x y, l = x ++ y ∧ x.length = q ∧ l' = x ++ .text [newline] :: y := by
  induction h with
  | nil => cases hg
  | same new _ ih =>
    obtain ⟨x, y, rfl, hx, rfl⟩ := ih hg
    exact ⟨x, y ++ new, by rw [List.append_assoc], hx, by rw [List.append_assoc]; rfl⟩
  | @gap g l l' x new h _ =>
    obtain ⟨rfl, hq⟩ := List.append_inj (show g ++ [l.length + 1] = [] ++ [q] from hg)
      (by simpa using congrArg List.length hg)
    obtain rfl := h.eq_of_nil rfl
    refine ⟨l' ++ [x], new, by simp, ?_, by simp⟩
    rw [List.length_append]
    exact (List.cons.inj hq).1

/-- A newline in front is one at the end, if there are only newlines. -/
theorem cons_newline_eq {b : Bytes} : newline :: b = b ++ [newline] ↔ ∀ c ∈ b, c = newline := by
  induction b with
  | nil => simp
  | cons c b ih =>
    rw [List.cons_append, List.cons_eq_cons, List.forall_mem_cons, ← ih]
    constructor
    · rintro ⟨rfl, h⟩
      exact ⟨rfl, h⟩
    · rintro ⟨rfl, h⟩
      exact ⟨rfl, h⟩

/-- **The outputs are the same but for a newline at the end** if there is no gap, or one with only newlines behind
it. -/
theorem Widened.same_iff (h : Widened g l l') :
    (bytes file stdout l' = bytes file stdout l ∨ bytes file stdout l' = bytes file stdout l ++ [newline]) ↔
      g = [] ∨ ∃ q, g = [q] ∧
        ∀ c ∈ (bytes file stdout l).drop (bytes file stdout (l.take q)).length, c = newline := by
  have hlen := @Widened.length file stdout _ _ _ h
  constructor
  · intro hsame
    have hone : g.length ≤ 1 := by
      rcases hsame with heq | heq
      · have := congrArg List.length heq
        omega
      · have := congrArg List.length heq
        rw [List.length_append, List.length_singleton] at this
        omega
    match g, hone with
    | [], _ => exact .inl rfl
    | [q], _ =>
      obtain ⟨x, y, rfl, rfl, rfl⟩ := h.one rfl
      refine .inr ⟨_, rfl, ?_⟩
      unfold bytes at hsame ⊢
      rw [List.take_left, bytesFrom_append, List.drop_left]
      rw [bytesFrom_append, bytesFrom_append, bytesFrom, List.append_assoc] at hsame
      rcases hsame with heq | heq
      · have := congrArg List.length heq
        simp at this
      · exact cons_newline_eq.1 (List.append_cancel_left heq)
  · rintro (rfl | ⟨q, rfl, hall⟩)
    · exact .inl (h.eq_of_nil rfl ▸ rfl)
    · obtain ⟨x, y, rfl, rfl, rfl⟩ := h.one rfl
      unfold bytes at hall ⊢
      rw [List.take_left, bytesFrom_append, List.drop_left] at hall
      right
      rw [bytesFrom_append, bytesFrom_append, bytesFrom, List.append_assoc]
      exact congrArg _ (cons_newline_eq.2 hall)

end Bytes

/-! ## The last line -/

/-- **A last line without a newline.**  At every moment of a run, the input with a newline added has put out what
this one has, or a newline more at the end, if and only if `sed_out_pattern` has left out no newline, or one with
nothing but newlines behind it. -/
theorem newline_iff (file : List (ℕ × Bytes) → Bytes → Bytes) (stdout : ℕ → Bool) (cmds : List (Cmd e))
    (autoprintOff : Bool) (lines : List Bytes) (last : Bytes) (n : ℕ) {g : List ℕ} {s : State e}
    (hrun : ran n (State.new cmds autoprintOff (lines.map (·, true) ++ [(last, false)])) = some (g, s)) :
    ∃ g' t, ran n (State.new cmds autoprintOff ((lines ++ [last]).map (·, true))) = some (g', t) ∧
      t.phase = s.phase ∧
      ((bytes file stdout t.out = bytes file stdout s.out ∨
          bytes file stdout t.out = bytes file stdout s.out ++ [newline]) ↔
        g = [] ∨ ∃ q, g = [q] ∧
          ∀ c ∈ (bytes file stdout s.out).drop (bytes file stdout (s.out.take q)).length, c = newline) := by
  have hinput : (lines.map (·, true) ++ [(last, false)]).map ended = (lines ++ [last]).map (·, true) := by
    simp [ended, Function.comp_def]
  have h₀ : IsTwin (State.new (e := e) cmds autoprintOff (lines.map (·, true) ++ [(last, false)]))
      (State.new cmds autoprintOff ((lines ++ [last]).map (·, true))) [] := by
    rw [← hinput]
    exact .inr ⟨.inl rfl, rfl⟩
  obtain ⟨g', t, o, hrun', htwin, hwide⟩ := ran_twin h₀ rfl n hrun
  have ht : t.out = o ∧ t.phase = s.phase := by
    rcases htwin with rfl | ⟨-, rfl⟩ <;> exact ⟨rfl, rfl⟩
  refine ⟨g', t, hrun', ht.2, ?_⟩
  rw [ht.1]
  exact hwide.same_iff

/-- What a run of five steps leaves, of the script `p` on `a`. -/
def behindP (autoprintOff nl : Bool) : State (dfaEngine 9) :=
  ((ran 5 (.new [plain .p] autoprintOff [(ascii "a", nl)])).map Prod.snd).getD (.new [] false [])

/-- `sed -n p` on `a`: the newline that is left out is the last byte. -/
theorem newline_iff_once : ∃ g' t, ran 5 (.new [plain .p] true [(ascii "a", true)]) = some (g', t) ∧
    t.phase = (behindP true false).phase ∧
    ((bytes (fun _ _ => []) (fun _ => false) t.out = bytes (fun _ _ => []) (fun _ => false) (behindP true false).out ∨
        bytes (fun _ _ => []) (fun _ => false) t.out =
          bytes (fun _ _ => []) (fun _ => false) (behindP true false).out ++ [newline]) ↔
      [1] = [] ∨ ∃ q, [1] = [q] ∧ ∀ c ∈ (bytes (fun _ _ => []) (fun _ => false) (behindP true false).out).drop
        (bytes (fun _ _ => []) (fun _ => false) ((behindP true false).out.take q)).length, c = newline) :=
  newline_iff (fun _ _ => []) (fun _ => false) [plain .p] true [] (ascii "a") 5 rfl

/-- **`sed p` on `a`** puts out `aa`: the line is printed twice, and each time without a newline. -/
theorem newline_lost : ¬∀ (e : Engine) (file : List (ℕ × Bytes) → Bytes → Bytes) (stdout : ℕ → Bool)
    (cmds : List (Cmd e)) (autoprintOff : Bool) (lines : List Bytes) (last : Bytes) (n : ℕ) (g g' : List ℕ)
    (s t : State e), ran n (State.new cmds autoprintOff (lines.map (·, true) ++ [(last, false)])) = some (g, s) →
      ran n (State.new cmds autoprintOff ((lines ++ [last]).map (·, true))) = some (g', t) → s.phase = .done →
        bytes file stdout t.out = bytes file stdout s.out ∨
          bytes file stdout t.out = bytes file stdout s.out ++ [newline] := by
  intro hall
  have hcode := hall (dfaEngine 9) (fun _ _ => []) (fun _ => false) [plain .p] false [] (ascii "a") 5 [1, 2] []
    (behindP false false) (behindP false true) rfl rfl rfl
  have hwith : bytes (fun _ _ => []) (fun _ => false) (behindP false true).out = ascii "a\na\n" := by decide
  have hwithout : bytes (fun _ _ => []) (fun _ => false) (behindP false false).out = ascii "aa" := by decide
  rw [hwith, hwithout] at hcode
  exact absurd hcode (by decide)

end Shish.Sed
