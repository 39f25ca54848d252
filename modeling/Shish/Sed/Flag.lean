import Shish.Sed.Cycle

/-!
# Sed/Flag — when `t` branches

`tflag` is set by a substitution and cleared by `t`, `T` and the start of a cycle; `n` and `N` read a line as well,
and leave it.  So `t` is right unless a line was read by `n` or `N` behind a substitution, with none since
(`branches_iff`).
-/

namespace Shish.Sed

/-! ## What happens in a step -/

/-- What the flag is about. -/
inductive Event
  /-- A cycle starts with a line. -/
  | cycle
  /-- `n` or `N` reads a line. -/
  | next
  /-- A substitution succeeds. -/
  | subst
  /-- `t` or `T`. -/
  | test
  | other
  deriving DecidableEq

variable {e : Engine}

/-- What a command does, where its address matches. -/
def Body.event (b : Body e) (s : State e) : Event :=
  match b with
  | .n | .N => if s.fetchLine.isSome then .next else .other
  | .s b => if (substExec b s).1 then .subst else .other
  | .t _ | .T _ => .test
  | _ => .other

/-- What happens in the step of a state. -/
def event (s : State e) : Event :=
  match s.phase with
  | .fetch => if s.fetchLine.isSome then .cycle else .other
  | .cmd pc =>
      match s.cmds[pc]? with
      | none => .other
      | some c => if (matched c pc s).1 then c.body.event (matched c pc s).2.2 else .other
  | _ => .other

/-- Some steps, and what happens in them, the last first. -/
def after : ℕ → State e → Option (List Event × State e)
  | 0, s => some ([], s)
  | n + 1, s => (after n s).bind fun r => (step r.2).map fun s' => (event r.2 :: r.1, s')

/-! ## What the flag should be -/

/-- A line is read, or the flag is tested. -/
def Event.resets : Event → Bool
  | cycle | next | test => true
  | _ => false

/-- **A substitution has succeeded since a line was read or the flag was tested**, whichever is later. -/
def succeeded (h : List Event) : Bool := (h.takeWhile fun v => !v.resets).any (· = .subst)

/-- A substitution has succeeded since a cycle started or the flag was tested. -/
def flagged (h : List Event) : Bool := (h.takeWhile fun v => !(v = .cycle || v = .test)).any (· = .subst)

/-- Since the last line was read, by `n` or `N`, no substitution has succeeded, but one has before it. -/
def stale (h : List Event) : Bool := flagged h && !succeeded h

/-! ## What the flag is -/

/-- The flag behind a step. -/
def Event.flag (v : Event) (b : Bool) : Bool :=
  match v with
  | cycle | test => false
  | subst => true
  | next | other => b

theorem flagged_cons (v : Event) (h : List Event) : flagged (v :: h) = v.flag (flagged h) := by
  cases v <;> simp [flagged, Event.flag]

theorem readAhead_tflag (s : State e) : s.readAhead.tflag = s.tflag := by
  rw [State.readAhead]
  split <;> rfl

theorem fetchLine_tflag {s : State e} {r : Bytes × Bool × Bool × State e} (h : s.fetchLine = some r) :
    r.2.2.2.tflag = s.tflag := by
  rw [State.fetchLine] at h
  split at h
  · cases h
  · cases h
    exact (readAhead_tflag _).trans (readAhead_tflag s)

theorem readLine_tflag {s s' : State e} {f : Bytes → Bytes} (h : s.readLine f = some s') : s'.tflag = s.tflag := by
  obtain ⟨r, hr, rfl⟩ := Option.map_eq_some_iff.1 h
  exact fetchLine_tflag hr

theorem outPattern_tflag (s : State e) : s.outPattern.tflag = s.tflag := by
  rw [State.outPattern]
  split_ifs <;> rfl

theorem outWfileLine_tflag (s : State e) (idx : Option ℕ) (b : Bytes) : (s.outWfileLine idx b).tflag = s.tflag := by
  cases idx <;> rfl

theorem addrMatch_tflag (a : Addr e) (s : State e) : (addrMatch a s).2.tflag = s.tflag := by
  cases a with
  | step first step =>
    rw [addrMatch]
    split_ifs <;> rfl
  | regex re =>
    rw [addrMatch]
    cases re.or s.lastRe <;> rfl
  | none => rfl
  | line n => rfl
  | last => rfl
  | mult step line => rfl

theorem rangeCloses_tflag (c : Cmd e) (s : State e) : (rangeCloses c s).2.tflag = s.tflag := by
  rw [rangeCloses]
  split
  · rfl
  · rfl
  · exact addrMatch_tflag _ s
  · rfl
  · rfl

theorem opened_body (c : Cmd e) (s : State e) : (c.opened s).body = c.body := by
  rw [Cmd.opened]
  split <;> rfl

/-- To match an address changes neither the flag nor what a command does. -/
theorem rangeMatch_keeps (c : Cmd e) (s : State e) :
    (rangeMatch c s).2.1.body = c.body ∧ (rangeMatch c s).2.2.tflag = s.tflag := by
  have hbody : (if c.fromZero s = true then { c with inRange := true } else c).body = c.body := by split_ifs <;> rfl
  rw [rangeMatch]
  generalize (if c.fromZero s = true then { c with inRange := true } else c) = c' at hbody
  rw [← hbody]
  by_cases h0 : c'.naddr = 0
  · simp only [if_pos h0, true_and]
  · by_cases h1 : c'.naddr = 1
    · simp only [if_neg h0, if_pos h1, true_and]
      exact addrMatch_tflag _ s
    · cases hin : c'.inRange with
      | false =>
        simp only [if_neg h0, if_neg h1, Bool.not_false, if_true]
        refine ⟨?_, addrMatch_tflag _ s⟩
        split_ifs
        · exact opened_body _ _
        · rfl
      | true =>
        simp only [if_neg h0, if_neg h1, Bool.not_true, Bool.false_eq_true, if_false]
        refine ⟨?_, rangeCloses_tflag _ s⟩
        split_ifs <;> rfl

theorem matched_body (c : Cmd e) (pc : ℕ) (s : State e) : (matched c pc s).2.1.body = c.body := (rangeMatch_keeps c s).1

theorem matched_tflag (c : Cmd e) (pc : ℕ) (s : State e) : (matched c pc s).2.2.tflag = s.tflag := (rangeMatch_keeps c s).2

theorem substExec_tflag (b : Subst e) (s : State e) : (substExec b s).2.tflag = ((substExec b s).1 || s.tflag) := by
  rw [substExec]
  cases b.re.or s.lastRe with
  | none => rfl
  | some re =>
    simp only
    rcases e.replace re b.repl s.pattern b.nth b.global with _ | ⟨text, _ | n⟩ <;> rfl

/-- There is a line if one was read ahead or one is left. -/
theorem fetchLine_isSome (s : State e) : s.fetchLine.isSome = (s.next.isSome || !s.input.isEmpty) := by
  rw [State.fetchLine, State.readAhead]
  rcases hn : s.next with _ | l
  · rcases hi : s.input with _ | ⟨l, rest⟩
    · simp [hn]
    · simp
  · simp [hn]

theorem readLine_isSome (s : State e) (f : Bytes → Bytes) : (s.readLine f).isSome = s.fetchLine.isSome := by
  rw [State.readLine, Option.isSome_map]

/-- What is put out before `n` reads changes neither the flag nor the lines that are left. -/
theorem before_n (s : State e) :
    (if s.autoprintOff then s else s.outPattern).pendingFlush.tflag = s.tflag ∧
      (if s.autoprintOff then s else s.outPattern).pendingFlush.fetchLine.isSome = s.fetchLine.isSome := by
  have hout : s.outPattern.next = s.next ∧ s.outPattern.input = s.input := by
    rw [State.outPattern]
    split_ifs <;> exact ⟨rfl, rfl⟩
  split_ifs
  · exact ⟨rfl, by rw [fetchLine_isSome, fetchLine_isSome]; rfl⟩
  · refine ⟨outPattern_tflag s, ?_⟩
    rw [fetchLine_isSome, fetchLine_isSome]
    show (s.outPattern.next.isSome || !s.outPattern.input.isEmpty) = _
    rw [hout.1, hout.2]

/-- **The flag behind a command.** -/
theorem execCmd_tflag (c : Cmd e) (pc : ℕ) (s : State e) :
    (execCmd c pc s).tflag = (c.body.event s).flag s.tflag := by
  rw [execCmd]
  cases hbody : c.body with
  | n =>
    obtain ⟨htflag, hsome⟩ := before_n s
    rw [Body.event, ← hsome]
    rw [← readLine_isSome _ id]
    simp only
    cases hr : (if s.autoprintOff then s else s.outPattern).pendingFlush.readLine id with
    | none => exact htflag
    | some s' => exact (readLine_tflag hr).trans htflag
  | N =>
    rw [Body.event, ← readLine_isSome s fun l => s.pattern ++ newline :: l]
    simp only
    cases hr : s.readLine fun l => s.pattern ++ newline :: l with
    | none => rfl
    | some s' =>
      have hflag := readLine_tflag hr
      exact hflag
  | s b =>
    have hflag := substExec_tflag b s
    rw [Body.event]
    simp only
    cases hs : (substExec b s).1 with
    | false =>
      rw [hs, Bool.false_or] at hflag
      exact hflag
    | true =>
      rw [hs, Bool.true_or] at hflag
      rw [if_pos rfl, if_pos rfl]
      refine (outWfileLine_tflag _ _ _).trans ?_
      split_ifs
      · exact (outPattern_tflag _).trans hflag
      · exact hflag
  | t jump =>
    show (if s.tflag then { s with tflag := false }.goto jump else s.goto (pc + 1)).tflag = false
    cases h : s.tflag
    · exact h
    · rfl
  | T jump =>
    show (if s.tflag then { s with tflag := false }.goto (pc + 1) else s.goto jump).tflag = false
    cases h : s.tflag
    · exact h
    · rfl
  | c text =>
    simp only [Body.event, Event.flag]
    split_ifs <;> rfl
  | D =>
    simp only [Body.event, Event.flag]
    split_ifs <;> rfl
  | p => exact outPattern_tflag s
  | w idx => exact outWfileLine_tflag s idx _
  | _ => rfl

/-- **The flag behind a step.** -/
theorem step_tflag {s s' : State e} (h : step s = some s') : s'.tflag = (event s).flag s.tflag := by
  rw [step] at h
  rw [event]
  cases hp : s.phase with
  | fetch =>
    rw [hp] at h
    simp only at h ⊢
    rw [← readLine_isSome s id]
    cases hr : s.readLine id with
    | none =>
      rw [hr] at h
      cases h
      rfl
    | some s1 =>
      rw [hr] at h
      cases h
      rfl
  | cmd pc =>
    rw [hp] at h
    simp only at h ⊢
    cases hc : s.cmds[pc]? with
    | none =>
      rw [hc] at h
      cases h
      rfl
    | some c =>
      rw [hc] at h
      obtain rfl := Option.some.inj h
      simp only [turn]
      split_ifs with hm
      · rw [execCmd_tflag, matched_body, matched_tflag]
      · rw [← matched_tflag c pc s]
        split <;> rfl
  | endCycle =>
    rw [hp] at h
    obtain rfl := Option.some.inj h
    show (if _ then s.outPattern else s).tflag = s.tflag
    split_ifs
    · exact outPattern_tflag s
    · rfl
  | done =>
    rw [hp] at h
    cases h

/-- **The flag is what has happened.** -/
theorem after_tflag {s₀ : State e} (h₀ : s₀.tflag = false) : ∀ (n : ℕ) {h : List Event} {s : State e},
    after n s₀ = some (h, s) → s.tflag = flagged h
  | 0, h, s, hrun => by
      cases hrun
      exact h₀
  | n + 1, h, s, hrun => by
      obtain ⟨⟨h', s'⟩, hn, hstep⟩ := Option.bind_eq_some_iff.1 hrun
      obtain ⟨s'', hs, heq⟩ := Option.map_eq_some_iff.1 hstep
      cases heq
      rw [step_tflag hs, after_tflag h₀ n hn, flagged_cons]

theorem flagged_of_succeeded {h : List Event} (hs : succeeded h = true) : flagged h = true := by
  induction h with
  | nil => cases hs
  | cons v h ih =>
    cases v with
    | cycle => cases hs
    | next => cases hs
    | subst => rfl
    | test => cases hs
    | other => exact ih hs

/-- The flag is what it should be, unless it is stale. -/
theorem flagged_eq_iff (h : List Event) : flagged h = succeeded h ↔ stale h = false := by
  cases hs : succeeded h with
  | true => simp [stale, hs, flagged_of_succeeded hs]
  | false => simp [stale, hs]

/-- `sed_state_new`, for a script and an input. -/
def State.new (cmds : List (Cmd e)) (autoprintOff : Bool) (input : List (Bytes × Bool)) : State e :=
  { cmds := cmds, autoprintOff := autoprintOff, input := input }

/-- **`t` and `T`.**  Wherever a run comes to one, it branches as it should — on a substitution since a line was
read or the flag was tested — if and only if the flag is not stale, or the branch goes to the next command. -/
theorem branches_iff (cmds : List (Cmd e)) (autoprintOff : Bool) (input : List (Bytes × Bool)) (n : ℕ)
    {h : List Event} {s : State e} (hrun : after n (State.new cmds autoprintOff input) = some (h, s)) {pc : ℕ}
    (hpc : s.phase = .cmd pc) {c : Cmd e} (hc : s.cmds[pc]? = some c) (hm : (matched c pc s).1 = true) (jump : ℕ) :
    (c.body = .t jump →
      ((step s).map State.phase = some (.cmd (if succeeded h then jump else pc + 1)) ↔
        stale h = false ∨ jump = pc + 1)) ∧
    (c.body = .T jump →
      ((step s).map State.phase = some (.cmd (if succeeded h then pc + 1 else jump)) ↔
        stale h = false ∨ jump = pc + 1)) := by
  have hflag : s.tflag = flagged h := after_tflag rfl n hrun
  have hstep : (step s).map State.phase = some (execCmd (matched c pc s).2.1 pc (matched c pc s).2.2).phase := by
    rw [step, hpc]
    simp only [hc, turn, hm, if_true, Option.map_some]
  rw [hstep, Option.some.injEq, ← flagged_eq_iff]
  constructor
  · intro hbody
    rw [execCmd, matched_body, hbody]
    simp only [matched_tflag, hflag]
    cases flagged h <;> cases succeeded h <;> simp [State.goto, eq_comm]
  · intro hbody
    rw [execCmd, matched_body, hbody]
    simp only [matched_tflag, hflag]
    cases flagged h <;> cases succeeded h <;> simp [State.goto, eq_comm]

/-! ## Two scripts -/

/-- `a`, as it is compiled. -/
def reA : Dfa := ⟨[.char 'a', .done], [], 0, false, false⟩

example : dfaCompile {} ['a'] = .ok reA := by decide +kernel

/-- A command without an address. -/
def plain (b : Body (dfaEngine 9)) : Cmd (dfaEngine 9) := ⟨0, false, .none, .none, false, b⟩

/-- `s/a//`. -/
def substA : Cmd (dfaEngine 9) := plain (.s ⟨some reA, ⟨[], []⟩, false, false, 0, none⟩)

/-- The lines `a` and `c`. -/
def twoLines : List (Bytes × Bool) := [(ascii "a", true), (ascii "c", true)]

/-- `s/a//`, `t` to the end, and `=`. -/
def promptScript : State (dfaEngine 9) := .new [substA, plain (.t 3), plain .lineno] false twoLines

/-- In between, a line is read by `n`. -/
def lateScript : State (dfaEngine 9) := .new [substA, plain .n, plain (.t 4), plain .lineno] false twoLines

/-- The state before `t`. -/
def promptState : State (dfaEngine 9) := ((after 2 promptScript).map Prod.snd).getD promptScript

def lateState : State (dfaEngine 9) := ((after 3 lateScript).map Prod.snd).getD lateScript

/-- `t` branches, right behind the substitution. -/
theorem branches_iff_prompt : (step promptState).map State.phase = some (.cmd 3) :=
  ((@branches_iff (dfaEngine 9) [substA, plain (.t 3), plain .lineno] false twoLines 2 [.subst, .cycle] promptState rfl 1
    rfl (plain (.t 3)) rfl rfl 3).1 rfl).2 (.inl rfl)

/-- **`t` branches for a substitution on a line before the last one that was read.** -/
theorem branches_late : ¬∀ (e : Engine) (cmds : List (Cmd e)) (autoprintOff : Bool) (input : List (Bytes × Bool)) (n : ℕ)
    (h : List Event) (s : State e), after n (State.new cmds autoprintOff input) = some (h, s) →
      ∀ (pc : ℕ), s.phase = .cmd pc → ∀ c, s.cmds[pc]? = some c → (matched c pc s).1 = true →
        ∀ jump, c.body = .t jump →
          (step s).map State.phase = some (.cmd (if succeeded h then jump else pc + 1)) := by
  intro hall
  have hphase := hall (dfaEngine 9) [substA, plain .n, plain (.t 4), plain .lineno] false twoLines 3
    [.next, .subst, .cycle] lateState rfl 2 rfl (plain (.t 4)) rfl rfl 4 rfl
  have hcode : (step lateState).map State.phase = some (.cmd 4) := rfl
  rw [hcode] at hphase
  exact absurd hphase (by decide)

end Shish.Sed
