import Shish.Job.Wait

/-!
# Builtin/Wait — the operands of `wait`

`builtin_wait` finds the jobs of all its operands before it waits for the first one, and without
operands it waits for the first job of its level until there is none.  It does what it should as long
as no job is named twice and none of its level is stopped (`builtinWait_iff`).
-/

namespace Shish

/-! ## The model -/

/-- `builtin_wait`: the operands it has still to come to with the jobs found for them, if there were
any, and the call of `job_wait` it is in. -/
structure WaitState where
  table : JobTable
  todo : Option (List (Str × Option ℕ)) := none
  call : Option Waiting := none
  ret : ℕ := 0
  finished : Bool := false

/-- The builtin goes on by itself, or something happens. -/
inductive WaitAct where
  | proceed
  | event (e : WaitEvent)
  deriving DecidableEq

/-- The jobs of the operands. -/
def waitOperands (s : JobTable) (args : List Str) : Option (List (Str × Option ℕ)) :=
  args.mapM fun arg => (s.jobFind arg).map (arg, ·)

/-- The status of an operand that names no job. -/
def unknownStatus (s : JobTable) (arg : Str) : ℕ :=
  let (len, pid) := scanUintHead arg
  if arg.head? ≠ some '%' ∧ len ≠ 0 then ((s.jobRecall (intOfUint pid)).map waitStatus).getD 127 else 127

/-- A call goes on, or returns to the builtin. -/
def WaitState.afterWait (s : WaitState) (r : JobTable × WaitNow) : WaitState :=
  match r.2 with
  | .going w => { s with table := r.1, call := some w }
  | .returned status => { s with table := r.1, call := none, ret := status.code }
  | .interrupted sig => { s with table := r.1, call := none, ret := 128 + sig, finished := true }

/-- `builtin_wait`, one step of it. -/
def builtinWait (mode : WaitMode) (s : WaitState) : WaitAct → Option WaitState
  | .proceed =>
      if s.finished || s.call.isSome then none
      else match s.todo with
        | none => s.table.jobFirst.map fun first =>
            match first with
            | none => { s with finished := true }
            | some n => { s with call := some { job := n } }
        | some [] => some { s with finished := true }
        | some ((arg, none) :: ops) => some { s with todo := some ops, ret := unknownStatus s.table arg }
        | some ((_, some n) :: ops) => some { s with todo := some ops, call := some { job := n } }
  | .event e =>
      if s.finished then none
      else match s.call with
        | some w => (s.table.jobWait { mode with interruptible := true } w e).map s.afterWait
        | none =>
            match e with
            | .handled pid status => (s.table.jobSignal pid status).map fun t => { s with table := t }
            | _ => none

/-! ## One step of the builtin -/

namespace WaitState

open JobTable

variable {mode : WaitMode} {s s' : WaitState} {a : WaitAct} {l : List (ℕ × Job)} {cur : Option ℕ}

/-- What `builtin_wait` hands to `job_wait` is in `job_list`. -/
def HandsListed (mode : WaitMode) (s : WaitState) : Prop :=
  ∀ s' w, builtinWait mode s .proceed = some s' → s'.call = some w →
    ∃ l, s.table.heap.Lists s.table.jobList l ∧ w.job ∈ l.map Prod.fst

/-- The jobs of the operands to come. -/
def jobs (s : WaitState) : List ℕ := (s.todo.getD []).filterMap Prod.snd

/-- **What one step of the builtin does.** -/
inductive Steps (mode : WaitMode) (s : WaitState) : WaitAct → WaitState → Prop
  | first {n : ℕ} (hc : s.call = none) (ht : s.todo = none) (h : s.table.jobFirst = some (some n)) :
      Steps mode s .proceed { s with call := some { job := n } }
  | none (hc : s.call = none) (ht : s.todo = none) (h : s.table.jobFirst = some none) :
      Steps mode s .proceed { s with finished := true }
  | ended (hc : s.call = none) (ht : s.todo = some []) : Steps mode s .proceed { s with finished := true }
  | unknown {arg : Str} {ops : List (Str × Option ℕ)} (hc : s.call = none)
      (ht : s.todo = some ((arg, none) :: ops)) :
      Steps mode s .proceed { s with todo := some ops, ret := unknownStatus s.table arg }
  | operand {arg : Str} {n : ℕ} {ops : List (Str × Option ℕ)} (hc : s.call = none)
      (ht : s.todo = some ((arg, some n) :: ops)) :
      Steps mode s .proceed { s with todo := some ops, call := some { job := n } }
  | handled {pid : ℕ} {status : WaitStatus} {t : JobTable} (hc : s.call = none)
      (h : s.table.jobSignal pid status = some t) :
      Steps mode s (.event (.handled pid status)) { s with table := t }
  | going {w w' : Waiting} {e : WaitEvent} {t : JobTable} (hc : s.call = some w)
      (h : s.table.jobWait { mode with interruptible := true } w e = some (t, .going w')) :
      Steps mode s (.event e) { s with table := t, call := some w' }
  | returned {w : Waiting} {e : WaitEvent} {t : JobTable} {status : WaitStatus} (hc : s.call = some w)
      (h : s.table.jobWait { mode with interruptible := true } w e = some (t, .returned status)) :
      Steps mode s (.event e) { s with table := t, call := none, ret := status.code }
  | interrupted {w : Waiting} {e : WaitEvent} {t : JobTable} {sig : ℕ} (hc : s.call = some w)
      (h : s.table.jobWait { mode with interruptible := true } w e = some (t, .interrupted sig)) :
      Steps mode s (.event e) { s with table := t, call := none, ret := 128 + sig, finished := true }

theorem steps_of_builtinWait (h : builtinWait mode s a = some s') :
    s.finished = false ∧ Steps mode s a s' := by
  have hover : s.finished = false := by
    cases ho : s.finished with
    | false => rfl
    | true => cases a <;> simp [builtinWait, ho] at h
  refine ⟨hover, ?_⟩
  cases a with
  | proceed =>
    have hcall : s.call = none := by
      cases hc : s.call with
      | none => rfl
      | some w => simp [builtinWait, hc] at h
    rw [builtinWait, if_neg (by simp [hover, hcall])] at h
    split at h
    · rename_i ht
      obtain ⟨first, hfirst, heq⟩ := Option.map_eq_some_iff.1 h
      cases first with
      | none =>
        cases heq
        exact .none hcall ht hfirst
      | some n =>
        cases heq
        exact .first hcall ht hfirst
    · cases h
      exact .ended hcall ‹_›
    · cases h
      exact .unknown hcall ‹_›
    · cases h
      exact .operand hcall ‹_›
  | event e =>
    cases hc : s.call with
    | none =>
      cases e with
      | handled pid status =>
        obtain ⟨t, ht, rfl⟩ : ∃ t, s.table.jobSignal pid status = some t ∧ { s with table := t } = s' := by
          simpa [builtinWait, hover, hc] using h
        exact .handled hc ht
      | _ => simp [builtinWait, hover, hc] at h
    | some w =>
      unfold builtinWait at h
      dsimp only at h
      rw [if_neg (by simp [hover]), hc] at h
      obtain ⟨⟨t, now⟩, ht, heq⟩ := Option.map_eq_some_iff.1 h
      cases now with
      | going w' =>
        cases heq
        exact .going hc ht
      | returned status =>
        cases heq
        exact .returned hc ht
      | interrupted sig =>
        cases heq
        exact .interrupted hc ht

/-- **What lets the builtin go on**: the jobs of the operands to come are there, and none is named
twice. -/
structure Ready (s : WaitState) (l : List (ℕ × Job)) (cur : Option ℕ) : Prop where
  inOrder : s.table.InOrder l cur
  listed : ∀ n ∈ s.jobs, n ∈ l.map Prod.fst
  nodup : s.jobs.Nodup
  call : ∀ w, s.call = some w → w.job ∉ s.jobs ∧ ∃ j, (w.job, j) ∈ l ∧ Fresh w j

theorem fresh_start (n : ℕ) (j : Job) : Fresh { job := n } j := fun _ => rfl

/-- **One step**: nothing that is still needed is freed. -/
theorem Ready.step (h : s.Ready l cur) (hstep : builtinWait mode s a = some s') :
    ∃ l' cur', s'.Ready l' cur' := by
  obtain ⟨-, hstep⟩ := steps_of_builtinWait hstep
  cases hstep with
  | first hc ht hfirst =>
    have hmem := h.inOrder.firstJob fun j => j.level == s.table.subshell
    obtain ⟨x, hx, rfl⟩ := Option.map_eq_some_iff.1 (Option.some.inj (hmem.symm.trans hfirst))
    have hjobs : s.jobs = [] := by
      rw [jobs, ht]
      rfl
    refine ⟨l, cur, h.inOrder, h.listed, h.nodup, fun w hw => ?_⟩
    cases hw
    refine ⟨?_, x.2, List.mem_of_find?_eq_some hx, fresh_start _ _⟩
    rw [show jobs { s with call := some { job := x.1 } } = s.jobs from rfl, hjobs]
    exact List.not_mem_nil
  | none hc ht hfirst => exact ⟨l, cur, h.inOrder, h.listed, h.nodup, h.call⟩
  | ended hc ht => exact ⟨l, cur, h.inOrder, h.listed, h.nodup, h.call⟩
  | @unknown arg ops hc ht =>
    have hjobs : s.jobs = ops.filterMap Prod.snd := by
      rw [jobs, ht]
      rfl
    refine ⟨l, cur, h.inOrder, fun n hn => h.listed n (hjobs ▸ hn), ?_, fun w hw => ?_⟩
    · have hnd := h.nodup
      rwa [hjobs] at hnd
    · exact absurd (hc.symm.trans hw) nofun
  | @operand arg n ops hc ht =>
    have hjobs : s.jobs = n :: ops.filterMap Prod.snd := by
      rw [jobs, ht]
      rfl
    have hnd := hjobs ▸ h.nodup
    rw [List.nodup_cons] at hnd
    refine ⟨l, cur, h.inOrder, fun m hm => h.listed m (hjobs ▸ List.mem_cons_of_mem _ hm), hnd.2,
      fun w hw => ?_⟩
    cases hw
    obtain ⟨x, hx, rfl⟩ := List.mem_map.1 (h.listed n (hjobs ▸ List.mem_cons_self ..))
    exact ⟨hnd.1, x.2, hx, fresh_start _ _⟩
  | handled hc hs =>
    obtain ⟨t, ht, hin, -⟩ := h.inOrder.jobSignal_eq _ _
    obtain rfl := Option.some.inj (ht.symm.trans hs)
    refine ⟨_, cur, hin, fun n hn => ?_, h.nodup, fun w hw => absurd (hc.symm.trans hw) nofun⟩
    rw [fst_recordIn]
    exact h.listed n hn
  | @going w w' e t hc hw =>
    obtain ⟨hnot, j, hj, hf⟩ := h.call w hc
    obtain ⟨l', cur', hin, -, hkeys, hgoing⟩ :=
      (waits_of_jobWait (h.inOrder.val_eq.2 hj) hw).inOrder h.inOrder hj hf
    obtain ⟨hjob, j', hj', hf', -⟩ := hgoing w' rfl
    refine ⟨l', cur', hin, fun n hn => ?_, h.nodup, fun w₁ hw₁ => ?_⟩
    · exact (hkeys n fun heq => hnot (heq ▸ hn)).2 (h.listed n hn)
    · cases hw₁
      exact ⟨hjob ▸ hnot, j', hjob ▸ hj', hf'⟩
  | @returned w e t status hc hw =>
    obtain ⟨hnot, j, hj, hf⟩ := h.call w hc
    obtain ⟨l', cur', hin, -, hkeys, -⟩ :=
      (waits_of_jobWait (h.inOrder.val_eq.2 hj) hw).inOrder h.inOrder hj hf
    exact ⟨l', cur', hin, fun n hn => (hkeys n fun heq => hnot (heq ▸ hn)).2 (h.listed n hn), h.nodup,
      nofun⟩
  | @interrupted w e t sig hc hw =>
    obtain ⟨hnot, j, hj, hf⟩ := h.call w hc
    obtain ⟨l', cur', hin, -, hkeys, -⟩ :=
      (waits_of_jobWait (h.inOrder.val_eq.2 hj) hw).inOrder h.inOrder hj hf
    exact ⟨l', cur', hin, fun n hn => (hkeys n fun heq => hnot (heq ▸ hn)).2 (h.listed n hn), h.nodup,
      nofun⟩

theorem Ready.run : ∀ (acts : List WaitAct) {s s' : WaitState} {l : List (ℕ × Job)} {cur : Option ℕ},
    s.Ready l cur → runs (builtinWait mode) s acts = some s' → ∃ l' cur', s'.Ready l' cur'
  | [], s, s', l, cur, h, hrun => by
      obtain rfl := Option.some.inj hrun
      exact ⟨l, cur, h⟩
  | a :: acts, s, s', l, cur, h, hrun => by
      obtain ⟨s₁, hstep, hrun⟩ := Option.bind_eq_some_iff.1 hrun
      obtain ⟨l₁, cur₁, h₁⟩ := h.step hstep
      exact h₁.run acts hrun

theorem Ready.handsListed (h : s.Ready l cur) : s.HandsListed mode := by
  intro s' w hstep hw
  obtain ⟨-, hstep⟩ := steps_of_builtinWait hstep
  refine ⟨l, h.inOrder.lists, ?_⟩
  cases hstep with
  | first hc ht hfirst =>
    cases hw
    have hmem := h.inOrder.firstJob fun j => j.level == s.table.subshell
    obtain ⟨x, hx, rfl⟩ := Option.map_eq_some_iff.1 (Option.some.inj (hmem.symm.trans hfirst))
    exact List.mem_map_of_mem (List.mem_of_find?_eq_some hx)
  | none hc ht hfirst => exact absurd (hc.symm.trans hw) nofun
  | ended hc ht => exact absurd (hc.symm.trans hw) nofun
  | unknown hc ht => exact absurd (hc.symm.trans hw) nofun
  | @operand arg n ops hc ht =>
    cases hw
    refine h.listed n ?_
    rw [jobs, ht]
    exact List.mem_cons_self ..

/-! ## The result -/

/-- **What the result has to be**, `s` in front of the step that answers the last operand: its job is
not running, or it stopped. -/
def Answers (s : WaitState) (op : Str × Option ℕ) (ret : ℕ) : Prop :=
  match op with
  | (arg, none) => s.todo = some [op] ∧ ret = unknownStatus s.table arg
  | (_, some n) => s.todo = some [] ∧ ∃ w j, s.call = some w ∧ w.job = n ∧ s.table.heap.val n = some j ∧
      (j.stopped = true ∨ j.running = false) ∧ ret = j.lastStatus.code

/-- A trap ended the wait, or some state on the way answers the last operand. -/
def Answered (mode : WaitMode) (s : WaitState) (acts : List WaitAct) (op : Str × Option ℕ)
    (ret : ℕ) : Prop :=
  (∃ sig, .event (.trapped sig) ∈ acts ∧ ret = 128 + sig) ∨
    ∃ past rest s₁, acts = past ++ rest ∧ runs (builtinWait mode) s past = some s₁ ∧ Answers s₁ op ret

theorem Answered.cons {acts : List WaitAct} {op : Str × Option ℕ} {ret : ℕ} {s₁ : WaitState}
    (hstep : builtinWait mode s a = some s₁) (h : Answered mode s₁ acts op ret) :
    Answered mode s (a :: acts) op ret := by
  rcases h with ⟨sig, hmem, hret⟩ | ⟨past, rest, s₂, rfl, hrun, hans⟩
  · exact .inl ⟨sig, List.mem_cons_of_mem _ hmem, hret⟩
  · refine .inr ⟨a :: past, rest, s₂, rfl, ?_, hans⟩
    rw [runs, hstep]
    exact hrun

theorem over_run {acts : List WaitAct} (hover : s.finished = true)
    (hrun : runs (builtinWait mode) s acts = some s') : s' = s := by
  cases acts with
  | nil => exact (Option.some.inj hrun).symm
  | cons a acts =>
    obtain ⟨s₁, hstep, -⟩ := Option.bind_eq_some_iff.1 hrun
    rw [(steps_of_builtinWait hstep).1] at hover
    exact absurd hover nofun

/-- Behind the last operand the result stays. -/
theorem ended_run : ∀ (acts : List WaitAct) {s s' : WaitState}, s.call = none → s.todo = some [] →
    runs (builtinWait mode) s acts = some s' → s'.ret = s.ret
  | [], s, s', _, _, hrun => by rw [← Option.some.inj hrun]
  | a :: acts, s, s', hc, ht, hrun => by
      obtain ⟨s₁, hstep, hrun⟩ := Option.bind_eq_some_iff.1 hrun
      obtain ⟨-, hsteps⟩ := steps_of_builtinWait hstep
      cases hsteps with
      | first hc' ht' hf => exact absurd (ht.symm.trans ht') nofun
      | none hc' ht' hf => exact absurd (ht.symm.trans ht') nofun
      | ended hc' ht' => rw [over_run rfl hrun]
      | unknown hc' ht' => exact absurd (Option.some.inj (ht.symm.trans ht')) nofun
      | operand hc' ht' => exact absurd (Option.some.inj (ht.symm.trans ht')) nofun
      | handled hc' hs =>
        have hret := ended_run acts (by exact hc') (by exact ht) hrun
        exact hret
      | going hc' hw => exact absurd (hc.symm.trans hc') nofun
      | returned hc' hw => exact absurd (hc.symm.trans hc') nofun
      | interrupted hc' hw => exact absurd (hc.symm.trans hc') nofun

/-- **Waiting for the last operand.** -/
theorem call_run : ∀ (acts : List WaitAct) {s s' : WaitState} {l : List (ℕ × Job)} {cur : Option ℕ}
    {w : Waiting} (arg : Str), s.Ready l cur → s.finished = false → s.call = some w → s.todo = some [] →
    runs (builtinWait mode) s acts = some s' → s'.finished = true →
    acts.count (.event .nothing) < w.spins → Answered mode s acts (arg, some w.job) s'.ret
  | [], s, s', l, cur, w, arg, h, ho, hc, ht, hrun, hover, hk => by
      rw [← Option.some.inj hrun, ho] at hover
      exact absurd hover nofun
  | a :: acts, s, s', l, cur, w, arg, h, ho, hc, ht, hrun, hover, hk => by
      obtain ⟨s₁, hstep, hrun⟩ := Option.bind_eq_some_iff.1 hrun
      obtain ⟨l₁, cur₁, h₁⟩ := h.step hstep
      obtain ⟨-, hsteps⟩ := steps_of_builtinWait hstep
      obtain ⟨hnot, j, hj, hf⟩ := h.call w hc
      cases hsteps with
      | first hc' ht' _ => exact absurd (hc.symm.trans hc') nofun
      | none hc' ht' _ => exact absurd (hc.symm.trans hc') nofun
      | ended hc' ht' => exact absurd (hc.symm.trans hc') nofun
      | unknown hc' ht' => exact absurd (hc.symm.trans hc') nofun
      | operand hc' ht' => exact absurd (hc.symm.trans hc') nofun
      | handled hc' hs => exact absurd (hc.symm.trans hc') nofun
      | @going w₀ w' e t hc' hw =>
        obtain rfl := Option.some.inj (hc.symm.trans hc')
        have hwaits := waits_of_jobWait (h.inOrder.val_eq.2 hj) hw
        obtain ⟨l', cur', -, -, -, hgoing⟩ := hwaits.inOrder h.inOrder hj hf
        have hk' : acts.count (.event .nothing) < w'.spins := by
          rw [List.count_cons] at hk
          cases hwaits with
          | nothing ha hk₁ =>
            rw [if_pos (by simp)] at hk
            dsimp only
            omega
          | seen ha hst hc₁ he =>
            exact absurd (jobWaitEnd_returned he) nofun
          | gaveUp ha hk₁ he =>
            exact absurd (jobWaitEnd_returned he) nofun
          | _ => exact Nat.lt_of_le_of_lt (Nat.le_add_right ..) hk
        have hans := call_run acts arg h₁ (by exact ho) rfl (by exact ht) hrun hover hk'
        rw [(hgoing w' rfl).1] at hans
        exact hans.cons hstep
      | @returned w₀ e t status hc' hw =>
        obtain rfl := Option.some.inj (hc.symm.trans hc')
        have hwaits := waits_of_jobWait (h.inOrder.val_eq.2 hj) hw
        rcases hwaits.status_eq h.inOrder hj hf with ⟨rfl, hk₁⟩ | ⟨rfl, -, hst, rfl⟩
        · rw [List.count_cons, if_pos (by simp)] at hk
          omega
        · refine .inr ⟨[], _ :: acts, s, rfl, rfl, ht, w, j, hc, rfl, h.inOrder.val_eq.2 hj, hst, ?_⟩
          rw [ended_run acts rfl (by exact ht) hrun]
      | @interrupted w₀ e t sig hc' hw =>
        obtain rfl := Option.some.inj (hc.symm.trans hc')
        have hwaits := waits_of_jobWait (h.inOrder.val_eq.2 hj) hw
        rw [over_run rfl hrun]
        cases hwaits with
        | interrupted hi => exact .inl ⟨sig, List.mem_cons_self .., rfl⟩
        | seen ha hst hc₁ he =>
          exact absurd (jobWaitEnd_returned he) nofun
        | gaveUp ha hk₁ he =>
          exact absurd (jobWaitEnd_returned he) nofun

/-- **The result is the status of the last operand.** -/
theorem operands_run : ∀ (acts : List WaitAct) {s s' : WaitState} {l : List (ℕ × Job)} {cur : Option ℕ}
    {ops : List (Str × Option ℕ)} {op : Str × Option ℕ}, s.Ready l cur → s.finished = false →
    s.todo = some ops → ops.getLast? = some op → runs (builtinWait mode) s acts = some s' →
    s'.finished = true → acts.count (.event .nothing) < 5000 → Answered mode s acts op s'.ret
  | [], s, s', l, cur, ops, op, h, ho, ht, hop, hrun, hover, hk => by
      rw [← Option.some.inj hrun, ho] at hover
      exact absurd hover nofun
  | a :: acts, s, s', l, cur, ops, op, h, ho, ht, hop, hrun, hover, hk => by
      obtain ⟨s₁, hstep, hrun⟩ := Option.bind_eq_some_iff.1 hrun
      obtain ⟨l₁, cur₁, h₁⟩ := h.step hstep
      obtain ⟨-, hsteps⟩ := steps_of_builtinWait hstep
      have hk₁ : acts.count (.event .nothing) < 5000 :=
        Nat.lt_of_le_of_lt (List.count_le_count_cons ..) hk
      have hgo : s₁.finished = false → s₁.todo = some ops → Answered mode s (a :: acts) op s'.ret :=
        fun ho₁ ht₁ => (operands_run acts h₁ ho₁ ht₁ hop hrun hover hk₁).cons hstep
      cases hsteps with
      | first hc ht' _ => exact absurd (ht.symm.trans ht') nofun
      | none hc ht' _ => exact absurd (ht.symm.trans ht') nofun
      | ended hc ht' =>
        obtain rfl := Option.some.inj (ht.symm.trans ht')
        exact absurd hop nofun
      | @unknown arg ops' hc ht' =>
        obtain rfl := Option.some.inj (ht.symm.trans ht')
        cases ops' with
        | nil =>
          obtain rfl := Option.some.inj hop
          exact .inr ⟨[], _ :: acts, s, rfl, rfl, ht, ended_run acts (by exact hc) rfl hrun⟩
        | cons op' ops' =>
          rw [List.getLast?_cons_cons] at hop
          exact (operands_run acts h₁ (by exact ho) rfl hop hrun hover hk₁).cons hstep
      | @operand arg n ops' hc ht' =>
        obtain rfl := Option.some.inj (ht.symm.trans ht')
        cases ops' with
        | nil =>
          obtain rfl := Option.some.inj hop
          exact (call_run acts arg h₁ (by exact ho) rfl rfl hrun hover hk₁).cons hstep
        | cons op' ops' =>
          rw [List.getLast?_cons_cons] at hop
          exact (operands_run acts h₁ (by exact ho) rfl hop hrun hover hk₁).cons hstep
      | handled hc hs => exact hgo (by exact ho) (by exact ht)
      | going hc hw => exact hgo (by exact ho) (by exact ht)
      | returned hc hw => exact hgo (by exact ho) (by exact ht)
      | @interrupted w e t sig hc hw =>
        obtain ⟨hnot, j, hj, hf⟩ := h.call w hc
        have hwaits := waits_of_jobWait (h.inOrder.val_eq.2 hj) hw
        rw [over_run rfl hrun]
        cases hwaits with
        | interrupted hi => exact .inl ⟨sig, List.mem_cons_self .., rfl⟩
        | seen ha hst hc₁ he => exact absurd (jobWaitEnd_returned he) nofun
        | gaveUp ha hk₁ he => exact absurd (jobWaitEnd_returned he) nofun

/-! ## An operand named twice -/

/-- All processes of the table. -/
def procs (l : List (ℕ × Job)) : List Proc := l.flatMap fun x => x.2.procs

/-- No two processes of the table have the same pid. -/
def DistinctPids (l : List (ℕ × Job)) : Prop :=
  ((procs l).map Proc.pid).Nodup ∧ ∀ p ∈ procs l, 0 < p.pid

/-- All jobs are done. -/
def AllDone (l : List (ℕ × Job)) : Prop := ∀ x ∈ l, x.2.done = true

theorem record_append (pid : ℕ) (status : WaitStatus) : ∀ ps qs : List Proc,
    record pid status (ps ++ qs) =
      if ps.any (·.pid == pid) then record pid status ps ++ qs else ps ++ record pid status qs
  | [], qs => rfl
  | p :: ps, qs => by
      rw [List.cons_append, record, record, List.any_cons]
      cases hp : p.pid == pid with
      | true => rfl
      | false =>
        rw [if_neg Bool.false_ne_true, if_neg Bool.false_ne_true, Bool.false_or, record_append]
        split_ifs <;> rfl

/-- The report goes to the first process with its pid, over the jobs. -/
theorem procs_recordIn (pid : ℕ) (status : WaitStatus) : ∀ l : List (ℕ × Job),
    procs (recordIn pid status l) = record pid status (procs l)
  | [] => rfl
  | x :: l => by
      rw [procs, recordIn, procs, List.flatMap_cons, record_append]
      split_ifs
      · rfl
      · have ih := procs_recordIn pid status l
        unfold procs at ih
        rw [List.flatMap_cons, ih]

theorem pid_record (pid : ℕ) (status : WaitStatus) : ∀ ps : List Proc,
    (record pid status ps).map Proc.pid = ps.map Proc.pid
  | [] => rfl
  | p :: ps => by
      rw [record]
      split_ifs
      · rfl
      · rw [List.map_cons, List.map_cons, pid_record]

/-- Where the pid is there once, it is the process with that pid that gets the status. -/
theorem mem_record {pid : ℕ} {status : WaitStatus} {p : Proc} : ∀ {ps : List Proc},
    (ps.map Proc.pid).Nodup → p ∈ record pid status ps →
      if p.pid = pid then p.status = some status else p ∈ ps
  | q :: ps, hnd, hp => by
      rw [List.map_cons, List.nodup_cons] at hnd
      rw [record] at hp
      by_cases hq : q.pid = pid
      · rw [if_pos (by simpa using hq)] at hp
        rcases List.mem_cons.1 hp with rfl | hp
        · rw [if_pos hq]
        · have hne : p.pid ≠ pid := fun heq => hnd.1 (hq ▸ heq ▸ List.mem_map_of_mem hp)
          rw [if_neg hne]
          exact List.mem_cons_of_mem _ hp
      · rw [if_neg (by simpa using hq)] at hp
        rcases List.mem_cons.1 hp with rfl | hp
        · rw [if_neg hq]
          exact List.mem_cons_self ..
        · have h := mem_record hnd.2 hp
          split_ifs at h ⊢
          · exact h
          · exact List.mem_cons_of_mem _ h

/-- **The handler may report the end of all processes.** -/
theorem all_reported (mode : WaitMode) : ∀ (pids : List ℕ) {s : WaitState} {l : List (ℕ × Job)},
    s.table.InOrder l cur → DistinctPids l → s.finished = false → s.call = none →
    (∀ p ∈ procs l, p.pid ∉ pids → p.status = some (.exited 0)) → ∃ acts s' l',
      runs (builtinWait mode) s acts = some s' ∧ s'.table.InOrder l' cur ∧
      l'.map Prod.fst = l.map Prod.fst ∧ s'.finished = false ∧ s'.call = none ∧ s'.todo = s.todo ∧
      ∀ p ∈ procs l', p.status = some (.exited 0)
  | [], s, l, hin, hd, hover, hc, hall =>
      ⟨[], s, l, rfl, hin, rfl, hover, hc, rfl, fun p hp => hall p hp List.not_mem_nil⟩
  | pid :: pids, s, l, hin, hd, hover, hc, hall => by
      obtain ⟨t, ht, hin₁, -⟩ := hin.jobSignal_eq pid (.exited 0)
      have hstep : builtinWait mode s (.event (.handled pid (.exited 0))) = some { s with table := t } := by
        simp [builtinWait, hover, hc, ht]
      have hpids : (procs (recordIn pid (.exited 0) l)).map Proc.pid = (procs l).map Proc.pid := by
        rw [procs_recordIn, pid_record]
      have hd₁ : DistinctPids (recordIn pid (.exited 0) l) := by
        refine ⟨hpids ▸ hd.1, fun p hp => ?_⟩
        have hmem : p.pid ∈ (procs l).map Proc.pid := hpids ▸ List.mem_map_of_mem hp
        obtain ⟨q, hq, heq⟩ := List.mem_map.1 hmem
        exact heq ▸ hd.2 q hq
      obtain ⟨acts, s', l', hrun, hin', hkeys, hover', hc', ht', hall'⟩ :=
        all_reported mode pids (s := { s with table := t }) hin₁ hd₁ (by exact hover) (by exact hc)
          fun p hp hnot => by
            rw [procs_recordIn] at hp
            have hp := mem_record hd.1 hp
            split_ifs at hp with hpid
            · exact hp
            · exact hall p hp fun hmem => (List.mem_cons.1 hmem).elim hpid hnot
      refine ⟨.event (.handled pid (.exited 0)) :: acts, s', l', ?_, hin', hkeys.trans (fst_recordIn ..), hover', hc', ht', hall'⟩
      rw [runs, hstep]
      exact hrun

theorem allDone_of_reported (h : ∀ p ∈ procs l, p.status = some (.exited 0)) : AllDone l := by
  intro x hx
  have hp : ∀ p ∈ x.2.procs, p.status = some (.exited 0) :=
    fun p hp => h p (List.mem_flatMap.2 ⟨x, hx, hp⟩)
  rw [Job.done, Bool.and_eq_true, Bool.not_eq_true', Bool.not_eq_true']
  refine ⟨List.any_eq_false.2 fun p hmem => ?_, List.any_eq_false.2 fun p hmem => ?_⟩
  · simp [hp p hmem]
  · simp [hp p hmem, WaitStatus.isStopped]

/-- A done job is freed at the next look. -/
theorem look_done (mode : WaitMode) (hin : s.table.InOrder l cur) {w : Waiting} {j : Job}
    (hj : (w.job, j) ∈ l) (hd : j.done = true) (ha : w.asleep = false) (hover : s.finished = false)
    (hc : s.call = some w) :
    ∃ s' cur', builtinWait mode s (.event .look) = some s' ∧ s'.call = none ∧ s'.finished = false ∧
      s'.todo = s.todo ∧ s'.table.InOrder (l.filter fun x => x.1 ≠ w.job) cur' ∧
      s'.table.subshell = s.table.subshell := by
  obtain ⟨t, l', cur', ht, hin', hsub, hl, -⟩ :=
    hin.jobWaitEnd hj { mode with interruptible := true } (j.scan w.status)
  have hd' := hd
  rw [Job.done, Bool.and_eq_true, Bool.not_eq_true', Bool.not_eq_true'] at hd'
  have hwait : s.table.jobWait { mode with interruptible := true } w .look =
      some (t, .returned (j.pipefailStatus (j.scan w.status))) := by
    rw [JobTable.jobWait, if_neg (by simp [ha])]
    dsimp only
    rw [hin.val_eq.2 hj, Option.bind_eq_bind, Option.bind_some, if_neg (by simp [hd'.2]),
      if_pos (by simp [hd'.1]), ht]
  refine ⟨s.afterWait (t, .returned (j.pipefailStatus (j.scan w.status))), cur', ?_, rfl, hover, rfl,
    hl hd ▸ hin', hsub⟩
  unfold builtinWait
  dsimp only
  rw [if_neg (by simp [hover]), hc]
  exact congrArg (Option.map s.afterWait) hwait

/-- **Once all jobs are done, an operand that names a job again finds it freed.** -/
theorem twice_freed : ∀ (ops : List (Str × Option ℕ)) {s : WaitState} {l : List (ℕ × Job)}
    {cur : Option ℕ}, s.table.InOrder l cur → AllDone l → s.finished = false → s.call = none →
    s.todo = some ops →
    (¬ (ops.filterMap Prod.snd).Nodup ∨ ∃ n ∈ ops.filterMap Prod.snd, n ∉ l.map Prod.fst) →
    ∃ acts s', runs (builtinWait mode) s acts = some s' ∧ ¬ s'.HandsListed mode
  | [], s, l, cur, hin, hd, hover, hc, ht, h => by
      rcases h with h | ⟨n, hn, -⟩
      · exact absurd List.nodup_nil h
      · exact absurd hn List.not_mem_nil
  | (arg, none) :: ops, s, l, cur, hin, hd, hover, hc, ht, h => by
      have hstep : builtinWait mode s .proceed =
          some { s with todo := some ops, ret := unknownStatus s.table arg } := by
        simp [builtinWait, hover, hc, ht]
      obtain ⟨acts, s', hrun, hnot⟩ := twice_freed ops (s := { s with
        todo := some ops, ret := unknownStatus s.table arg }) hin hd (by exact hover) (by exact hc) rfl h
      refine ⟨.proceed :: acts, s', ?_, hnot⟩
      rw [runs, hstep]
      exact hrun
  | (arg, some n) :: ops, s, l, cur, hin, hd, hover, hc, ht, h => by
      have hstep : builtinWait mode s .proceed =
          some { s with todo := some ops, call := some { job := n } } := by
        simp [builtinWait, hover, hc, ht]
      by_cases hn : n ∈ l.map Prod.fst
      · obtain ⟨x, hx, rfl⟩ := List.mem_map.1 hn
        obtain ⟨s₁, cur₁, hlook, hc₁, hover₁, ht₁, hin₁, -⟩ := look_done mode
          (s := { s with todo := some ops, call := some { job := x.1 } }) hin hx (hd x hx) rfl hover rfl
        have hrest : ¬ (ops.filterMap Prod.snd).Nodup ∨ ∃ m ∈ ops.filterMap Prod.snd,
            m ∉ (l.filter fun y => y.1 ≠ x.1).map Prod.fst := by
          have hcons : ((arg, some x.1) :: ops).filterMap Prod.snd = x.1 :: ops.filterMap Prod.snd := rfl
          rw [hcons, List.nodup_cons, Classical.not_and_iff_not_or_not,
            not_not] at h
          rcases h with (hmem | hnd) | ⟨m, hm, hml⟩
          · exact .inr ⟨x.1, hmem, by simp⟩
          · exact .inl hnd
          · rcases List.mem_cons.1 hm with rfl | hm
            · exact absurd hn hml
            · refine .inr ⟨m, hm, fun hm' => hml ?_⟩
              exact (List.filter_sublist.map _).subset hm'
        obtain ⟨acts, s', hrun, hnot⟩ := twice_freed ops hin₁
          (fun x hx => hd x (List.mem_filter.1 hx).1) hover₁ hc₁ ht₁ hrest
        refine ⟨.proceed :: .event .look :: acts, s', ?_, hnot⟩
        rw [runs, hstep, Option.bind_some, runs, hlook]
        exact hrun
      · refine ⟨[], s, rfl, fun hands => ?_⟩
        obtain ⟨l', hl', hmem⟩ := hands _ _ hstep rfl
        rw [hl'.chain.unique hin.lists.chain] at hmem
        exact hn hmem

/-! ## No operands -/

/-- What the builtin does by itself; `wait_pid` comes back with nothing when there is no child. -/
def own (childless : Bool) : WaitAct → Bool
  | .proceed => true
  | .event .look => true
  | .event .nothing => childless
  | _ => false

/-- A job of the level has a running process. -/
def LevelRuns (s : JobTable) : Prop :=
  ∃ n j, s.heap.val n = some j ∧ j.level = s.subshell ∧ j.running = true

/-- `wait` without operands, on the way. -/
structure WaitsAll (s : WaitState) (l : List (ℕ × Job)) (cur : Option ℕ) : Prop where
  inOrder : s.table.InOrder l cur
  todo : s.todo = none
  call : ∀ w, s.call = some w → ∃ j, (w.job, j) ∈ l ∧ Fresh w j ∧ j.level = s.table.subshell

/-- **One step of `wait` without operands.** -/
theorem WaitsAll.step (h : s.WaitsAll l cur) (hstep : builtinWait mode s a = some s') :
    ∃ l' cur', s'.WaitsAll l' cur' := by
  obtain ⟨-, hsteps⟩ := steps_of_builtinWait hstep
  have hfirst := h.inOrder.firstJob fun j => j.level == s.table.subshell
  cases hsteps with
  | first hcall ht hf =>
    obtain ⟨x, hx, rfl⟩ := Option.map_eq_some_iff.1 (Option.some.inj (hfirst.symm.trans hf))
    refine ⟨l, cur, h.inOrder, h.todo, fun w hw => ?_⟩
    cases hw
    exact ⟨x.2, List.mem_of_find?_eq_some hx, fresh_start _ _, by simpa using List.find?_some hx⟩
  | none hcall ht hf => exact ⟨l, cur, h.inOrder, h.todo, h.call⟩
  | ended hcall ht => exact absurd (h.todo.symm.trans ht) nofun
  | unknown hcall ht => exact absurd (h.todo.symm.trans ht) nofun
  | operand hcall ht => exact absurd (h.todo.symm.trans ht) nofun
  | handled hcall hs =>
    obtain ⟨t, ht, hin, -⟩ := h.inOrder.jobSignal_eq _ _
    obtain rfl := Option.some.inj (ht.symm.trans hs)
    exact ⟨_, cur, hin, h.todo, fun w hw => absurd (hcall.symm.trans hw) nofun⟩
  | @going w w' e t hcall hw =>
    obtain ⟨j, hj, hf, hlevel⟩ := h.call w hcall
    obtain ⟨l', cur', hin, hsub, -, hgoing⟩ :=
      (waits_of_jobWait (h.inOrder.val_eq.2 hj) hw).inOrder h.inOrder hj hf
    obtain ⟨hjob, j', hj', hf', hlevel'⟩ := hgoing w' rfl
    refine ⟨l', cur', hin, h.todo, fun w₁ hw₁ => ?_⟩
    cases hw₁
    exact ⟨j', hjob ▸ hj', hf', (hlevel'.trans hlevel).trans hsub.symm⟩
  | @returned w e t status hcall hw =>
    obtain ⟨j, hj, hf, -⟩ := h.call w hcall
    obtain ⟨l', cur', hin, -⟩ := (waits_of_jobWait (h.inOrder.val_eq.2 hj) hw).inOrder h.inOrder hj hf
    exact ⟨l', cur', hin, h.todo, nofun⟩
  | @interrupted w e t sig hcall hw =>
    obtain ⟨j, hj, hf, -⟩ := h.call w hcall
    obtain ⟨l', cur', hin, -⟩ := (waits_of_jobWait (h.inOrder.val_eq.2 hj) hw).inOrder h.inOrder hj hf
    exact ⟨l', cur', hin, h.todo, nofun⟩

theorem WaitsAll.run : ∀ (acts : List WaitAct) {s s' : WaitState} {l : List (ℕ × Job)} {cur : Option ℕ},
    s.WaitsAll l cur → runs (builtinWait mode) s acts = some s' → ∃ l' cur', s'.WaitsAll l' cur'
  | [], s, s', l, cur, h, hrun => by
      obtain rfl := Option.some.inj hrun
      exact ⟨l, cur, h⟩
  | a :: acts, s, s', l, cur, h, hrun => by
      obtain ⟨s₁, hstep, hrun⟩ := Option.bind_eq_some_iff.1 hrun
      obtain ⟨l₁, cur₁, h₁⟩ := h.step hstep
      exact h₁.run acts hrun

/-- A job of the level is stopped. -/
def LevelStopped (s : JobTable) : Prop :=
  ∃ n j, s.heap.val n = some j ∧ j.level = s.subshell ∧ j.stopped = true

/-- The end of a wait neither starts nor stops a process, and leaves what is stopped. -/
theorem level_jobWaitEnd {t t' : JobTable} {n : ℕ} {j : Job} {status : WaitStatus} {now : WaitNow}
    (hin : t.InOrder l cur) (hj : (n, j) ∈ l) (he : t.jobWaitEnd mode n status = some (t', now)) :
    (LevelRuns t' → LevelRuns t) ∧ (LevelStopped t' ↔ LevelStopped t) := by
  obtain ⟨-, hsub, hback, hforth⟩ := hin.jobWaitEnd_val hj he
  refine ⟨?_, ?_, ?_⟩
  · rintro ⟨m, j', hv, hlevel, hr⟩
    obtain ⟨j₀, hv₀, hl, hp⟩ := hback m j' hv
    refine ⟨m, j₀, hv₀, hl.symm.trans (hlevel.trans hsub), ?_⟩
    rwa [Job.running, ← hp]
  · rintro ⟨m, j', hv, hlevel, hst⟩
    obtain ⟨j₀, hv₀, hl, hp⟩ := hback m j' hv
    refine ⟨m, j₀, hv₀, hl.symm.trans (hlevel.trans hsub), ?_⟩
    rwa [Job.stopped, ← hp]
  · rintro ⟨m, j₀, hv, hlevel, hst⟩
    obtain ⟨j', hv', hl, hp⟩ := hforth m j₀ hv (by rw [Job.done, hst]; exact Bool.and_false _)
    refine ⟨m, j', hv', hl.trans (hlevel.trans hsub.symm), ?_⟩
    rwa [Job.stopped, hp]

/-- The builtin goes round: a job of its level is stopped, and none has a running process. -/
structure Circles (s : WaitState) : Prop where
  all : ∃ l cur, s.WaitsAll l cur
  stopped : LevelStopped s.table
  idle : ¬ LevelRuns s.table
  finished : s.finished = false

/-- **Without a command substitution a stopped job is waited for again and again.** -/
theorem Circles.step {childless : Bool} (h : s.Circles) (hc : mode.cmdsub = false)
    (hown : own childless a = true) (hstep : builtinWait mode s a = some s') : s'.Circles := by
  obtain ⟨l, cur, hall⟩ := h.all
  obtain ⟨l', cur', hall'⟩ := hall.step hstep
  obtain ⟨-, hsteps⟩ := steps_of_builtinWait hstep
  have hend : ∀ {w : Waiting} {j : Job} {t : JobTable} {status status' : WaitStatus},
      (w.job, j) ∈ l → s.table.jobWaitEnd { mode with interruptible := true } w.job status =
        some (t, .returned status') → s' = { s with table := t, call := none, ret := status'.code } →
      s'.Circles := by
    rintro w j t status status' hj he rfl
    obtain ⟨hruns, hst⟩ := level_jobWaitEnd hall.inOrder hj he
    exact ⟨⟨l', cur', hall'⟩, hst.2 h.stopped, fun hr => h.idle (hruns hr), h.finished⟩
  cases hsteps with
  | first hcall ht hf => exact ⟨⟨l', cur', hall'⟩, h.stopped, h.idle, h.finished⟩
  | none hcall ht hf =>
    obtain ⟨n, j, hv, hlevel, -⟩ := h.stopped
    have hfirst := hall.inOrder.firstJob fun j => j.level == s.table.subshell
    have hnone := Option.map_eq_none_iff.1 (Option.some.inj (hfirst.symm.trans hf))
    exact absurd hlevel (by simpa using List.find?_eq_none.1 hnone _ (hall.inOrder.val_eq.1 hv))
  | ended hcall ht => exact absurd (hall.todo.symm.trans ht) nofun
  | unknown hcall ht => exact absurd (hall.todo.symm.trans ht) nofun
  | operand hcall ht => exact absurd (hall.todo.symm.trans ht) nofun
  | handled hcall hs => exact absurd hown nofun
  | @going w w' e t hcall hw =>
    obtain ⟨j, hj, -, hlevel⟩ := hall.call w hcall
    have hv := hall.inOrder.val_eq.2 hj
    cases waits_of_jobWait hv hw with
    | continued ha hst hcs => exact absurd (hc.symm.trans hcs) nofun
    | seen ha hst hcs he => exact absurd (jobWaitEnd_returned he) nofun
    | sleeps ha hst hr => exact absurd ⟨w.job, j, hv, hlevel, hr⟩ h.idle
    | handled hs => exact absurd hown nofun
    | trapped hi => exact absurd hown nofun
    | reaped ha hs => exact absurd hown nofun
    | gaveUp ha hk he => exact absurd (jobWaitEnd_returned he) nofun
    | nothing ha hk => exact ⟨⟨l', cur', hall'⟩, h.stopped, h.idle, h.finished⟩
  | @returned w e t status hcall hw =>
    obtain ⟨j, hj, -, -⟩ := hall.call w hcall
    cases waits_of_jobWait (hall.inOrder.val_eq.2 hj) hw with
    | gaveUp ha hk he => exact hend hj he rfl
    | seen ha hst hcs he => exact hend hj he rfl
  | @interrupted w e t sig hcall hw =>
    obtain ⟨j, hj, -, -⟩ := hall.call w hcall
    cases waits_of_jobWait (hall.inOrder.val_eq.2 hj) hw with
    | interrupted hi => exact absurd hown nofun
    | seen ha hst hcs he => exact absurd (jobWaitEnd_returned he) nofun
    | gaveUp ha hk he => exact absurd (jobWaitEnd_returned he) nofun

theorem Circles.run {childless : Bool} (hc : mode.cmdsub = false) : ∀ (acts : List WaitAct)
    {s s' : WaitState}, s.Circles → (∀ a ∈ acts, own childless a = true) →
    runs (builtinWait mode) s acts = some s' → s'.Circles
  | [], s, s', h, _, hrun => by
      obtain rfl := Option.some.inj hrun
      exact h
  | a :: acts, s, s', h, hown, hrun => by
      obtain ⟨s₁, hstep, hrun⟩ := Option.bind_eq_some_iff.1 hrun
      rw [List.forall_mem_cons] at hown
      exact (h.step hc hown.1 hstep).run hc acts hown.2 hrun

/-- **What `wait` without operands should do**: once no job of its level has a running process it comes
to its end by itself. -/
def Returns (mode : WaitMode) (childless : Bool) (s : WaitState) : Prop :=
  ∃ acts s', (∀ a ∈ acts, own childless a = true) ∧ runs (builtinWait mode) s acts = some s' ∧
    (s'.finished = true ∨ LevelRuns s'.table)

theorem Returns.cons {childless : Bool} {s₁ : WaitState} (hown : own childless a = true)
    (hstep : builtinWait mode s a = some s₁) (h : Returns mode childless s₁) :
    Returns mode childless s := by
  obtain ⟨acts, s', hall, hrun, hend⟩ := h
  refine ⟨a :: acts, s', List.forall_mem_cons.2 ⟨hown, hall⟩, ?_, hend⟩
  rw [runs, hstep]
  exact hrun

/-- A stopped job is continued at the next look of a command substitution. -/
theorem look_stopped (hin : s.table.InOrder l cur) {w : Waiting} {j : Job} (hj : (w.job, j) ∈ l)
    (hst : j.stopped = true) (hcs : mode.cmdsub = true) (hlevel : j.level = s.table.subshell)
    (ha : w.asleep = false) (hover : s.finished = false) (hc : s.call = some w) : ∃ s',
      builtinWait mode s (.event .look) = some s' ∧ LevelRuns s'.table := by
  obtain ⟨l₁, l₂, rfl, hin₁, heap, heq⟩ := hin.modify hj (f := Job.continueStopped) rfl
  have hwait : s.table.jobWait { mode with interruptible := true } w .look =
      some (s.table.modifyJob w.job Job.continueStopped,
        .going { w with status := j.scan w.status }) := by
    rw [JobTable.jobWait, if_neg (by simp [ha])]
    dsimp only
    rw [hin.val_eq.2 hj, Option.bind_eq_bind, Option.bind_some, if_pos (by simp [hst, hcs])]
  refine ⟨s.afterWait (s.table.modifyJob w.job Job.continueStopped,
    .going { w with status := j.scan w.status }), ?_, w.job, j.continueStopped, ?_, ?_, ?_⟩
  · unfold builtinWait
    dsimp only
    rw [if_neg (by simp [hover]), hc]
    exact congrArg (Option.map s.afterWait) hwait
  · exact hin₁.lists.vals (w.job, j.continueStopped) (by simp)
  · refine hlevel.trans ?_
    rw [afterWait, heq]
  · obtain ⟨p, hp, hpst⟩ := List.any_eq_true.1 hst
    refine List.any_eq_true.2 ⟨{ p with status := none }, List.mem_map.2 ⟨p, hp, ?_⟩, rfl⟩
    rw [if_pos hpst]

/-- **A look in a level without a running process**: the job is freed, or runs again. -/
theorem look_idle (hin : s.table.InOrder l cur) {w : Waiting} {j : Job} (hj : (w.job, j) ∈ l)
    (hlevel : j.level = s.table.subshell) (ha : w.asleep = false) (ho : s.finished = false)
    (hc : s.call = some w) (hidle : ¬ LevelRuns s.table)
    (hst : mode.cmdsub = true ∨ ¬ LevelStopped s.table) : ∃ s₁,
      builtinWait mode s (.event .look) = some s₁ ∧ (LevelRuns s₁.table ∨ ∃ cur₁,
        s₁.table.InOrder (l.filter fun x => x.1 ≠ w.job) cur₁ ∧ s₁.finished = false ∧ s₁.call = none ∧
        s₁.todo = s.todo ∧ ¬ LevelRuns s₁.table ∧ (mode.cmdsub = true ∨ ¬ LevelStopped s₁.table)) := by
  have hv := hin.val_eq.2 hj
  cases hstop : j.stopped with
  | false =>
    have hr : j.running = false := by
      by_contra hr
      exact hidle ⟨w.job, j, hv, hlevel, by simpa using hr⟩
    have hd : j.done = true := by simp [Job.done, hr, hstop]
    obtain ⟨s₁, cur₁, hlook, hc₁, ho₁, ht₁, hin₁, hsub⟩ := look_done mode hin hj hd ha ho hc
    have hback : ∀ m j, s₁.table.heap.val m = some j → s.table.heap.val m = some j := fun m j hv =>
      hin.val_eq.2 (List.mem_filter.1 (hin₁.val_eq.1 hv)).1
    refine ⟨s₁, hlook, .inr ⟨cur₁, hin₁, ho₁, hc₁, ht₁, ?_, hst.imp_right fun hno => ?_⟩⟩
    · rintro ⟨m, j, hv, hl, hr⟩
      exact hidle ⟨m, j, hback m j hv, hl.trans hsub, hr⟩
    · rintro ⟨m, j, hv, hl, hs⟩
      exact hno ⟨m, j, hback m j hv, hl.trans hsub, hs⟩
  | true =>
    have hcs : mode.cmdsub = true := hst.resolve_right fun hno => hno ⟨w.job, j, hv, hlevel, hstop⟩
    obtain ⟨s₁, hlook, hruns⟩ := look_stopped hin hj hstop hcs hlevel ha ho hc
    exact ⟨s₁, hlook, .inl hruns⟩

/-- **The builtin frees the done jobs one by one**, and in a command substitution it continues those
that stopped. -/
theorem returns_between {childless : Bool} (hin : s.table.InOrder l cur) (ho : s.finished = false)
    (hc : s.call = none) (ht : s.todo = none) (hidle : ¬ LevelRuns s.table)
    (hst : mode.cmdsub = true ∨ ¬ LevelStopped s.table) : Returns mode childless s := by
  induction hk : l.length using Nat.strong_induction_on generalizing s l cur with
  | _ k ih =>
    have hfirst := hin.firstJob fun j => j.level == s.table.subshell
    cases hx : l.find? fun x => x.2.level == s.table.subshell with
    | none =>
      have hf : s.table.jobFirst = some none := by
        rw [hx] at hfirst
        exact hfirst
      have hstep : builtinWait mode s .proceed = some { s with finished := true } := by
        simp [builtinWait, ho, hc, ht, hf]
      exact .cons rfl hstep ⟨[], _, (fun _ h => by cases h), rfl, .inl rfl⟩
    | some x =>
      have hf : s.table.jobFirst = some (some x.1) := by
        rw [hx] at hfirst
        exact hfirst
      have hmem := List.mem_of_find?_eq_some hx
      have hlevel : x.2.level = s.table.subshell := by simpa using List.find?_some hx
      have hstep : builtinWait mode s .proceed = some { s with call := some { job := x.1 } } := by
        simp [builtinWait, ho, hc, ht, hf]
      obtain ⟨s₁, hlook, hend⟩ := look_idle (s := { s with call := some { job := x.1 } }) hin hmem hlevel
        rfl ho rfl hidle hst
      refine .cons rfl hstep (.cons rfl hlook ?_)
      rcases hend with hruns | ⟨cur₁, hin₁, ho₁, hc₁, ht₁, hidle₁, hst₁⟩
      · exact ⟨[], s₁, (fun _ h => by cases h), rfl, .inr hruns⟩
      · have hlen : (l.filter fun y => y.1 ≠ x.1).length < k :=
          hk ▸ List.length_filter_lt_length_iff_exists.2 ⟨x, hmem, by simp⟩
        exact ih _ hlen hin₁ ho₁ hc₁ (ht₁.trans ht) hidle₁ hst₁ rfl

/-- The same from the middle of a wait, awake. -/
theorem returns_awake {childless : Bool} {w : Waiting} (h : s.WaitsAll l cur) (ho : s.finished = false)
    (hc : s.call = some w) (ha : w.asleep = false) (hidle : ¬ LevelRuns s.table)
    (hst : mode.cmdsub = true ∨ ¬ LevelStopped s.table) : Returns mode childless s := by
  obtain ⟨j, hj, -, hlevel⟩ := h.call w hc
  obtain ⟨s₁, hlook, hend⟩ := look_idle h.inOrder hj hlevel ha ho hc hidle hst
  refine .cons rfl hlook ?_
  rcases hend with hruns | ⟨cur₁, hin₁, ho₁, hc₁, ht₁, hidle₁, hst₁⟩
  · exact ⟨[], s₁, nofun, rfl, .inr hruns⟩
  · exact returns_between hin₁ ho₁ hc₁ (ht₁.trans h.todo) hidle₁ hst₁

/-- And asleep, when `wait_pid` comes back. -/
theorem returns_asleep {w : Waiting} (h : s.WaitsAll l cur) (ho : s.finished = false)
    (hc : s.call = some w) (ha : w.asleep = true) (hidle : ¬ LevelRuns s.table)
    (hst : mode.cmdsub = true ∨ ¬ LevelStopped s.table) : Returns mode true s := by
  obtain ⟨j, hj, hf, hlevel⟩ := h.call w hc
  by_cases hk : w.spins ≤ 1
  · obtain ⟨t, l', cur', ht, hin', -⟩ :=
      h.inOrder.jobWaitEnd hj { mode with interruptible := true } w.status
    obtain ⟨hruns, hstop⟩ := level_jobWaitEnd h.inOrder hj ht
    have hstep : builtinWait mode s (.event .nothing) =
        some (s.afterWait (t, .returned (j.pipefailStatus w.status))) := by
      unfold builtinWait
      dsimp only
      rw [if_neg (by simp [ho]), hc]
      dsimp only
      rw [JobTable.jobWait, if_pos ha, if_pos hk, ht]
      rfl
    refine .cons rfl hstep (returns_between hin' ho rfl h.todo (fun hr => hidle (hruns hr)) ?_)
    exact hst.imp_right fun hno hs => hno (hstop.1 hs)
  · have hstep : builtinWait mode s (.event .nothing) =
        some { s with call := some { w with spins := w.spins - 1, asleep := false } } := by
      unfold builtinWait
      dsimp only
      rw [if_neg (by simp [ho]), hc]
      dsimp only
      rw [JobTable.jobWait, if_pos ha, if_neg hk]
      rfl
    obtain ⟨l', cur', h'⟩ := h.step hstep
    exact .cons rfl hstep (returns_awake h' ho rfl rfl hidle hst)

/-- **When `wait` without operands returns**: it is not asleep behind the last report, and no job of
its level is stopped. -/
theorem returns_iff {childless : Bool} (h : s.WaitsAll l cur) (ho : s.finished = false)
    (hidle : ¬ LevelRuns s.table) : Returns mode childless s ↔
      (mode.cmdsub = true ∨ ¬ LevelStopped s.table) ∧
        ((∃ w, s.call = some w ∧ w.asleep = true) → childless = true) := by
  refine ⟨fun ⟨acts, s', hown, hrun, hend⟩ => ⟨?_, ?_⟩, fun ⟨hst, hasleep⟩ => ?_⟩
  · by_contra hnot
    rw [not_or, Bool.not_eq_true, not_not] at hnot
    have hcirc : s'.Circles := Circles.run hnot.1 acts ⟨⟨l, cur, h⟩, hnot.2, hidle, ho⟩ hown hrun
    rcases hend with hover | hr
    · cases hcirc.finished.symm.trans hover
    · exact hcirc.idle hr
  · rintro ⟨w, hc, ha⟩
    cases acts with
    | nil =>
      obtain rfl := Option.some.inj hrun
      rcases hend with hover | hr
      · cases ho.symm.trans hover
      · exact absurd hr hidle
    | cons a acts =>
      obtain ⟨s₁, hstep, -⟩ := Option.bind_eq_some_iff.1 hrun
      have hown := hown a (List.mem_cons_self ..)
      cases a with
      | proceed => simp [builtinWait, hc] at hstep
      | event e =>
        cases e with
        | look => simp [builtinWait, hc, JobTable.jobWait, ha] at hstep
        | nothing => exact hown
        | _ => cases hown
  · cases hc : s.call with
    | none => exact returns_between h.inOrder ho hc h.todo hidle hst
    | some w =>
      cases ha : w.asleep with
      | false => exact returns_awake h ho hc ha hidle hst
      | true =>
        obtain rfl := hasleep ⟨w, hc, ha⟩
        exact returns_asleep h ho hc ha hidle hst

/-! ## What `wait` does -/

/-- **What `wait` with operands should do**: it hands only listed jobs to `job_wait`, and its result is
the status of the last operand, unless `wait_pid` came back with nothing over and over. -/
structure WaitsRight (mode : WaitMode) (t : JobTable) (ops : List (Str × Option ℕ)) : Prop where
  listed : ∀ acts s', runs (builtinWait mode) { table := t, todo := some ops } acts = some s' →
    s'.HandsListed mode
  answered : ∀ acts s' op, runs (builtinWait mode) { table := t, todo := some ops } acts = some s' →
    s'.finished = true → acts.count (.event .nothing) < 5000 → ops.getLast? = some op →
      Answered mode { table := t, todo := some ops } acts op s'.ret

theorem ready_operands {t : JobTable} {ops : List (Str × Option ℕ)} (hin : t.InOrder l cur)
    (hmem : ∀ n ∈ ops.filterMap Prod.snd, n ∈ l.map Prod.fst) (hnd : (ops.filterMap Prod.snd).Nodup) :
    Ready { table := t, todo := some ops } l cur := ⟨hin, hmem, hnd, nofun⟩

theorem waitsRight_of_nodup {t : JobTable} {ops : List (Str × Option ℕ)} (hin : t.InOrder l cur)
    (hmem : ∀ n ∈ ops.filterMap Prod.snd, n ∈ l.map Prod.fst) (hnd : (ops.filterMap Prod.snd).Nodup) :
    WaitsRight mode t ops where
  listed acts s' hrun := by
    obtain ⟨l', cur', h'⟩ := (ready_operands hin hmem hnd).run acts hrun
    exact h'.handsListed
  answered acts s' op hrun hover hk hop :=
    operands_run acts (ready_operands hin hmem hnd) rfl rfl hop hrun hover hk

theorem nodup_of_waitsRight {t : JobTable} {ops : List (Str × Option ℕ)} (hin : t.InOrder l cur)
    (hd : DistinctPids l) (h : WaitsRight mode t ops) : (ops.filterMap Prod.snd).Nodup := by
  by_contra hnd
  obtain ⟨acts, s₁, l₁, hrun, hin₁, -, hover, hc, ht, hall⟩ := all_reported mode
    ((procs l).map Proc.pid) (s := { table := t, todo := some ops }) hin hd rfl rfl
    fun p hp hnot => absurd (List.mem_map_of_mem hp) hnot
  obtain ⟨acts', s', hrun', hnot⟩ := twice_freed ops hin₁ (allDone_of_reported hall) hover hc ht (.inl hnd)
  refine hnot (h.listed (acts ++ acts') s' ?_)
  rw [runs_append, hrun]
  exact hrun'

end WaitState

open WaitState

theorem waitOperands_mem {t : JobTable} {l : List (ℕ × Job)} {cur : Option ℕ} (hin : t.InOrder l cur) :
    ∀ args : List Str, ∃ ops, waitOperands t args = some ops ∧
      ∀ n ∈ ops.filterMap Prod.snd, n ∈ l.map Prod.fst
  | [] => ⟨[], rfl, nofun⟩
  | arg :: args => by
      obtain ⟨r, hr, hmem⟩ := hin.jobFind arg
      obtain ⟨ops, hops, hall⟩ := waitOperands_mem hin args
      refine ⟨(arg, r) :: ops, ?_, fun n hn => ?_⟩
      · unfold waitOperands at hops ⊢
        rw [List.mapM_cons, hr, hops]
        rfl
      · cases r with
        | none => exact hall n hn
        | some m =>
          rcases List.mem_cons.1 hn with rfl | hn
          · exact hmem n rfl
          · exact hall n hn

/-- **`wait`**: with operands it does what it should when no job is named twice, and where the pids of
the table are distinct only then.  Without operands it hands over listed jobs too; once its level has
no running process it returns by itself unless a job of the level is stopped, or the last report came
behind its look and `wait_pid` sleeps on. -/
theorem builtinWait_iff (mode : WaitMode) (t : JobTable) (l : List (ℕ × Job)) (cur : Option ℕ)
    (hin : t.InOrder l cur) :
    (∀ args, ∃ ops, waitOperands t args = some ops ∧
      ((ops.filterMap Prod.snd).Nodup → WaitsRight mode t ops) ∧
      (DistinctPids l → WaitsRight mode t ops → (ops.filterMap Prod.snd).Nodup)) ∧
    ∀ acts s, runs (builtinWait mode) { table := t } acts = some s → s.HandsListed mode ∧
      (s.finished = false → ¬ LevelRuns s.table → ∀ childless, (Returns mode childless s ↔
        (mode.cmdsub = true ∨ ¬ LevelStopped s.table) ∧
          ((∃ w, s.call = some w ∧ w.asleep = true) → childless = true))) := by
  refine ⟨fun args => ?_, fun acts s hrun => ⟨?_, fun ho hidle childless => ?_⟩⟩
  · obtain ⟨ops, hops, hmem⟩ := waitOperands_mem hin args
    exact ⟨ops, hops, waitsRight_of_nodup hin hmem, nodup_of_waitsRight hin⟩
  · have hstart : Ready { table := t } l cur := ⟨hin, nofun, List.nodup_nil, nofun⟩
    obtain ⟨l', cur', h'⟩ := hstart.run acts hrun
    exact h'.handsListed
  · have hstart : WaitsAll { table := t } l cur := ⟨hin, rfl, nofun⟩
    obtain ⟨l', cur', h'⟩ := hstart.run acts hrun
    exact returns_iff h' ho hidle

/-- One job, of one process. -/
def oneJob : JobTable where
  heap := Function.update (fun _ => none) 0 (some ⟨{ id := 1, level := 0, procs := [{ pid := 5 }] }, none⟩)
  top := 1
  jobList := some 0
  jobPointer := some none

theorem oneJob_live {n : ℕ} (hn : (oneJob.heap n).isSome) : n = 0 := by
  by_contra h0
  simp [oneJob, Function.update_of_ne h0] at hn

theorem oneJob_inOrder : oneJob.InOrder [(0, { id := 1, level := 0, procs := [{ pid := 5 }] })] (some 0) where
  lists := ⟨⟨rfl, _, rfl, rfl⟩, List.forall_mem_singleton.2 rfl, List.nodup_singleton _⟩
  ascending := List.pairwise_singleton ..
  positive := List.forall_mem_singleton.2 Nat.one_pos
  live n hn := by simp [oneJob_live hn]
  top n hn := (oneJob_live hn).symm ▸ Nat.one_pos
  points := ⟨[], _, [], rfl, rfl, rfl⟩

/-- `wait %1` waits for the job, and its result is the job's. -/
theorem builtinWait_iff_sample : WaitsRight {} oneJob [(['%', '1'], some 0)] := by
  obtain ⟨ops, hops, hright, -⟩ := (builtinWait_iff {} oneJob _ _ oneJob_inOrder).1 [['%', '1']]
  obtain rfl : [(['%', '1'], some 0)] = ops := Option.some.inj hops
  exact hright (by decide)

/-- `wait %1 %1`: when the job ends, the second operand hands a freed job to `job_wait`. -/
theorem wait_twice_freed : waitOperands oneJob [['%', '1'], ['%', '1']] =
      some [(['%', '1'], some 0), (['%', '1'], some 0)] ∧
    ¬ WaitsRight {} oneJob [(['%', '1'], some 0), (['%', '1'], some 0)] := by
  refine ⟨rfl, fun hright => ?_⟩
  have hview : (runs (builtinWait {})
      { table := oneJob, todo := some [(['%', '1'], some 0), (['%', '1'], some 0)] }
      [.proceed, .event .look, .event (.reaped 5 (.exited 0)), .event .look]).map
        (fun s => (s.table.jobList, s.todo, s.call, s.finished)) =
      some (none, some [(['%', '1'], some 0)], none, false) := rfl
  obtain ⟨s, hrun, hs⟩ := Option.map_eq_some_iff.1 hview
  obtain ⟨hlist, hrest⟩ := Prod.mk.inj hs
  obtain ⟨htodo, hrest⟩ := Prod.mk.inj hrest
  obtain ⟨hcall, hover⟩ := Prod.mk.inj hrest
  have hstep : builtinWait {} s .proceed = some { s with todo := some [], call := some { job := 0 } } := by
    simp [builtinWait, hover, hcall, htodo]
  obtain ⟨l, hl, hmem⟩ := hright.listed _ s hrun _ _ hstep rfl
  rw [hlist] at hl
  have hnil : l.map Prod.fst = [] := (hl.chain.unique (show Heap.Chain s.table.heap none [] from rfl))
  rw [hnil] at hmem
  exact List.not_mem_nil hmem

end Shish
