import Mathlib.Data.List.Infix
import Shish.Job.Table
import Shish.Scan

/-!
# Job/Wait — waiting for a job

`job_wait` looks at the statuses of a job's processes, and sleeps in `wait_pid` until a child reports;
the SIGCHLD handler may record reports at any moment, and a trap ends the wait of `wait`.  A job that
is done is freed (`InOrder.jobWaitEnd`).  `Waits` says what one event does to a call.
-/

namespace Shish

/-! ## The model -/

/-- `(int)id`. -/
def intOfUint (id : ℕ) : ℤ := if id < 2 ^ 31 then id else id - 2 ^ 32

namespace Job

/-- The scan of `job_wait`: the last status that is there. -/
def scan (j : Job) (status : WaitStatus) : WaitStatus :=
  j.procs.foldl (fun status p => p.status.getD status) status

/-- With `pipefail`, the rightmost status of a failure. -/
def pipefailStatus (j : Job) (status : WaitStatus) : WaitStatus :=
  if j.pipefail && !j.stopped then
    (j.procs.reverse.findSome? fun p => p.status.filter fun st => st.code != 0).getD status
  else status

/-- Processes that stopped are continued. -/
def continueStopped (j : Job) : Job :=
  { j with procs := j.procs.map fun p =>
      if p.status.any WaitStatus.isStopped then { p with status := none } else p }

end Job

/-- `WAIT_STATUS`, of -1 as well. -/
def waitStatus : Option WaitStatus → ℕ
  | some st => st.code
  | none => 255

/-- Where `job_wait` is called: by `wait`, inside a command substitution, or by an interactive shell
with job control. -/
structure WaitMode where
  interruptible : Bool := false
  cmdsub : Bool := false
  banners : Bool := false

/-- A call of `job_wait`, in front of a look at the processes or asleep in `wait_pid`. -/
structure Waiting where
  job : ℕ
  status : WaitStatus := .exited 0
  spins : ℕ := 5000
  asleep : Bool := false
  deriving DecidableEq

/-- What happens during a call: the SIGCHLD handler records a report, a trap runs, the call looks at
the processes, or `wait_pid` comes back, with a child or with nothing. -/
inductive WaitEvent where
  | handled (pid : ℕ) (status : WaitStatus)
  | trapped (sig : ℕ)
  | look
  | reaped (pid : ℕ) (status : WaitStatus)
  | nothing
  deriving DecidableEq

/-- A call that goes on, and one that is over. -/
inductive WaitNow where
  | going (w : Waiting)
  | returned (status : WaitStatus)
  | interrupted (sig : ℕ)

namespace JobTable

/-- The end of `job_wait`: a job that is done is freed. -/
def jobWaitEnd (mode : WaitMode) (s : JobTable) (n : ℕ) (status : WaitStatus) :
    Option (JobTable × WaitNow) := do
  let j ← s.heap.val n
  let s := if mode.banners && j.stopped then s.modifyJob n fun j => { j with announced := true } else s
  (if j.done then s.jobFree n else some s).map fun s => (s, .returned (j.pipefailStatus status))

/-- `job_wait`, one event of it; `none` when it does not happen there. -/
def jobWait (mode : WaitMode) (s : JobTable) (w : Waiting) : WaitEvent → Option (JobTable × WaitNow)
  | .handled pid status => (s.jobSignal pid status).map fun s => (s, .going w)
  | .trapped sig => some (s, if mode.interruptible then .interrupted sig else .going w)
  | .look =>
      if w.asleep then none else do
        let j ← s.heap.val w.job
        let status := j.scan w.status
        if j.stopped && mode.cmdsub then
          some (s.modifyJob w.job Job.continueStopped, .going { w with status })
        else if j.stopped || !j.running then s.jobWaitEnd mode w.job status
        else some (s, .going { w with status, asleep := true })
  | .reaped pid status =>
      if w.asleep then
        (s.jobSignal pid status).map fun s => (s, .going { w with status, asleep := false })
      else none
  | .nothing =>
      if w.asleep then
        if w.spins ≤ 1 then s.jobWaitEnd mode w.job w.status
        else some (s, .going { w with spins := w.spins - 1, asleep := false })
      else none

/-- `job_recall`. -/
def jobRecall (s : JobTable) (pid : ℤ) : Option (Option WaitStatus) :=
  (List.range 64).findSome? fun i =>
    if (s.finished i).1 = pid ∧ 0 < pid then some (s.finished i).2 else none

/-- The first job that passes the test. -/
def firstJob (s : JobTable) (q : Job → Bool) : Option (Option ℕ) :=
  (s.heap.find q s.top none s.jobList).map (Option.map Prod.snd)

/-- `job_first`. -/
def jobFirst (s : JobTable) : Option (Option ℕ) := s.firstJob fun j => j.level == s.subshell

/-- The last job that passes the test. -/
def lastJob (q : ℕ → Job → Bool) (h : Heap Job) : ℕ → Option ℕ → Option ℕ → Option (Option ℕ)
  | _, prev, none => some prev
  | 0, _, some _ => none
  | k + 1, prev, some n =>
      (h n).bind fun c => lastJob q h k (if q n c.val then some n else prev) c.next

/-- `job_find`. -/
def jobFind (s : JobTable) : Str → Option (Option ℕ)
  | '%' :: spec =>
      let (len, id) := scanUintHead spec
      if spec = [] ∨ spec = ['%'] ∨ spec = ['+'] then some s.current
      else if spec = ['-'] then
        lastJob (fun n j => some n != s.current && j.level == s.subshell) s.heap s.top none s.jobList
      else if len = spec.length then
        s.firstJob fun j => decide ((j.id : ℤ) = intOfUint id) && j.level == s.subshell
      else
        s.firstJob fun j => j.level == s.subshell &&
          match spec with
          | '?' :: str => decide (str <:+: j.command.getD [])
          | _ => decide (spec <+: j.command.getD [])
  | str =>
      let id := (scanUintHead str).2
      if id = 0 then some none
      else s.firstJob fun j =>
        j.procs.any (fun p => decide ((p.pid : ℤ) = intOfUint id)) && j.level == s.subshell

end JobTable

/-! ## The status of a job -/

namespace Job

/-- The statuses of the members that are not running. -/
def ended (j : Job) : List WaitStatus := j.procs.filterMap Proc.status

/-- **The status of a job**: of its last member that is not running; with `pipefail` of the last one
that failed. -/
def lastStatus (j : Job) : WaitStatus :=
  let failed := j.ended.filter fun st => st.code != 0
  ((if j.pipefail && !j.stopped then failed.getLast?.or j.ended.getLast? else j.ended.getLast?)).getD
    (.exited 0)

theorem scan_eq (j : Job) (status : WaitStatus) : j.scan status = j.ended.getLast?.getD status := by
  unfold scan ended
  induction j.procs generalizing status with
  | nil => rfl
  | cons p ps ih =>
    rw [List.foldl_cons, ih, List.filterMap_cons]
    cases p.status with
    | none => rfl
    | some st => rw [List.getLast?_cons, Option.getD_some, Option.getD_some]

/-- What `job_wait` reports when it has looked at the members. -/
theorem pipefailStatus_scan {j : Job} {status : WaitStatus}
    (h : j.ended = [] → status = .exited 0) : j.pipefailStatus (j.scan status) = j.lastStatus := by
  have hfailed : (j.procs.reverse.findSome? fun p => p.status.filter fun st => st.code != 0) =
      (j.ended.filter fun st => st.code != 0).getLast? := by
    rw [ended, List.filter_filterMap, List.getLast?_filterMap]
  have hlast : j.ended.getLast?.getD status = j.ended.getLast?.getD (.exited 0) := by
    cases hl : j.ended.getLast? with
    | none => exact h (List.getLast?_eq_none_iff.1 hl)
    | some st => rfl
  unfold pipefailStatus lastStatus
  rw [hfailed, scan_eq, hlast]
  dsimp only
  split_ifs
  · cases (j.ended.filter fun st => st.code != 0).getLast? <;> rfl
  · rfl

theorem ended_ne_nil {j : Job} (h : j.stopped ∨ (j.running = false ∧ j.procs ≠ [])) : j.ended ≠ [] := by
  unfold ended
  rcases h with h | ⟨h, hne⟩
  · obtain ⟨p, hp, hst⟩ := List.any_eq_true.1 h
    obtain ⟨st, hst, -⟩ := (Option.any_eq_true ..).1 hst
    exact List.ne_nil_of_mem (List.mem_filterMap.2 ⟨p, hp, hst⟩)
  · obtain ⟨p, hp⟩ := List.exists_mem_of_ne_nil _ hne
    have hst := List.any_eq_false.1 h p hp
    obtain ⟨st, hst⟩ := Option.ne_none_iff_exists'.1 (by simpa using hst)
    exact List.ne_nil_of_mem (List.mem_filterMap.2 ⟨p, hp, hst⟩)

end Job

/-! ## One event of a wait -/

namespace JobTable

variable {s s' : JobTable} {l l₁ l₂ : List (ℕ × Job)} {cur : Option ℕ} {n : ℕ} {j : Job}
  {mode : WaitMode} {w : Waiting} {e : WaitEvent} {now : WaitNow}

theorem InOrder.val_eq (h : s.InOrder l cur) : s.heap.val n = some j ↔ (n, j) ∈ l := by
  refine ⟨fun hv => ?_, fun hmem => h.lists.vals _ hmem⟩
  have hn : (s.heap n).isSome := by
    rw [Heap.val] at hv
    cases hc : s.heap n with
    | none => rw [hc] at hv; cases hv
    | some c => rfl
  obtain ⟨x, hx, rfl⟩ := List.mem_map.1 (h.live n hn)
  rwa [← Option.some.inj ((h.lists.vals x hx).symm.trans hv)]

/-- A job changes, and keeps its id. -/
theorem InOrder.modify (h : s.InOrder l cur) (hj : (n, j) ∈ l) {f : Job → Job} (hid : (f j).id = j.id) :
    ∃ l₁ l₂, l = l₁ ++ (n, j) :: l₂ ∧ (s.modifyJob n f).InOrder (l₁ ++ (n, f j) :: l₂) cur ∧
      ∃ heap, s.modifyJob n f = { s with heap } := by
  obtain ⟨l₁, l₂, rfl⟩ := List.append_of_mem hj
  exact ⟨l₁, l₂, rfl, h.modifyJob (x := (n, j)) hid, _, modifyJob_eq (h.val_eq.2 hj) f⟩

theorem jobFree_subshell (h : s.jobFree n = some s') : s'.subshell = s.subshell := by
  unfold jobFree at h
  obtain ⟨found, -, h⟩ := Option.bind_eq_some_iff.1 h
  cases found with
  | none => rw [Option.some.inj h]
  | some slot =>
    obtain ⟨m, -, h⟩ := Option.bind_eq_some_iff.1 h
    obtain ⟨c, -, h⟩ := Option.bind_eq_some_iff.1 h
    obtain ⟨finished, finishedN, hnote⟩ := noteFinished_eq s c.val
    rw [hnote] at h
    dsimp only at h
    split_ifs at h
    · obtain ⟨last, -, rfl⟩ := Option.map_eq_some_iff.1 h
      rfl
    · rw [← Option.some.inj h]
    · rw [← Option.some.inj h]

/-- **The end of a wait**: the job is freed when it is done. -/
theorem InOrder.jobWaitEnd (h : s.InOrder l cur) (hj : (n, j) ∈ l) (mode : WaitMode)
    (status : WaitStatus) : ∃ s' l' cur',
      s.jobWaitEnd mode n status = some (s', .returned (j.pipefailStatus status)) ∧
      s'.InOrder l' cur' ∧ s'.subshell = s.subshell ∧
      (j.done → l' = l.filter fun x => x.1 ≠ n) ∧
      (j.done = false → ∃ l₁ l₂ j', l = l₁ ++ (n, j) :: l₂ ∧ l' = l₁ ++ (n, j') :: l₂ ∧
        ∃ announced, j' = { j with announced }) := by
  have hend : ∀ {s₁ : JobTable} {l₁ l₂ : List (ℕ × Job)} {j' : Job}, l = l₁ ++ (n, j) :: l₂ →
      s₁.InOrder (l₁ ++ (n, j') :: l₂) cur → s₁.subshell = s.subshell →
      (∃ announced, j' = { j with announced }) → ∃ s' l' cur',
        ((if j.done then s₁.jobFree n else some s₁).map fun s =>
          (s, WaitNow.returned (j.pipefailStatus status))) =
            some (s', .returned (j.pipefailStatus status)) ∧
        s'.InOrder l' cur' ∧ s'.subshell = s.subshell ∧
        (j.done → l' = l.filter fun x => x.1 ≠ n) ∧
        (j.done = false → ∃ l₁ l₂ j', l = l₁ ++ (n, j) :: l₂ ∧ l' = l₁ ++ (n, j') :: l₂ ∧
          ∃ announced, j' = { j with announced }) := by
    intro s₁ l₁ l₂ j' hl hin hsub hj'
    cases hdone : j.done with
    | true =>
      obtain ⟨s', cur', hfree, hin', -, -⟩ := hin.jobFree n
      refine ⟨s', _, cur', by rw [if_pos rfl, hfree]; rfl, hin', (jobFree_subshell hfree).trans hsub,
        fun _ => ?_, nofun⟩
      rw [hl, List.filter_append, List.filter_append, List.filter_cons_of_neg (by simp),
        List.filter_cons_of_neg (by simp)]
    | false =>
      exact ⟨s₁, _, cur, by rw [if_neg Bool.false_ne_true]; rfl, hin, hsub, nofun,
        fun _ => ⟨l₁, l₂, j', hl, rfl, hj'⟩⟩
  unfold JobTable.jobWaitEnd
  rw [h.val_eq.2 hj]
  dsimp only [Option.bind_eq_bind, Option.bind_some]
  by_cases hbanner : (mode.banners && j.stopped) = true
  · rw [if_pos hbanner]
    obtain ⟨l₁, l₂, hl, hin, heap, heq⟩ := h.modify hj (f := fun j => { j with announced := true }) rfl
    exact hend hl hin (by rw [heq]) ⟨true, rfl⟩
  · rw [if_neg hbanner]
    obtain ⟨l₁, l₂, rfl⟩ := List.append_of_mem hj
    exact hend rfl h rfl ⟨j.announced, rfl⟩

theorem jobWaitEnd_returned {status : WaitStatus} (h : s.jobWaitEnd mode n status = some (s', now)) :
    ∃ status, now = .returned status := by
  obtain ⟨j, -, h⟩ := Option.bind_eq_some_iff.1 h
  obtain ⟨t, -, heq⟩ := Option.map_eq_some_iff.1 h
  exact ⟨_, (Prod.mk.inj heq).2.symm⟩

/-- At the end of a wait only a done job goes, and the others keep their processes. -/
theorem InOrder.jobWaitEnd_val (h : s.InOrder l cur) (hj : (n, j) ∈ l) {status : WaitStatus}
    (he : s.jobWaitEnd mode n status = some (s', now)) : (∃ l' cur', s'.InOrder l' cur') ∧
      s'.subshell = s.subshell ∧
      (∀ m j', s'.heap.val m = some j' → ∃ j₀, s.heap.val m = some j₀ ∧ j'.level = j₀.level ∧
        j'.procs = j₀.procs) ∧
      ∀ m j₀, s.heap.val m = some j₀ → j₀.done = false → ∃ j', s'.heap.val m = some j' ∧
        j'.level = j₀.level ∧ j'.procs = j₀.procs := by
  obtain ⟨t, l', cur', ht, hin, hsub, hdone, hnot⟩ := h.jobWaitEnd hj mode status
  cases Option.some.inj (ht.symm.trans he)
  refine ⟨⟨l', cur', hin⟩, hsub, ?_⟩
  simp only [hin.val_eq, h.val_eq]
  cases hd : j.done with
  | true =>
    obtain rfl := hdone hd
    refine ⟨fun m j' hm => ⟨j', (List.mem_filter.1 hm).1, rfl, rfl⟩, fun m j₀ hm hmd => ?_⟩
    refine ⟨j₀, List.mem_filter.2 ⟨hm, decide_eq_true ?_⟩, rfl, rfl⟩
    rintro rfl
    obtain rfl := Option.some.inj ((h.val_eq.2 hm).symm.trans (h.val_eq.2 hj))
    exact absurd (hd.symm.trans hmd) nofun
  | false =>
    obtain ⟨l₁, l₂, j', rfl, rfl, announced, rfl⟩ := hnot hd
    refine ⟨fun m j' hm => ?_, fun m j₀ hm _ => ?_⟩
    · rcases List.mem_append.1 hm with hm | hm
      · exact ⟨j', List.mem_append_left _ hm, rfl, rfl⟩
      · rcases List.mem_cons.1 hm with heq | hm
        · obtain ⟨rfl, rfl⟩ := Prod.mk.inj heq
          exact ⟨j, hj, rfl, rfl⟩
        · exact ⟨j', by simp [hm], rfl, rfl⟩
    · rcases List.mem_append.1 hm with hm | hm
      · exact ⟨j₀, List.mem_append_left _ hm, rfl, rfl⟩
      · rcases List.mem_cons.1 hm with heq | hm
        · obtain ⟨rfl, rfl⟩ := Prod.mk.inj heq
          exact ⟨{ j₀ with announced }, by simp, rfl, rfl⟩
        · exact ⟨j₀, by simp [hm], rfl, rfl⟩

/-- **What one event does to a call** for the job `j`. -/
inductive Waits (mode : WaitMode) (s : JobTable) (w : Waiting) (j : Job) :
    WaitEvent → JobTable → WaitNow → Prop
  | handled {pid : ℕ} {status : WaitStatus} {s' : JobTable} (h : s.jobSignal pid status = some s') :
      Waits mode s w j (.handled pid status) s' (.going w)
  | trapped {sig : ℕ} (h : mode.interruptible = false) : Waits mode s w j (.trapped sig) s (.going w)
  | interrupted {sig : ℕ} (h : mode.interruptible = true) :
      Waits mode s w j (.trapped sig) s (.interrupted sig)
  | continued (ha : w.asleep = false) (hst : j.stopped = true) (hc : mode.cmdsub = true) :
      Waits mode s w j .look (s.modifyJob w.job Job.continueStopped)
        (.going { w with status := j.scan w.status })
  | seen {s' : JobTable} {now : WaitNow} (ha : w.asleep = false)
      (hj : j.stopped = true ∨ j.running = false)
      (hc : j.stopped = true → mode.cmdsub = false)
      (h : s.jobWaitEnd mode w.job (j.scan w.status) = some (s', now)) : Waits mode s w j .look s' now
  | sleeps (ha : w.asleep = false) (hst : j.stopped = false) (hr : j.running = true) :
      Waits mode s w j .look s (.going { w with status := j.scan w.status, asleep := true })
  | reaped {pid : ℕ} {status : WaitStatus} {s' : JobTable} (ha : w.asleep = true)
      (h : s.jobSignal pid status = some s') :
      Waits mode s w j (.reaped pid status) s' (.going { w with status, asleep := false })
  | gaveUp {s' : JobTable} {now : WaitNow} (ha : w.asleep = true) (hk : w.spins ≤ 1)
      (h : s.jobWaitEnd mode w.job w.status = some (s', now)) : Waits mode s w j .nothing s' now
  | nothing (ha : w.asleep = true) (hk : 1 < w.spins) :
      Waits mode s w j .nothing s (.going { w with spins := w.spins - 1, asleep := false })

theorem waits_of_jobWait (hj : s.heap.val w.job = some j) (h : s.jobWait mode w e = some (s', now)) :
    Waits mode s w j e s' now := by
  cases e with
  | handled pid status =>
    obtain ⟨t, ht, heq⟩ := Option.map_eq_some_iff.1 h
    cases heq
    exact .handled ht
  | trapped sig =>
    cases h
    cases hi : mode.interruptible with
    | true => exact .interrupted hi
    | false => exact .trapped hi
  | look =>
    cases ha : w.asleep with
    | true => simp [JobTable.jobWait, ha] at h
    | false =>
      rw [JobTable.jobWait, if_neg (by simp [ha]), hj, Option.bind_eq_bind, Option.bind_some] at h
      dsimp only at h
      by_cases hc : (j.stopped && mode.cmdsub) = true
      · rw [if_pos hc] at h
        cases h
        rw [Bool.and_eq_true] at hc
        exact .continued ha hc.1 hc.2
      · rw [if_neg hc] at h
        by_cases hseen : (j.stopped || !j.running) = true
        · rw [if_pos hseen] at h
          refine .seen ha (by simpa using hseen) (fun hst => ?_) h
          simpa [hst] using hc
        · rw [if_neg hseen] at h
          rw [Bool.or_eq_true, not_or] at hseen
          cases h
          exact .sleeps ha (by simpa using hseen.1) (by simpa using hseen.2)
  | reaped pid status =>
    cases ha : w.asleep with
    | false => simp [JobTable.jobWait, ha] at h
    | true =>
      rw [JobTable.jobWait, if_pos ha] at h
      obtain ⟨t, ht, heq⟩ := Option.map_eq_some_iff.1 h
      cases heq
      exact .reaped ha ht
  | nothing =>
    cases ha : w.asleep with
    | false => simp [JobTable.jobWait, ha] at h
    | true =>
      rw [JobTable.jobWait, if_pos ha] at h
      split_ifs at h with hk
      · exact .gaveUp ha hk h
      · cases h
        exact .nothing ha (by omega)

theorem record_length (pid : ℕ) (status : WaitStatus) :
    ∀ ps : List Proc, (record pid status ps).length = ps.length
  | [] => rfl
  | p :: ps => by
      rw [record]
      split_ifs
      · rfl
      · rw [List.length_cons, List.length_cons, record_length pid status ps]

theorem mem_recordIn {pid : ℕ} {status : WaitStatus} : ∀ {l : List (ℕ × Job)}, (n, j) ∈ l →
    ∃ procs, (n, { j with procs }) ∈ recordIn pid status l ∧ procs.length = j.procs.length
  | x :: l, h => by
      rw [recordIn]
      rcases List.mem_cons.1 h with rfl | h
      · split_ifs
        · exact ⟨_, List.mem_cons_self .., record_length ..⟩
        · exact ⟨j.procs, List.mem_cons_self .., rfl⟩
      · split_ifs
        · exact ⟨j.procs, List.mem_cons_of_mem _ h, rfl⟩
        · obtain ⟨procs, hmem, hlen⟩ := mem_recordIn h
          exact ⟨procs, List.mem_cons_of_mem _ hmem, hlen⟩

/-- A call for a job without members has not begun. -/
def Fresh (w : Waiting) (j : Job) : Prop := j.procs = [] → w = { job := w.job }

theorem Fresh.awake (h : Fresh w j) (ha : w.asleep = true) : j.procs ≠ [] := fun hnil => by
  rw [h hnil] at ha
  exact absurd ha nofun

theorem procs_ne_nil (h : j.stopped = true ∨ j.running = true) : j.procs ≠ [] := by
  rintro hnil
  rcases h with h | h
  · rw [Job.stopped, hnil] at h
    exact absurd h nofun
  · rw [Job.running, hnil] at h
    exact absurd h nofun

/-- **The table around a call**: only the job waited for may be freed, and only when it returns. -/
theorem Waits.inOrder (hw : Waits mode s w j e s' now) (h : s.InOrder l cur) (hj : (w.job, j) ∈ l)
    (hf : Fresh w j) : ∃ l' cur', s'.InOrder l' cur' ∧ s'.subshell = s.subshell ∧
      (∀ m, m ≠ w.job → (m ∈ l'.map Prod.fst ↔ m ∈ l.map Prod.fst)) ∧
      ∀ w', now = .going w' →
        w'.job = w.job ∧ ∃ j', (w.job, j') ∈ l' ∧ Fresh w' j' ∧ j'.level = j.level := by
  have hsignal : ∀ {pid : ℕ} {status : WaitStatus} {t : JobTable}, s.jobSignal pid status = some t →
      t.InOrder (recordIn pid status l) cur ∧ t.subshell = s.subshell ∧
      (∀ m, m ≠ w.job → (m ∈ (recordIn pid status l).map Prod.fst ↔ m ∈ l.map Prod.fst)) ∧
      ∃ j', (w.job, j') ∈ recordIn pid status l ∧ (j'.procs = [] → j.procs = []) ∧
        j'.level = j.level := by
    intro pid status t ht
    obtain ⟨t', ht', hin, heap, heq⟩ := h.jobSignal_eq pid status
    obtain rfl := Option.some.inj (ht'.symm.trans ht)
    obtain ⟨procs, hmem, hlen⟩ := mem_recordIn hj
    refine ⟨hin, by rw [heq], fun m _ => by rw [fst_recordIn], _, hmem, fun hnil => ?_, rfl⟩
    dsimp only at hnil
    rw [hnil] at hlen
    exact List.length_eq_zero_iff.1 hlen.symm
  have hend : ∀ {status : WaitStatus} {now : WaitNow},
      s.jobWaitEnd mode w.job status = some (s', now) → ∃ l' cur', s'.InOrder l' cur' ∧
        s'.subshell = s.subshell ∧
        (∀ m, m ≠ w.job → (m ∈ l'.map Prod.fst ↔ m ∈ l.map Prod.fst)) ∧
        ∀ w', now = .going w' →
          w'.job = w.job ∧ ∃ j', (w.job, j') ∈ l' ∧ Fresh w' j' ∧ j'.level = j.level := by
    intro status now he
    obtain ⟨t, l', cur', ht, hin, hsub, hdone, hnot⟩ := h.jobWaitEnd hj mode status
    cases Option.some.inj (ht.symm.trans he)
    refine ⟨l', cur', hin, hsub, fun m hm => ?_, nofun⟩
    cases hd : j.done with
    | true =>
      rw [hdone hd]
      simp [hm]
    | false =>
      obtain ⟨l₁, l₂, j', rfl, rfl, -⟩ := hnot hd
      simp
  cases hw with
  | handled hs =>
    obtain ⟨hin, hsub, hkeys, j', hj', hlen, hlevel⟩ := hsignal hs
    refine ⟨_, _, hin, hsub, hkeys, fun w' hw => ?_⟩
    cases hw
    exact ⟨rfl, j', hj', fun hnil => hf (hlen hnil), hlevel⟩
  | trapped hi =>
    refine ⟨l, cur, h, rfl, fun _ _ => Iff.rfl, fun w' hw => ?_⟩
    cases hw
    exact ⟨rfl, j, hj, hf, rfl⟩
  | interrupted hi => exact ⟨l, cur, h, rfl, fun _ _ => Iff.rfl, nofun⟩
  | continued ha hst hc =>
    obtain ⟨l₁, l₂, rfl, hin, heap, heq⟩ := h.modify hj (f := Job.continueStopped) rfl
    refine ⟨_, _, hin, by rw [heq], fun m _ => by simp, fun w' hw => ?_⟩
    cases hw
    refine ⟨rfl, j.continueStopped, by simp, fun hnil => ?_, rfl⟩
    exact absurd (List.map_eq_nil_iff.1 hnil) (procs_ne_nil (.inl hst))
  | seen ha hst hc he => exact hend he
  | sleeps ha hst hr =>
    refine ⟨l, cur, h, rfl, fun _ _ => Iff.rfl, fun w' hw => ?_⟩
    cases hw
    exact ⟨rfl, j, hj, fun hnil => absurd hnil (procs_ne_nil (.inr hr)), rfl⟩
  | reaped ha hs =>
    obtain ⟨hin, hsub, hkeys, j', hj', hlen, hlevel⟩ := hsignal hs
    refine ⟨_, _, hin, hsub, hkeys, fun w' hw => ?_⟩
    cases hw
    exact ⟨rfl, j', hj', fun hnil => absurd (hlen hnil) (hf.awake ha), hlevel⟩
  | gaveUp ha hk he => exact hend he
  | nothing ha hk =>
    refine ⟨l, cur, h, rfl, fun _ _ => Iff.rfl, fun w' hw => ?_⟩
    cases hw
    exact ⟨rfl, j, hj, fun hnil => absurd hnil (hf.awake ha), rfl⟩

/-- **What a call returns**: the status of the job, unless it gave up. -/
theorem Waits.status_eq {status : WaitStatus} (hw : Waits mode s w j e s' (.returned status))
    (hin : s.InOrder l cur) (hj : (w.job, j) ∈ l) (hf : Fresh w j) :
    (e = .nothing ∧ w.spins ≤ 1) ∨ (e = .look ∧ (j.stopped = true → mode.cmdsub = false) ∧
      (j.stopped = true ∨ j.running = false) ∧ status = j.lastStatus) := by
  cases hw with
  | seen ha hst hc he =>
    obtain ⟨t₁, l', cur', ht, -⟩ := hin.jobWaitEnd hj mode (j.scan w.status)
    cases Option.some.inj (ht.symm.trans he)
    refine .inr ⟨rfl, hc, hst, Job.pipefailStatus_scan fun hnil => ?_⟩
    by_cases hp : j.procs = []
    · rw [hf hp]
    · refine absurd hnil (Job.ended_ne_nil ?_)
      rcases hst with hst | hr
      · exact .inl hst
      · exact .inr ⟨hr, hp⟩
  | gaveUp ha hk he => exact .inl ⟨rfl, hk⟩

/-! ## Finding the jobs -/

theorem InOrder.firstJob (h : s.InOrder l cur) (q : Job → Bool) :
    s.firstJob q = some ((l.find? fun x => q x.2).map Prod.fst) := h.lists.find_eq h.length_le

theorem Chain.lastJob {h : Heap Job} {ns : List ℕ} {q : ℕ → Job → Bool} : ∀ {k : ℕ} {p prev : Option ℕ},
    h.Chain p ns → ns.length ≤ k → ∃ r, lastJob q h k prev p = some r ∧ (r = prev ∨ ∃ n ∈ ns, r = some n) := by
  induction ns with
  | nil =>
    rintro k p prev rfl -
    exact ⟨prev, by cases k <;> rfl, .inl rfl⟩
  | cons n ns ih =>
    rintro k p prev ⟨rfl, c, hn, hc⟩ hk
    cases k with
    | zero => exact absurd hk (by simp)
    | succ k =>
      obtain ⟨r, hr, hmem⟩ := @ih k _ (if q n c.val then some n else prev) hc (by simpa using hk)
      refine ⟨r, by rw [JobTable.lastJob, hn, Option.bind_some, hr], ?_⟩
      rcases hmem with rfl | ⟨m, hm, rfl⟩
      · split_ifs
        · exact .inr ⟨n, List.mem_cons_self .., rfl⟩
        · exact .inl rfl
      · exact .inr ⟨m, List.mem_cons_of_mem _ hm, rfl⟩

/-- **`job_find`** finds a job of the list, or none. -/
theorem InOrder.jobFind (h : s.InOrder l cur) (str : Str) :
    ∃ r, s.jobFind str = some r ∧ ∀ n, r = some n → n ∈ l.map Prod.fst := by
  have hfirst : ∀ q : Job → Bool, ∃ r, s.firstJob q = some r ∧ ∀ n, r = some n → n ∈ l.map Prod.fst := by
    intro q
    refine ⟨_, h.firstJob q, fun n hn => ?_⟩
    obtain ⟨x, hx, rfl⟩ := Option.map_eq_some_iff.1 hn
    exact List.mem_map_of_mem (List.mem_of_find?_eq_some hx)
  unfold JobTable.jobFind
  split
  · rename_i spec
    dsimp only
    split_ifs
    · refine ⟨_, rfl, fun n hn => ?_⟩
      have hp := h.points
      rw [h.current_eq.symm.trans hn] at hp
      obtain ⟨l₁, y, l₂, rfl, rfl, -⟩ := hp
      simp
    · obtain ⟨r, hr, hmem⟩ := @Chain.lastJob s.heap _ (fun n j => some n != s.current && j.level == s.subshell) _ _ none
        h.lists.chain (by simpa using h.length_le)
      refine ⟨r, hr, fun n hn => ?_⟩
      rcases hmem with rfl | ⟨m, hm, rfl⟩
      · exact absurd hn nofun
      · exact Option.some.inj hn ▸ hm
    · exact hfirst _
    · exact hfirst _
  · dsimp only
    split_ifs
    · exact ⟨none, rfl, nofun⟩
    · exact hfirst _

end JobTable

end Shish
