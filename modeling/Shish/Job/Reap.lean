import Mathlib.Data.List.Flatten
import Shish.Job.Wait

/-!
# Job/Reap — whose status is it

Children of all jobs end in any order, and `job_wait` and the SIGCHLD handler reap them: both record
a status in the first process entry that has the pid the kernel reports.  A finished member keeps its
pid in the table, and the kernel may have given it to another child by then.  As long as no entry in
front of a child's own one has its pid when it reports, every entry says what became of its child,
and `job_wait` returns the status of the last member (`kids_right`).
-/

namespace Shish

/-! ## The model -/

/-- The shell and its children.  A child has a number of its own; `members` are the children forked
for the job at an address, `ended` is what a child terminated with, and `told` what the kernel last
reported of it. -/
structure Kids where
  table : JobTable := {}
  members : ℕ → List ℕ := fun _ => []
  pid : ℕ → ℕ := fun _ => 0
  unreaped : ℕ → Bool := fun _ => false
  ended : ℕ → Option WaitStatus := fun _ => none
  told : ℕ → Option WaitStatus := fun _ => none
  next : ℕ := 0
  call : Option (WaitMode × Waiting) := none

/-- What the shell and its children do. -/
inductive KidAct where
  | job (op : JobOp)
  | flags (n : ℕ) (bgnd pipefail : Bool)
  | resume (n : ℕ)
  | fork (n pid : ℕ)
  | ends (c : ℕ) (status : WaitStatus)
  | handled (c : ℕ) (status : WaitStatus)
  | wait (n : ℕ) (mode : WaitMode)
  | look
  | reaped (c : ℕ) (status : WaitStatus)
  | nothing
  | trapped (sig : ℕ)

namespace Kids

/-- The kernel reports that a child stopped, or what it terminated with. -/
def canReport (s : Kids) (c : ℕ) (status : WaitStatus) : Bool :=
  s.unreaped c && if status.isStopped then (s.ended c).isNone else s.ended c == some status

/-- A child was reported; it is reaped when it terminated. -/
def report (s : Kids) (c : ℕ) (status : WaitStatus) : Kids := { s with
  unreaped := Function.update s.unreaped c status.isStopped
  told := Function.update s.told c (some status) }

/-- The stopped members of a job were continued. -/
def continued (s : Kids) (n : ℕ) : Kids := { s with
  told := fun c => if c ∈ s.members n ∧ (s.told c).any WaitStatus.isStopped then none else s.told c }

/-- What the act is for the call of `job_wait`. -/
def event (s : Kids) : KidAct → Option WaitEvent
  | .handled c status => if s.canReport c status then some (.handled (s.pid c) status) else none
  | .reaped c status => if s.canReport c status then some (.reaped (s.pid c) status) else none
  | .look => some .look
  | .nothing => some .nothing
  | .trapped sig => some (.trapped sig)
  | _ => none

/-- What the kernel has told behind the act. -/
def behind (s : Kids) : KidAct → Kids
  | .handled c status => s.report c status
  | .reaped c status => s.report c status
  | .look =>
      match s.call with
      | some (mode, w) =>
          if mode.cmdsub && (s.table.heap.val w.job).any Job.stopped then s.continued w.job else s
      | none => s
  | _ => s

/-- Some child that was not reaped has that pid. -/
def taken (s : Kids) (pid : ℕ) : Bool := (List.range s.next).any fun c => s.unreaped c && s.pid c == pid

/-- A child more, for the job at `n`. -/
def addChild (s : Kids) (n pid : ℕ) : Kids := { s with
  members := Function.update s.members n (s.members n ++ [s.next])
  pid := Function.update s.pid s.next pid
  unreaped := Function.update s.unreaped s.next true
  ended := Function.update s.ended s.next none
  told := Function.update s.told s.next none
  next := s.next + 1 }

/-- `job_fork` in the parent: the first entry without a pid is the child's. -/
def jobFork (s : Kids) (n pid : ℕ) : Option Kids := do
  let j ← s.table.heap.val n
  let index ← j.procs.findIdx? (·.pid == 0)
  some { s.addChild n pid with
    table := s.table.modifyJob n fun j => { j with procs := j.procs.set index { pid } } }

/-- The table changes by a job function; a new job has no members yet. -/
def jobOp (s : Kids) : JobOp → Option Kids
  | .signal _ _ => none
  | .new n nproc => (jobStep s.table (.new n nproc)).map fun t =>
      { s with table := t, members := Function.update s.members n [] }
  | op => (jobStep s.table op).map fun t => { s with table := t }

/-- The call of `job_wait` goes on, or is over. -/
def afterWait (s : Kids) (mode : WaitMode) (r : JobTable × WaitNow) : Kids :=
  match r.2 with
  | .going w => { s with table := r.1, call := some (mode, w) }
  | _ => { s with table := r.1, call := none }

/-- A child terminates. -/
def endChild (s : Kids) (c : ℕ) (status : WaitStatus) : Option Kids :=
  if s.unreaped c && (s.ended c).isNone && !status.isStopped then
    some { s with ended := Function.update s.ended c (some status) }
  else none

/-- A step of the shell outside of `job_wait`. -/
def idleStep (s : Kids) : KidAct → Option Kids
  | .job op => s.jobOp op
  | .flags n bgnd pipefail =>
      if (s.table.heap n).isSome then
        some { s with table := s.table.modifyJob n fun j => { j with bgnd, pipefail } }
      else none
  | .resume n =>
      if (s.table.heap n).isSome then some { s.continued n with table := s.table.jobResume n } else none
  | .fork n pid => if pid = 0 ∨ s.taken pid then none else s.jobFork n pid
  | .ends c status => s.endChild c status
  | .handled c status =>
      if s.canReport c status then
        (s.table.jobSignal (s.pid c) status).map fun t => { s.report c status with table := t }
      else none
  | .wait n mode =>
      if (s.table.heap n).isSome then some { s with call := some (mode, { job := n }) } else none
  | _ => none

/-- A step inside of `job_wait`: the shell does nothing else then but handle SIGCHLD. -/
def waitStep (s : Kids) (mode : WaitMode) (w : Waiting) : KidAct → Option Kids
  | .ends c status => s.endChild c status
  | act => do
      let e ← s.event act
      (s.table.jobWait mode w e).map ((s.behind act).afterWait mode)

end Kids

/-- A step. -/
def kidStep (s : Kids) (act : KidAct) : Option Kids :=
  match s.call with
  | some (mode, w) => s.waitStep mode w act
  | none => s.idleStep act

/-! ## What should hold -/

/-- What a job reports whose members terminated with these statuses. -/
def reportOf (pipefail : Bool) (sts : List WaitStatus) : WaitStatus :=
  (if pipefail then (sts.filter fun st => st.code != 0).getLast?.or sts.getLast?
    else sts.getLast?).getD (.exited 0)

namespace Kids

open JobTable

variable {s s' : Kids} {l l₁ l₂ : List (ℕ × Job)} {cur cur' : Option ℕ} {t : JobTable} {n c : ℕ} {j : Job}
  {x : ℕ × Job} {status : WaitStatus} {act : KidAct}

/-- The entry of a child. -/
def entry (s : Kids) (c : ℕ) : Proc := { pid := s.pid c, status := s.told c }

/-- **The processes of a job are its children**, each with what was last reported of it; then come
those that are still to be forked. -/
def Recorded (s : Kids) (n : ℕ) (j : Job) : Prop :=
  ∃ k, j.procs = (s.members n).map s.entry ++ List.replicate k ({} : Proc)

/-- All members of the job were forked and have terminated. -/
def AllEnded (s : Kids) (n : ℕ) (j : Job) : Prop :=
  j.procs.length = (s.members n).length ∧ ∀ c ∈ s.members n, (s.ended c).isSome

/-- **What a step should do**: every status stands in the entry of its child, and a call for a job
whose members have all terminated returns what they terminated with. -/
def RightStep (s : Kids) (act : KidAct) : Prop := ∀ s', kidStep s act = some s' →
  (∀ n j, s'.table.heap.val n = some j → s'.Recorded n j) ∧
  ∀ mode w e t status j, s.call = some (mode, w) → s.event act = some e →
    s.table.heap.val w.job = some j → s.table.jobWait mode w e = some (t, .returned status) →
    s.AllEnded w.job j → status = reportOf j.pipefail ((s.members w.job).filterMap s.ended)

/-- The children whose entries stand in front of the child's own one; all when it has none. -/
def inFront (s : Kids) (c : ℕ) : List ℕ :=
  (((s.table.heap.nodes s.table.top s.table.jobList).getD []).flatMap s.members).takeWhile (· != c)

/-- **When it goes well**: no entry in front of a child's own one has its pid when it is reported, and
`job_wait` neither gives up nor finds a stop on record when all members have terminated. -/
def Unmistaken (s : Kids) : KidAct → Prop
  | .handled c _ => ∀ d ∈ s.inFront c, s.pid d ≠ s.pid c
  | .reaped c _ => ∀ d ∈ s.inFront c, s.pid d ≠ s.pid c
  | .look => ∀ mw ∈ s.call, ∀ j ∈ s.table.heap.val mw.2.job,
      j.stopped = true → mw.1.cmdsub = false → ¬ s.AllEnded mw.2.job j
  | .nothing => ∀ mw ∈ s.call, ∀ j ∈ s.table.heap.val mw.2.job,
      mw.2.spins ≤ 1 → ¬ s.AllEnded mw.2.job j
  | _ => True

instance (s : Kids) (n : ℕ) (j : Job) : Decidable (s.AllEnded n j) :=
  inferInstanceAs (Decidable (_ ∧ _))

instance (s : Kids) : ∀ act, Decidable (s.Unmistaken act)
  | .handled c _ => inferInstanceAs (Decidable (∀ d ∈ s.inFront c, s.pid d ≠ s.pid c))
  | .reaped c _ => inferInstanceAs (Decidable (∀ d ∈ s.inFront c, s.pid d ≠ s.pid c))
  | .look => inferInstanceAs (Decidable (∀ mw ∈ s.call, ∀ j ∈ s.table.heap.val mw.2.job,
      j.stopped = true → mw.1.cmdsub = false → ¬ s.AllEnded mw.2.job j))
  | .nothing => inferInstanceAs (Decidable (∀ mw ∈ s.call, ∀ j ∈ s.table.heap.val mw.2.job,
      mw.2.spins ≤ 1 → ¬ s.AllEnded mw.2.job j))
  | .job _ => isTrue trivial
  | .flags _ _ _ => isTrue trivial
  | .resume _ => isTrue trivial
  | .fork _ _ => isTrue trivial
  | .ends _ _ => isTrue trivial
  | .wait _ _ => isTrue trivial
  | .trapped _ => isTrue trivial

/-! ## Reports -/

theorem entry_report_of_ne {d : ℕ} (h : d ≠ c) : (s.report c status).entry d = s.entry d :=
  congrArg (Proc.mk (s.pid d)) (Function.update_of_ne h ..)

theorem entry_report_self : (s.report c status).entry c = { s.entry c with status := some status } :=
  congrArg (Proc.mk (s.pid c)) (Function.update_self ..)

theorem entries_report_of_notMem {ms : List ℕ} (h : c ∉ ms) :
    ms.map (s.report c status).entry = ms.map s.entry :=
  List.map_congr_left fun _ hd => entry_report_of_ne (ne_of_mem_of_not_mem hd h)

/-- A report in the entries of a job goes to the child's own when none in front has its pid. -/
theorem record_entries {k : ℕ} : ∀ {ms : List ℕ}, ms.Nodup → c ∈ ms →
    (∀ d ∈ ms.takeWhile (· != c), s.pid d ≠ s.pid c) →
    record (s.pid c) status (ms.map s.entry ++ List.replicate k ({} : Proc)) =
      ms.map (s.report c status).entry ++ List.replicate k ({} : Proc)
  | d :: ms, hnd, hc, hfront => by
      rw [List.nodup_cons] at hnd
      rw [List.map_cons, List.map_cons, List.cons_append, List.cons_append, record]
      by_cases hdc : d = c
      · subst hdc
        rw [if_pos (by simp [entry]), entry_report_self, entries_report_of_notMem hnd.1]
      · rw [List.takeWhile_cons_of_pos (by simpa using hdc), List.forall_mem_cons] at hfront
        rw [if_neg (by simpa [entry] using hfront.1), entry_report_of_ne hdc,
          record_entries hnd.2 ((List.mem_cons.1 hc).resolve_left (Ne.symm hdc)) hfront.2]

/-- The entries of other children do not have the pid. -/
theorem entries_any {k : ℕ} {ms : List ℕ} (hpos : 0 < s.pid c) (h : ∀ d ∈ ms, s.pid d ≠ s.pid c) :
    ((ms.map s.entry ++ List.replicate k ({} : Proc)).any fun p => p.pid == s.pid c) = false := by
  refine List.any_eq_false.2 fun p hp => ?_
  rcases List.mem_append.1 hp with hp | hp
  · obtain ⟨d, hd, rfl⟩ := List.mem_map.1 hp
    simpa [entry] using h d hd
  · rw [List.eq_of_mem_replicate hp]
    simpa using (Nat.ne_of_lt hpos)

/-- **A report finds the child's own entry** when none in front has its pid. -/
theorem recorded_recordIn (hpos : 0 < s.pid c) : ∀ {l : List (ℕ × Job)},
    (∀ x ∈ l, s.Recorded x.1 x.2) → (l.flatMap fun x => s.members x.1).Nodup →
    (∀ d ∈ (l.flatMap fun x => s.members x.1).takeWhile (· != c), s.pid d ≠ s.pid c) →
    ∀ x ∈ recordIn (s.pid c) status l, (s.report c status).Recorded x.1 x.2
  | [], _, _, _ => nofun
  | x :: l, hrec, hnd, hfront => by
      rw [List.forall_mem_cons] at hrec
      obtain ⟨⟨k, hk⟩, hrec⟩ := hrec
      rw [List.flatMap_cons, List.nodup_append'] at hnd
      rw [List.flatMap_cons] at hfront
      rw [recordIn, hk]
      by_cases hc : c ∈ s.members x.1
      · have hfront' : ∀ d ∈ (s.members x.1).takeWhile (· != c), s.pid d ≠ s.pid c := by
          intro d hd
          refine hfront d ?_
          rw [List.takeWhile_append]
          split_ifs
          · exact List.mem_append_left _ ((List.takeWhile_sublist _).subset hd)
          · exact hd
        rw [if_pos ?_, List.forall_mem_cons]
        · refine ⟨⟨k, record_entries hnd.1 hc hfront'⟩, fun y hy => ?_⟩
          obtain ⟨k', hk'⟩ := hrec y hy
          refine ⟨k', ?_⟩
          have hnot : c ∉ s.members y.1 := fun hmem =>
            hnd.2.2 hc (List.mem_flatMap.2 ⟨y, hy, hmem⟩)
          rw [hk', show (s.report c status).members y.1 = s.members y.1 from rfl,
            entries_report_of_notMem hnot]
        · refine List.any_eq_true.2 ⟨s.entry c, ?_, by simp [entry]⟩
          exact List.mem_append_left _ (List.mem_map_of_mem hc)
      · have hall : ∀ d ∈ s.members x.1, (d != c) = true := fun d hd => by
          simpa using ne_of_mem_of_not_mem hd hc
        rw [List.takeWhile_append_of_pos hall] at hfront
        rw [if_neg (by simp [entries_any hpos fun d hd => hfront d (List.mem_append_left _ hd)]),
          List.forall_mem_cons]
        refine ⟨⟨k, ?_⟩, recorded_recordIn hpos hrec hnd.2.1 fun d hd =>
          hfront d (List.mem_append_right _ hd)⟩
        rw [hk, show (s.report c status).members x.1 = s.members x.1 from rfl, entries_report_of_notMem hc]

/-! ## The books -/

/-- **The table and its children agree.** -/
structure Books (s : Kids) (l : List (ℕ × Job)) (cur : Option ℕ) : Prop where
  inOrder : s.table.InOrder l cur
  recorded : ∀ x ∈ l, s.Recorded x.1 x.2
  distinct : (l.flatMap fun x => s.members x.1).Nodup
  known : ∀ x ∈ l, ∀ c ∈ s.members x.1, c < s.next
  pids : ∀ c < s.next, 0 < s.pid c
  young : ∀ c, s.unreaped c = true → c < s.next
  told : ∀ c st, s.told c = some st → st.isStopped = false → s.ended c = some st

namespace Books

/-- Jobs are freed. -/
theorem filter (h : s.Books l cur) {q : ℕ × Job → Bool} (hin : t.InOrder (l.filter q) cur') :
    Books { s with table := t } (l.filter q) cur' where
  inOrder := hin
  recorded x hx := h.recorded x (List.mem_filter.1 hx).1
  distinct := h.distinct.sublist (List.filter_sublist.flatMap _)
  known x hx := h.known x (List.mem_filter.1 hx).1
  pids := h.pids
  young := h.young
  told := h.told

/-- A job changes, and keeps its processes. -/
theorem replace (h : s.Books (l₁ ++ (n, j) :: l₂) cur) {j' : Job}
    (hin : t.InOrder (l₁ ++ (n, j') :: l₂) cur') (hp : j'.procs = j.procs) :
    Books { s with table := t } (l₁ ++ (n, j') :: l₂) cur' := by
  have hback : ∀ x ∈ l₁ ++ (n, j') :: l₂, ∃ x' ∈ l₁ ++ (n, j) :: l₂, x'.1 = x.1 ∧ x'.2.procs = x.2.procs := by
    intro x hx
    rcases List.mem_append.1 hx with hx | hx
    · exact ⟨x, List.mem_append_left _ hx, rfl, rfl⟩
    · rcases List.mem_cons.1 hx with rfl | hx
      · exact ⟨(n, j), by simp, rfl, hp.symm⟩
      · exact ⟨x, by simp [hx], rfl, rfl⟩
  refine ⟨hin, fun x hx => ?_, ?_, fun x hx => ?_, h.pids, h.young, h.told⟩
  · obtain ⟨x', hx', hkey, hprocs⟩ := hback x hx
    obtain ⟨k, hk⟩ := h.recorded x' hx'
    refine ⟨k, ?_⟩
    rw [← hprocs, hk, hkey]
    rfl
  · have hd := h.distinct
    rw [List.flatMap_append, List.flatMap_cons] at hd ⊢
    exact hd
  · obtain ⟨x', hx', hkey, -⟩ := hback x hx
    rw [← hkey]
    exact h.known x' hx'

/-- A child is reported, with no other entry of its pid in front of its own. -/
theorem report (h : s.Books l cur) (hcan : s.canReport c status = true)
    (hfront : ∀ d ∈ s.inFront c, s.pid d ≠ s.pid c)
    (hin : t.InOrder (recordIn (s.pid c) status l) cur) :
    Books { s.report c status with table := t } (recordIn (s.pid c) status l) cur := by
  have hnodes : s.table.heap.nodes s.table.top s.table.jobList = some (l.map Prod.fst) :=
    h.inOrder.lists.chain.nodes_eq (by simpa using h.inOrder.length_le)
  have hkeys : ∀ l : List (ℕ × Job), (l.flatMap fun x => s.members x.1) = (l.map Prod.fst).flatMap s.members :=
    fun l => (List.flatMap_map ..).symm
  rw [canReport, Bool.and_eq_true] at hcan
  refine ⟨hin, ?_, ?_, fun x hx => ?_, h.pids, fun d hd => ?_, fun d st hd hst => ?_⟩
  · refine recorded_recordIn (h.pids c (h.young c hcan.1)) h.recorded h.distinct ?_
    rw [inFront, hnodes] at hfront
    rw [hkeys]
    exact hfront
  · change ((recordIn (s.pid c) status l).flatMap fun x => s.members x.1).Nodup
    rw [hkeys, fst_recordIn, ← hkeys]
    exact h.distinct
  · have hmem : x.1 ∈ l.map Prod.fst := fst_recordIn (s.pid c) status l ▸ List.mem_map_of_mem hx
    obtain ⟨y, hy, hyx⟩ := List.mem_map.1 hmem
    rw [← hyx]
    exact h.known y hy
  · by_cases hdc : d = c
    · rw [hdc]
      exact h.young c hcan.1
    · refine h.young d ?_
      rwa [show ({ s.report c status with table := t } : Kids).unreaped d = s.unreaped d from
        Function.update_of_ne hdc ..] at hd
  · by_cases hdc : d = c
    · subst hdc
      rw [show ({ s.report d status with table := t } : Kids).told d = some status from
        Function.update_self ..] at hd
      obtain rfl := Option.some.inj hd
      have hend := hcan.2
      rw [if_neg (by simp [hst])] at hend
      exact eq_of_beq hend
    · rw [show ({ s.report c status with table := t } : Kids).told d = s.told d from
        Function.update_of_ne hdc ..] at hd
      exact h.told d st hd hst

/-- What is known of the members of a job that was continued. -/
theorem entry_continued {d : ℕ} (hd : d ∈ s.members n) : (s.continued n).entry d =
    if (s.entry d).status.any WaitStatus.isStopped then { s.entry d with status := none } else s.entry d := by
  unfold entry Kids.continued
  dsimp only
  by_cases hst : (s.told d).any WaitStatus.isStopped = true
  · rw [if_pos ⟨hd, hst⟩, if_pos hst]
  · rw [if_neg (fun h => hst h.2), if_neg hst]

theorem entry_continued_of_notMem {d : ℕ} (hd : d ∉ s.members n) : (s.continued n).entry d = s.entry d :=
  congrArg (Proc.mk (s.pid d)) (if_neg fun h => hd h.1)

/-- The stopped members of a job are continued. -/
theorem continued (h : s.Books (l₁ ++ (n, j) :: l₂) cur) {j' : Job}
    (hin : t.InOrder (l₁ ++ (n, j') :: l₂) cur') (hp : j'.procs = j.continueStopped.procs) :
    Books { s.continued n with table := t } (l₁ ++ (n, j') :: l₂) cur' := by
  have hd := h.distinct
  rw [List.flatMap_append, List.flatMap_cons] at hd
  have hother : ∀ x ∈ l₁ ++ l₂, ∀ d ∈ s.members x.1, d ∉ s.members n := by
    intro x hx d hdx hdn
    rw [List.nodup_append', List.nodup_append'] at hd
    rcases List.mem_append.1 hx with hx | hx
    · exact hd.2.2 (List.mem_flatMap.2 ⟨x, hx, hdx⟩) (List.mem_append_left _ hdn)
    · exact hd.2.1.2.2 hdn (List.mem_flatMap.2 ⟨x, hx, hdx⟩)
  have hrest : ∀ x ∈ l₁ ++ l₂, Recorded { s.continued n with table := t } x.1 x.2 := by
    intro x hx
    obtain ⟨k, hk⟩ := h.recorded x (by
      rcases List.mem_append.1 hx with hx | hx
      · exact List.mem_append_left _ hx
      · simp [hx])
    refine ⟨k, hk.trans ?_⟩
    congr 1
    exact List.map_congr_left fun d hdx => (entry_continued_of_notMem (hother x hx d hdx)).symm
  refine ⟨hin, fun x hx => ?_, ?_, fun x hx => ?_, h.pids, h.young, fun d st hd hst => ?_⟩
  · rcases List.mem_append.1 hx with hx | hx
    · exact hrest x (List.mem_append_left _ hx)
    · rcases List.mem_cons.1 hx with rfl | hx
      · obtain ⟨k, hk⟩ := h.recorded (n, j) (by simp)
        refine ⟨k, ?_⟩
        dsimp only at hk ⊢
        rw [hp]
        unfold Job.continueStopped
        dsimp only
        rw [hk, List.map_append, List.map_replicate, List.map_map]
        congr 1
        exact List.map_congr_left fun d hdn => (entry_continued hdn).symm
      · exact hrest x (List.mem_append_right _ hx)
  · rw [List.flatMap_append, List.flatMap_cons]
    exact hd
  · rcases List.mem_append.1 hx with hx | hx
    · exact h.known x (List.mem_append_left _ hx)
    · rcases List.mem_cons.1 hx with rfl | hx
      · exact h.known (n, j) (by simp)
      · exact h.known x (by simp [hx])
  · change (if d ∈ s.members n ∧ (s.told d).any WaitStatus.isStopped then none else s.told d) = some st at hd
    split_ifs at hd
    exact h.told d st hd hst

/-- A child ends. -/
theorem ends (h : s.Books l cur) (hrun : (s.ended c).isNone) :
    Books { s with ended := Function.update s.ended c (some status) } l cur := by
  refine ⟨h.inOrder, h.recorded, h.distinct, h.known, h.pids, h.young, fun d st hd hst => ?_⟩
  have hend := h.told d st hd hst
  by_cases hdc : d = c
  · rw [← hdc, hend] at hrun
    exact absurd hrun nofun
  · exact (Function.update_of_ne hdc ..).trans hend

/-- A new job has no members. -/
theorem new (h : s.Books (l₁ ++ l₂) cur) (hn : n ∉ (l₁ ++ l₂).map Prod.fst) {nproc : ℕ}
    (hp : j.procs = List.replicate nproc {}) (hin : t.InOrder (l₁ ++ (n, j) :: l₂) cur') :
    Books { s with table := t, members := Function.update s.members n [] } (l₁ ++ (n, j) :: l₂) cur' := by
  have hother : ∀ x ∈ l₁ ++ l₂, Function.update s.members n [] x.1 = s.members x.1 := fun x hx =>
    Function.update_of_ne (fun heq => hn (List.mem_map.2 ⟨x, hx, heq⟩)) ..
  have hself : Function.update s.members n [] n = [] := Function.update_self ..
  have hsplit : ∀ x ∈ l₁ ++ (n, j) :: l₂, x = (n, j) ∨ x ∈ l₁ ++ l₂ := by
    intro x hx
    rcases List.mem_append.1 hx with hx | hx
    · exact .inr (List.mem_append_left _ hx)
    · exact (List.mem_cons.1 hx).imp_right fun hx => List.mem_append_right _ hx
  refine ⟨hin, fun x hx => ?_, ?_, fun x hx => ?_, h.pids, h.young, h.told⟩
  · rcases hsplit x hx with rfl | hx
    · refine ⟨nproc, ?_⟩
      rw [show ({ s with table := t, members := Function.update s.members n [] } : Kids).members n = [] from
        hself]
      exact hp
    · obtain ⟨k, hk⟩ := h.recorded x hx
      refine ⟨k, hk.trans ?_⟩
      rw [show ({ s with table := t, members := Function.update s.members n [] } : Kids).members x.1 =
        s.members x.1 from hother x hx]
      rfl
  · have hmap : ∀ l : List (ℕ × Job), (∀ x ∈ l, x ∈ l₁ ++ l₂) →
        (l.flatMap fun x => Function.update s.members n [] x.1) = l.flatMap fun x => s.members x.1 :=
      fun l hl => by
        rw [List.flatMap_def, List.flatMap_def, List.map_congr_left fun x hx => hother x (hl x hx)]
    change ((l₁ ++ (n, j) :: l₂).flatMap fun x => Function.update s.members n [] x.1).Nodup
    rw [List.flatMap_append, List.flatMap_cons, hself, List.nil_append, hmap l₁ (by simp +contextual),
      hmap l₂ (by simp +contextual), ← List.flatMap_append]
    exact h.distinct
  · rcases hsplit x hx with rfl | hx
    · intro c hc
      rw [show ({ s with table := t, members := Function.update s.members n [] } : Kids).members n = [] from
        hself] at hc
      exact absurd hc List.not_mem_nil
    · rw [show ({ s with table := t, members := Function.update s.members n [] } : Kids).members x.1 =
        s.members x.1 from hother x hx]
      exact h.known x hx

/-- **The entry `job_fork` takes** is the one behind the members. -/
theorem forkIndex (h : s.Books l cur) (hj : (n, j) ∈ l) {index : ℕ}
    (hi : j.procs.findIdx? (·.pid == 0) = some index) (pid : ℕ) : ∃ k,
      j.procs.set index { pid } = (s.members n).map s.entry ++ { pid } :: List.replicate k ({} : Proc) := by
  obtain ⟨k, hk⟩ := h.recorded (n, j) hj
  dsimp only at hk
  have hnone : ((s.members n).map s.entry).findIdx? (·.pid == 0) = none :=
    List.findIdx?_eq_none_iff.2 fun p hp => by
      obtain ⟨d, hd, rfl⟩ := List.mem_map.1 hp
      have := h.pids d (h.known (n, j) hj d hd)
      simpa [entry] using (Nat.ne_of_gt this)
  rw [hk, List.findIdx?_append, hnone, Option.none_or] at hi
  cases k with
  | zero => exact absurd hi nofun
  | succ k =>
    have hidx : index = ((s.members n).map s.entry).length := by
      rw [List.replicate_succ, List.findIdx?_cons] at hi
      simpa using hi.symm
    refine ⟨k, ?_⟩
    rw [hk, hidx, List.set_append_right _ _ (Nat.le_refl _), Nat.sub_self, List.replicate_succ,
      List.set_cons_zero]

theorem entry_addChild (n pid : ℕ) {d : ℕ} (hd : d < s.next) : (s.addChild n pid).entry d = s.entry d := by
  have hpid : (s.addChild n pid).pid d = s.pid d := Function.update_of_ne (Nat.ne_of_lt hd) ..
  have htold : (s.addChild n pid).told d = s.told d := Function.update_of_ne (Nat.ne_of_lt hd) ..
  rw [entry, entry, hpid, htold]

theorem entry_addChild_next (n pid : ℕ) : (s.addChild n pid).entry s.next = { pid } := by
  have hpid : (s.addChild n pid).pid s.next = pid := Function.update_self ..
  have htold : (s.addChild n pid).told s.next = none := Function.update_self ..
  rw [entry, hpid, htold]

theorem members_addChild (n pid : ℕ) : (s.addChild n pid).members n = s.members n ++ [s.next] :=
  Function.update_self ..

theorem members_addChild_of_ne (pid : ℕ) {m : ℕ} (hm : m ≠ n) :
    (s.addChild n pid).members m = s.members m := Function.update_of_ne hm ..

/-- A child more is a member more. -/
theorem recorded_addChild (h : s.Books l cur) (hj : (n, j) ∈ l) {pid k : ℕ} {j' : Job}
    (hp : j'.procs = (s.members n).map s.entry ++ { pid } :: List.replicate k ({} : Proc)) :
    (s.addChild n pid).Recorded n j' := by
  refine ⟨k, hp.trans ?_⟩
  rw [members_addChild, List.map_append, List.map_singleton, entry_addChild_next, List.append_assoc,
    List.singleton_append]
  congr 1
  exact List.map_congr_left fun d hd => (entry_addChild n pid (h.known (n, j) hj d hd)).symm

theorem recorded_addChild_of_ne (h : s.Books l cur) (hx : x ∈ l) (hne : x.1 ≠ n) (pid : ℕ) :
    (s.addChild n pid).Recorded x.1 x.2 := by
  obtain ⟨k, hk⟩ := h.recorded x hx
  refine ⟨k, hk.trans ?_⟩
  rw [members_addChild_of_ne pid hne]
  congr 1
  exact List.map_congr_left fun d hd => (entry_addChild n pid (h.known x hx d hd)).symm

theorem distinct_addChild (h : s.Books (l₁ ++ (n, j) :: l₂) cur) (pid : ℕ) (j' : Job) :
    ((l₁ ++ (n, j') :: l₂).flatMap fun x => (s.addChild n pid).members x.1).Nodup := by
  have hnd := h.inOrder.lists.nodup
  rw [List.map_append, List.map_cons, List.nodup_middle, List.nodup_cons, ← List.map_append] at hnd
  have hmap : ∀ l : List (ℕ × Job), (∀ x ∈ l, x ∈ l₁ ++ l₂) →
      (l.flatMap fun x => (s.addChild n pid).members x.1) = l.flatMap fun x => s.members x.1 := by
    intro l hl
    rw [List.flatMap_def, List.flatMap_def, List.map_congr_left fun x hx => ?_]
    exact members_addChild_of_ne pid fun heq => hnd.1 (List.mem_map.2 ⟨x, hl x hx, heq⟩)
  have hfresh : s.next ∉ (l₁ ++ (n, j) :: l₂).flatMap fun x => s.members x.1 := fun hmem => by
    obtain ⟨x, hx, hc⟩ := List.mem_flatMap.1 hmem
    exact Nat.lt_irrefl _ (h.known x hx _ hc)
  have hd := h.distinct
  rw [List.flatMap_append, List.flatMap_cons] at hd hfresh ⊢
  rw [members_addChild, hmap l₁ (by simp +contextual), hmap l₂ (by simp +contextual), List.append_assoc,
    List.singleton_append, ← List.append_assoc, List.nodup_middle, List.nodup_cons, List.append_assoc]
  exact ⟨hfresh, hd⟩

/-- **A child is forked.** -/
theorem fork (h : s.Books l cur) {pid : ℕ} (hpid : 0 < pid) (hfork : s.jobFork n pid = some s') :
    ∃ l', s'.Books l' cur ∧ s'.call = s.call := by
  obtain ⟨j, hv, hfork⟩ := Option.bind_eq_some_iff.1 hfork
  obtain ⟨index, hi, hfork⟩ := Option.bind_eq_some_iff.1 hfork
  have hj := h.inOrder.val_eq.1 hv
  obtain ⟨k, hset⟩ := h.forkIndex hj hi pid
  obtain ⟨l₁, l₂, rfl, hin, -⟩ := h.inOrder.modify hj
    (f := fun j => { j with procs := j.procs.set index { pid } }) rfl
  obtain rfl := Option.some.inj hfork
  have hsplit : ∀ x ∈ l₁ ++ (n, { j with procs := j.procs.set index { pid } }) :: l₂,
      x = (n, { j with procs := j.procs.set index { pid } }) ∨ (x ∈ l₁ ++ (n, j) :: l₂ ∧ x.1 ≠ n) := by
    have hnd := h.inOrder.lists.nodup
    rw [List.map_append, List.map_cons, List.nodup_middle, List.nodup_cons, ← List.map_append] at hnd
    intro x hx
    rcases List.mem_append.1 hx with hx | hx
    · exact .inr ⟨List.mem_append_left _ hx, fun heq =>
        hnd.1 (List.mem_map.2 ⟨x, List.mem_append_left _ hx, heq⟩)⟩
    · exact (List.mem_cons.1 hx).imp_right fun hx => ⟨by simp [hx], fun heq =>
        hnd.1 (List.mem_map.2 ⟨x, List.mem_append_right _ hx, heq⟩)⟩
  refine ⟨l₁ ++ (n, { j with procs := j.procs.set index { pid } }) :: l₂, ⟨hin, fun x hx => ?_,
    h.distinct_addChild pid _, fun x hx d hd => ?_, fun d hd => ?_, fun d hd => ?_, fun d st hd hst => ?_⟩, rfl⟩
  · rcases hsplit x hx with rfl | ⟨hx, hne⟩
    · exact h.recorded_addChild hj hset
    · exact h.recorded_addChild_of_ne hx hne pid
  · change d ∈ (s.addChild n pid).members x.1 at hd
    rcases hsplit x hx with rfl | ⟨hx, hne⟩
    · rw [members_addChild] at hd
      rcases List.mem_append.1 hd with hd | hd
      · exact Nat.lt_succ_of_lt (h.known (n, j) hj d hd)
      · rw [List.mem_singleton.1 hd]
        exact Nat.lt_succ_self _
    · rw [members_addChild_of_ne pid hne] at hd
      exact Nat.lt_succ_of_lt (h.known x hx d hd)
  · change 0 < Function.update s.pid s.next pid d
    by_cases hdn : d = s.next
    · rwa [hdn, Function.update_self]
    · rw [Function.update_of_ne hdn]
      exact h.pids d (Nat.lt_of_le_of_ne (Nat.le_of_lt_succ hd) hdn)
  · change Function.update s.unreaped s.next true d = true at hd
    by_cases hdn : d = s.next
    · rw [hdn]
      exact Nat.lt_succ_self _
    · rw [Function.update_of_ne hdn] at hd
      exact Nat.lt_succ_of_lt (h.young d hd)
  · change Function.update s.told s.next none d = some st at hd
    change Function.update s.ended s.next none d = some st
    by_cases hdn : d = s.next
    · rw [hdn, Function.update_self] at hd
      exact absurd hd nofun
    · rw [Function.update_of_ne hdn] at hd ⊢
      exact h.told d st hd hst

/-- The jobs stay. -/
theorem retable (h : s.Books l cur) (hin : t.InOrder l cur') : Books { s with table := t } l cur' :=
  ⟨hin, h.recorded, h.distinct, h.known, h.pids, h.young, h.told⟩

/-- **The job functions keep the books.** -/
theorem jobOp (h : s.Books l cur) {op : JobOp} (hop : s.jobOp op = some s') :
    ∃ l' cur', s'.Books l' cur' ∧ s'.call = s.call := by
  cases op with
  | new n nproc =>
    obtain ⟨t, ht, rfl⟩ := Option.map_eq_some_iff.1 hop
    rw [jobStep] at ht
    split_ifs at ht with hlive
    obtain ⟨t', j, l₁, l₂, hnew, rfl, hin, hp, -⟩ := h.inOrder.jobNew hlive nproc
    obtain rfl := Option.some.inj (hnew.symm.trans ht)
    exact ⟨_, _, h.new (fun hmem => hlive (h.inOrder.isSome_iff.2 hmem)) hp hin, rfl⟩
  | free n =>
    obtain ⟨t, ht, rfl⟩ := Option.map_eq_some_iff.1 hop
    obtain ⟨t', cur', hfree, hin, -⟩ := h.inOrder.jobFree n
    obtain rfl := Option.some.inj (hfree.symm.trans ht)
    exact ⟨_, _, h.filter hin, rfl⟩
  | clean =>
    obtain ⟨t, ht, rfl⟩ := Option.map_eq_some_iff.1 hop
    obtain ⟨t', cur', hfree, hin, -⟩ := h.inOrder.freeAll_list Job.done
    obtain rfl := Option.some.inj (hfree.symm.trans ht)
    exact ⟨_, _, h.filter hin, rfl⟩
  | discard level =>
    obtain ⟨t, ht, rfl⟩ := Option.map_eq_some_iff.1 hop
    obtain ⟨t', cur', hfree, hin, -⟩ := h.inOrder.freeAll_list fun j => decide (level < j.level)
    obtain rfl := Option.some.inj (hfree.symm.trans ht)
    exact ⟨_, _, h.filter hin, rfl⟩
  | setcurrent n =>
    obtain ⟨t, ht, rfl⟩ := Option.map_eq_some_iff.1 hop
    obtain ⟨t', hset, hin⟩ := h.inOrder.jobSetcurrent n
    obtain rfl := Option.some.inj (hset.symm.trans ht)
    exact ⟨l, _, h.retable hin, rfl⟩
  | signal pid status => cases hop
  | subshell level =>
    obtain rfl := Option.some.inj hop
    have hin := h.inOrder
    exact ⟨l, cur, h.retable ⟨hin.lists, hin.ascending, hin.positive, hin.live, hin.top, hin.points⟩, rfl⟩

/-- The end of a wait keeps the books. -/
theorem jobWaitEnd (h : s.Books l cur) {mode : WaitMode} {now : WaitNow} (hj : (n, j) ∈ l)
    (he : s.table.jobWaitEnd mode n status = some (t, now)) :
    ∃ l' cur', Books { s with table := t } l' cur' := by
  obtain ⟨t', l', cur', ht, hin, -, hdone, hnot⟩ := h.inOrder.jobWaitEnd hj mode status
  cases Option.some.inj (ht.symm.trans he)
  cases hd : j.done with
  | true =>
    obtain rfl := hdone hd
    exact ⟨_, _, h.filter hin⟩
  | false =>
    obtain ⟨l₁, l₂, j', rfl, rfl, announced, rfl⟩ := hnot hd
    exact ⟨_, _, h.replace hin rfl⟩

end Books

/-! ## Steps -/

/-- **The books, and the call that is on the way.** -/
structure InCall (s : Kids) (l : List (ℕ × Job)) (cur : Option ℕ) : Prop extends s.Books l cur where
  call : ∀ mode w, s.call = some (mode, w) → ∃ j, (w.job, j) ∈ l ∧ Fresh w j

theorem InCall.of_none (h : s.Books l cur) (hc : s.call = none) : s.InCall l cur :=
  ⟨h, fun _ _ hw => absurd (hc.symm.trans hw) nofun⟩

/-- The job of a call that goes on is still there. -/
theorem InCall.going {mode : WaitMode} {w w' : Waiting} {e : WaitEvent} {s₁ : Kids}
    (h : s.InCall l cur) (hc : s.call = some (mode, w)) (hw : s.table.jobWait mode w e = some (t, .going w'))
    (h₁ : Books { s₁ with table := t } l₁ cur') :
    InCall (s₁.afterWait mode (t, .going w')) l₁ cur' := by
  obtain ⟨j, hj, hf⟩ := h.call mode w hc
  obtain ⟨l', cur'', hin, -, -, hgoing⟩ :=
    (waits_of_jobWait (h.inOrder.val_eq.2 hj) hw).inOrder h.inOrder hj hf
  refine ⟨⟨h₁.inOrder, h₁.recorded, h₁.distinct, h₁.known, h₁.pids, h₁.young, h₁.told⟩, fun mode' w₁ hw₁ => ?_⟩
  cases hw₁
  obtain ⟨hjob, j', hj', hf', -⟩ := hgoing w' rfl
  refine ⟨j', ?_, hf'⟩
  rw [hjob]
  exact h₁.inOrder.val_eq.1 (hin.val_eq.2 hj')

theorem InCall.done {mode : WaitMode} {now : WaitNow} {s₁ : Kids} (h₁ : Books { s₁ with table := t } l cur)
    (hnow : ∀ w, now ≠ .going w) : InCall (s₁.afterWait mode (t, now)) l cur := by
  have hbooks : Books { s₁ with table := t, call := none } l cur :=
    ⟨h₁.inOrder, h₁.recorded, h₁.distinct, h₁.known, h₁.pids, h₁.young, h₁.told⟩
  cases now with
  | going w => exact absurd rfl (hnow w)
  | returned status => exact .of_none hbooks rfl
  | interrupted sig => exact .of_none hbooks rfl

/-- **An event of a call keeps the books.** -/
theorem InCall.wait {mode : WaitMode} {w : Waiting} {e : WaitEvent} {now : WaitNow} (h : s.InCall l cur)
    (hc : s.call = some (mode, w)) (hok : s.Unmistaken act) (he : s.event act = some e)
    (hw : s.table.jobWait mode w e = some (t, now)) :
    ∃ l' cur', InCall ((s.behind act).afterWait mode (t, now)) l' cur' := by
  obtain ⟨j, hj, hf⟩ := h.call mode w hc
  have hwaits := waits_of_jobWait (h.inOrder.val_eq.2 hj) hw
  have hafter : ∀ {s₁ : Kids} {l' : List (ℕ × Job)} {cur' : Option ℕ}, Books { s₁ with table := t } l' cur' →
      ∃ l' cur', InCall (s₁.afterWait mode (t, now)) l' cur' := by
    intro s₁ l' cur' h₁
    cases now with
    | going w' => exact ⟨l', cur', h.going hc hw h₁⟩
    | returned status => exact ⟨l', cur', .done h₁ nofun⟩
    | interrupted sig => exact ⟨l', cur', .done h₁ nofun⟩
  have hreport : ∀ {c : ℕ} {status : WaitStatus}, s.canReport c status = true →
      (∀ d ∈ s.inFront c, s.pid d ≠ s.pid c) → s.table.jobSignal (s.pid c) status = some t →
      ∃ l' cur', InCall ((s.report c status).afterWait mode (t, now)) l' cur' := by
    intro c status hcan hfront hs
    obtain ⟨t', ht', hin, -⟩ := h.inOrder.jobSignal_eq (s.pid c) status
    obtain rfl := Option.some.inj (ht'.symm.trans hs)
    exact hafter (h.report hcan hfront hin)
  cases act with
  | handled c status =>
    rw [event] at he
    split_ifs at he with hcan
    obtain rfl := Option.some.inj he
    cases hwaits with
    | handled hs => exact hreport hcan hok hs
  | reaped c status =>
    rw [event] at he
    split_ifs at he with hcan
    obtain rfl := Option.some.inj he
    cases hwaits with
    | reaped ha hs => exact hreport hcan hok hs
  | look =>
    obtain rfl := Option.some.inj he
    have hstop : (s.table.heap.val w.job).any Job.stopped = j.stopped := by
      rw [h.inOrder.val_eq.2 hj]
      rfl
    have hbehind : s.behind .look = if mode.cmdsub && j.stopped then s.continued w.job else s := by
      rw [← hstop, behind, hc]
    rw [hbehind]
    cases hwaits with
    | continued ha hst hcs =>
      rw [if_pos (by simp [hst, hcs])]
      obtain ⟨l₁, l₂, rfl, hin, -⟩ := h.inOrder.modify hj (f := Job.continueStopped) rfl
      exact hafter (h.continued hin rfl)
    | seen ha hst hcs hend =>
      have hno : (mode.cmdsub && j.stopped) = false := by
        cases hjs : j.stopped with
        | false => exact Bool.and_false _
        | true => rw [hcs hjs, Bool.false_and]
      rw [if_neg (by simp [hno])]
      obtain ⟨l', cur', h'⟩ := h.toBooks.jobWaitEnd hj hend
      exact hafter h'
    | sleeps ha hst hr =>
      rw [if_neg (by simp [hst])]
      exact hafter (h.retable h.inOrder)
  | nothing =>
    obtain rfl := Option.some.inj he
    cases hwaits with
    | gaveUp ha hk hend =>
      obtain ⟨l', cur', h'⟩ := h.toBooks.jobWaitEnd hj hend
      exact hafter h'
    | nothing ha hk => exact hafter (h.retable h.inOrder)
  | trapped sig =>
    obtain rfl := Option.some.inj he
    cases hwaits with
    | trapped hi => exact hafter (h.retable h.inOrder)
    | interrupted hi => exact hafter (h.retable h.inOrder)
  | _ => exact absurd he nofun

theorem InCall.endChild (h : s.InCall l cur) (hstep : s.endChild c status = some s') :
    s'.InCall l cur := by
  unfold Kids.endChild at hstep
  split_ifs at hstep with hcond
  obtain rfl := Option.some.inj hstep
  rw [Bool.and_eq_true, Bool.and_eq_true] at hcond
  exact ⟨h.ends hcond.1.2, h.call⟩

/-- **A step inside of `job_wait`** keeps the books. -/
theorem InCall.waitStep {mode : WaitMode} {w : Waiting} (h : s.InCall l cur) (hc : s.call = some (mode, w))
    (hok : s.Unmistaken act) (hstep : s.waitStep mode w act = some s') : ∃ l' cur', s'.InCall l' cur' := by
  unfold Kids.waitStep at hstep
  split at hstep
  · exact ⟨l, cur, h.endChild hstep⟩
  · obtain ⟨e, he, hstep⟩ := Option.bind_eq_some_iff.1 hstep
    obtain ⟨⟨t, now⟩, hw, rfl⟩ := Option.map_eq_some_iff.1 hstep
    exact h.wait hc hok he hw

/-- **A step outside of it** as well. -/
theorem InCall.idleStep (h : s.InCall l cur) (hc : s.call = none) (hok : s.Unmistaken act)
    (hstep : s.idleStep act = some s') : ∃ l' cur', s'.InCall l' cur' := by
  cases act with
  | job op =>
    obtain ⟨l', cur', h', hc'⟩ := h.toBooks.jobOp hstep
    exact ⟨l', cur', .of_none h' (hc'.trans hc)⟩
  | flags n bgnd pipefail =>
    rw [Kids.idleStep] at hstep
    split_ifs at hstep with hlive
    obtain rfl := Option.some.inj hstep
    obtain ⟨⟨n, j⟩, hj, rfl⟩ := List.mem_map.1 (h.inOrder.isSome_iff.1 hlive)
    obtain ⟨l₁, l₂, rfl, hin, -⟩ := h.inOrder.modify hj (f := fun j => { j with bgnd, pipefail }) rfl
    exact ⟨_, cur, .of_none (h.replace hin rfl) hc⟩
  | resume n =>
    rw [Kids.idleStep] at hstep
    split_ifs at hstep with hlive
    obtain rfl := Option.some.inj hstep
    obtain ⟨⟨n, j⟩, hj, rfl⟩ := List.mem_map.1 (h.inOrder.isSome_iff.1 hlive)
    obtain ⟨l₁, l₂, rfl, hin, -⟩ := h.inOrder.modify hj (f := fun j => { j with
      announced := false
      procs := j.procs.map fun p => if p.status.any WaitStatus.isStopped then { p with status := none } else p })
      rfl
    exact ⟨_, cur, .of_none (h.continued hin rfl) hc⟩
  | fork n pid =>
    rw [Kids.idleStep] at hstep
    split_ifs at hstep with hcond
    rw [not_or] at hcond
    obtain ⟨l', h', hc'⟩ := h.fork (Nat.pos_of_ne_zero hcond.1) hstep
    exact ⟨l', cur, .of_none h' (hc'.trans hc)⟩
  | ends c status => exact ⟨l, cur, h.endChild hstep⟩
  | handled c status =>
    rw [Kids.idleStep] at hstep
    split_ifs at hstep with hcan
    obtain ⟨t, ht, rfl⟩ := Option.map_eq_some_iff.1 hstep
    obtain ⟨t', ht', hin, -⟩ := h.inOrder.jobSignal_eq (s.pid c) status
    obtain rfl := Option.some.inj (ht'.symm.trans ht)
    exact ⟨_, cur, .of_none (h.report hcan hok hin) hc⟩
  | wait n mode =>
    rw [Kids.idleStep] at hstep
    split_ifs at hstep with hlive
    obtain rfl := Option.some.inj hstep
    obtain ⟨⟨n, j⟩, hj, rfl⟩ := List.mem_map.1 (h.inOrder.isSome_iff.1 hlive)
    refine ⟨l, cur, ⟨h.inOrder, h.recorded, h.distinct, h.known, h.pids, h.young, h.told⟩,
      fun mode' w hw => ?_⟩
    cases hw
    exact ⟨j, hj, fun _ => rfl⟩
  | look => exact absurd hstep nofun
  | reaped c status => exact absurd hstep nofun
  | nothing => exact absurd hstep nofun
  | trapped sig => exact absurd hstep nofun

/-- **One step** keeps the books. -/
theorem InCall.step (h : s.InCall l cur) (hok : s.Unmistaken act) (hstep : kidStep s act = some s') :
    ∃ l' cur', s'.InCall l' cur' := by
  unfold kidStep at hstep
  cases hc : s.call with
  | some mw =>
    rw [hc] at hstep
    exact h.waitStep hc hok hstep
  | none =>
    rw [hc] at hstep
    exact h.idleStep hc hok hstep

/-- Members that are all done with ended as they were told. -/
theorem Books.ended_eq (h : s.Books l cur) (hj : (n, j) ∈ l) (hall : s.AllEnded n j)
    (hr : j.running = false) (hst : j.stopped = false) :
    j.ended = (s.members n).filterMap s.ended := by
  obtain ⟨k, hk⟩ := h.recorded (n, j) hj
  dsimp only at hk
  have hk0 : k = 0 := by
    have hlen := hall.1
    rw [hk, List.length_append, List.length_map, List.length_replicate] at hlen
    omega
  subst hk0
  rw [List.replicate_zero, List.append_nil] at hk
  rw [Job.ended, hk, List.filterMap_map]
  refine List.filterMap_congr fun d hd => ?_
  have hmem : s.entry d ∈ j.procs := hk ▸ List.mem_map_of_mem hd
  have hsome := List.any_eq_false.1 hr _ hmem
  have hnot := List.any_eq_false.1 hst _ hmem
  change s.told d = s.ended d
  change ¬ (s.told d).isNone = true at hsome
  change ¬ (s.told d).any WaitStatus.isStopped = true at hnot
  cases ht : s.told d with
  | none => simp [ht] at hsome
  | some st => exact (h.told d st ht (by simpa [ht] using hnot)).symm

theorem lastStatus_eq (hst : j.stopped = false) : j.lastStatus = reportOf j.pipefail j.ended := by
  simp [Job.lastStatus, reportOf, hst]

theorem event_nothing (h : s.event act = some .nothing) : act = .nothing := by
  cases act with
  | nothing => rfl
  | handled c status => rw [event] at h; split_ifs at h; exact absurd (Option.some.inj h) nofun
  | reaped c status => rw [event] at h; split_ifs at h; exact absurd (Option.some.inj h) nofun
  | _ => exact absurd h nofun

theorem event_look (h : s.event act = some .look) : act = .look := by
  cases act with
  | look => rfl
  | handled c status => rw [event] at h; split_ifs at h; exact absurd (Option.some.inj h) nofun
  | reaped c status => rw [event] at h; split_ifs at h; exact absurd (Option.some.inj h) nofun
  | _ => exact absurd h nofun

/-- **A step is right** when the books agree and nothing is mistaken. -/
theorem InCall.rightStep (h : s.InCall l cur) (hok : s.Unmistaken act) : s.RightStep act := by
  intro s' hstep
  refine ⟨fun n j hv => ?_, fun mode w e t status j hc he hv hw hall => ?_⟩
  · obtain ⟨l', cur', h'⟩ := h.step hok hstep
    exact h'.recorded (n, j) (h'.inOrder.val_eq.1 hv)
  · obtain ⟨j', hj, hf⟩ := h.call mode w hc
    obtain rfl := Option.some.inj ((h.inOrder.val_eq.2 hj).symm.trans hv)
    rcases (waits_of_jobWait hv hw).status_eq h.inOrder hj hf with ⟨rfl, hk⟩ | ⟨rfl, hcs, hend, rfl⟩
    · obtain rfl := event_nothing he
      exact absurd hall (hok (mode, w) hc _ hv hk)
    · obtain rfl := event_look he
      have hst : j'.stopped = false := by
        cases hst : j'.stopped with
        | false => rfl
        | true => exact absurd hall (hok (mode, w) hc _ hv hst (hcs hst))
      have hr : j'.running = false := hend.resolve_left (by simp [hst])
      rw [lastStatus_eq hst, h.ended_eq hj hall hr hst]

/-- **A run** in which nothing is mistaken. -/
theorem InCall.run : ∀ (acts : List KidAct) {s : Kids} {l : List (ℕ × Job)} {cur : Option ℕ},
    s.InCall l cur → Along kidStep Unmistaken s acts → Along kidStep RightStep s acts
  | [], s, l, cur, h, _ => trivial
  | act :: acts, s, l, cur, h, ⟨hok, hrest⟩ => by
      refine ⟨h.rightStep hok, fun s' hstep => ?_⟩
      obtain ⟨l', cur', h'⟩ := h.step hok hstep
      exact h'.run acts (hrest s' hstep)

theorem inCall_nil : InCall {} [] none :=
  ⟨⟨inOrder_nil, nofun, List.nodup_nil, nofun, nofun, nofun, nofun⟩, nofun⟩

end Kids

/-- **Statuses stay with their children**: in a run in which nothing is mistaken every step is right. -/
theorem kids_right (acts : List KidAct) (h : Along kidStep Kids.Unmistaken {} acts) :
    Along kidStep Kids.RightStep {} acts := Kids.inCall_nil.run acts h

/-- A pipeline whose last member ends first, while another job's child is reaped on the way. -/
theorem kids_right_sample : Along kidStep Kids.RightStep {} [.job (.new 0 1), .fork 0 4, .job (.new 1 2),
    .fork 1 5, .fork 1 6, .wait 1 {}, .look, .ends 2 (.exited 3), .reaped 2 (.exited 3), .look,
    .ends 0 (.exited 1), .reaped 0 (.exited 1), .look, .ends 1 (.exited 0), .reaped 1 (.exited 0), .look] :=
  kids_right _ (by decide)

/-- The first job's child has ended, and the kernel gives its pid to the second one's, which ends too. -/
def recycledRun : List KidAct := [.job (.new 0 1), .fork 0 5, .ends 0 (.exited 1),
  .handled 0 (.exited 1), .job (.new 1 1), .fork 1 5, .ends 1 (.exited 0)]

/-- What became of the second child is recorded in the first job. -/
theorem recycled_pid : ¬ Along kidStep Kids.RightStep {} (recycledRun ++ [.handled 1 (.exited 0)]) := by
  intro h
  have hlast := (along_append _ _ h).2
  have hview : ((runs kidStep {} recycledRun).bind fun s =>
      (kidStep s (.handled 1 (.exited 0))).map fun s' =>
        (s'.table.heap.val 1, (s'.members 1).map s'.entry)) =
      some (some { id := 2, level := 0, procs := [{ pid := 5 }] },
        [{ pid := 5, status := some (.exited 0) }]) := rfl
  obtain ⟨s, hrun, hs⟩ := Option.bind_eq_some_iff.1 hview
  obtain ⟨s', hstep, hs'⟩ := Option.map_eq_some_iff.1 hs
  obtain ⟨hv, hentries⟩ := Prod.mk.inj hs'
  obtain ⟨k, hk⟩ := ((hlast s hrun).1 s' hstep).1 1 _ hv
  rw [hentries] at hk
  exact absurd (List.cons.inj hk).1 (by decide)

end Shish
