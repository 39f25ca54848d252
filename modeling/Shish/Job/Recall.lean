import Shish.Builtin.Wait
import Shish.Job.Reap
import Shish.Lib.Recent

/-!
# Job/Recall — the statuses of jobs that are gone

`job_delete` writes down the processes of a background job in a ring of 64 entries, and `wait` looks a process up
there when its job is gone.  The search starts at the first slot, so of two entries with one pid it does not find
the newer one but the one in the lower slot (`recall_latest_iff`).
-/

namespace Shish

/-! ## What a run deletes -/

namespace JobTable

/-- The jobs, in the order of the list. -/
def jobs (s : JobTable) : List (ℕ × Job) :=
  ((s.heap.nodes s.top s.jobList).getD []).filterMap fun n => (s.heap.val n).map (n, ·)

/-- The processes of background jobs. -/
def background (l : List (ℕ × Job)) : List Proc := l.flatMap fun x => if x.2.bgnd then x.2.procs else []

/-- The processes of the background jobs that are there in `s`, and gone in `s'`. -/
def deleted (s s' : JobTable) : List Proc := background (s.jobs.filter fun x => (s'.heap x.1).isNone)

end JobTable

/-- The processes of the background jobs that a run deletes, in this order. -/
def remembered : Kids → List KidAct → List Proc
  | _, [] => []
  | s, act :: acts =>
      match kidStep s act with
      | none => []
      | some s' => s.table.deleted s'.table ++ remembered s' acts

/-! ## The ring -/

namespace JobTable

variable {s s' s₁ : JobTable} {l l' : List (ℕ × Job)} {cur cur' : Option ℕ} {n : ℕ} {j : Job} {ps qs : List Proc}

/-- **The ring is the end of the log.** -/
structure Remembers (s : JobTable) (log : List Proc) : Prop where
  count : s.finishedN = log.length
  retains : Retains 64 (0, none) s.finished (log.map fun p => (p.pid, p.status))

/-- The processes are written into the ring. -/
def Notes (s s' : JobTable) (ps : List Proc) : Prop := ∀ log, s.Remembers log → s'.Remembers (log ++ ps)

theorem Notes.trans (h : s.Notes s₁ ps) (h₁ : s₁.Notes s' qs) : s.Notes s' (ps ++ qs) := fun log hlog => by
  rw [← List.append_assoc]
  exact h₁ _ (h log hlog)

/-- The ring stays as it was. -/
theorem Notes.of_eq (hf : s'.finished = s.finished) (hn : s'.finishedN = s.finishedN) : s.Notes s' [] :=
  fun log hlog => by
    rw [List.append_nil]
    exact ⟨hn.trans hlog.count, hf ▸ hlog.retains⟩

theorem notes_refl (s : JobTable) : s.Notes s [] := .of_eq rfl rfl

theorem Notes.congr (h : s.Notes s₁ ps) (hf : s'.finished = s₁.finished) (hn : s'.finishedN = s₁.finishedN) :
    s.Notes s' ps := by
  have htrans := h.trans (Notes.of_eq hf hn)
  rwa [List.append_nil] at htrans

/-- **`job_delete` writes down** the processes of a background job. -/
theorem notes_noteFinished (s : JobTable) (j : Job) :
    s.Notes (s.noteFinished j) (if j.bgnd then j.procs else []) := by
  rw [noteFinished]
  split_ifs
  · induction j.procs generalizing s with
    | nil => exact notes_refl s
    | cons p ps ih =>
      refine @Notes.trans s _ _ [p] ps (fun log hlog => ⟨?_, ?_⟩) (ih _)
      · rw [List.length_append, List.length_singleton, ← hlog.count]
      · have hput := hlog.retains.put (p.pid, p.status)
        rw [List.length_map, ← hlog.count] at hput
        rw [List.map_append]
        exact hput
  · exact notes_refl s

theorem notes_jobDelete {slot : Option ℕ} (h : s.jobDelete slot = some s') :
    ∃ n j, s.heap.deref s.jobList slot = some n ∧ s.heap.val n = some j ∧
      s.Notes s' (if j.bgnd then j.procs else []) := by
  obtain ⟨n, hn, h⟩ := Option.bind_eq_some_iff.1 h
  obtain ⟨c, hc, h⟩ := Option.bind_eq_some_iff.1 h
  refine ⟨n, c.val, hn, by rw [Heap.val, hc]; rfl, (notes_noteFinished s c.val).congr ?_ ?_⟩
  all_goals
    dsimp only at h
    split_ifs at h
    · obtain ⟨last, -, rfl⟩ := Option.map_eq_some_iff.1 h
      rfl
    · rw [← Option.some.inj h]
    · rw [← Option.some.inj h]

/-! ## Which jobs are gone -/

/-- The jobs of a list that are not in another one. -/
def gone (l l' : List (ℕ × Job)) : List (ℕ × Job) := l.filter fun x => decide (x.1 ∉ l'.map Prod.fst)

theorem gone_same (h : ∀ x ∈ l, x.1 ∈ l'.map Prod.fst) : gone l l' = [] :=
  List.filter_eq_nil_iff.2 fun x hx => by simpa using h x hx

theorem gone_filter {q : ℕ × Job → Bool} (hnd : (l.map Prod.fst).Nodup) :
    gone l (l.filter q) = l.filter fun x => !q x := by
  refine List.filter_congr fun x hx => ?_
  rw [Bool.eq_iff_iff, decide_eq_true_iff, Bool.not_eq_true', ← Bool.not_eq_true]
  refine not_congr ⟨fun hmem => ?_, fun hq => List.mem_map_of_mem (List.mem_filter.2 ⟨hx, hq⟩)⟩
  obtain ⟨y, hy, heq⟩ := List.mem_map.1 hmem
  obtain ⟨hyl, hyq⟩ := List.mem_filter.1 hy
  rwa [List.inj_on_of_nodup_map hnd hyl hx heq] at hyq

theorem InOrder.jobs_eq (h : s.InOrder l cur) : s.jobs = l := by
  rw [jobs, h.lists.chain.nodes_eq (by simpa using h.length_le), Option.getD_some, List.filterMap_map]
  have hval : ∀ x ∈ l, ((fun n => (s.heap.val n).map (n, ·)) ∘ Prod.fst) x = some x := fun x hx => by
    rw [Function.comp_apply, h.lists.vals x hx]
    rfl
  rw [List.filterMap_congr hval, List.filterMap_some]

theorem InOrder.deleted_eq (h : s.InOrder l cur) (h' : s'.InOrder l' cur') :
    s.deleted s' = background (gone l l') := by
  rw [deleted, h.jobs_eq, gone]
  congr 2
  funext x
  rw [Bool.eq_iff_iff, decide_eq_true_iff, ← h'.isSome_iff, Option.isNone_iff_eq_none, Option.not_isSome_iff_eq_none]

/-- **What one step of the table does**: it stays in order, and what is gone is written down. -/
def Tracks (s s' : JobTable) : Prop :=
  ∀ l cur, s.InOrder l cur → ∃ l' cur', s'.InOrder l' cur' ∧ s.Notes s' (background (gone l l'))

theorem tracks_refl (s : JobTable) : s.Tracks s := fun l cur h =>
  ⟨l, cur, h, by rw [gone_same fun x hx => List.mem_map_of_mem hx]; exact notes_refl s⟩

/-- No job is gone, and the ring stays as it was. -/
theorem InOrder.tracks (h' : s'.InOrder l' cur') (hkeys : ∀ x ∈ l, x.1 ∈ l'.map Prod.fst)
    (hf : s'.finished = s.finished) (hn : s'.finishedN = s.finishedN) :
    ∃ l' cur', s'.InOrder l' cur' ∧ s.Notes s' (background (gone l l')) :=
  ⟨l', cur', h', by rw [gone_same hkeys]; exact .of_eq hf hn⟩

theorem tracks_modifyJob (s : JobTable) (n : ℕ) {f : Job → Job} (hid : ∀ j, (f j).id = j.id) :
    s.Tracks (s.modifyJob n f) := by
  intro l cur h
  cases hv : s.heap.val n with
  | none =>
    have heq : s.modifyJob n f = s := by rw [modifyJob, hv]
    rw [heq]
    exact tracks_refl s l cur h
  | some j =>
    obtain ⟨l₁, l₂, rfl, hin, heap, heq⟩ := h.modify (h.val_eq.1 hv) (f := f) (hid j)
    refine hin.tracks (fun x hx => ?_) (by rw [heq]) (by rw [heq])
    have hmem := List.mem_map_of_mem (f := Prod.fst) hx
    simpa using hmem

theorem tracks_jobSignal {pid : ℕ} {status : WaitStatus} (hs : s.jobSignal pid status = some s') : s.Tracks s' := by
  intro l cur h
  obtain ⟨t, ht, hin, heap, heq⟩ := h.jobSignal_eq pid status
  obtain rfl := Option.some.inj (ht.symm.trans hs)
  refine hin.tracks (fun x hx => ?_) (by rw [heq]) (by rw [heq])
  rw [fst_recordIn]
  exact List.mem_map_of_mem hx

/-- **A job is freed**, and written down. -/
theorem InOrder.notes_jobFree (h : s.InOrder l cur) (hfree : s.jobFree n = some s') :
    s.Notes s' (background (l.filter fun x => decide (x.1 = n))) := by
  by_cases hn : n ∈ l.map Prod.fst
  · obtain ⟨⟨m, j⟩, hx, rfl⟩ := List.mem_map.1 hn
    obtain ⟨l₁, l₂, rfl⟩ := List.append_of_mem hx
    have hk : l₁.length < s.top := by
      have := h.length_le
      rw [List.length_append, List.length_cons] at this
      omega
    rw [JobTable.jobFree, h.lists.findNode_eq hk] at hfree
    obtain ⟨m', j', hm, hj', hnotes⟩ := notes_jobDelete hfree
    rw [h.lists.deref_eq] at hm
    obtain rfl := Option.some.inj hm
    obtain rfl := Option.some.inj (hj'.symm.trans (h.lists.vals _ hx))
    have hnd := h.lists.nodup
    rw [List.map_append, List.map_cons, List.nodup_middle, List.nodup_cons, ← List.map_append] at hnd
    have hnone : ∀ y ∈ l₁ ++ l₂, ¬decide (y.1 = m) = true := fun y hy heq => by
      have hmem := List.mem_map_of_mem (f := Prod.fst) hy
      rw [of_decide_eq_true heq] at hmem
      exact hnd.1 hmem
    have hone : (l₁ ++ (m, j') :: l₂).filter (fun x => decide (x.1 = m)) = [(m, j')] := by
      rw [List.filter_append, List.filter_cons_of_pos (by simp),
        List.filter_eq_nil_iff.2 fun y hy => hnone y (List.mem_append_left _ hy),
        List.filter_eq_nil_iff.2 fun y hy => hnone y (List.mem_append_right _ hy)]
      rfl
    rw [hone, background, List.flatMap_singleton]
    exact hnotes
  · rw [JobTable.jobFree, h.lists.findNode_none hn h.length_le] at hfree
    obtain rfl := Option.some.inj hfree
    have hnone : ∀ y ∈ l, ¬decide (y.1 = n) = true := fun y hy heq =>
      hn (of_decide_eq_true heq ▸ List.mem_map_of_mem hy)
    rw [List.filter_eq_nil_iff.2 hnone]
    exact notes_refl s

theorem tracks_jobFree (hfree : s.jobFree n = some s') : s.Tracks s' := by
  intro l cur h
  obtain ⟨t, cur', ht, hin, -⟩ := h.jobFree n
  obtain rfl := Option.some.inj (ht.symm.trans hfree)
  refine ⟨_, cur', hin, ?_⟩
  rw [gone_filter h.lists.nodup]
  have hnotes := h.notes_jobFree hfree
  simpa using hnotes

/-- **A walk that frees jobs** writes down those that it frees, in the order of the list. -/
theorem InOrder.notes_freeAll (q : Job → Bool) : ∀ {suf pre : List (ℕ × Job)} {s s' : JobTable} {cur : Option ℕ}
    {k : ℕ}, s.InOrder (pre ++ suf) cur → suf.length ≤ k →
      JobTable.freeAll q k (suf.map Prod.fst).head? s = some s' →
      s.Notes s' (background (suf.filter fun x => q x.2))
  | [], pre, s, s', cur, k, h, _, hall => by
      have heq : JobTable.freeAll q k none s = some s := by cases k <;> rfl
      obtain rfl := Option.some.inj (heq.symm.trans hall)
      exact notes_refl s
  | x :: suf, pre, s, s', cur, 0, _, hk, _ => absurd hk (by simp)
  | x :: suf, pre, s, s', cur, k + 1, h, hk, hall => by
      obtain ⟨c, hc, hcx⟩ := Option.map_eq_some_iff.1 (h.lists.vals x (by simp))
      have hsplit : pre ++ x :: suf = (pre ++ [x]) ++ suf := by simp
      have hnext : c.next = (suf.map Prod.fst).head? := by
        have hd := (hsplit ▸ h.lists).deref_eq
        rw [List.map_append, List.map_singleton, List.getLast?_concat, Heap.deref, hc] at hd
        exact hd
      have hk : suf.length ≤ k := by simpa using hk
      rw [List.map_cons, List.head?_cons, JobTable.freeAll, hc, Option.bind_eq_bind, Option.bind_some,
        hcx, hnext] at hall
      cases hq : q x.2 with
      | true =>
        obtain ⟨s₁, cur₁, hfree, hin, -⟩ := h.jobFree x.1
        rw [if_pos hq, hfree] at hall
        have hnd := h.lists.nodup
        rw [List.map_append, List.map_cons, List.nodup_middle, List.nodup_cons, ← List.map_append] at hnd
        have hne : ∀ y ∈ pre ++ suf, y.1 ≠ x.1 := fun y hy heq => hnd.1 (heq ▸ List.mem_map_of_mem hy)
        have hrest : (pre ++ x :: suf).filter (fun y => decide (y.1 ≠ x.1)) = pre ++ suf := by
          rw [List.filter_append, List.filter_cons_of_neg (by simp), ← List.filter_append]
          exact List.filter_eq_self.2 fun y hy => decide_eq_true (hne y hy)
        have hone : (pre ++ x :: suf).filter (fun y => decide (y.1 = x.1)) = [x] := by
          have hnone : ∀ y ∈ pre ++ suf, ¬decide (y.1 = x.1) = true := fun y hy heq =>
            hne y hy (of_decide_eq_true heq)
          rw [List.filter_append, List.filter_cons_of_pos (by simp),
            List.filter_eq_nil_iff.2 fun y hy => hnone y (List.mem_append_left _ hy),
            List.filter_eq_nil_iff.2 fun y hy => hnone y (List.mem_append_right _ hy)]
          rfl
        have hnotes := h.notes_jobFree hfree
        rw [hone] at hnotes
        rw [hrest] at hin
        rw [List.filter_cons_of_pos (by simpa using hq), ← List.singleton_append, background, List.flatMap_append]
        exact hnotes.trans (hin.notes_freeAll q hk hall)
      | false =>
        rw [if_neg (by simp [hq])] at hall
        rw [List.filter_cons_of_neg (by simp [hq])]
        exact (hsplit ▸ h).notes_freeAll q hk hall

theorem tracks_freeAll {q : Job → Bool} (hall : JobTable.freeAll q s.top s.jobList s = some s') : s.Tracks s' := by
  intro l cur h
  obtain ⟨t, cur', ht, hin, -⟩ := h.freeAll_list q
  obtain rfl := Option.some.inj (ht.symm.trans hall)
  refine ⟨_, cur', hin, ?_⟩
  rw [gone_filter h.lists.nodup]
  have hhead : s.jobList = (l.map Prod.fst).head? := h.lists.chain.head?_eq
  rw [hhead] at hall
  have hnotes := @InOrder.notes_freeAll q l [] s _ cur s.top h h.length_le hall
  simpa using hnotes

theorem tracks_jobNew {nproc : ℕ} (hn : ¬(s.heap n).isSome) (hnew : s.jobNew n nproc = some s') : s.Tracks s' := by
  intro l cur h
  obtain ⟨t, j, l₁, l₂, ht, rfl, hin, -⟩ := h.jobNew hn nproc
  obtain rfl := Option.some.inj (ht.symm.trans hnew)
  obtain ⟨slot, -, rfl⟩ := Option.map_eq_some_iff.1 hnew
  refine hin.tracks (fun x hx => ?_) rfl rfl
  rw [List.map_append, List.map_cons]
  rcases List.mem_append.1 hx with hx | hx
  · exact List.mem_append_left _ (List.mem_map_of_mem hx)
  · exact List.mem_append_right _ (.tail _ (List.mem_map_of_mem hx))

/-- **One step of the table.** -/
theorem tracks_jobStep {op : JobOp} (hstep : jobStep s op = some s') : s.Tracks s' := by
  cases op with
  | new n nproc =>
    rw [jobStep] at hstep
    split_ifs at hstep with hlive
    exact tracks_jobNew hlive hstep
  | free n => exact tracks_jobFree hstep
  | clean => exact tracks_freeAll hstep
  | discard level => exact tracks_freeAll hstep
  | setcurrent n =>
    intro l cur h
    obtain ⟨t, ht, hin⟩ := h.jobSetcurrent n
    obtain rfl := Option.some.inj (ht.symm.trans hstep)
    obtain ⟨found, -, rfl⟩ := Option.map_eq_some_iff.1 hstep
    refine hin.tracks (fun x hx => List.mem_map_of_mem hx) ?_ ?_
    all_goals cases found <;> rfl
  | signal pid status => exact tracks_jobSignal hstep
  | subshell level =>
    intro l cur h
    obtain rfl := Option.some.inj hstep
    have hin : InOrder { s with subshell := level } l cur :=
      ⟨h.lists, h.ascending, h.positive, h.live, h.top, h.points⟩
    exact hin.tracks (fun x hx => List.mem_map_of_mem hx) rfl rfl

/-- What a job is changed to has the same processes. -/
theorem background_gone_congr {l₁ l₂ : List (ℕ × Job)} {j' : Job} (hb : j'.bgnd = j.bgnd) (hp : j'.procs = j.procs) :
    background (gone (l₁ ++ (n, j') :: l₂) l') = background (gone (l₁ ++ (n, j) :: l₂) l') := by
  have hone : background (gone [(n, j')] l') = background (gone [(n, j)] l') := by
    by_cases hn : n ∈ l'.map Prod.fst <;> simp [background, gone, hn, hb, hp]
  have happ : ∀ l₁ l₂ : List (ℕ × Job), background (gone (l₁ ++ l₂) l') =
      background (gone l₁ l') ++ background (gone l₂ l') := fun l₁ l₂ => by
    rw [gone, List.filter_append, background, List.flatMap_append]
    rfl
  rw [← List.singleton_append, happ, happ, hone, ← happ, ← happ, List.singleton_append]

/-- A job that keeps its processes changes in front of a step. -/
theorem Tracks.modifyJob {f : Job → Job} (h : (s.modifyJob n f).Tracks s') (hid : ∀ j, (f j).id = j.id)
    (hb : ∀ j, (f j).bgnd = j.bgnd) (hp : ∀ j, (f j).procs = j.procs) : s.Tracks s' := by
  intro l cur hin
  cases hv : s.heap.val n with
  | none =>
    have heq : s.modifyJob n f = s := by rw [JobTable.modifyJob, hv]
    rw [heq] at h
    exact h l cur hin
  | some j =>
    obtain ⟨l₁, l₂, rfl, hmod, heap, heq⟩ := hin.modify (hin.val_eq.1 hv) (f := f) (hid j)
    obtain ⟨l', cur', hin', hnotes⟩ := h _ _ hmod
    refine ⟨l', cur', hin', ?_⟩
    rw [background_gone_congr (hb j) (hp j)] at hnotes
    refine @Notes.trans _ _ _ [] _ (.of_eq ?_ ?_) hnotes
    all_goals rw [heq]

/-- **The end of a wait**: a job that is done is written down. -/
theorem tracks_jobWaitEnd {mode : WaitMode} {status : WaitStatus} {now : WaitNow}
    (hend : s.jobWaitEnd mode n status = some (s', now)) : s.Tracks s' := by
  obtain ⟨j, hj, hend⟩ := Option.bind_eq_some_iff.1 hend
  obtain ⟨t, ht, heq⟩ := Option.map_eq_some_iff.1 hend
  obtain ⟨rfl, -⟩ := Prod.mk.inj heq
  have hfree : ∀ {s₁ : JobTable}, (if j.done then s₁.jobFree n else some s₁) = some t → s₁.Tracks t := by
    intro s₁ ht
    split_ifs at ht
    · exact tracks_jobFree ht
    · obtain rfl := Option.some.inj ht
      exact tracks_refl s₁
  by_cases hbanner : (mode.banners && j.stopped) = true
  · rw [if_pos hbanner] at ht
    exact (hfree ht).modifyJob (fun _ => rfl) (fun _ => rfl) fun _ => rfl
  · rw [if_neg hbanner] at ht
    exact hfree ht

/-- **One event of a wait.** -/
theorem tracks_jobWait {mode : WaitMode} {w : Waiting} {e : WaitEvent} {now : WaitNow}
    (hwait : s.jobWait mode w e = some (s', now)) : s.Tracks s' := by
  cases e with
  | handled pid status =>
    obtain ⟨t, ht, heq⟩ := Option.map_eq_some_iff.1 hwait
    cases heq
    exact tracks_jobSignal ht
  | trapped sig =>
    cases hwait
    exact tracks_refl s
  | look =>
    cases ha : w.asleep with
    | true => simp [JobTable.jobWait, ha] at hwait
    | false =>
      rw [JobTable.jobWait, if_neg (by simp [ha])] at hwait
      obtain ⟨j, -, hwait⟩ := Option.bind_eq_some_iff.1 hwait
      dsimp only at hwait
      split_ifs at hwait
      · cases hwait
        exact tracks_modifyJob s w.job fun _ => rfl
      · exact tracks_jobWaitEnd hwait
      · cases hwait
        exact tracks_refl s
  | reaped pid status =>
    rw [JobTable.jobWait] at hwait
    split_ifs at hwait
    obtain ⟨t, ht, heq⟩ := Option.map_eq_some_iff.1 hwait
    cases heq
    exact tracks_jobSignal ht
  | nothing =>
    rw [JobTable.jobWait] at hwait
    split_ifs at hwait
    · exact tracks_jobWaitEnd hwait
    · cases hwait
      exact tracks_refl s

end JobTable

/-! ## Runs -/

namespace Kids

open JobTable

variable {s s' : Kids} {act : KidAct} {log : List Proc}

theorem tracks_idleStep (hstep : s.idleStep act = some s') : s.table.Tracks s'.table := by
  cases act with
  | job op =>
    have hop : ∀ op f, (∀ t, (f t : Kids).table = t) → (jobStep s.table op).map f = some s' →
        s.table.Tracks s'.table := by
      intro op f hf h
      obtain ⟨t, ht, rfl⟩ := Option.map_eq_some_iff.1 h
      rw [hf]
      exact tracks_jobStep ht
    cases op with
    | signal pid status => cases hstep
    | subshell level => exact hop (.subshell level) (fun t => { s with table := t }) (fun _ => rfl) hstep
    | _ => exact hop _ _ (fun _ => rfl) hstep
  | flags n bgnd pipefail =>
    rw [idleStep] at hstep
    split_ifs at hstep
    obtain rfl := Option.some.inj hstep
    exact tracks_modifyJob s.table n fun _ => rfl
  | resume n =>
    rw [idleStep] at hstep
    split_ifs at hstep
    obtain rfl := Option.some.inj hstep
    exact tracks_modifyJob s.table n fun _ => rfl
  | fork n pid =>
    rw [idleStep] at hstep
    split_ifs at hstep
    obtain ⟨j, -, hstep⟩ := Option.bind_eq_some_iff.1 hstep
    obtain ⟨index, -, hstep⟩ := Option.bind_eq_some_iff.1 hstep
    obtain rfl := Option.some.inj hstep
    exact tracks_modifyJob s.table n fun _ => rfl
  | ends c status =>
    rw [idleStep, endChild] at hstep
    split_ifs at hstep
    obtain rfl := Option.some.inj hstep
    exact tracks_refl s.table
  | handled c status =>
    rw [idleStep] at hstep
    split_ifs at hstep
    obtain ⟨t, ht, rfl⟩ := Option.map_eq_some_iff.1 hstep
    exact tracks_jobSignal ht
  | wait n mode =>
    rw [idleStep] at hstep
    split_ifs at hstep
    obtain rfl := Option.some.inj hstep
    exact tracks_refl s.table
  | _ => cases hstep

theorem afterWait_table (s : Kids) (mode : WaitMode) (r : JobTable × WaitNow) : (s.afterWait mode r).table = r.1 := by
  rw [afterWait]
  split <;> rfl

theorem tracks_waitStep {mode : WaitMode} {w : Waiting} (hstep : s.waitStep mode w act = some s') :
    s.table.Tracks s'.table := by
  have hwait : ((s.event act).bind fun e => (s.table.jobWait mode w e).map ((s.behind act).afterWait mode)) =
      some s' → s.table.Tracks s'.table := by
    intro h
    obtain ⟨e, -, he⟩ := Option.bind_eq_some_iff.1 h
    obtain ⟨⟨t, now⟩, ht, rfl⟩ := Option.map_eq_some_iff.1 he
    rw [afterWait_table]
    exact tracks_jobWait ht
  cases act with
  | ends c status =>
    rw [waitStep, endChild] at hstep
    split_ifs at hstep
    obtain rfl := Option.some.inj hstep
    exact tracks_refl s.table
  | _ => exact hwait hstep

/-- **One step**, in a call of `job_wait` or outside. -/
theorem tracks_kidStep (hstep : kidStep s act = some s') : s.table.Tracks s'.table := by
  rw [kidStep] at hstep
  split at hstep
  · exact tracks_waitStep hstep
  · exact tracks_idleStep hstep

/-- **A run writes down what it deletes.** -/
theorem remembers_run : ∀ (acts : List KidAct) {s s' : Kids} {l : List (ℕ × Job)} {cur : Option ℕ} {log : List Proc},
    s.table.InOrder l cur → s.table.Remembers log → runs kidStep s acts = some s' →
      s'.table.Remembers (log ++ remembered s acts)
  | [], s, s', l, cur, log, _, hlog, hrun => by
      obtain rfl := Option.some.inj hrun
      rwa [remembered, List.append_nil]
  | act :: acts, s, s', l, cur, log, hin, hlog, hrun => by
      obtain ⟨s₁, hstep, hrun⟩ := Option.bind_eq_some_iff.1 hrun
      obtain ⟨l₁, cur₁, hin₁, hnotes⟩ := tracks_kidStep hstep l cur hin
      rw [← hin.deleted_eq hin₁] at hnotes
      rw [remembered, hstep, ← List.append_assoc]
      exact remembers_run acts hin₁ (hnotes log hlog) hrun

end Kids

/-! ## What `wait` recalls -/

/-- What `wait` has for its only operand, behind its first step. -/
def recalled (mode : WaitMode) (s : JobTable) (arg : Str) : Option ℕ :=
  (builtinWait mode { table := s, todo := waitOperands s [arg] } .proceed).map WaitState.ret

theorem remembers_nil : JobTable.Remembers {} [] := ⟨rfl, Retains.nil⟩

/-- `job_recall` finds the process in the lowest slot. -/
theorem JobTable.Remembers.jobRecall {s : JobTable} {log : List Proc} (h : s.Remembers log) {pid : ℕ} (hpos : 0 < pid)
    {q : Proc} (hq : LowestSlot 64 (fun q : Proc => q.pid = pid) log q) : s.jobRecall pid = some q.status := by
  have hmap : LowestSlot 64 (fun e : ℕ × Option WaitStatus => (e.1 : ℤ) = pid ∧ (0 : ℤ) < pid)
      (log.map fun p => (p.pid, p.status)) (q.pid, q.status) := by
    refine LowestSlot.map (fun p : Proc => (p.pid, p.status)) (fun p => ?_) hq
    exact ⟨fun h => Int.natCast_inj.1 h.1, fun h => ⟨by rw [h], by omega⟩⟩
  refine h.retains.find (fun hblank => ?_) Prod.snd hmap
  have hzero : ((0 : ℕ) : ℤ) = pid := hblank.1
  omega

/-- An operand with digits in front that names no job is looked up. -/
theorem unknownStatus_eq {t : JobTable} {arg : Str} {len pid : ℕ} (hscan : scanUintHead arg = (len, pid))
    (hlen : len ≠ 0) (hpid : pid < 2 ^ 31) : unknownStatus t arg = ((t.jobRecall pid).map waitStatus).getD 127 := by
  have hhead : arg.head? ≠ some '%' := by
    intro h
    obtain ⟨t, rfl⟩ : ∃ t, arg = '%' :: t := by
      cases arg with
      | nil => cases h
      | cons c t => exact ⟨t, by rw [Option.some.inj h]⟩
    have hzero : scanUintHead ('%' :: t) = (0, 0) := rfl
    exact hlen (congrArg Prod.fst (hscan.symm.trans hzero))
  rw [unknownStatus, hscan]
  simp only [intOfUint, hhead, hlen, hpid, ne_eq, not_false_eq_true, and_self, if_true]

/-- **`wait` with a pid that is not in the table any more.**  In every run, where fewer than 64 processes were
remembered behind the newest one with that pid, its status is recalled if and only if the process with that pid that
lies in the lowest slot of the ring ended the same way. -/
theorem recall_latest_iff (mode : WaitMode) (acts : List KidAct) (s : Kids) (hrun : runs kidStep {} acts = some s)
    (arg : Str) (len pid : ℕ) (hscan : scanUintHead arg = (len, pid)) (hlen : len ≠ 0) (hpos : 0 < pid)
    (hpid : pid < 2 ^ 31) (hgone : s.table.jobFind arg = some none) (older newer : List Proc) (p : Proc)
    (hlog : remembered {} acts = older ++ p :: newer) (hp : p.pid = pid) (_hnewest : ∀ q ∈ newer, q.pid ≠ pid)
    (hrecent : newer.length < 64) :
    recalled mode s.table arg = some (waitStatus p.status) ↔
      ∀ q, LowestSlot 64 (fun q : Proc => q.pid = pid) (remembered {} acts) q →
        waitStatus q.status = waitStatus p.status := by
  have hlog' := Kids.remembers_run acts JobTable.inOrder_nil remembers_nil hrun
  rw [List.nil_append] at hlog'
  have htodo : waitOperands s.table [arg] = some [(arg, none)] := by
    simp [waitOperands, hgone]
  have hret : recalled mode s.table arg = some (unknownStatus s.table arg) := by
    rw [recalled, htodo]
    rfl
  have hstatus : ∀ q, LowestSlot 64 (fun q : Proc => q.pid = pid) (remembered {} acts) q →
      unknownStatus s.table arg = waitStatus q.status := fun q hq => by
    rw [unknownStatus_eq hscan hlen hpid, hlog'.jobRecall hpos hq]
    rfl
  obtain ⟨q₀, hq₀⟩ : ∃ q, LowestSlot 64 (fun q : Proc => q.pid = pid) (remembered {} acts) q := by
    refine exists_lowestSlot (i := older.length) (a := p) ?_ ?_ hp
    · rw [hlog, List.getElem?_append_right le_rfl, Nat.sub_self, List.getElem?_cons_zero]
    · rw [hlog, List.length_append, List.length_cons]
      omega
  rw [hret, Option.some.injEq]
  exact ⟨fun h q hq => (hstatus q hq).symm.trans h, fun h => (hstatus q₀ hq₀).trans (h q₀ hq₀)⟩

/-! ## A pid that was used twice -/

/-- A background job with one child of that pid, which ends with that code. -/
def oneChild (n c pid code : ℕ) : List KidAct := [.job (.new n 1), .flags n true false, .fork n pid,
  .ends c (.exited code), .handled c (.exited code), .job .clean]

/-- One child is recalled. -/
theorem recall_latest_one :
    ∃ s, runs kidStep {} (oneChild 0 0 5 1) = some s ∧ recalled {} s.table ['5'] = some 1 := by
  refine ⟨_, rfl, (recall_latest_iff {} (oneChild 0 0 5 1) _ rfl ['5'] 1 5 rfl (by decide) (by decide) (by decide) rfl
    [] [] { pid := 5, status := some (.exited 1) } rfl rfl nofun (by decide)).2 ?_⟩
  rintro q ⟨i, hi, -⟩
  have hlog : remembered {} (oneChild 0 0 5 1) = [{ pid := 5, status := some (.exited 1) }] := rfl
  rw [hlog] at hi
  obtain rfl := List.mem_singleton.1 (List.mem_of_getElem? hi)
  rfl

/-- **The older one of two processes with one pid is recalled.** -/
theorem recall_older : ¬∀ (acts : List KidAct) (s : Kids), runs kidStep {} acts = some s →
    ∀ (arg : Str) (len pid : ℕ), scanUintHead arg = (len, pid) → len ≠ 0 → 0 < pid → pid < 2 ^ 31 →
      s.table.jobFind arg = some none → ∀ (older newer : List Proc) (p : Proc),
        remembered {} acts = older ++ p :: newer → p.pid = pid → (∀ q ∈ newer, q.pid ≠ pid) →
          newer.length < 64 → recalled {} s.table arg = some (waitStatus p.status) := by
  intro hall
  have hzero := hall (oneChild 0 0 5 1 ++ oneChild 1 1 5 0) _ rfl ['5'] 1 5 rfl (by decide) (by decide) (by decide)
    rfl [{ pid := 5, status := some (.exited 1) }] [] { pid := 5, status := some (.exited 0) } rfl rfl nofun
    (by decide)
  exact absurd (Option.some.inj hzero) (by decide)

end Shish
