import Mathlib.Data.List.Sort
import Shish.Chartable
import Shish.Lib.Linked
import Shish.Lib.Run

/-!
# Job/Table — the list of jobs and the current one

`job_list` is a linked list in the order of the ids, and `job_pointer` is the slot, the head of the
list or the `next` of another job, that holds the current job.  Jobs are inserted and freed around
that slot: it is moved along with them (`table_inOrder`).
-/

namespace Shish

/-! ## The model -/

/-- What `wait` reports of a child. -/
inductive WaitStatus where
  | exited (code : ℕ)
  | signaled (sig : ℕ)
  | stopped (sig : ℕ)
  deriving DecidableEq

namespace WaitStatus

/-- `WAIT_IF_STOPPED`. -/
def isStopped : WaitStatus → Bool
  | stopped _ => true
  | _ => false

/-- `WAIT_STATUS`; of a stopped child it is the signal. -/
def code : WaitStatus → ℕ
  | exited c => c
  | signaled sig => 128 + sig
  | stopped sig => sig

end WaitStatus

/-- `struct proc`; a status of -1 is `none`. -/
structure Proc where
  pid : ℕ := 0
  status : Option WaitStatus := none
  deriving DecidableEq

/-- `struct job`. -/
structure Job where
  id : ℕ
  pgrp : ℕ := 0
  command : Option Str := none
  level : ℕ
  bgnd : Bool := false
  pipefail : Bool := false
  announced : Bool := false
  procs : List Proc
  deriving DecidableEq

namespace Job

/-- `job_running`. -/
def running (j : Job) : Bool := j.procs.any (·.status.isNone)

/-- `job_stopped`. -/
def stopped (j : Job) : Bool := j.procs.any (·.status.any WaitStatus.isStopped)

/-- `job_done`. -/
def done (j : Job) : Bool := !j.running && !j.stopped

end Job

/-- The jobs, the statuses that `job_recall` still knows, and `sh_subshell`; no job lies at `top` or
behind it. -/
structure JobTable where
  heap : Heap Job := fun _ => none
  top : ℕ := 0
  jobList : Option ℕ := none
  jobPointer : Option (Option ℕ) := none
  finished : ℕ → ℕ × Option WaitStatus := fun _ => (0, none)
  finishedN : ℕ := 0
  subshell : ℕ := 0

namespace JobTable

/-- `job_current`. -/
def current (s : JobTable) : Option ℕ := s.jobPointer.bind (s.heap.deref s.jobList)

/-- The loop of `job_new`: the first id that is not taken, and its slot. -/
def newSlot (h : Heap Job) : ℕ → ℕ → Option ℕ → Option ℕ → Option (ℕ × Option ℕ)
  | _, id, slot, none => some (id, slot)
  | 0, _, _, some _ => none
  | k + 1, id, slot, some n =>
      (h n).bind fun c => if c.val.id ≠ id then some (id, slot) else newSlot h k (id + 1) (some n) c.next

/-- `job_new`, with the memory at `n`. -/
def jobNew (s : JobTable) (n nproc : ℕ) : Option JobTable :=
  (newSlot s.heap s.top 1 none s.jobList).map fun (id, slot) =>
    let j : Job := { id, level := s.subshell, procs := List.replicate nproc {} }
    let r := s.heap.insertAt s.jobList slot n j
    { s with heap := r.1, top := max s.top (n + 1), jobList := r.2, jobPointer := some slot }

/-- The processes of a background job are noted for `job_recall`. -/
def noteFinished (s : JobTable) (j : Job) : JobTable :=
  if j.bgnd then
    j.procs.foldl (fun s p => { s with
      finished := Function.update s.finished (s.finishedN % 64) (p.pid, p.status)
      finishedN := s.finishedN + 1 }) s
  else s

/-- `job_delete`. -/
def jobDelete (s : JobTable) (slot : Option ℕ) : Option JobTable := do
  let n ← s.heap.deref s.jobList slot
  let c ← s.heap n
  let s := s.noteFinished c.val
  let wasCurrent := s.jobPointer == some slot
  let pointer := if s.jobPointer == some (some n) then some slot else s.jobPointer
  let r := s.heap.unlink s.jobList slot c.next
  let s := { s with heap := r.1.release n, jobList := r.2, jobPointer := pointer }
  if wasCurrent then
    (s.heap.lastSlot s.top none s.jobList).map fun last => { s with jobPointer := last }
  else some s

/-- `job_free`. -/
def jobFree (s : JobTable) (n : ℕ) : Option JobTable := do
  match ← s.heap.findNode n s.top none s.jobList with
  | none => some s
  | some slot => s.jobDelete slot

/-- `job_setcurrent`. -/
def jobSetcurrent (s : JobTable) (n : ℕ) : Option JobTable :=
  (s.heap.findNode n s.top none s.jobList).map fun found =>
    match found with
    | none => s
    | some slot => { s with jobPointer := some slot }

/-- A walk over the list that frees the jobs that pass the test; a link is read before its job is
freed. -/
def freeAll (q : Job → Bool) : ℕ → Option ℕ → JobTable → Option JobTable
  | _, none, s => some s
  | 0, some _, _ => none
  | k + 1, some n, s => do
      let c ← s.heap n
      freeAll q k c.next (← if q c.val then s.jobFree n else some s)

/-- `job_clean`. -/
def jobClean (s : JobTable) : Option JobTable := s.freeAll Job.done s.top s.jobList

/-- `job_discard`. -/
def jobDiscard (s : JobTable) (level : ℕ) : Option JobTable :=
  s.freeAll (fun j => decide (level < j.level)) s.top s.jobList

/-- `job_bypid`. -/
def jobBypid (s : JobTable) (pid : ℕ) : Option (Option ℕ) :=
  (s.heap.find (fun j => j.procs.any (·.pid == pid)) s.top none s.jobList).map (Option.map Prod.snd)

/-- The first process with that pid gets the status. -/
def record (pid : ℕ) (status : WaitStatus) : List Proc → List Proc
  | [] => []
  | p :: ps => if p.pid == pid then { p with status := some status } :: ps else p :: record pid status ps

/-- The job at `n` changes. -/
def modifyJob (s : JobTable) (n : ℕ) (f : Job → Job) : JobTable :=
  match s.heap.val n with
  | none => s
  | some j => { s with heap := s.heap.setVal n (f j) }

/-- `job_signal`. -/
def jobSignal (s : JobTable) (pid : ℕ) (status : WaitStatus) : Option JobTable := do
  match ← s.jobBypid pid with
  | none => some s
  | some n => some (s.modifyJob n fun j => { j with procs := record pid status j.procs })

/-- `job_resume`, but for the signal. -/
def jobResume (s : JobTable) (n : ℕ) : JobTable :=
  s.modifyJob n fun j => { j with
    announced := false
    procs := j.procs.map fun p => if p.status.any WaitStatus.isStopped then { p with status := none } else p }

end JobTable

/-- What may happen to the table. -/
inductive JobOp where
  | new (n nproc : ℕ)
  | free (n : ℕ)
  | clean
  | discard (level : ℕ)
  | setcurrent (n : ℕ)
  | signal (pid : ℕ) (status : WaitStatus)
  | subshell (level : ℕ)
  deriving DecidableEq

/-- A step; memory is allocated where there is no job. -/
def jobStep (s : JobTable) : JobOp → Option JobTable
  | .new n nproc => if (s.heap n).isSome then none else s.jobNew n nproc
  | .free n => s.jobFree n
  | .clean => s.jobClean
  | .discard level => s.jobDiscard level
  | .setcurrent n => s.jobSetcurrent n
  | .signal pid status => s.jobSignal pid status
  | .subshell level => some { s with subshell := level }

/-- The job that was last created or made current, unless it was freed since. -/
def madeLast (s s' : JobTable) (last : Option ℕ) : JobOp → Option ℕ
  | .new n _ => some n
  | .setcurrent n => if (s.heap n).isSome then some n else last
  | _ => last.filter fun n => (s'.heap n).isSome

/-- The same behind a run. -/
def lastMade : JobTable → Option ℕ → List JobOp → Option ℕ
  | _, last, [] => last
  | s, last, op :: ops =>
      match jobStep s op with
      | none => last
      | some s' => lastMade s' (madeLast s s' last op) ops

/-! ## The table in order -/

namespace JobTable

variable {s s' : JobTable} {l l₁ l₂ m₁ m₂ : List (ℕ × Job)} {x y : ℕ × Job} {cur cur' : Option ℕ}

/-- `job_pointer` is the slot of the current job, and null when there is none. -/
def Points (pointer : Option (Option ℕ)) (l : List (ℕ × Job)) : Option ℕ → Prop
  | none => l = [] ∧ pointer = none
  | some n => ∃ l₁ y l₂, l = l₁ ++ y :: l₂ ∧ y.1 = n ∧ pointer = some (l₁.map Prod.fst).getLast?

/-- **The table in order**: the jobs are a list in the order of their ids, there are no others, and
`job_pointer` is a slot of the list. -/
structure InOrder (s : JobTable) (l : List (ℕ × Job)) (cur : Option ℕ) : Prop where
  lists : s.heap.Lists s.jobList l
  ascending : (l.map fun x => x.2.id).Pairwise (· < ·)
  positive : ∀ x ∈ l, 0 < x.2.id
  live : ∀ n, (s.heap n).isSome → n ∈ l.map Prod.fst
  top : ∀ n, (s.heap n).isSome → n < s.top
  points : Points s.jobPointer l cur

/-- Two ways to cut a list at the same node are the same. -/
theorem cut_unique (hnd : ((l₁ ++ x :: l₂).map Prod.fst).Nodup) (heq : l₁ ++ x :: l₂ = m₁ ++ y :: m₂)
    (hxy : x.1 = y.1) : l₁ = m₁ ∧ x = y ∧ l₂ = m₂ := by
  induction l₁ generalizing m₁ with
  | nil =>
    cases m₁ with
    | nil => exact ⟨rfl, (List.cons.inj heq).1, (List.cons.inj heq).2⟩
    | cons z m₁ =>
      obtain ⟨rfl, rfl⟩ := List.cons.inj heq
      rw [List.nil_append, List.map_cons, List.nodup_cons] at hnd
      exact absurd (hxy ▸ List.mem_map_of_mem (by simp)) hnd.1
  | cons z l₁ ih =>
    cases m₁ with
    | nil =>
      obtain ⟨rfl, rfl⟩ := List.cons.inj heq
      rw [List.cons_append, List.map_cons, List.nodup_cons] at hnd
      exact absurd (hxy ▸ List.mem_map_of_mem (by simp)) hnd.1
    | cons z' m₁ =>
      obtain ⟨rfl, htail⟩ := List.cons.inj heq
      rw [List.cons_append, List.map_cons, List.nodup_cons] at hnd
      obtain ⟨rfl, hxy, rfl⟩ := ih hnd.2 htail
      exact ⟨rfl, hxy, rfl⟩

namespace InOrder

theorem length_le (h : s.InOrder l cur) : l.length ≤ s.top := h.lists.length_le h.top

theorem isSome_of_mem (h : s.InOrder l cur) (hx : x ∈ l) : (s.heap x.1).isSome :=
  h.lists.chain.live x.1 (List.mem_map_of_mem hx)

/-- The slots in front of two different nodes are different. -/
theorem slot_ne (h : s.InOrder l cur) (hl : l = l₁ ++ x :: l₂) (hm : l = m₁ ++ y :: m₂)
    (hne : x.1 ≠ y.1) : (l₁.map Prod.fst).getLast? ≠ (m₁.map Prod.fst).getLast? := by
  intro heq
  have hx := (hl ▸ h.lists).deref_eq
  have hy := (hm ▸ h.lists).deref_eq
  rw [heq, hy] at hx
  exact hne (Option.some.inj hx).symm

theorem current_eq (h : s.InOrder l cur) : s.current = cur := by
  have hp := h.points
  unfold current
  cases cur with
  | none =>
    rw [hp.2]
    rfl
  | some n =>
    obtain ⟨l₁, y, l₂, rfl, rfl, hslot⟩ := hp
    rw [hslot, Option.bind_some, h.lists.deref_eq]
    rfl

end InOrder

/-- The last job becomes the current one, if there is one. -/
theorem points_last (hl : s.heap.Lists s.jobList l) (hk : l.length ≤ s.top) : ∃ last cur,
    s.heap.lastSlot s.top none s.jobList = some last ∧ Points last l cur := by
  rcases List.eq_nil_or_concat' l with rfl | ⟨l, x, rfl⟩
  · have hnil : s.jobList = none := hl.chain
    refine ⟨none, none, ?_, rfl, rfl⟩
    rw [hnil]
    cases s.top <;> rfl
  · rw [List.length_append, List.length_singleton] at hk
    exact ⟨_, some x.1, hl.lastSlot_eq hk, l, x, [], rfl, rfl, rfl⟩

/-- The slot of the current job when another one is freed: it moves when it was the `next` of that. -/
theorem points_of_ne (hnd : ((l₁ ++ x :: l₂).map Prod.fst).Nodup) (heq : l₁ ++ x :: l₂ = m₁ ++ y :: m₂)
    (hne : y.1 ≠ x.1) : Points
      (if some (m₁.map Prod.fst).getLast? == some (some x.1) then some (l₁.map Prod.fst).getLast?
        else some (m₁.map Prod.fst).getLast?) (l₁ ++ l₂) (some y.1) := by
  rcases List.append_eq_append_iff.1 heq with ⟨t, rfl, hx⟩ | ⟨t, rfl, hy⟩
  · cases t with
    | nil => exact absurd (congrArg Prod.fst (List.cons.inj hx).1).symm hne
    | cons z t =>
      obtain ⟨rfl, rfl⟩ := List.cons.inj hx
      rcases List.eq_nil_or_concat' t with rfl | ⟨t, z, rfl⟩
      · refine ⟨l₁, y, m₂, rfl, rfl, ?_⟩
        simp
      · have hz : z.1 ≠ x.1 := by
          intro hzx
          rw [List.map_append, List.map_cons, List.nodup_middle, List.nodup_cons] at hnd
          exact hnd.1 (by simp [← hzx])
        refine ⟨l₁ ++ (t ++ [z]), y, m₂, by simp, rfl, ?_⟩
        have hlast : ((l₁ ++ x :: (t ++ [z])).map Prod.fst).getLast? = some z.1 := by
          simp [List.getLast?_append, List.getLast?_cons]
        have hlast' : ((l₁ ++ (t ++ [z])).map Prod.fst).getLast? = some z.1 := by
          simp [List.getLast?_append]
        rw [hlast, hlast']
        simp [hz]
  · cases t with
    | nil => exact absurd (congrArg Prod.fst (List.cons.inj hy).1) hne
    | cons z t =>
      obtain ⟨rfl, rfl⟩ := List.cons.inj hy
      refine ⟨m₁, y, t ++ l₂, by simp, rfl, ?_⟩
      have hno : (some (m₁.map Prod.fst).getLast? == some (some x.1)) = false := by
        rw [beq_eq_false_iff_ne]
        intro hlast
        have hmem := List.mem_of_getLast? (Option.some.inj hlast)
        rw [List.map_append, List.map_cons, List.nodup_middle, List.nodup_cons] at hnd
        exact hnd.1 (by simp [hmem])
      rw [hno, if_neg Bool.false_ne_true]

theorem noteFinished_eq (s : JobTable) (j : Job) :
    ∃ finished finishedN, s.noteFinished j = { s with finished, finishedN } := by
  unfold noteFinished
  split_ifs
  · induction j.procs generalizing s with
    | nil => exact ⟨_, _, rfl⟩
    | cons p ps ih =>
      obtain ⟨finished, finishedN, heq⟩ := ih { s with
        finished := Function.update s.finished (s.finishedN % 64) (p.pid, p.status)
        finishedN := s.finishedN + 1 }
      exact ⟨finished, finishedN, heq⟩
  · exact ⟨_, _, rfl⟩

/-- The jobs without the one that is freed. -/
theorem InOrder.freed (h : s.InOrder (l₁ ++ x :: l₂) cur) {c : Cell Job} (hc : s.heap x.1 = some c) :
    let r := s.heap.unlink s.jobList (l₁.map Prod.fst).getLast? c.next
    Heap.Lists (r.1.release x.1) r.2 (l₁ ++ l₂) ∧
      ∀ n, (r.1.release x.1 n).isSome → n ≠ x.1 ∧ (s.heap n).isSome := by
  have hun := h.lists.unlink
  rw [show (s.heap x.1).bind Cell.next = c.next by rw [hc]; rfl] at hun
  have hnot : x.1 ∉ (l₁ ++ l₂).map Prod.fst := by
    have hnd := h.lists.nodup
    rw [List.map_append, List.map_cons, List.nodup_middle, List.nodup_cons, ← List.map_append] at hnd
    exact hnd.1
  refine ⟨hun.1.release hnot, fun n hn => ?_⟩
  by_cases hnx : n = x.1
  · rw [hnx, Heap.release_self] at hn
    exact absurd hn nofun
  · rw [Heap.release_of_ne hnx] at hn
    exact ⟨hnx, by rwa [Heap.isSome_of_val (congrFun hun.2 n)] at hn⟩

theorem InOrder.unlinked (h : s.InOrder (l₁ ++ x :: l₂) cur) {c : Cell Job} (hc : s.heap x.1 = some c)
    {pointer : Option (Option ℕ)} (hp : Points pointer (l₁ ++ l₂) cur')
    (finished : ℕ → ℕ × Option WaitStatus) (finishedN : ℕ) :
    let r := s.heap.unlink s.jobList (l₁.map Prod.fst).getLast? c.next
    InOrder { s with
      heap := r.1.release x.1
      jobList := r.2
      jobPointer := pointer
      finished, finishedN } (l₁ ++ l₂) cur' := by
  have hsub : (l₁ ++ l₂).Sublist (l₁ ++ x :: l₂) :=
    (List.Sublist.refl l₁).append (List.sublist_cons_self x l₂)
  obtain ⟨hlists, hlive⟩ := h.freed hc
  refine ⟨hlists, h.ascending.sublist (hsub.map _), fun y hy => h.positive y (hsub.subset hy),
    fun n hn => ?_, fun n hn => h.top n (hlive n hn).2, hp⟩
  obtain ⟨hne, hn⟩ := hlive n hn
  have hmem := h.live n hn
  rw [List.map_append, List.map_cons, List.mem_append, List.mem_cons] at hmem
  rw [List.map_append, List.mem_append]
  rcases hmem with hmem | rfl | hmem
  · exact .inl hmem
  · exact absurd rfl hne
  · exact .inr hmem

/-- **A job is freed**: the current job stays, or the last one becomes it. -/
theorem InOrder.jobDelete (h : s.InOrder (l₁ ++ x :: l₂) cur) : ∃ s' cur',
    s.jobDelete (l₁.map Prod.fst).getLast? = some s' ∧ s'.InOrder (l₁ ++ l₂) cur' ∧
      s'.top = s.top ∧ ∀ n, cur = some n → n ≠ x.1 → cur' = some n := by
  obtain ⟨c, hc, hcx⟩ := Option.map_eq_some_iff.1 (h.lists.vals x (by simp))
  obtain ⟨finished, finishedN, hnote⟩ := noteFinished_eq s c.val
  have hderef : s.heap.deref s.jobList (l₁.map Prod.fst).getLast? = some x.1 := by
    rw [h.lists.deref_eq]
    rfl
  obtain ⟨hlists, hlive⟩ := h.freed hc
  unfold JobTable.jobDelete
  simp only [hderef, hc, hnote, Option.bind_eq_bind, Option.bind_some]
  by_cases hcur : s.jobPointer = some (l₁.map Prod.fst).getLast?
  · rw [if_pos (by simpa using hcur)]
    have hk : (l₁ ++ l₂).length ≤ s.top := hlists.length_le fun n hn => h.top n (hlive n hn).2
    obtain ⟨last, cur', hlast, hp⟩ := points_last (s := { s with
      heap := (s.heap.unlink s.jobList (l₁.map Prod.fst).getLast? c.next).1.release x.1
      jobList := (s.heap.unlink s.jobList (l₁.map Prod.fst).getLast? c.next).2 }) hlists hk
    refine ⟨_, cur', congrArg (Option.map _) hlast, h.unlinked hc hp finished finishedN, rfl, ?_⟩
    rintro n rfl hne
    obtain ⟨m₁, y, m₂, heq, rfl, hslot⟩ := h.points
    exact absurd (Option.some.inj (hcur.symm.trans hslot)) (h.slot_ne rfl heq (Ne.symm hne))
  · rw [if_neg (by simpa using hcur)]
    have hp := h.points
    cases cur with
    | none => exact absurd hp.1 (by simp)
    | some n =>
      obtain ⟨m₁, y, m₂, heq, rfl, hslot⟩ := hp
      have hne : y.1 ≠ x.1 := by
        intro hyx
        obtain ⟨rfl, -⟩ := cut_unique h.lists.nodup heq hyx.symm
        exact hcur hslot
      have hp := points_of_ne h.lists.nodup heq hne
      rw [← hslot] at hp
      exact ⟨_, some y.1, rfl, h.unlinked hc hp finished finishedN, rfl, fun n hn _ => hn⟩

/-- **`job_free`** of any job. -/
theorem InOrder.jobFree (h : s.InOrder l cur) (n : ℕ) : ∃ s' cur',
    s.jobFree n = some s' ∧ s'.InOrder (l.filter fun x => x.1 ≠ n) cur' ∧ s'.top = s.top ∧
      ∀ m, cur = some m → m ≠ n → cur' = some m := by
  unfold JobTable.jobFree
  by_cases hn : n ∈ l.map Prod.fst
  · obtain ⟨x, hx, rfl⟩ := List.mem_map.1 hn
    obtain ⟨l₁, l₂, rfl⟩ := List.append_of_mem hx
    obtain ⟨s', cur', hdel, hin, htop, hcur⟩ := h.jobDelete
    have hk : l₁.length < s.top := by
      have := h.length_le
      rw [List.length_append, List.length_cons] at this
      omega
    refine ⟨s', cur', ?_, ?_, htop, hcur⟩
    · rw [h.lists.findNode_eq hk]
      exact hdel
    · have hnd := h.lists.nodup
      rw [List.map_append, List.map_cons, List.nodup_middle, List.nodup_cons, ← List.map_append] at hnd
      have hall : ∀ y ∈ l₁ ++ l₂, decide (y.1 ≠ x.1) = true := fun y hy =>
        decide_eq_true fun heq => hnd.1 (heq ▸ List.mem_map_of_mem hy)
      rw [List.filter_append, List.filter_cons_of_neg (by simp), ← List.filter_append,
        List.filter_eq_self.2 hall]
      exact hin
  · refine ⟨s, cur, ?_, ?_, rfl, fun m hm _ => hm⟩
    · rw [h.lists.findNode_none hn h.length_le]
      rfl
    · have hall : ∀ y ∈ l, decide (y.1 ≠ n) = true := fun y hy =>
        decide_eq_true fun heq => hn (heq ▸ List.mem_map_of_mem hy)
      rwa [List.filter_eq_self.2 hall]

/-- **A walk that frees jobs** frees those that pass the test. -/
theorem InOrder.freeAll (q : Job → Bool) : ∀ {suf pre : List (ℕ × Job)} {s : JobTable} {cur : Option ℕ}
    {k : ℕ}, s.InOrder (pre ++ suf) cur → suf.length ≤ k → ∃ s' cur',
      freeAll q k (suf.map Prod.fst).head? s = some s' ∧
      s'.InOrder (pre ++ suf.filter fun x => !q x.2) cur' ∧
      ∀ m, cur = some m → (s'.heap m).isSome → cur' = some m
  | [], pre, s, cur, k, h, _ => ⟨s, cur, by cases k <;> rfl, h, fun m hm _ => hm⟩
  | x :: suf, pre, s, cur, 0, _, hk => absurd hk (by simp)
  | x :: suf, pre, s, cur, k + 1, h, hk => by
      obtain ⟨c, hc, hcx⟩ := Option.map_eq_some_iff.1 (h.lists.vals x (by simp))
      have hnext : c.next = (suf.map Prod.fst).head? := by
        have hsplit : pre ++ x :: suf = (pre ++ [x]) ++ suf := by simp
        have hd := (hsplit ▸ h.lists).deref_eq
        rw [List.map_append, List.map_singleton, List.getLast?_concat, Heap.deref, hc] at hd
        exact hd
      have hk : suf.length ≤ k := by simpa using hk
      rw [List.map_cons, List.head?_cons, JobTable.freeAll, hc, Option.bind_eq_bind, Option.bind_some,
        hcx, hnext]
      cases hq : q x.2 with
      | true =>
        obtain ⟨s₁, cur₁, hfree, hin, -, hcur⟩ := h.jobFree x.1
        have hrest : (pre ++ x :: suf).filter (fun y => decide (y.1 ≠ x.1)) = pre ++ suf := by
          have hnd := h.lists.nodup
          rw [List.map_append, List.map_cons, List.nodup_middle, List.nodup_cons,
            ← List.map_append] at hnd
          have hall : ∀ y ∈ pre ++ suf, decide (y.1 ≠ x.1) = true := fun y hy =>
            decide_eq_true fun heq => hnd.1 (heq ▸ List.mem_map_of_mem hy)
          rw [List.filter_append, List.filter_cons_of_neg (by simp), ← List.filter_append,
            List.filter_eq_self.2 hall]
        rw [hrest] at hin
        obtain ⟨s', cur', hall, hin', hcur'⟩ := hin.freeAll q hk
        refine ⟨s', cur', ?_, ?_, fun m hm hlive => ?_⟩
        · rw [if_pos rfl, hfree]
          exact hall
        · rw [List.filter_cons_of_neg (by simp [hq])]
          exact hin'
        · refine hcur' m (hcur m hm fun hmx => ?_) hlive
          have hmem := hin'.live m hlive
          obtain ⟨y, hy, rfl⟩ := List.mem_map.1 hmem
          have hy : y ∈ pre ++ suf := by
            rcases List.mem_append.1 hy with hy | hy
            · exact List.mem_append_left _ hy
            · exact List.mem_append_right _ (List.mem_filter.1 hy).1
          have hnd := h.lists.nodup
          rw [List.map_append, List.map_cons, List.nodup_middle, List.nodup_cons,
            ← List.map_append] at hnd
          exact hnd.1 (hmx ▸ List.mem_map_of_mem hy)
      | false =>
        have hsplit : pre ++ x :: suf = (pre ++ [x]) ++ suf := by simp
        obtain ⟨s', cur', hall, hin', hcur'⟩ := (hsplit ▸ h).freeAll q hk
        refine ⟨s', cur', ?_, ?_, hcur'⟩
        · rw [if_neg Bool.false_ne_true]
          exact hall
        · rw [List.filter_cons_of_pos (by simp [hq])]
          simpa using hin'

theorem InOrder.freeAll_list (h : s.InOrder l cur) (q : Job → Bool) : ∃ s' cur',
    JobTable.freeAll q s.top s.jobList s = some s' ∧ s'.InOrder (l.filter fun x => !q x.2) cur' ∧
      ∀ m, cur = some m → (s'.heap m).isSome → cur' = some m := by
  have hhead : s.jobList = (l.map Prod.fst).head? := h.lists.chain.head?_eq
  rw [hhead]
  rw [← List.nil_append l] at h
  exact InOrder.freeAll q h h.length_le

/-- **The current job is another one.** -/
theorem InOrder.jobSetcurrent (h : s.InOrder l cur) (n : ℕ) : ∃ s', s.jobSetcurrent n = some s' ∧
    s'.InOrder l (if (s.heap n).isSome then some n else cur) := by
  unfold JobTable.jobSetcurrent
  by_cases hn : n ∈ l.map Prod.fst
  · obtain ⟨x, hx, rfl⟩ := List.mem_map.1 hn
    obtain ⟨l₁, l₂, rfl⟩ := List.append_of_mem hx
    have hk : l₁.length < s.top := by
      have := h.length_le
      rw [List.length_append, List.length_cons] at this
      omega
    rw [h.lists.findNode_eq hk, if_pos (h.isSome_of_mem hx)]
    exact ⟨_, rfl, h.lists, h.ascending, h.positive, h.live, h.top, l₁, x, l₂, rfl, rfl, rfl⟩
  · rw [h.lists.findNode_none hn h.length_le, if_neg fun hlive => hn (h.live n hlive)]
    exact ⟨s, rfl, h⟩

/-- **The slot of a new job**: the ids in front of it are taken without a gap, and those behind it are
larger. -/
theorem newSlot_eq {h : Heap Job} : ∀ {l : List (ℕ × Job)} {p : Option ℕ} {k id : ℕ} (slot : Option ℕ),
    h.Chain p (l.map Prod.fst) → (∀ x ∈ l, h.val x.1 = some x.2) →
    (l.map fun x => x.2.id).Pairwise (· < ·) → (∀ x ∈ l, id ≤ x.2.id) → l.length ≤ k →
    ∃ l₁ l₂, l = l₁ ++ l₂ ∧
      newSlot h k id slot p = some (id + l₁.length, (l₁.map Prod.fst).getLast?.or slot) ∧
      (∀ i, id ≤ i → i < id + l₁.length → ∃ x ∈ l₁, x.2.id = i) ∧
      (∀ x ∈ l₁, x.2.id < id + l₁.length) ∧ ∀ x ∈ l₂, id + l₁.length < x.2.id
  | [], p, k, id, slot, hc, _, _, _, _ => by
      obtain rfl := hc
      refine ⟨[], [], rfl, by cases k <;> rfl, fun i hi hlt => ?_, nofun, nofun⟩
      rw [List.length_nil] at hlt
      omega
  | x :: l, p, 0, id, slot, _, _, _, _, hk => absurd hk (by simp)
  | x :: l, p, k + 1, id, slot, hc, hv, hs, hle, hk => by
      obtain ⟨rfl, c, hn, hc⟩ := hc
      have hcx : c.val = x.2 := by
        have hval := hv x (List.mem_cons_self ..)
        rw [Heap.val, hn] at hval
        exact Option.some.inj hval
      rw [List.forall_mem_cons] at hv hle
      rw [List.map_cons, List.pairwise_cons] at hs
      have hlt : ∀ y ∈ l, x.2.id < y.2.id := fun y hy => hs.1 _ (List.mem_map_of_mem hy)
      rw [newSlot, hn, Option.bind_some, hcx]
      split_ifs with hid
      · refine ⟨[], x :: l, rfl, rfl, fun i hi hlt => ?_, nofun, fun y hy => ?_⟩
        · rw [List.length_nil] at hlt
          omega
        · have hx := hle.1
          rw [List.length_nil]
          rcases List.mem_cons.1 hy with rfl | hy
          · omega
          · have := hlt y hy
            omega
      · have hid : x.2.id = id := by simpa using hid
        obtain ⟨l₁, l₂, rfl, hslot, hgap, hfront, hbehind⟩ := newSlot_eq (some x.1) hc hv.2 hs.2
          (fun y hy => Nat.succ_le_of_lt (hid ▸ hlt y hy)) (Nat.le_of_succ_le_succ hk)
        have hlen : id + (x :: l₁).length = id + 1 + l₁.length := by
          rw [List.length_cons]
          omega
        refine ⟨x :: l₁, l₂, rfl, ?_, fun i hi hlt => ?_, fun y hy => ?_, fun y hy => ?_⟩
        · rw [hslot, hlen]
          congr 2
          cases l₁ <;> simp [List.getLast?_cons]
        · rcases Nat.eq_or_lt_of_le hi with rfl | hi
          · exact ⟨x, List.mem_cons_self .., hid⟩
          · obtain ⟨y, hy, heq⟩ := hgap i hi (by omega)
            exact ⟨y, List.mem_cons_of_mem _ hy, heq⟩
        · rcases List.mem_cons.1 hy with rfl | hy
          · omega
          · have := hfront y hy
            omega
        · have := hbehind y hy
          omega

/-- **`job_new`**: the id is the first one that is free. -/
theorem InOrder.jobNew (h : s.InOrder l cur) {n : ℕ} (hn : ¬ (s.heap n).isSome) (nproc : ℕ) :
    ∃ s' j l₁ l₂, s.jobNew n nproc = some s' ∧ l = l₁ ++ l₂ ∧
      s'.InOrder (l₁ ++ (n, j) :: l₂) (some n) ∧ j.procs = List.replicate nproc {} ∧
      0 < j.id ∧ (∀ x ∈ l, x.2.id ≠ j.id) ∧ ∀ i, 0 < i → i < j.id → ∃ x ∈ l, x.2.id = i := by
  obtain ⟨l₁, l₂, rfl, hslot, hgap, hfront, hbehind⟩ := newSlot_eq none h.lists.chain h.lists.vals
    h.ascending (fun x hx => h.positive x hx) h.length_le
  rw [Option.or_none] at hslot
  have hnot : n ∉ (l₁ ++ l₂).map Prod.fst := fun hmem => hn (h.lists.chain.live n hmem)
  obtain ⟨hlists, hlive⟩ := h.lists.insertAt hnot
    { id := 1 + l₁.length, level := s.subshell, procs := List.replicate nproc {} : Job }
  unfold JobTable.jobNew
  rw [hslot]
  refine ⟨_, _, l₁, l₂, rfl, rfl, ⟨hlists, ?_, ?_, fun m hm => ?_, fun m hm => ?_, l₁, _, l₂, rfl, rfl, rfl⟩,
    rfl, (by omega : 0 < 1 + l₁.length), fun x hx => ?_, fun i hi hlt => ?_⟩
  · have hasc := h.ascending
    rw [List.map_append, List.pairwise_append] at hasc
    rw [List.map_append, List.map_cons, List.pairwise_append, List.pairwise_cons]
    refine ⟨hasc.1, ⟨fun i hi => ?_, hasc.2.1⟩, fun i hi k hk => ?_⟩
    · obtain ⟨x, hx, rfl⟩ := List.mem_map.1 hi
      exact hbehind x hx
    · obtain ⟨x, hx, rfl⟩ := List.mem_map.1 hi
      rcases List.mem_cons.1 hk with rfl | hk
      · exact hfront x hx
      · exact hasc.2.2 _ hi k hk
  · intro x hx
    rw [List.mem_append, List.mem_cons] at hx
    rcases hx with hx | rfl | hx
    · exact h.positive x (List.mem_append_left _ hx)
    · exact (by omega : 0 < 1 + l₁.length)
    · exact h.positive x (List.mem_append_right _ hx)
  · by_cases hmn : m = n
    · simp [hmn]
    · have hmem := h.live m (by rwa [← hlive m hmn])
      rw [List.map_append, List.mem_append] at hmem
      rw [List.map_append, List.map_cons, List.mem_append, List.mem_cons]
      rcases hmem with hmem | hmem
      · exact .inl hmem
      · exact .inr (.inr hmem)
  · change m < max s.top (n + 1)
    by_cases hmn : m = n
    · omega
    · have := h.top m (by rwa [← hlive m hmn])
      omega
  · rcases List.mem_append.1 hx with hx | hx
    · exact Nat.ne_of_lt (hfront x hx)
    · exact Nat.ne_of_gt (hbehind x hx)
  · obtain ⟨x, hx, heq⟩ := hgap i hi hlt
    exact ⟨x, List.mem_append_left _ hx, heq⟩

theorem points_congr {l' : List (ℕ × Job)} {pointer : Option (Option ℕ)}
    (hmap : l.map Prod.fst = l'.map Prod.fst) (h : Points pointer l cur) : Points pointer l' cur := by
  cases cur with
  | none =>
    obtain ⟨rfl, hp⟩ := h
    exact ⟨List.map_eq_nil_iff.1 hmap.symm, hp⟩
  | some n =>
    obtain ⟨m₁, y, m₂, rfl, rfl, hp⟩ := h
    rw [List.map_append, List.map_cons] at hmap
    obtain ⟨m₁', t, rfl, hm₁, ht⟩ := List.map_eq_append_iff.1 hmap.symm
    obtain ⟨z, m₂', rfl, hz, -⟩ := List.map_eq_cons_iff.1 ht
    exact ⟨m₁', z, m₂', rfl, hz, by rw [hm₁, hp]⟩

/-- A job changes, and keeps its id. -/
theorem InOrder.modifyJob (h : s.InOrder (l₁ ++ x :: l₂) cur) {f : Job → Job} (hid : (f x.2).id = x.2.id) :
    (s.modifyJob x.1 f).InOrder (l₁ ++ (x.1, f x.2) :: l₂) cur := by
  have hlists := h.lists.setVal (f x.2)
  have hmap : (l₁ ++ (x.1, f x.2) :: l₂).map Prod.fst = (l₁ ++ x :: l₂).map Prod.fst := by simp
  have hids : (l₁ ++ (x.1, f x.2) :: l₂).map (fun y => y.2.id) =
      (l₁ ++ x :: l₂).map fun y => y.2.id := by simp [hid]
  have hsome : ∀ n, (s.heap.setVal x.1 (f x.2) n).isSome = (s.heap n).isSome := fun n => by
    by_cases hn : n = x.1
    · rw [hn, Heap.setVal, Function.update_self, Option.isSome_map]
    · rw [Heap.setVal, Function.update_of_ne hn]
  unfold JobTable.modifyJob
  rw [h.lists.vals x (by simp)]
  refine ⟨hlists, hids ▸ h.ascending, fun y hy => ?_, fun n hn => ?_, fun n hn => ?_, ?_⟩
  · have hmem : y.2.id ∈ (l₁ ++ x :: l₂).map fun y => y.2.id := hids ▸ List.mem_map_of_mem hy
    obtain ⟨z, hz, heq⟩ := List.mem_map.1 hmem
    rw [← heq]
    exact h.positive z hz
  · rw [hmap]
    exact h.live n (by rwa [← hsome n])
  · exact h.top n (by rwa [← hsome n])
  · exact points_congr hmap.symm h.points

/-- The first job with a process of that pid gets the status. -/
def recordIn (pid : ℕ) (status : WaitStatus) : List (ℕ × Job) → List (ℕ × Job)
  | [] => []
  | x :: l =>
      if x.2.procs.any (·.pid == pid) then
        (x.1, { x.2 with procs := record pid status x.2.procs }) :: l
      else x :: recordIn pid status l

theorem recordIn_none {pid : ℕ} {status : WaitStatus} :
    ∀ {l : List (ℕ × Job)}, l.find? (fun x => x.2.procs.any (·.pid == pid)) = none →
      recordIn pid status l = l
  | [], _ => rfl
  | x :: l, h => by
      rw [List.find?_cons] at h
      cases hx : x.2.procs.any (·.pid == pid) with
      | true => simp [hx] at h
      | false =>
        rw [hx] at h
        rw [recordIn, if_neg (by simp [hx]), recordIn_none h]

theorem recordIn_append {pid : ℕ} {status : WaitStatus} (hx : x.2.procs.any (·.pid == pid)) :
    ∀ {l₁ : List (ℕ × Job)}, (∀ y ∈ l₁, y.2.procs.any (·.pid == pid) = false) →
      recordIn pid status (l₁ ++ x :: l₂) =
        l₁ ++ (x.1, { x.2 with procs := record pid status x.2.procs }) :: l₂
  | [], _ => by rw [List.nil_append, recordIn, if_pos hx, List.nil_append]
  | y :: l₁, h => by
      rw [List.forall_mem_cons] at h
      rw [List.cons_append, recordIn, if_neg (by simp [h.1]), recordIn_append hx h.2, List.cons_append]

theorem fst_recordIn (pid : ℕ) (status : WaitStatus) :
    ∀ l : List (ℕ × Job), (recordIn pid status l).map Prod.fst = l.map Prod.fst
  | [] => rfl
  | x :: l => by
      rw [recordIn]
      split_ifs
      · rfl
      · rw [List.map_cons, List.map_cons, fst_recordIn pid status l]

theorem modifyJob_eq {n : ℕ} {j : Job} (h : s.heap.val n = some j) (f : Job → Job) :
    s.modifyJob n f = { s with heap := s.heap.setVal n (f j) } := by
  unfold modifyJob
  rw [h]

theorem InOrder.isSome_iff (h : s.InOrder l cur) {n : ℕ} : (s.heap n).isSome ↔ n ∈ l.map Prod.fst :=
  ⟨h.live n, h.lists.chain.live n⟩

/-- **A status is recorded** in the first process with that pid, or nowhere. -/
theorem InOrder.jobSignal_eq (h : s.InOrder l cur) (pid : ℕ) (status : WaitStatus) : ∃ s',
    s.jobSignal pid status = some s' ∧ s'.InOrder (recordIn pid status l) cur ∧
      ∃ heap, s' = { s with heap } := by
  have hfind : s.jobBypid pid = some ((l.find? fun x => x.2.procs.any (·.pid == pid)).map Prod.fst) :=
    h.lists.find_eq h.length_le
  unfold JobTable.jobSignal
  rw [hfind]
  cases hx : l.find? fun x => x.2.procs.any (·.pid == pid) with
  | none =>
    rw [recordIn_none hx]
    exact ⟨s, rfl, h, s.heap, rfl⟩
  | some x =>
    obtain ⟨hq, l₁, l₂, rfl, hall⟩ := List.find?_eq_some_iff_append.1 hx
    rw [recordIn_append hq fun y hy => by simpa using hall y hy]
    exact ⟨_, rfl, h.modifyJob rfl, _, modifyJob_eq (h.lists.vals x (by simp)) _⟩

theorem InOrder.jobSignal (h : s.InOrder l cur) (pid : ℕ) (status : WaitStatus) : ∃ s' l',
    s.jobSignal pid status = some s' ∧ s'.InOrder l' cur ∧ ∀ n, (s'.heap n).isSome = (s.heap n).isSome := by
  obtain ⟨s', hs, hin, -⟩ := h.jobSignal_eq pid status
  refine ⟨s', _, hs, hin, fun n => ?_⟩
  rw [Bool.eq_iff_iff, hin.isSome_iff, h.isSome_iff, fst_recordIn]

/-! ## Runs -/

theorem inOrder_nil : InOrder {} [] none :=
  ⟨⟨rfl, nofun, List.nodup_nil⟩, List.Pairwise.nil, nofun, nofun, nofun, rfl, rfl⟩

/-- **One step**: the table stays in order, and the job last created or made current is the current
one while it is there. -/
theorem InOrder.step (h : s.InOrder l cur) {last : Option ℕ} (hlast : ∀ n, last = some n → cur = some n)
    {op : JobOp} (hstep : jobStep s op = some s') : ∃ l' cur', s'.InOrder l' cur' ∧
      ∀ n, madeLast s s' last op = some n → cur' = some n := by
  have hfilter : ∀ {s₁ : JobTable} {cur₁ : Option ℕ},
      (∀ m, cur = some m → (s₁.heap m).isSome → cur₁ = some m) →
      ∀ n, last.filter (fun n => (s₁.heap n).isSome) = some n → cur₁ = some n := by
    intro s₁ cur₁ hcur n hn
    obtain ⟨hn, hlive⟩ := Option.filter_eq_some_iff.1 hn
    exact hcur n (hlast n hn) hlive
  cases op with
  | new n nproc =>
    rw [jobStep] at hstep
    split_ifs at hstep with hlive
    obtain ⟨s₁, j, l₁, l₂, hnew, rfl, hin, -⟩ := h.jobNew hlive nproc
    obtain rfl := Option.some.inj (hnew.symm.trans hstep)
    exact ⟨_, _, hin, fun m hm => hm⟩
  | free n =>
    obtain ⟨s₁, cur₁, hfree, hin, -, hcur⟩ := h.jobFree n
    obtain rfl := Option.some.inj (hfree.symm.trans hstep)
    refine ⟨_, _, hin, hfilter fun m hm hlive => hcur m hm fun hmn => ?_⟩
    have hmem := hin.live m hlive
    obtain ⟨y, hy, rfl⟩ := List.mem_map.1 hmem
    exact (of_decide_eq_true (List.mem_filter.1 hy).2) hmn
  | clean =>
    obtain ⟨s₁, cur₁, hfree, hin, hcur⟩ := h.freeAll_list Job.done
    obtain rfl := Option.some.inj (hfree.symm.trans hstep)
    exact ⟨_, _, hin, hfilter hcur⟩
  | discard level =>
    obtain ⟨s₁, cur₁, hfree, hin, hcur⟩ := h.freeAll_list fun j => decide (level < j.level)
    obtain rfl := Option.some.inj (hfree.symm.trans hstep)
    exact ⟨_, _, hin, hfilter hcur⟩
  | setcurrent n =>
    obtain ⟨s₁, hset, hin⟩ := h.jobSetcurrent n
    obtain rfl := Option.some.inj (hset.symm.trans hstep)
    refine ⟨_, _, hin, fun m hm => ?_⟩
    rw [madeLast] at hm
    split_ifs at hm ⊢ with hlive
    · exact hm
    · exact hlast m hm
  | signal pid status =>
    obtain ⟨s₁, l₁, hsig, hin, -⟩ := h.jobSignal pid status
    obtain rfl := Option.some.inj (hsig.symm.trans hstep)
    exact ⟨_, _, hin, hfilter fun m hm _ => hm⟩
  | subshell level =>
    obtain rfl := Option.some.inj hstep
    exact ⟨l, cur, ⟨h.lists, h.ascending, h.positive, h.live, h.top, h.points⟩, hfilter fun m hm _ => hm⟩

theorem InOrder.run : ∀ (ops : List JobOp) {s s' : JobTable} {l : List (ℕ × Job)} {cur last : Option ℕ},
    s.InOrder l cur → (∀ n, last = some n → cur = some n) → runs jobStep s ops = some s' →
      ∃ l' cur', s'.InOrder l' cur' ∧ ∀ n, lastMade s last ops = some n → cur' = some n
  | [], s, s', l, cur, last, h, hlast, hrun => by
      obtain rfl := Option.some.inj hrun
      exact ⟨l, cur, h, hlast⟩
  | op :: ops, s, s', l, cur, last, h, hlast, hrun => by
      obtain ⟨s₁, hstep, hrun⟩ := Option.bind_eq_some_iff.1 hrun
      obtain ⟨l₁, cur₁, hin, hlast₁⟩ := h.step hlast hstep
      rw [lastMade, hstep]
      exact InOrder.run ops hin hlast₁ hrun

/-- **What the table is for**: `l` are the jobs and `last` the one last created or made current. -/
structure Orderly (s : JobTable) (l : List (ℕ × Job)) (last : Option ℕ) : Prop where
  lists : s.heap.Lists s.jobList l
  ascending : (l.map fun x => x.2.id).Pairwise (· < ·)
  null : s.jobPointer = none ↔ s.jobList = none
  slot : ∀ slot, s.jobPointer = some slot →
    ∃ l₁ x l₂, l = l₁ ++ x :: l₂ ∧ slot = (l₁.map Prod.fst).getLast?
  current : ∀ n, last = some n → s.current = some n
  smallest : ∀ n nproc s', jobStep s (.new n nproc) = some s' → ∃ j, s'.heap.val n = some j ∧
    0 < j.id ∧ (∀ x ∈ l, x.2.id ≠ j.id) ∧ ∀ i, 0 < i → i < j.id → ∃ x ∈ l, x.2.id = i
  total : ∀ op, jobStep s op = none → ∃ n nproc, op = .new n nproc ∧ (s.heap n).isSome

theorem InOrder.orderly (h : s.InOrder l cur) {last : Option ℕ}
    (hlast : ∀ n, last = some n → cur = some n) : s.Orderly l last where
  lists := h.lists
  ascending := h.ascending
  null := by
    have hp := h.points
    rw [h.lists.chain.head?_eq]
    cases cur with
    | none =>
      obtain ⟨rfl, hp⟩ := hp
      simp [hp]
    | some n =>
      obtain ⟨l₁, y, l₂, rfl, -, hp⟩ := hp
      simp [hp]
  slot slot hslot := by
    have hp := h.points
    cases cur with
    | none => exact absurd (hslot.symm.trans hp.2) nofun
    | some n =>
      obtain ⟨l₁, y, l₂, hl, -, hp⟩ := hp
      exact ⟨l₁, y, l₂, hl, Option.some.inj (hslot.symm.trans hp)⟩
  current n hn := h.current_eq.trans (hlast n hn)
  smallest n nproc s' hstep := by
    rw [jobStep] at hstep
    split_ifs at hstep with hlive
    obtain ⟨s₁, j, l₁, l₂, hnew, rfl, hin, -, hid⟩ := h.jobNew hlive nproc
    obtain rfl := Option.some.inj (hnew.symm.trans hstep)
    exact ⟨j, hin.lists.vals (n, j) (by simp), hid⟩
  total op hop := by
    cases op with
    | new n nproc =>
      refine ⟨n, nproc, rfl, ?_⟩
      by_contra hlive
      obtain ⟨s₁, j, l₁, l₂, hnew, -⟩ := h.jobNew hlive nproc
      rw [jobStep, if_neg hlive, hnew] at hop
      exact absurd hop nofun
    | free n =>
      obtain ⟨s₁, cur₁, hfree, -⟩ := h.jobFree n
      exact absurd (hfree.symm.trans hop) nofun
    | clean =>
      obtain ⟨s₁, cur₁, hfree, -⟩ := h.freeAll_list Job.done
      exact absurd (hfree.symm.trans hop) nofun
    | discard level =>
      obtain ⟨s₁, cur₁, hfree, -⟩ := h.freeAll_list fun j => decide (level < j.level)
      exact absurd (hfree.symm.trans hop) nofun
    | setcurrent n =>
      obtain ⟨s₁, hset, -⟩ := h.jobSetcurrent n
      exact absurd (hset.symm.trans hop) nofun
    | signal pid status =>
      obtain ⟨s₁, l₁, hsig, -⟩ := h.jobSignal pid status
      exact absurd (hsig.symm.trans hop) nofun
    | subshell level => exact absurd hop nofun

end JobTable

/-- **The table stays in order** in every run. -/
theorem jobs_orderly (ops : List JobOp) (s : JobTable) (h : runs jobStep {} ops = some s) :
    ∃ l, s.Orderly l (lastMade {} none ops) := by
  obtain ⟨l, cur, hin, hlast⟩ := JobTable.InOrder.run ops JobTable.inOrder_nil
    (fun n hn => absurd hn (Option.some_ne_none n).symm) h
  exact ⟨l, hin.orderly hlast⟩

/-- Three jobs; the second is freed, and its id is taken again while the third was made current. -/
theorem jobs_orderly_sample : ∃ s l, runs jobStep {} [.new 0 1, .new 1 1, .new 2 1, .free 1,
    .setcurrent 2, .new 3 1] = some s ∧ s.Orderly l (some 3) :=
  match h : runs jobStep {} [.new 0 1, .new 1 1, .new 2 1, .free 1, .setcurrent 2, .new 3 1] with
  | some s => (jobs_orderly _ s h).elim fun l hl => ⟨s, l, rfl, hl⟩
  | none => absurd (congrArg Option.isSome h) (by decide)

end Shish
