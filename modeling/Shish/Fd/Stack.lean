import Mathlib.Data.Int.Order.Basic
import Mathlib.Data.List.Count
import Shish.Lib.Intrusive
import Shish.Lib.Nested

/-!
# Fd/Stack — file descriptors, their levels and their numbers

A pushed `struct fd` stands on two lists at once: that of the level it was pushed on, sorted by
number, and the chain of its number in `fdtable`, the youngest first.  `fdstack_link` does not tell
the fd behind the new one where the pointer to it now lies.  As long as each fd is pushed onto a
level whose fds have no higher number, both lists are what `Scopes` says and every slot is restored
when a level is left (`fds_kept`).
-/

namespace Shish

/-! ## The model -/

/-- The fields of each `struct fd`, the lists of the levels (`list`, `next`, `link`), those of the
numbers (`fdtable`, `parent`, `pos`), and `fdstack` with its parents.  `pushes` counts the calls of
`fd_push`: no list is longer. -/
structure FdState where
  n : ℕ → ℤ := fun _ => 0
  stack : ℕ → Option ℕ := fun _ => none
  levels : Web ℕ := ⟨fun _ => none, fun _ => none, .next⟩
  table : Web ℤ := ⟨fun _ => none, fun _ => none, .next⟩
  fdstack : List ℕ := [0]
  fdtablePos : Slot ℤ := .head 0
  fdtableBottom : ℤ := 0
  fdtableTop : ℤ := 0
  pushes : ℕ := 0

namespace FdState

/-- `fdtable_link`. -/
def fdtableLink (s : FdState) (fd : ℕ) : FdState := { s with
  table := s.table.insert s.fdtablePos fd
  fdtableBottom := if s.fdtableBottom > s.n fd then s.n fd else s.fdtableBottom
  fdtableTop := if s.fdtableTop ≤ s.n fd then s.n fd + 1 else s.fdtableTop }

/-- `fdtable_unlink`. -/
def fdtableUnlink (s : FdState) (fd : ℕ) : FdState := { s with table := s.table.unlink fd }

/-- The loop of `fdstack_link`: the first slot that leads to a higher number, or nowhere. -/
def linkSlot (s : FdState) (n : ℤ) : ℕ → Slot ℕ → Option (Slot ℕ)
  | 0, _ => none
  | k + 1, link =>
      match s.levels.deref link with
      | none => some link
      | some next => if n < s.n next then some link else linkSlot s n k (.next next)

/-- `fdstack_link`; the fd behind the new one keeps its `link`. -/
def fdstackLink (s : FdState) (st fd : ℕ) : Option FdState :=
  (s.linkSlot (s.n fd) s.pushes (.head st)).map fun link => { s with
    levels := s.levels.link link fd
    stack := Function.update s.stack fd (some st) }

/-- `fdstack_unlink`. -/
def fdstackUnlink (s : FdState) (fd : ℕ) : FdState := { s with
  levels := s.levels.unlink fd
  stack := Function.update s.stack fd none }

/-- `fd_push`. -/
def fdPush (s : FdState) (d : ℕ) (n : ℤ) : Option FdState :=
  let s := { s with
    n := Function.update s.n d n
    fdtablePos := .head n
    pushes := s.pushes + 1 }
  let s := s.fdtableLink d
  s.fdstack.head?.bind fun st => s.fdstackLink st d

/-- `fd_pop` of a pointer that is not `NULL`. -/
def fdPop (s : FdState) (fd : ℕ) : FdState := (s.fdtableUnlink fd).fdstackUnlink fd

/-- `fdstack_push`. -/
def fdstackPush (s : FdState) (st : ℕ) : FdState := { s with
  levels := s.levels.store (.head st) none
  fdstack := st :: s.fdstack }

/-- The loop of `fdstack_pop`; the link is read before the fd is popped. -/
def popFrom : ℕ → Option ℕ → FdState → Option FdState
  | _, none, s => some s
  | 0, some _, _ => none
  | k + 1, some fd, s => popFrom k (s.levels.next fd) (s.fdPop fd)

/-- `fdstack_pop` of the current level; the root is never left. -/
def fdstackPop (s : FdState) : Option FdState :=
  match s.fdstack with
  | st :: parent :: rest =>
      (popFrom s.pushes (s.levels.head st) s).map fun s => { s with fdstack := parent :: rest }
  | _ => none

end FdState

inductive FdAct where
  | push (fd : ℕ) (n : ℤ)
  | pop (fd : ℕ)
  | enter (st : ℕ)
  | leave
  deriving DecidableEq

/-- A fd is pushed when it is not, and popped when it is; a level is entered once. -/
def FdState.step (s : FdState) : FdAct → Option FdState
  | .push fd n => if (s.stack fd).isSome then none else s.fdPush fd n
  | .pop fd => if (s.stack fd).isSome then some (s.fdPop fd) else none
  | .enter st => if st ∈ s.fdstack then none else some (s.fdstackPush st)
  | .leave => s.fdstackPop

/-! ## What it is for

The fds that were pushed and not yet popped, the youngest first. -/

structure OpenFd where
  fd : ℕ
  n : ℤ
  level : ℕ
  deriving DecidableEq

structure Scopes where
  fds : List OpenFd := []
  levels : List ℕ := [0]
  deriving DecidableEq

namespace Scopes

def step (a : Scopes) : FdAct → Option Scopes
  | .push fd n =>
      if ∃ e ∈ a.fds, e.fd = fd then none
      else a.levels.head?.map fun st => { a with fds := ⟨fd, n, st⟩ :: a.fds }
  | .pop fd =>
      if ∃ e ∈ a.fds, e.fd = fd then some { a with fds := a.fds.filter (·.fd ≠ fd) } else none
  | .enter st => if st ∈ a.levels then none else some { a with levels := st :: a.levels }
  | .leave =>
      match a.levels with
      | st :: parent :: rest => some ⟨a.fds.filter (·.level ≠ st), parent :: rest⟩
      | _ => none

/-- The fds of a level, the oldest first. -/
def onLevel (a : Scopes) (st : ℕ) : List ℕ := ((a.fds.filter (·.level = st)).map OpenFd.fd).reverse

/-- The fds of a number, the youngest first. -/
def onNumber (a : Scopes) (n : ℤ) : List ℕ := (a.fds.filter (·.n = n)).map OpenFd.fd

/-- A pushed fd's number is not below another one's on its level. -/
def Rising (a : Scopes) : FdAct → Prop
  | .push _ n => ∀ e ∈ a.fds, some e.level = a.levels.head? → e.n ≤ n
  | _ => True

instance (a : Scopes) (act : FdAct) : Decidable (a.Rising act) := by
  cases act <;> unfold Rising <;> infer_instance

end Scopes

namespace FdAct

def enters : FdAct → Bool
  | enter _ => true
  | _ => false

def leaves : FdAct → Bool
  | leave => true
  | _ => false

end FdAct

/-- A node stands once on the list of a key, and its back pointer leads to it. -/
def Web.Once {κ : Type*} (w : Web κ) (k : κ) (a : ℕ) : Prop :=
  (∃ as, w.Path (.head k) as ∧ as.count a = 1) ∧ w.deref (w.back a) = some a

/-- **Every fd that is pushed** stands once on its level's list and once on its number's. -/
def FdState.Listed (s : FdState) (a : Scopes) : Prop :=
  ∀ e ∈ a.fds, s.levels.Once e.level e.fd ∧ s.table.Once e.n e.fd

/-- **Every slot of `fdtable` is as it was**, unless its fd was popped between. -/
def FdState.Restored (s s' : FdState) (between : List FdAct) : Prop :=
  ∀ n, (s.table.head n = none → s'.table.head n = none) ∧
    ∀ fd, s.table.head n = some fd → .pop fd ∉ between → s'.table.head n = some fd

/-- What the acts promise once they are over: every open fd is on its lists, and when they end with
leaving a level, the slots are those in front of it. -/
def FdsKept (acts : List FdAct) (a : Scopes) : Prop :=
  ∃ s, runs FdState.step {} acts = some s ∧ s.Listed a ∧
    ∀ pre st body s₀, acts = pre ++ .enter st :: (body ++ [.leave]) →
      Balanced FdAct.enters FdAct.leaves body → runs FdState.step {} pre = some s₀ →
        s₀.Restored s body

/-! ## The lists are those of the scopes -/

/-- **The two families of lists** are those of the open fds. -/
structure FdState.Holds (s : FdState) (a : Scopes) : Prop where
  fdstack : s.fdstack = a.levels
  n : ∀ e ∈ a.fds, s.n e.fd = e.n
  stack : ∀ fd, (s.stack fd).isSome ↔ ∃ e ∈ a.fds, e.fd = fd
  nodup : (a.fds.map OpenFd.fd).Nodup
  levels : s.levels.Woven a.onLevel
  table : s.table.Woven a.onNumber
  inLevels : ∀ e ∈ a.fds, e.level ∈ a.levels
  root : a.levels ≠ []
  pushes : a.fds.length ≤ s.pushes

namespace FdState.Holds

variable {s : FdState} {a a' : Scopes} {fd st : ℕ} {n : ℤ}

theorem mem_onLevel : fd ∈ a.onLevel st ↔ ∃ e ∈ a.fds, e.level = st ∧ e.fd = fd := by
  simp [Scopes.onLevel, and_assoc]

theorem mem_onNumber : fd ∈ a.onNumber n ↔ ∃ e ∈ a.fds, e.n = n ∧ e.fd = fd := by
  simp [Scopes.onNumber, and_assoc]

theorem start : FdState.Holds {} {} where
  fdstack := rfl
  n := nofun
  stack fd := by simp
  nodup := List.nodup_nil
  levels := Web.Woven.empty _ fun _ => rfl
  table := Web.Woven.empty _ fun _ => rfl
  inLevels := nofun
  root := nofun
  pushes := Nat.le_refl 0

/-- The lists answer for every open fd. -/
theorem listed (h : s.Holds a) : s.Listed a := by
  intro e he
  have hlevel : e.fd ∈ a.onLevel e.level := mem_onLevel.2 ⟨e, he, rfl, rfl⟩
  have hnumber : e.fd ∈ a.onNumber e.n := mem_onNumber.2 ⟨e, he, rfl, rfl⟩
  refine ⟨⟨⟨_, (h.levels.threads _).path, ?_⟩, (h.levels.threads _).deref_back hlevel⟩,
    ⟨_, (h.table.threads _).path, ?_⟩, (h.table.threads _).deref_back hnumber⟩
  · exact List.count_eq_one_of_mem (h.levels.nodup _) hlevel
  · exact List.count_eq_one_of_mem (h.table.nodup _) hnumber

/-! ### `fd_push` -/

/-- A walk passes the fds with no higher number, and ends in front of the next one. -/
theorem linkSlot_eq {l₁ l₂ : List ℕ} {k : ℕ} {slot : Slot ℕ}
    (ht : s.levels.Threads slot (l₁ ++ l₂)) (hle : ∀ fd ∈ l₁, s.n fd ≤ n)
    (hlt : ∀ fd ∈ l₂.head?, n < s.n fd) (hk : l₁.length < k) :
    s.linkSlot n k slot = some (Web.after slot l₁) := by
  obtain ⟨k, rfl⟩ := Nat.exists_eq_add_of_lt (Nat.lt_of_le_of_lt (Nat.zero_le _) hk)
  rw [Nat.zero_add] at hk ⊢
  induction l₁ generalizing slot k with
  | nil =>
    have hd : s.levels.deref slot = l₂.head? := ht.deref_eq
    rw [linkSlot, hd]
    cases l₂ with
    | nil => rfl
    | cons fd l₂ => exact if_pos (hlt fd rfl)
  | cons fd l₁ ih =>
    obtain ⟨hd, -, ht⟩ := ht
    rw [List.forall_mem_cons] at hle
    obtain ⟨k, rfl⟩ := Nat.exists_eq_add_of_lt (Nat.lt_of_succ_lt_succ hk)
    rw [linkSlot, hd]
    simp only [if_neg (not_lt.2 hle.1)]
    exact ih ht hle.2 _ (by simpa using hk)

theorem length_onLevel_le (a : Scopes) (st : ℕ) : (a.onLevel st).length ≤ a.fds.length := by
  rw [Scopes.onLevel, List.length_reverse, List.length_map]
  exact List.length_filter_le ..

/-- **What `fd_push` changes**: the fd goes in front of its number, and behind the fds of the level
whose number is not higher. -/
theorem fdPush_eq {l₁ l₂ : List ℕ} (h : s.Holds a) (hnew : ¬∃ e ∈ a.fds, e.fd = fd)
    (hst : a.levels.head? = some st) (hl : a.onLevel st = l₁ ++ l₂)
    (hle : ∀ e ∈ a.fds, e.fd ∈ l₁ → e.n ≤ n) (hlt : ∀ e ∈ a.fds, e.fd ∈ l₂.head? → n < e.n) :
    ∃ s', s.fdPush fd n = some s' ∧ s'.fdstack = s.fdstack ∧ s'.n = Function.update s.n fd n ∧
      s'.stack = Function.update s.stack fd (some st) ∧
      s'.levels = s.levels.link (Web.after (.head st) l₁) fd ∧
      s'.table = s.table.insert (.head n) fd ∧ s'.pushes = s.pushes + 1 := by
  have hn : ∀ m ∈ l₁ ++ l₂, ∃ e ∈ a.fds, e.fd = m ∧ Function.update s.n fd n m = e.n := by
    intro m hm
    obtain ⟨e, he, -, rfl⟩ := mem_onLevel.1 (hl ▸ hm)
    refine ⟨e, he, rfl, ?_⟩
    rw [Function.update_of_ne fun heq => hnew ⟨e, he, heq⟩, h.n e he]
  have hlength : l₁.length < s.pushes + 1 := by
    have hle := Nat.le_trans (length_onLevel_le a st) h.pushes
    rw [hl, List.length_append] at hle
    omega
  set s₁ : FdState := FdState.fdtableLink { s with
    n := Function.update s.n fd n
    fdtablePos := .head n
    pushes := s.pushes + 1 } fd with hs₁
  have hslot : s₁.linkSlot n s₁.pushes (.head st) = some (Web.after (.head st) l₁) := by
    have hthreads : s₁.levels.Threads (.head st) (l₁ ++ l₂) := hl ▸ h.levels.threads st
    refine linkSlot_eq hthreads (fun m hm => ?_) (fun m hm => ?_) hlength
    · obtain ⟨e, he, rfl, heq⟩ := hn m (List.mem_append_left _ hm)
      exact le_of_eq_of_le heq (hle e he hm)
    · obtain ⟨e, he, rfl, heq⟩ := hn m (List.mem_append_right _ (List.mem_of_mem_head? hm))
      exact lt_of_lt_of_eq (hlt e he hm) heq.symm
  have hhead : s₁.fdstack.head? = some st := h.fdstack ▸ hst
  have hself : s₁.n fd = n := Function.update_self ..
  have hpush : s.fdPush fd n = some { s₁ with
      levels := s₁.levels.link (Web.after (.head st) l₁) fd
      stack := Function.update s₁.stack fd (some st) } := by
    rw [FdState.fdPush, ← hs₁, hhead, Option.bind_some, fdstackLink, hself, hslot]
    rfl
  exact ⟨_, hpush, rfl, rfl, rfl, rfl, rfl, rfl⟩

theorem onLevel_push (a : Scopes) (fd : ℕ) (n : ℤ) (st : ℕ) :
    { a with fds := ⟨fd, n, st⟩ :: a.fds }.onLevel =
      Function.update a.onLevel st (a.onLevel st ++ [fd]) := by
  funext st'
  by_cases hst : st' = st
  · subst hst
    simp [Scopes.onLevel]
  · rw [Function.update_of_ne hst]
    simp [Scopes.onLevel, Ne.symm hst]

theorem onNumber_push (a : Scopes) (fd : ℕ) (n : ℤ) (st : ℕ) :
    { a with fds := ⟨fd, n, st⟩ :: a.fds }.onNumber =
      Function.update a.onNumber n (fd :: a.onNumber n) := by
  funext m
  by_cases hm : m = n
  · subst hm
    simp [Scopes.onNumber]
  · rw [Function.update_of_ne hm]
    simp [Scopes.onNumber, Ne.symm hm]

theorem not_mem_lists (hnew : ¬∃ e ∈ a.fds, e.fd = fd) :
    (∀ st, fd ∉ a.onLevel st) ∧ ∀ n, fd ∉ a.onNumber n := by
  refine ⟨fun st hmem => ?_, fun n hmem => ?_⟩
  · obtain ⟨e, he, -, heq⟩ := mem_onLevel.1 hmem
    exact hnew ⟨e, he, heq⟩
  · obtain ⟨e, he, -, heq⟩ := mem_onNumber.1 hmem
    exact hnew ⟨e, he, heq⟩

/-- **`fd_push`** puts the fd at the end of its level when no number there is higher. -/
theorem fdPush (h : s.Holds a) (hnew : ¬∃ e ∈ a.fds, e.fd = fd) (hst : a.levels.head? = some st)
    (hrise : a.Rising (.push fd n)) :
    ∃ s', s.fdPush fd n = some s' ∧ s'.Holds { a with fds := ⟨fd, n, st⟩ :: a.fds } := by
  obtain ⟨s', hs', hfdstack, hn, hstack, hlevels, htable, hpushes⟩ :=
    h.fdPush_eq (n := n) hnew hst (List.append_nil _).symm
      (fun e he hmem => by
        obtain ⟨e', he', hst', heq⟩ := mem_onLevel.1 hmem
        obtain rfl := List.inj_on_of_nodup_map h.nodup he' he heq
        exact hrise e' he (hst' ▸ hst.symm))
      nofun
  obtain ⟨hlevel, hnumber⟩ := not_mem_lists hnew
  refine ⟨s', hs', ?_, ?_, fun m => ?_, ?_, ?_, ?_, ?_, h.root, ?_⟩
  · rw [hfdstack, h.fdstack]
  · rw [hn]
    refine List.forall_mem_cons.2 ⟨Function.update_self .., fun e he => ?_⟩
    rw [Function.update_of_ne fun heq => hnew ⟨e, he, heq⟩, h.n e he]
  · rw [hstack, Function.update_apply, List.exists_mem_cons_iff]
    split
    · next heq => exact ⟨fun _ => .inl heq.symm, fun _ => rfl⟩
    · next hne =>
      rw [h.stack]
      exact ⟨.inr, fun hor => hor.resolve_left (Ne.symm hne)⟩
  · refine List.nodup_cons.2 ⟨fun hmem => ?_, h.nodup⟩
    obtain ⟨e, he, heq⟩ := List.mem_map.1 hmem
    exact hnew ⟨e, he, heq⟩
  · rw [hlevels, onLevel_push]
    exact h.levels.link_last hlevel
  · rw [htable, onNumber_push]
    exact h.table.insert_head hnumber
  · exact List.forall_mem_cons.2 ⟨List.mem_of_mem_head? hst, h.inLevels⟩
  · rw [hpushes]
    exact Nat.succ_le_succ h.pushes

/-- **A push in front of a higher number** leaves that fd's `link` where it was. -/
theorem fdPush_falling (h : s.Holds a) (hnew : ¬∃ e ∈ a.fds, e.fd = fd)
    (hst : a.levels.head? = some st) (hfall : ¬a.Rising (.push fd n)) :
    ∃ s', s.fdPush fd n = some s' ∧ ¬s'.Listed { a with fds := ⟨fd, n, st⟩ :: a.fds } := by
  simp only [Scopes.Rising, not_forall, not_le] at hfall
  obtain ⟨e, he, hest, hen⟩ := hfall
  have hmem : e.fd ∈ a.onLevel st :=
    mem_onLevel.2 ⟨e, he, Option.some.inj (hest.trans hst), rfl⟩
  have hfind : ((a.onLevel st).find? fun m => decide (n < s.n m)).isSome :=
    List.find?_isSome.2 ⟨e.fd, hmem, decide_eq_true (h.n e he ▸ hen)⟩
  obtain ⟨m, hm⟩ := Option.isSome_iff_exists.1 hfind
  obtain ⟨hlt, l₁, l₂, hl, hle⟩ := List.find?_eq_some_iff_append.1 hm
  obtain ⟨s', hs', -, -, -, hlevels, -, -⟩ := h.fdPush_eq (n := n) hnew hst hl
    (fun e he hmem => not_lt.1 (by simpa [h.n e he] using hle e.fd hmem))
    (fun e he hmem => by
      obtain rfl := Option.some.inj hmem
      exact h.n e he ▸ of_decide_eq_true hlt)
  refine ⟨s', hs', fun hlisted => ?_⟩
  obtain ⟨e, he, -, rfl⟩ := mem_onLevel.1 (hl ▸ List.mem_append_right l₁ List.mem_cons_self)
  have hthreads := h.levels.threads st
  rw [hl] at hthreads
  obtain ⟨-, -, hback, -⟩ := Web.threads_append.1 hthreads
  have honce := (hlisted e (List.mem_cons_of_mem _ he)).1.2
  rw [hlevels, Web.back_link, if_neg fun heq => hnew ⟨e, he, heq⟩, hback, Web.deref_link,
    if_pos rfl] at honce
  exact hnew ⟨e, he, (Option.some.inj honce).symm⟩

/-! ### `fd_pop` and the levels -/

theorem onLevel_pop (a : Scopes) (fd : ℕ) :
    { a with fds := a.fds.filter (·.fd ≠ fd) }.onLevel = fun st => (a.onLevel st).filter (· ≠ fd) := by
  funext st
  simp only [Scopes.onLevel, List.filter_reverse, List.filter_map, List.filter_filter]
  exact congrArg (fun l => (List.map OpenFd.fd l).reverse)
    (List.filter_congr fun e _ => Bool.and_comm ..)

theorem onNumber_pop (a : Scopes) (fd : ℕ) :
    { a with fds := a.fds.filter (·.fd ≠ fd) }.onNumber = fun n => (a.onNumber n).filter (· ≠ fd) := by
  funext n
  simp only [Scopes.onNumber, List.filter_map, List.filter_filter]
  exact congrArg (List.map OpenFd.fd) (List.filter_congr fun e _ => Bool.and_comm ..)

/-- **`fd_pop`** takes the fd off both lists. -/
theorem fdPop (h : s.Holds a) (hfd : ∃ e ∈ a.fds, e.fd = fd) :
    (s.fdPop fd).Holds { a with fds := a.fds.filter (·.fd ≠ fd) } := by
  obtain ⟨e, he, rfl⟩ := hfd
  have hsub : (a.fds.filter (·.fd ≠ e.fd)).Sublist a.fds := List.filter_sublist
  refine ⟨h.fdstack, fun x hx => h.n x (hsub.subset hx), fun m => ?_, h.nodup.sublist (hsub.map _),
    ?_, ?_, fun x hx => h.inLevels x (hsub.subset hx), h.root,
    Nat.le_trans hsub.length_le h.pushes⟩
  · change (Function.update s.stack e.fd none m).isSome ↔ _
    rw [Function.update_apply]
    split
    · next heq => simp [heq]
    · next hne =>
      rw [h.stack]
      simp only [List.mem_filter, decide_eq_true_eq]
      exact ⟨fun ⟨x, hx, hxm⟩ => ⟨x, ⟨hx, hxm ▸ hne⟩, hxm⟩, fun ⟨x, hx, hxm⟩ => ⟨x, hx.1, hxm⟩⟩
  · rw [onLevel_pop]
    exact h.levels.unlink (mem_onLevel.2 ⟨e, he, rfl, rfl⟩)
  · rw [onNumber_pop]
    exact h.table.unlink (mem_onNumber.2 ⟨e, he, rfl, rfl⟩)

/-- **`fdstack_push`**: a level that is not in use has no fds. -/
theorem fdstackPush (h : s.Holds a) (hst : st ∉ a.levels) :
    (s.fdstackPush st).Holds { a with levels := st :: a.levels } := by
  have hnil : a.onLevel st = [] := List.eq_nil_iff_forall_not_mem.2 fun m hm => by
    obtain ⟨e, he, rfl, -⟩ := mem_onLevel.1 hm
    exact hst (h.inLevels e he)
  have hhead : s.levels.head st = none := by
    have := (h.levels.threads st).deref_eq
    rwa [hnil] at this
  have hstore : s.levels.store (.head st) none = s.levels := by
    rw [Web.store, ← hhead, Function.update_eq_self]
  refine ⟨congrArg _ h.fdstack, h.n, h.stack, h.nodup, ?_, h.table, fun e he => ?_, (fun h => by cases h), h.pushes⟩
  · change (s.levels.store (.head st) none).Woven a.onLevel
    rw [hstore]
    exact h.levels
  · exact List.mem_cons_of_mem _ (h.inLevels e he)

/-- The loop of `fdstack_pop` pops what is left on the level. -/
theorem popFrom {l : List ℕ} {k : ℕ} (h : s.Holds a) (hl : a.onLevel st = l) (hk : l.length ≤ k) :
    ∃ s', FdState.popFrom k (s.levels.head st) s = some s' ∧
      s'.Holds { a with fds := a.fds.filter (·.level ≠ st) } := by
  have hthreads := h.levels.threads st
  have hnd := h.levels.nodup st
  rw [hl] at hthreads hnd
  induction l generalizing s a k with
  | nil =>
    have hhead : s.levels.head st = none := hthreads
    have hall : a.fds.filter (·.level ≠ st) = a.fds := List.filter_eq_self.2 fun e he =>
      decide_eq_true fun heq => List.not_mem_nil (hl ▸ mem_onLevel.2 ⟨e, he, heq, rfl⟩)
    rw [hhead, hall]
    exact ⟨s, by cases k <;> rfl, h⟩
  | cons fd l ih =>
    obtain ⟨hd, -, hrest⟩ := hthreads
    have hhead : s.levels.head st = some fd := hd
    obtain ⟨hfdl, hndl⟩ := List.nodup_cons.1 hnd
    obtain ⟨k, rfl⟩ := Nat.exists_eq_add_of_lt (Nat.lt_of_lt_of_le (Nat.succ_pos l.length) hk)
    obtain ⟨e, he, hest, rfl⟩ := mem_onLevel.1 (hl ▸ List.mem_cons_self)
    have hpop := h.fdPop ⟨e, he, rfl⟩
    have hl' : { a with fds := a.fds.filter (·.fd ≠ e.fd) }.onLevel st = l := by
      rw [onLevel_pop]
      change (a.onLevel st).filter (· ≠ e.fd) = l
      rw [hl, List.filter_cons_of_neg (by simp)]
      exact List.filter_eq_self.2 fun b hb => decide_eq_true fun heq => hfdl (heq ▸ hb)
    have hthreads' := hpop.levels.threads st
    rw [hl'] at hthreads'
    have hnext : (s.fdPop e.fd).levels.head st = s.levels.next e.fd :=
      hthreads'.deref_eq.trans hrest.deref_eq.symm
    obtain ⟨s', hs', hs''⟩ := ih hpop hl' (k := k) (by simpa using hk) hthreads' hndl
    have hfilter : (a.fds.filter (·.fd ≠ e.fd)).filter (·.level ≠ st) =
        a.fds.filter (·.level ≠ st) := by
      rw [List.filter_filter]
      refine List.filter_congr fun x hx => ?_
      by_cases hxe : x.fd = e.fd
      · obtain rfl := List.inj_on_of_nodup_map h.nodup hx he hxe
        simp [hest]
      · simp [hxe]
    rw [hnext] at hs'
    rw [Nat.zero_add, hhead]
    exact ⟨s', hs', hfilter ▸ hs''⟩

/-- **`fdstack_pop`** leaves the fds of the other levels. -/
theorem fdstackPop {parent : ℕ} {rest : List ℕ} (h : s.Holds a)
    (hlv : a.levels = st :: parent :: rest) :
    ∃ s', s.fdstackPop = some s' ∧ s'.Holds ⟨a.fds.filter (·.level ≠ st), parent :: rest⟩ := by
  have hk : (a.onLevel st).length ≤ s.pushes := Nat.le_trans (length_onLevel_le a st) h.pushes
  obtain ⟨s', hs', hh⟩ := h.popFrom rfl hk
  refine ⟨{ s' with fdstack := parent :: rest }, ?_, rfl, hh.n, hh.stack, hh.nodup, hh.levels,
    hh.table, fun e he => ?_, nofun, hh.pushes⟩
  · rw [FdState.fdstackPop, h.fdstack, hlv]
    simp only [hs', Option.map_some]
  · obtain ⟨he, hne⟩ := List.mem_filter.1 he
    have hmem := h.inLevels e he
    rw [hlv] at hmem
    exact (List.mem_cons.1 hmem).resolve_left (of_decide_eq_true hne)

/-! ### A step and a run -/

/-- **A step of the scopes is one of the lists.** -/
theorem step {act : FdAct} (h : s.Holds a) (hrise : a.Rising act) (ha : a.step act = some a') :
    ∃ s', s.step act = some s' ∧ s'.Holds a' := by
  cases act with
  | push fd n =>
    simp only [Scopes.step] at ha
    split at ha
    · exact nomatch ha
    · next hnew =>
      obtain ⟨st, hst, rfl⟩ := Option.map_eq_some_iff.1 ha
      rw [FdState.step, if_neg (fun hs => hnew ((h.stack fd).1 hs))]
      exact h.fdPush hnew hst hrise
  | pop fd =>
    simp only [Scopes.step] at ha
    split at ha
    · next hfd =>
      obtain rfl := Option.some.inj ha
      rw [FdState.step, if_pos ((h.stack fd).2 hfd)]
      exact ⟨_, rfl, h.fdPop hfd⟩
    · exact nomatch ha
  | enter st =>
    simp only [Scopes.step] at ha
    split at ha
    · exact nomatch ha
    · next hst =>
      obtain rfl := Option.some.inj ha
      rw [FdState.step, h.fdstack, if_neg hst]
      exact ⟨_, rfl, h.fdstackPush hst⟩
  | leave =>
    simp only [Scopes.step] at ha
    split at ha
    · next st parent rest hlv =>
      obtain rfl := Option.some.inj ha
      exact h.fdstackPop hlv
    · exact nomatch ha

theorem run : ∀ {acts : List FdAct} {s : FdState} {a a' : Scopes}, s.Holds a →
    Along Scopes.step Scopes.Rising a acts → runs Scopes.step a acts = some a' →
      ∃ s', runs FdState.step s acts = some s' ∧ s'.Holds a'
  | [], s, _, _, h, _, ha => by
      obtain rfl := Option.some.inj ha
      exact ⟨s, rfl, h⟩
  | act :: acts, s, a, a', h, ⟨hrise, hrest⟩, ha => by
      obtain ⟨a₁, ha₁, ha₂⟩ := Option.bind_eq_some_iff.1 ha
      obtain ⟨s₁, hs₁, h₁⟩ := h.step hrise ha₁
      obtain ⟨s', hs', h'⟩ := run h₁ (hrest a₁ ha₁) ha₂
      exact ⟨s', by rw [runs, hs₁]; exact hs', h'⟩

end FdState.Holds

/-! ## Scopes that were entered and left -/

namespace Scopes

/-- The current level is none of `base`, and those are its parents. -/
def Above (a : Scopes) (base : List ℕ) (k : ℕ) : Prop :=
  ∃ ups, a.levels = ups ++ base ∧ ups.length = k ∧ ∀ st ∈ ups, st ∉ base

/-- **Of the fds on the levels `base`**, none came in between and only popped ones went. -/
structure Spares (a a' : Scopes) (base : List ℕ) (acts : List FdAct) : Prop where
  sub : (a'.fds.filter (·.level ∈ base)).Sublist (a.fds.filter (·.level ∈ base))
  kept : ∀ e ∈ a.fds, e.level ∈ base → .pop e.fd ∉ acts → e ∈ a'.fds

variable {a a₁ a' : Scopes} {base : List ℕ} {k j : ℕ}

theorem Spares.refl (a : Scopes) (base : List ℕ) : a.Spares a base [] :=
  ⟨List.Sublist.refl _, fun _ he _ _ => he⟩

theorem Spares.cons {act : FdAct} {acts : List FdAct} (h : a.Spares a₁ base [act])
    (h' : a₁.Spares a' base acts) : a.Spares a' base (act :: acts) where
  sub := h'.sub.trans h.sub
  kept e he hlv hpop := by
    rw [List.mem_cons, not_or] at hpop
    exact h'.kept e (h.kept e he hlv (by simpa using hpop.1)) hlv hpop.2

/-- A step on a level above `base` does not leave `base`. -/
theorem Above.step {act : FdAct} (h : a.Above base (k + 1))
    (hk : act.leaves → k ≠ 0) (ha : a.step act = some a₁) :
    a₁.Above base (if act.enters then k + 2 else if act.leaves then k else k + 1) ∧
      a.Spares a₁ base [act] := by
  obtain ⟨ups, hlv, hlen, hups⟩ := h
  obtain ⟨st, ups, rfl⟩ := List.exists_cons_of_length_eq_add_one hlen
  cases act with
  | push fd n =>
    simp only [Scopes.step] at ha
    split at ha
    · exact nomatch ha
    rw [hlv] at ha
    obtain rfl := Option.some.inj ha
    refine ⟨⟨st :: ups, rfl, hlen, hups⟩, ?_, fun e he _ _ => List.mem_cons_of_mem _ he⟩
    rw [List.filter_cons_of_neg (by simpa using hups st List.mem_cons_self)]
  | pop fd =>
    simp only [Scopes.step] at ha
    split at ha
    · obtain rfl := Option.some.inj ha
      refine ⟨⟨st :: ups, hlv, hlen, hups⟩, List.filter_sublist.filter _, fun e he _ hpop => ?_⟩
      refine List.mem_filter.2 ⟨he, decide_eq_true fun heq => ?_⟩
      exact hpop (heq ▸ List.mem_cons_self)
    · exact nomatch ha
  | enter st' =>
    simp only [Scopes.step] at ha
    split at ha
    · exact nomatch ha
    · next hst' =>
      obtain rfl := Option.some.inj ha
      refine ⟨⟨st' :: st :: ups, congrArg _ hlv, congrArg _ hlen, ?_⟩, List.Sublist.refl _,
        fun e he _ _ => he⟩
      refine List.forall_mem_cons.2 ⟨fun hb => hst' ?_, hups⟩
      exact hlv ▸ List.mem_append_right _ hb
  | leave =>
    have hk := hk rfl
    obtain ⟨st', ups, rfl⟩ := List.exists_cons_of_length_pos (l := ups) (by simp at hlen; omega)
    simp only [Scopes.step, hlv, List.cons_append] at ha
    obtain rfl := Option.some.inj ha
    refine ⟨⟨st' :: ups, rfl, Nat.succ.inj hlen, (List.forall_mem_cons.1 hups).2⟩,
      List.filter_sublist.filter _, fun e he hb _ => ?_⟩
    refine List.mem_filter.2 ⟨he, decide_eq_true fun heq => ?_⟩
    exact hups st List.mem_cons_self (heq ▸ hb)

theorem Above.run : ∀ {acts : List FdAct} {k : ℕ} {a : Scopes}, a.Above base (k + 1) →
    nesting FdAct.enters FdAct.leaves k acts = some j → runs Scopes.step a acts = some a' →
      a'.Above base (j + 1) ∧ a.Spares a' base acts
  | [], k, a, h, hn, hrun => by
      obtain rfl := Option.some.inj hn
      obtain rfl := Option.some.inj hrun
      exact ⟨h, Spares.refl a base⟩
  | act :: acts, k, a, h, hn, hrun => by
      obtain ⟨a₁, ha, hrun⟩ := Option.bind_eq_some_iff.1 hrun
      rw [nesting] at hn
      have hk : act.leaves → k ≠ 0 := fun hl hk => by
        have he : act.enters = false := by cases act <;> first | rfl | cases hl
        rw [he, hl, if_neg Bool.false_ne_true, if_pos rfl, if_pos hk] at hn
        cases hn
      obtain ⟨h₁, hspares⟩ := h.step hk ha
      split_ifs at hn h₁ with he hl hk0
      · obtain ⟨h', hspares'⟩ := h₁.run hn hrun
        exact ⟨h', hspares.cons hspares'⟩
      · obtain ⟨k, rfl⟩ := Nat.exists_eq_succ_of_ne_zero hk0
        obtain ⟨h', hspares'⟩ := h₁.run hn hrun
        exact ⟨h', hspares.cons hspares'⟩
      · obtain ⟨h', hspares'⟩ := h₁.run hn hrun
        exact ⟨h', hspares.cons hspares'⟩

/-- **A level that is entered and left** takes only its own fds, and those that were popped. -/
theorem scope_spares {st : ℕ} {body : List FdAct}
    (hb : Balanced FdAct.enters FdAct.leaves body) (hlv : ∀ e ∈ a'.fds, e.level ∈ a'.levels)
    (hbase : a.levels ≠ []) (hrun : runs Scopes.step a (.enter st :: (body ++ [.leave])) = some a') :
    a'.fds.Sublist a.fds ∧
      ∀ e ∈ a.fds, e.level ∈ a.levels → .pop e.fd ∉ body → e ∈ a'.fds := by
  obtain ⟨a₁, h₁, hrun⟩ := Option.bind_eq_some_iff.1 hrun
  rw [runs_append] at hrun
  obtain ⟨a₂, h₂, hrun⟩ := Option.bind_eq_some_iff.1 hrun
  obtain ⟨a₃, h₃, hrun⟩ := Option.bind_eq_some_iff.1 hrun
  obtain rfl := Option.some.inj hrun
  simp only [Scopes.step] at h₁
  split at h₁
  · exact nomatch h₁
  · next hst =>
    obtain rfl := Option.some.inj h₁
    have habove : Above { a with levels := st :: a.levels } a.levels 1 :=
      ⟨[st], rfl, rfl, by simpa using hst⟩
    obtain ⟨⟨ups, hlv₂, hlen, hups⟩, hspares⟩ := habove.run hb h₂
    obtain ⟨st', rfl⟩ := List.length_eq_one_iff.1 hlen
    obtain ⟨parent, rest, hparent⟩ := List.exists_cons_of_ne_nil hbase
    simp only [Scopes.step, hlv₂, hparent, List.cons_append, List.nil_append] at h₃
    obtain rfl := Option.some.inj h₃
    have hst' : st' ∉ a.levels := hups st' List.mem_cons_self
    refine ⟨?_, fun e he hmem hpop => ?_⟩
    · have hall : (a₂.fds.filter (·.level ≠ st')).filter (·.level ∈ a.levels) =
          a₂.fds.filter (·.level ≠ st') :=
        List.filter_eq_self.2 fun e he => decide_eq_true (hparent ▸ hlv e he)
      rw [← hall]
      exact ((List.filter_sublist.filter _).trans hspares.sub).trans List.filter_sublist
    · refine List.mem_filter.2 ⟨hspares.kept e he hmem hpop, decide_eq_true fun heq => ?_⟩
      exact hst' (heq ▸ hmem)

end Scopes

/-! ## What holds along a run -/

/-- The first of a list, when it was kept, is the first of what was kept. -/
theorem head?_of_sublist {α : Type*} {x : α} {l l' : List α} (hs : l'.Sublist (x :: l))
    (hx : x ∈ l') (hnd : (x :: l).Nodup) : l'.head? = some x := by
  cases hs with
  | cons _ hs => exact absurd (hs.subset hx) (List.nodup_cons.1 hnd).1
  | cons_cons _ hs => rfl

namespace FdState.Holds

variable {s s' : FdState} {a a' : Scopes}

/-- **The slots are restored** when the fds in front are left but for those that were popped. -/
theorem restored {between : List FdAct} (h : s.Holds a) (h' : s'.Holds a')
    (hsub : a'.fds.Sublist a.fds)
    (hkept : ∀ e ∈ a.fds, e.level ∈ a.levels → .pop e.fd ∉ between → e ∈ a'.fds) :
    s.Restored s' between := by
  intro n
  have hhead : s.table.head n = (a.onNumber n).head? := (h.table.threads n).deref_eq
  have hhead' : s'.table.head n = (a'.onNumber n).head? := (h'.table.threads n).deref_eq
  have hsubn : (a'.onNumber n).Sublist (a.onNumber n) := (hsub.filter _).map _
  rw [hhead, hhead']
  refine ⟨fun hnil => ?_, fun fd hfd hpop => ?_⟩
  · rw [List.head?_eq_none_iff] at hnil ⊢
    exact List.sublist_nil.1 (hnil ▸ hsubn)
  · obtain ⟨l, hl⟩ := List.head?_eq_some_iff.1 hfd
    obtain ⟨e, he, hen, rfl⟩ := mem_onNumber.1 (hl ▸ List.mem_cons_self)
    have hmem : e.fd ∈ a'.onNumber n :=
      mem_onNumber.2 ⟨e, hkept e he (h.inLevels e he) hpop, hen, rfl⟩
    exact head?_of_sublist (hl ▸ hsubn) hmem (hl ▸ h.table.nodup n)

end FdState.Holds

/-- **Every fd is on its lists, and no redirection outlives its level.** -/
theorem fdsKept_of_rising {acts : List FdAct} {a : Scopes} (ha : runs Scopes.step {} acts = some a)
    (hrise : Along Scopes.step Scopes.Rising {} acts) : FdsKept acts a := by
  obtain ⟨s, hs, h⟩ := FdState.Holds.start.run hrise ha
  refine ⟨s, hs, h.listed, ?_⟩
  rintro pre st body s₀ rfl hb hs₀
  obtain ⟨hrise₀, -⟩ := along_append pre _ hrise
  rw [runs_append] at ha
  obtain ⟨a₀, ha₀, ha⟩ := Option.bind_eq_some_iff.1 ha
  obtain ⟨s₁, hs₁, h₀⟩ := FdState.Holds.start.run hrise₀ ha₀
  obtain rfl := Option.some.inj (hs₀.symm.trans hs₁)
  obtain ⟨hsub, hkept⟩ := Scopes.scope_spares hb h.inLevels h₀.root ha
  exact h₀.restored h hsub hkept

/-- **In every state of a run the fds are kept** if and only if no push puts a number below a higher
one on the same level. -/
theorem fds_kept_iff (acts : List FdAct) (a : Scopes) (ha : runs Scopes.step {} acts = some a) :
    (∀ pre a₀, pre <+: acts → runs Scopes.step {} pre = some a₀ → FdsKept pre a₀) ↔
      Along Scopes.step Scopes.Rising {} acts := by
  constructor
  · intro hkept
    by_contra hfall
    obtain ⟨pre, act, rest, a₀, rfl, hpre, ha₀, hnot⟩ := exists_first_not hfall
    obtain ⟨s₀, hs₀, h₀⟩ := FdState.Holds.start.run hpre ha₀
    rw [runs_append, ha₀, Option.bind_some] at ha
    obtain ⟨a₁, ha₁, -⟩ := Option.bind_eq_some_iff.1 ha
    have hrun₁ : runs Scopes.step {} (pre ++ [act]) = some a₁ := by
      rw [runs_append, ha₀, Option.bind_some, runs, ha₁]
      rfl
    obtain ⟨s₁, hs₁, hlisted, -⟩ :=
      hkept (pre ++ [act]) a₁ ⟨rest, by simp⟩ hrun₁
    rw [runs_append, hs₀, Option.bind_some, runs, Option.bind_eq_some_iff] at hs₁
    obtain ⟨s₂, hs₂, hs₁⟩ := hs₁
    obtain rfl := Option.some.inj hs₁
    cases act with
    | push fd n =>
      simp only [Scopes.step] at ha₁
      split at ha₁
      · cases ha₁
      · next hnew =>
        obtain ⟨st, hst, rfl⟩ := Option.map_eq_some_iff.1 ha₁
        obtain ⟨s', hs', hbad⟩ := h₀.fdPush_falling hnew hst hnot
        rw [FdState.step, if_neg (fun hs => hnew ((h₀.stack fd).1 hs)), hs'] at hs₂
        obtain rfl := Option.some.inj hs₂
        exact hbad hlisted
    | pop fd => exact hnot trivial
    | enter st => exact hnot trivial
    | leave => exact hnot trivial
  · rintro hrise pre a₀ ⟨rest, rfl⟩ ha₀
    exact fdsKept_of_rising ha₀ (along_append pre rest hrise).1

/-- A number that is not below the others does no harm: two fds on one level, with the inner one
popped early. -/
theorem fds_kept_iff_sample :
    (∀ pre a₀, pre <+: [FdAct.enter 1, .push 0 3, .push 1 5, .pop 0, .leave] →
      runs Scopes.step {} pre = some a₀ → FdsKept pre a₀) ↔
      Along Scopes.step Scopes.Rising {} [.enter 1, .push 0 3, .push 1 5, .pop 0, .leave] :=
  fds_kept_iff _ {} (by decide)

/-- A redirection of 5 is popped while one of 3 stands on its level. -/
def popBehind : List FdAct := [.enter 1, .push 0 5, .push 1 3, .pop 0, .leave]

/-- `fdtable[3]` still leads to the fd of the level that was left. -/
theorem fd_outlives_level : runs Scopes.step {} popBehind = some {} ∧ ¬FdsKept popBehind {} := by
  refine ⟨by decide, ?_⟩
  rintro ⟨s, hs, -, hrest⟩
  have hslot : (runs FdState.step {} popBehind).map (fun s => s.table.head 3) = some (some 1) := by
    decide
  rw [hs] at hslot
  have hnone := (hrest [] 1 [.push 0 5, .push 1 3, .pop 0] {} rfl (by decide) rfl 3).1 rfl
  rw [Option.map_some, hnone] at hslot
  exact nomatch hslot

end Shish
