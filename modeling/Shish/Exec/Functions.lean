import Shish.Chartable
import Shish.Lib.Linked
import Shish.Lib.Nested

/-!
# Exec/Functions — the list of functions across in-process subshells

The functions are a linked list of nodes.  A subshell notes its nodes down when it begins
(`exec_functions_save`) and links them again when it ends (`exec_functions_restore`), so a node that
was noted must not be released in between.  Redefining a function takes care of that and
`unset -f` does not: as long as the functions unset are none that a subshell has noted, no noted
node is released and every subshell leaves the functions as it found them (`functions_scoped`).
-/

namespace Shish

/-! ## The model -/

variable {β : Type}

/-- A function definition; `β` are the bodies. -/
structure NFunc (β : Type) where
  name : Str
  body : β
  deriving DecidableEq

/-- The list of functions, what stands on `functions_retired`, the counters of running functions and
of subshells, and the nodes the subshells that are still to end have noted, innermost first.  `fresh`
is the next node. -/
structure Functions (β : Type) where
  heap : Heap (NFunc β) := fun _ => none
  fresh : ℕ := 0
  functions : Option ℕ := none
  running : ℕ := 0
  retired : Option ℕ := none
  subshellDepth : ℕ := 0
  snaps : List (List ℕ) := []

namespace Functions

/-- `parse_isfuncname`. -/
def parseIsfuncname (name : Str) : Bool := name.zipIdx.all fun c => parseIsfname c.1 c.2

/-- `find_function`. -/
def findFunction (s : Functions β) (name : Str) : Option (Option (Option ℕ × ℕ)) :=
  s.heap.find (·.name == name) s.fresh none s.functions

/-- `exec_function_retire`. -/
def execFunctionRetire (s : Functions β) (fn : ℕ) : Functions β :=
  if s.running ≠ 0 then
    { s with heap := s.heap.setNext fn s.retired, retired := some fn }
  else { s with heap := (s.heap.setNext fn none).release fn }

/-- `*nptr = (*nptr)->next`. -/
def takeOut (s : Functions β) (prev : Option ℕ) (fn : ℕ) : Functions β :=
  let r := s.heap.unlink s.functions prev ((s.heap fn).bind Cell.next)
  { s with heap := r.1, functions := r.2 }

/-- A new node in front. -/
def prepend (s : Functions β) (f : NFunc β) : Functions β :=
  { s with
    heap := Function.update s.heap s.fresh (some ⟨f, s.functions⟩)
    fresh := s.fresh + 1
    functions := some s.fresh }

/-- `eval_function`: a node it replaces is retired only outside of subshells. -/
def evalFunction (s : Functions β) (name : Str) (body : β) : Option (Functions β) := do
  let found ← s.findFunction name
  let s := match found with
    | none => s
    | some (prev, fn) =>
        let s := s.takeOut prev fn
        let s := { s with heap := s.heap.setNext fn none }
        if s.subshellDepth = 0 then s.execFunctionRetire fn else s
  some (s.prepend ⟨name, body⟩)

/-- `unset -f` with one name. -/
def builtinUnset (s : Functions β) (name : Str) : Option (Functions β) :=
  if parseIsfuncname name then do
    let found ← s.findFunction name
    match found with
    | none => some s
    | some (prev, fn) => some ((s.takeOut prev fn).execFunctionRetire fn)
  else some s

/-- `exec_function_leave`: what was retired meanwhile is released behind the last function. -/
def execFunctionLeave (s : Functions β) : Option (Functions β) :=
  if s.running - 1 = 0 then
    (s.heap.releaseAll s.fresh s.retired).map fun heap =>
      { s with heap, retired := none, running := 0 }
  else some { s with running := s.running - 1 }

/-- `exec_functions_save`. -/
def execFunctionsSave (s : Functions β) : Option (Functions β) :=
  (s.heap.nodes s.fresh s.functions).map fun ns =>
    { s with subshellDepth := s.subshellDepth + 1, snaps := ns :: s.snaps }

/-- `exec_functions_restore`. -/
def execFunctionsRestore (s : Functions β) : Option (Functions β) :=
  match s.snaps with
  | [] => none
  | ns :: snaps =>
      (s.heap.relink ns).map fun heap =>
        { s with heap, functions := ns.head?, subshellDepth := s.subshellDepth - 1, snaps }

/-- The functions, newest first; `none` when that reads a released node. -/
def list (s : Functions β) : Option (List (NFunc β)) :=
  s.heap.values s.fresh s.functions

end Functions

/-- What may happen to the functions. -/
inductive FuncOp (β : Type) where
  | define (name : Str) (body : β)
  | unset (name : Str)
  | enter
  | leave
  | save
  | restore
  deriving DecidableEq

/-- A step; `none` when it reads or writes a released node. -/
def funcStep (s : Functions β) : FuncOp β → Option (Functions β)
  | .define name body => s.evalFunction name body
  | .unset name => s.builtinUnset name
  | .enter => some { s with running := s.running + 1 }
  | .leave => s.execFunctionLeave
  | .save => s.execFunctionsSave
  | .restore => s.execFunctionsRestore

/-- **Which steps spare the noted nodes**: an `unset -f` whose function no subshell has noted.  A
function is left after it was entered, and a subshell after it began. -/
def Spares (s : Functions β) : FuncOp β → Prop
  | .unset name => ∀ r ∈ s.findFunction name, ∀ f ∈ r, ∀ snap ∈ s.snaps, f.2 ∉ snap
  | .leave => s.running ≠ 0
  | .restore => s.snaps ≠ []
  | _ => True

instance (s : Functions β) : DecidablePred (Spares s)
  | .unset name => inferInstanceAs
      (Decidable (∀ r ∈ s.findFunction name, ∀ f ∈ r, ∀ snap ∈ s.snaps, f.2 ∉ snap))
  | .leave => inferInstanceAs (Decidable (s.running ≠ 0))
  | .restore => decidable_of_iff (s.snaps.isEmpty = false) (by simp [Spares])
  | .define _ _ | .enter | .save => isTrue trivial

/-! ## What it is for -/

/-- The functions by name and body, and those the enclosing shells had. -/
structure Scoped (β : Type) where
  cur : List (NFunc β) := []
  saved : List (List (NFunc β)) := []

/-- **A subshell has its own functions**, and begins with those around it. -/
def Scoped.step (m : Scoped β) : FuncOp β → Scoped β
  | .define name body => { m with cur := ⟨name, body⟩ :: m.cur.eraseP (·.name == name) }
  | .unset name =>
      if Functions.parseIsfuncname name then { m with cur := m.cur.eraseP (·.name == name) } else m
  | .save => { m with saved := m.cur :: m.saved }
  | .restore => { cur := m.saved.headD [], saved := m.saved.tail }
  | .enter | .leave => m

/-! ## One step -/

namespace Functions

variable {s s' : Functions β} {m : Scoped β} {fs rs a b : List ℕ} {fn : ℕ}

/-- **What every step keeps**: the functions and the retired nodes are chains of their own, `fs` and
`rs`; the noted nodes are there, and none is retired; names and bodies are those of `m`. -/
structure Keeps (s : Functions β) (m : Scoped β) (fs rs : List ℕ) : Prop where
  functions : s.heap.Chain s.functions fs
  retired : s.heap.Chain s.retired rs
  nodup : (fs ++ rs).Nodup
  noted : ∀ snap ∈ s.snaps, snap.Nodup ∧ ∀ n ∈ snap, (s.heap n).isSome ∧ n ∉ rs
  fresh : ∀ n, (s.heap n).isSome → n < s.fresh
  idle : s.running = 0 → rs = []
  depth : s.subshellDepth = s.snaps.length
  cur : fs.map s.heap.val = m.cur.map some
  saved : s.snaps.map (List.map s.heap.val) = m.saved.map (List.map some)

namespace Keeps

theorem functions_fuel (h : s.Keeps m fs rs) : fs.length ≤ s.fresh :=
  h.functions.length_le (List.nodup_append.1 h.nodup).1 h.fresh

theorem retired_fuel (h : s.Keeps m fs rs) : rs.length ≤ s.fresh :=
  h.retired.length_le (List.nodup_append.1 h.nodup).2.1 h.fresh

/-- Two heaps with the same values under the noted nodes. -/
theorem saved_congr {h h' : Heap (NFunc β)} {snaps : List (List ℕ)}
    (heq : ∀ snap ∈ snaps, ∀ n ∈ snap, h'.val n = h.val n) :
    snaps.map (List.map h'.val) = snaps.map (List.map h.val) :=
  List.map_congr_left fun snap hs => List.map_congr_left (heq snap hs)

/-- The function is found where the list of functions has it, and taken out there. -/
theorem takeOut (h : s.Keeps m fs rs) (name : Str) :
    (s.findFunction name = some none ∧ m.cur.eraseP (·.name == name) = m.cur) ∨
      ∃ prev fn ns, s.findFunction name = some (some (prev, fn)) ∧
        (s.takeOut prev fn).Keeps { m with cur := m.cur.eraseP (·.name == name) } ns rs ∧
        (s.heap fn).isSome ∧ ((s.takeOut prev fn).heap fn).isSome ∧ fn ∉ ns ++ rs := by
  rcases h.functions.find (q := (·.name == name)) h.functions_fuel none with
    ⟨hf, hall⟩ | ⟨a, fn, b, x, rfl, hx, hname, hf, hall⟩
  · refine .inl ⟨hf, List.eraseP_of_forall_not fun x hx => ?_⟩
    have hmem : some x ∈ fs.map s.heap.val := by
      rw [h.cur]
      exact List.mem_map_of_mem hx
    obtain ⟨n, hn, hval⟩ := List.mem_map.1 hmem
    simp [hall n hn x hval]
  · right
    obtain ⟨c, hc, hcx⟩ := Option.map_eq_some_iff.1 hx
    obtain ⟨hnd, hrs, hdis⟩ := List.nodup_append.1 h.nodup
    have hprev : a.getLast?.or none = a.getLast? := Option.or_none
    have hnext : (s.heap fn).bind Cell.next = c.next := by rw [hc]; rfl
    rw [hprev] at hf
    obtain ⟨hchain, hval, hfn, hsome, hframe⟩ := Heap.unlink_chain h.functions hnd hc
    rw [← hnext] at hchain hval hfn hsome hframe
    have hfnab : fn ∉ a ++ b := by
      rw [List.nodup_append, List.nodup_cons] at hnd
      rw [List.mem_append, not_or]
      exact ⟨fun hfa => hnd.2.2 fn hfa fn (List.mem_cons_self ..) rfl, hnd.2.1.1⟩
    have hab : (a ++ b).Sublist (a ++ fn :: b) :=
      (List.Sublist.refl a).append (List.sublist_cons_self fn b)
    refine ⟨_, fn, a ++ b, hf, ?_, by rw [hc]; rfl, ?_, ?_⟩
    · refine ⟨hchain, ?_, h.nodup.sublist (hab.append_right rs), fun snap hs => ?_, fun n hn => ?_,
        h.idle, h.depth, ?_, ?_⟩
      · refine h.retired.frame fun n hn => hframe n fun hna => ?_
        exact hdis n (List.mem_append_left _ hna) n hn rfl
      · refine ⟨(h.noted snap hs).1, fun n hn => ?_⟩
        rw [Functions.takeOut, hsome]
        exact (h.noted snap hs).2 n hn
      · rw [Functions.takeOut, hsome] at hn
        exact h.fresh n hn
      · rw [Functions.takeOut, hval]
        have hcur := h.cur
        rw [List.map_append, List.map_cons, hx] at hcur
        obtain ⟨ca, cb, hm, hca, hcb⟩ := List.map_eq_append_iff.1 hcur.symm
        obtain ⟨y, cb', rfl, hy, hcb'⟩ := List.map_eq_cons_iff.1 hcb
        obtain rfl := Option.some.inj hy
        have hnot : ∀ z ∈ ca, ¬ (z.name == name) = true := fun z hz => by
          have hmem : some z ∈ a.map s.heap.val := hca ▸ List.mem_map_of_mem hz
          obtain ⟨n, hn, hzn⟩ := List.mem_map.1 hmem
          simp [hall n hn z hzn]
        have herase : m.cur.eraseP (·.name == name) = ca ++ cb' := by
          rw [hm, List.eraseP_append_right _ hnot, List.eraseP_cons_of_pos (by exact hname)]
        rw [herase, List.map_append, List.map_append, hca, hcb']
      · rw [Functions.takeOut, hval]
        exact h.saved
    · exact Option.isSome_iff_exists.2 ⟨c, hfn⟩
    · rw [List.mem_append, not_or]
      refine ⟨hfnab, fun hfr => hdis fn ?_ fn hfr rfl⟩
      exact List.mem_append_right _ (List.mem_cons_self ..)

/-- **A node no subshell has noted is retired.** -/
theorem retire (h : s.Keeps m fs rs) (hlive : (s.heap fn).isSome) (hfn : fn ∉ fs ++ rs)
    (hnot : ∀ snap ∈ s.snaps, fn ∉ snap) : ∃ rs', (s.execFunctionRetire fn).Keeps m fs rs' := by
  rw [List.mem_append, not_or] at hfn
  obtain ⟨c, hc⟩ := Option.isSome_iff_exists.1 hlive
  unfold execFunctionRetire
  split_ifs with hr
  · refine ⟨fn :: rs, h.functions.setNext_of_notMem hfn.1, ?_, ?_, fun snap hs => ?_, fun n hn => ?_,
      fun h0 => absurd h0 hr, h.depth, ?_, ?_⟩
    · refine ⟨rfl, { c with next := s.retired }, ?_, h.retired.setNext_of_notMem hfn.2⟩
      exact (Heap.setNext_self ..).trans (by rw [hc]; rfl)
    · rw [List.nodup_middle, List.nodup_cons, List.mem_append, not_or]
      exact ⟨hfn, h.nodup⟩
    · refine ⟨(h.noted snap hs).1, fun n hn => ?_⟩
      rw [Heap.isSome_setNext, List.mem_cons, not_or]
      exact ⟨((h.noted snap hs).2 n hn).1, ne_of_mem_of_not_mem hn (hnot snap hs),
        ((h.noted snap hs).2 n hn).2⟩
    · rw [Heap.isSome_setNext] at hn
      exact h.fresh n hn
    · rw [Heap.val_setNext]
      exact h.cur
    · rw [Heap.val_setNext]
      exact h.saved
  · have hr0 : s.running = 0 := by simpa using hr
    obtain rfl := h.idle hr0
    have heq : ∀ n, n ≠ fn → ((s.heap.setNext fn none).release fn) n = s.heap n := fun n hn => by
      rw [Heap.release_of_ne hn, Heap.setNext_of_ne hn]
    refine ⟨[], h.functions.frame fun n hn => heq n (ne_of_mem_of_not_mem hn hfn.1), h.retired,
      h.nodup, fun snap hs => ?_, fun n hn => ?_, fun _ => rfl, h.depth, ?_, ?_⟩
    · refine ⟨(h.noted snap hs).1, fun n hn => ?_⟩
      dsimp only
      rw [heq n (ne_of_mem_of_not_mem hn (hnot snap hs))]
      exact (h.noted snap hs).2 n hn
    · dsimp only at hn
      by_cases hnf : n = fn
      · rw [hnf, Heap.release_self] at hn
        exact absurd hn nofun
      · rw [heq n hnf] at hn
        exact h.fresh n hn
    · rw [← h.cur]
      exact List.map_congr_left fun n hn =>
        Heap.val_congr (heq n (ne_of_mem_of_not_mem hn hfn.1))
    · rw [← h.saved]
      exact saved_congr fun snap hs n hn =>
        Heap.val_congr (heq n (ne_of_mem_of_not_mem hn (hnot snap hs)))

/-- A node that is on no list, in a subshell: its link does not matter. -/
theorem leak (h : s.Keeps m fs rs) (hfn : fn ∉ fs ++ rs) :
    Keeps { s with heap := s.heap.setNext fn none } m fs rs := by
  rw [List.mem_append, not_or] at hfn
  refine ⟨h.functions.setNext_of_notMem hfn.1, h.retired.setNext_of_notMem hfn.2, h.nodup,
    fun snap hs => ⟨(h.noted snap hs).1, fun n hn => ?_⟩, fun n hn => ?_, h.idle, h.depth, ?_, ?_⟩
  · rw [Heap.isSome_setNext]
    exact (h.noted snap hs).2 n hn
  · rw [Heap.isSome_setNext] at hn
    exact h.fresh n hn
  · rw [Heap.val_setNext]
    exact h.cur
  · rw [Heap.val_setNext]
    exact h.saved

/-- A function in front. -/
theorem push (h : s.Keeps m fs rs) (f : NFunc β) :
    (s.prepend f).Keeps { m with cur := f :: m.cur } (s.fresh :: fs) rs := by
  have hnew : ∀ n, (s.heap n).isSome → n ≠ s.fresh := fun n hn => Nat.ne_of_lt (h.fresh n hn)
  have hfs : s.fresh ∉ fs := fun hn => hnew _ (h.functions.live _ hn) rfl
  have hrs : s.fresh ∉ rs := fun hn => hnew _ (h.retired.live _ hn) rfl
  have heq : ∀ n, n ≠ s.fresh → (s.prepend f).heap n = s.heap n := fun n hn =>
    Function.update_of_ne hn ..
  refine ⟨h.functions.push hfs rfl, h.retired.frame fun n hn => heq n (ne_of_mem_of_not_mem hn hrs),
    ?_, fun snap hs => ⟨(h.noted snap hs).1, fun n hn => ?_⟩, fun n hn => ?_, h.idle, h.depth, ?_, ?_⟩
  · rw [List.cons_append, List.nodup_cons, List.mem_append, not_or]
    exact ⟨⟨hfs, hrs⟩, h.nodup⟩
  · have hn' := (h.noted snap hs).2 n hn
    rw [heq n (hnew n hn'.1)]
    exact hn'
  · by_cases hnf : n = s.fresh
    · exact hnf ▸ Nat.lt_succ_self _
    · rw [heq n hnf] at hn
      exact Nat.lt_succ_of_lt (h.fresh n hn)
  · have hhead : (s.prepend f).heap.val s.fresh = some f := by
      simp [Heap.val, Functions.prepend]
    rw [List.map_cons, List.map_cons, hhead, ← h.cur]
    congr 1
    exact List.map_congr_left fun n hn => Heap.val_congr (heq n (ne_of_mem_of_not_mem hn hfs))
  · rw [← h.saved]
    exact saved_congr fun snap hs n hn =>
      Heap.val_congr (heq n (hnew n ((h.noted snap hs).2 n hn).1))

theorem evalFunction (h : s.Keeps m fs rs) (name : Str) (body : β) :
    ∃ s' fs' rs', s.evalFunction name body = some s' ∧
      s'.Keeps (m.step (.define name body)) fs' rs' := by
  rcases h.takeOut name with ⟨hf, herase⟩ | ⟨prev, fn, ns, hf, hout, -, hlive, hfn⟩
  · have heval : s.evalFunction name body = some (s.prepend ⟨name, body⟩) := by
      simp only [Functions.evalFunction, hf]
      rfl
    refine ⟨_, s.fresh :: fs, rs, heval, ?_⟩
    rw [Scoped.step, herase]
    exact h.push ⟨name, body⟩
  · have hleak := hout.leak hfn
    have heval : s.evalFunction name body = some (Functions.prepend
        (let s := s.takeOut prev fn
         let s := { s with heap := s.heap.setNext fn none }
         if s.subshellDepth = 0 then s.execFunctionRetire fn else s) ⟨name, body⟩) := by
      simp only [Functions.evalFunction, hf]
      rfl
    rw [heval]
    by_cases hd : s.subshellDepth = 0
    · have hsnaps : s.snaps = [] := List.length_eq_zero_iff.1 (h.depth.symm.trans hd)
      have hlive' : ((s.takeOut prev fn).heap.setNext fn none fn).isSome := by
        rwa [Heap.isSome_setNext]
      obtain ⟨rs', hret⟩ := hleak.retire hlive' hfn (by
        change ∀ snap ∈ s.snaps, _
        rw [hsnaps]
        exact nofun)
      refine ⟨_, _, rs', ?_, hret.push ⟨name, body⟩⟩
      exact congrArg (fun t : Functions β => some (t.prepend ⟨name, body⟩)) (if_pos hd)
    · refine ⟨_, _, rs, ?_, hleak.push ⟨name, body⟩⟩
      exact congrArg (fun t : Functions β => some (t.prepend ⟨name, body⟩)) (if_neg hd)

theorem builtinUnset (h : s.Keeps m fs rs) {name : Str} (hok : Spares s (.unset name)) :
    ∃ s' fs' rs', s.builtinUnset name = some s' ∧ s'.Keeps (m.step (.unset name)) fs' rs' := by
  unfold Functions.builtinUnset
  rw [Scoped.step]
  by_cases hname : parseIsfuncname name
  · rw [if_pos hname, if_pos hname]
    rcases h.takeOut name with ⟨hf, herase⟩ | ⟨prev, fn, ns, hf, hout, -, hlive, hfn⟩
    · refine ⟨s, fs, rs, by rw [hf]; rfl, ?_⟩
      rwa [herase]
    · have hnot := hok _ hf _ rfl
      obtain ⟨rs', hret⟩ := hout.retire hlive hfn hnot
      exact ⟨_, ns, rs', by rw [hf]; rfl, hret⟩
  · rw [if_neg hname, if_neg hname]
    exact ⟨s, fs, rs, rfl, h⟩

theorem leave (h : s.Keeps m fs rs) :
    ∃ s' rs', s.execFunctionLeave = some s' ∧ s'.Keeps m fs rs' := by
  unfold execFunctionLeave
  obtain ⟨hnd, hrs, hdis⟩ := List.nodup_append.1 h.nodup
  split_ifs with h1
  · obtain ⟨heap, hrel, hgone, hrest⟩ := h.retired.releaseAll hrs h.retired_fuel
    have hfs : ∀ n ∈ fs, heap n = s.heap n := fun n hn => hrest n fun hnr => hdis n hn n hnr rfl
    have hsnap : ∀ snap ∈ s.snaps, ∀ n ∈ snap, heap n = s.heap n := fun snap hs n hn =>
      hrest n ((h.noted snap hs).2 n hn).2
    refine ⟨{ s with heap, retired := none, running := 0 }, [], by rw [hrel]; rfl,
      h.functions.frame hfs, rfl, by simpa using hnd,
      fun snap hs => ⟨(h.noted snap hs).1, fun n hn => ?_⟩, fun n hn => ?_, fun _ => rfl, h.depth,
      ?_, ?_⟩
    · dsimp only
      rw [hsnap snap hs n hn]
      exact ⟨((h.noted snap hs).2 n hn).1, nofun⟩
    · refine h.fresh n ?_
      by_cases hn' : n ∈ rs
      · exact absurd (hgone n hn') (Option.isSome_iff_ne_none.1 hn)
      · rw [← hrest n hn']
        exact hn
    · rw [← h.cur]
      exact List.map_congr_left fun n hn => Heap.val_congr (hfs n hn)
    · rw [← h.saved]
      exact saved_congr fun snap hs n hn => Heap.val_congr (hsnap snap hs n hn)
  · exact ⟨_, rs, rfl, { h with idle := fun h0 => absurd h0 h1 }⟩

theorem save (h : s.Keeps m fs rs) :
    ∃ s', s.execFunctionsSave = some s' ∧ s'.Keeps (m.step .save) fs rs := by
  obtain ⟨hnd, -, hdis⟩ := List.nodup_append.1 h.nodup
  refine ⟨_, by rw [execFunctionsSave, h.functions.nodes_eq h.functions_fuel]; rfl, ?_⟩
  refine { h with noted := ?_, depth := congrArg (· + 1) h.depth, saved := ?_ }
  · refine List.forall_mem_cons.2 ⟨⟨hnd, fun n hn => ⟨h.functions.live n hn, fun hnr => ?_⟩⟩, h.noted⟩
    exact hdis n hn n hnr rfl
  · rw [List.map_cons, h.cur, h.saved]
    rfl

theorem restore (h : s.Keeps m fs rs) (hs : s.snaps ≠ []) :
    ∃ s' fs', s.execFunctionsRestore = some s' ∧ s'.Keeps (m.step .restore) fs' rs := by
  obtain ⟨ns, snaps, hsnaps⟩ := List.exists_cons_of_ne_nil hs
  have hnoted := h.noted
  have hsaved := h.saved
  have hdepth := h.depth
  rw [hsnaps] at hnoted hsaved hdepth
  obtain ⟨⟨hnd, hns⟩, hnoted⟩ := List.forall_mem_cons.1 hnoted
  obtain ⟨cur, saved, hm, hcur, hsaved⟩ := List.map_eq_cons_iff.1 hsaved.symm
  obtain ⟨heap, hr, hchain, hval, hrest⟩ := Heap.relink_chain hnd fun n hn => (hns n hn).1
  have hsome : ∀ n, (heap n).isSome = (s.heap n).isSome := fun n => by
    have := congrArg Option.isSome (congrFun hval n)
    rwa [Heap.val, Heap.val, Option.isSome_map, Option.isSome_map] at this
  have hrs : ∀ n ∈ rs, n ∉ ns := fun n hn hnn => (hns n hnn).2 hn
  refine ⟨{ s with heap, functions := ns.head?, subshellDepth := s.subshellDepth - 1, snaps }, ns,
    by simp only [execFunctionsRestore, hsnaps, hr, Option.map_some], hchain,
    h.retired.frame fun n hn => hrest n (hrs n hn), ?_, fun snap hs => ?_, fun n hn => ?_, h.idle,
    ?_, ?_, ?_⟩
  · exact List.nodup_append.2 ⟨hnd, (List.nodup_append.1 h.nodup).2.1, fun a ha b hb heq =>
      hrs b hb (heq ▸ ha)⟩
  · refine ⟨(hnoted snap hs).1, fun n hn => ?_⟩
    rw [hsome]
    exact (hnoted snap hs).2 n hn
  · rw [hsome] at hn
    exact h.fresh n hn
  · dsimp only
    rw [hdepth]
    rfl
  · rw [Scoped.step, hm, hval]
    exact hcur.symm
  · rw [Scoped.step, hm, hval]
    exact hsaved.symm

/-- **Every step that spares the noted nodes keeps the functions in order.** -/
theorem step (h : s.Keeps m fs rs) {op : FuncOp β} (hok : Spares s op) :
    ∃ s' fs' rs', funcStep s op = some s' ∧ s'.Keeps (m.step op) fs' rs' := by
  cases op with
  | define name body => exact h.evalFunction name body
  | unset name => exact h.builtinUnset hok
  | enter => exact ⟨_, fs, rs, rfl, { h with idle := fun h0 => absurd h0 (Nat.succ_ne_zero _) }⟩
  | leave =>
    obtain ⟨s', rs', hs, hk⟩ := h.leave
    exact ⟨s', fs, rs', hs, hk⟩
  | save =>
    obtain ⟨s', hs, hk⟩ := h.save
    exact ⟨s', fs, rs, hs, hk⟩
  | restore =>
    obtain ⟨s', fs', hs, hk⟩ := h.restore hok
    exact ⟨s', fs', rs, hs, hk⟩

theorem run : ∀ {ops : List (FuncOp β)} {s : Functions β} {m : Scoped β} {fs rs : List ℕ},
    s.Keeps m fs rs → Along funcStep Spares s ops →
      ∃ s' fs' rs', runs funcStep s ops = some s' ∧ s'.Keeps (ops.foldl Scoped.step m) fs' rs'
  | [], s, _, fs, rs, h, _ => ⟨s, fs, rs, rfl, h⟩
  | op :: ops, s, m, fs, rs, h, ⟨hok, hrest⟩ => by
      obtain ⟨s₁, fs₁, rs₁, hs, h₁⟩ := h.step hok
      obtain ⟨s', fs', rs', hrun, h'⟩ := h₁.run (hrest s₁ hs)
      exact ⟨s', fs', rs', by rw [runs, hs, Option.bind_some, hrun], h'⟩

theorem init : Keeps ({} : Functions β) {} [] [] where
  functions := rfl
  retired := rfl
  nodup := List.nodup_nil
  noted := nofun
  fresh := nofun
  idle _ := rfl
  depth := rfl
  cur := rfl
  saved := rfl

/-- **The function that is found** is the first of its name. -/
theorem find_eq (h : s.Keeps m fs rs) (name : Str) : ∃ found, s.findFunction name = some found ∧
    (found.bind fun f => s.heap.val f.2) = m.cur.find? (·.name == name) := by
  rcases h.functions.find (q := (·.name == name)) h.functions_fuel none with
    ⟨hf, hall⟩ | ⟨a, fn, b, x, rfl, hx, hname, hf, hall⟩
  · refine ⟨none, hf, (List.find?_eq_none.2 fun x hx => ?_).symm⟩
    have hmem : some x ∈ fs.map s.heap.val := h.cur ▸ List.mem_map_of_mem hx
    obtain ⟨n, hn, hval⟩ := List.mem_map.1 hmem
    simp [hall n hn x hval]
  · have hcur := h.cur
    rw [List.map_append, List.map_cons, hx] at hcur
    obtain ⟨ca, cb, hm, hca, hcb⟩ := List.map_eq_append_iff.1 hcur.symm
    obtain ⟨y, cb', rfl, hy, -⟩ := List.map_eq_cons_iff.1 hcb
    obtain rfl := Option.some.inj hy
    refine ⟨_, hf, hx.trans (Eq.symm ?_)⟩
    rw [List.find?_eq_some_iff_append]
    refine ⟨hname, ca, cb', hm, fun z hz => ?_⟩
    have hmem : some z ∈ a.map s.heap.val := hca ▸ List.mem_map_of_mem hz
    obtain ⟨n, hn, hzn⟩ := List.mem_map.1 hmem
    simp [hall n hn z hzn]

theorem list_eq (h : s.Keeps m fs rs) : s.list = some m.cur := by
  rw [Functions.list, Heap.values, h.functions.nodes_eq h.functions_fuel, Option.bind_some, h.cur]
  induction m.cur with
  | nil => rfl
  | cons f l ih => simp [ih]

end Keeps

end Functions

/-! ## Whole runs -/

/-- A subshell begins, and ends. -/
def FuncOp.begins (op : FuncOp β) : Bool := op matches .save

def FuncOp.ends (op : FuncOp β) : Bool := op matches .restore

/-- The lists of functions noted by the subshells that are open. -/
def Functions.Noted (s : Functions β) (noted : List (Option (List (NFunc β)))) : Prop :=
  ∃ m fs rs, s.Keeps m fs rs ∧ noted = m.saved.map some

theorem Functions.Noted.step {s s' : Functions β} {noted : List (Option (List (NFunc β)))}
    {op : FuncOp β} (h : s.Noted noted) (hok : Spares s op) (hs : funcStep s op = some s') :
    s'.Noted (note FuncOp.begins FuncOp.ends Functions.list s noted op) := by
  obtain ⟨m, fs, rs, hk, rfl⟩ := h
  obtain ⟨s₁, fs', rs', hs₁, hk'⟩ := hk.step hok
  obtain rfl := Option.some.inj (hs.symm.trans hs₁)
  refine ⟨_, fs', rs', hk', ?_⟩
  cases op with
  | save => exact congrArg (· :: m.saved.map some) hk.list_eq
  | restore => exact List.map_tail.symm
  | unset name =>
    simp only [Scoped.step]
    split_ifs <;> rfl
  | define _ _ | enter | leave => rfl

/-- The end of a subshell puts the functions back that it noted. -/
theorem Functions.Noted.ends {s s' : Functions β} {noted : List (Option (List (NFunc β)))}
    {op : FuncOp β} (h : s.Noted noted) (hok : Spares s op) (hs : funcStep s op = some s')
    (he : op.ends) : noted.head? = some s'.list := by
  obtain ⟨m, fs, rs, hk, rfl⟩ := h
  obtain ⟨s₁, fs', rs', hs₁, hk'⟩ := hk.step hok
  obtain rfl := Option.some.inj (hs.symm.trans hs₁)
  cases op with
  | restore =>
    have hne : m.saved ≠ [] := by
      intro hnil
      have := hk.saved
      rw [hnil, List.map_nil, List.map_eq_nil_iff] at this
      exact hok this
    obtain ⟨cur, saved, hm⟩ := List.exists_cons_of_ne_nil hne
    rw [hk'.list_eq, Scoped.step, hm]
    rfl
  | _ => exact absurd he Bool.false_ne_true

/-- **Functions across subshells.**  In a run whose `unset -f` steps spare the noted nodes no
released node is touched, in the state reached every node an open subshell has noted is still there,
and behind a subshell the functions are those in front of it. -/
theorem functions_scoped {ops : List (FuncOp β)} (hok : Along funcStep Spares {} ops) :
    ∃ s, runs funcStep {} ops = some s ∧ (∀ snap ∈ s.snaps, ∀ n ∈ snap, (s.heap n).isSome) ∧
      s.list = some (ops.foldl Scoped.step {}).cur ∧
      ∀ pre body s₀, ops = pre ++ .save :: (body ++ [.restore]) →
        Balanced FuncOp.begins FuncOp.ends body → runs funcStep {} pre = some s₀ →
          s.list = s₀.list := by
  obtain ⟨s, fs, rs, hrun, hk⟩ := Functions.Keeps.init.run hok
  refine ⟨s, hrun, fun snap hs n hn => ((hk.noted snap hs).2 n hn).1, hk.list_eq, ?_⟩
  rintro pre body s₀ rfl hb hpre
  obtain ⟨hok₁, hok₂⟩ := along_append pre _ hok
  obtain ⟨s₁, fs₁, rs₁, hrun₁, hk₁⟩ := Functions.Keeps.init.run hok₁
  obtain rfl := Option.some.inj (hpre.symm.trans hrun₁)
  rw [runs_append, hpre, Option.bind_some] at hrun
  exact scope_restored Functions.Noted (fun _ _ _ _ => Functions.Noted.step)
    (fun _ _ _ _ h hok hs _ => h.ends hok hs) rfl rfl rfl hb ⟨_, _, _, hk₁, rfl⟩ (hok₂ s₀ hpre) hrun

/-- `g`, and a subshell that defines `f` over again and removes it. -/
def redefining : List (FuncOp ℕ) :=
  [.define ['g'] 1, .define ['f'] 2, .save, .define ['f'] 3, .unset ['f'], .restore]

theorem functions_scoped_redefining : ∃ s, runs funcStep {} redefining = some s ∧
    s.list = some [⟨['f'], 2⟩, ⟨['g'], 1⟩] := by
  have hok : Along funcStep Spares {} redefining := by decide
  obtain ⟨s, hrun, -, hlist, -⟩ := functions_scoped hok
  exact ⟨s, hrun, hlist⟩

/-- **`unset -f` of a function from outside the subshell releases a noted node**, and the end of the
subshell writes to it. -/
theorem unset_releases : ∃ s, runs funcStep {} [.define ['f'] 1, .save, .unset ['f']] = some s ∧
    (∃ snap ∈ s.snaps, ∃ n ∈ snap, s.heap n = none) ∧
    (funcStep s .restore).isNone := by
  refine ⟨_, rfl, ⟨[0], ?_, 0, ?_, ?_⟩, ?_⟩
  all_goals decide

end Shish
