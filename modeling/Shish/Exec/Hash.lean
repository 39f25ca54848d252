import Shish.Exec.Functions
import Shish.Lib.Buckets
import Shish.Path.Canon

/-!
# Exec/Hash — the remembered commands

`exec_search` finds what a name stands for; `exec_hash` remembers the answer together with the mask
it was asked with.  An entry is forgotten when `PATH` changes, when the function of that name is
defined or unset, when a subshell is left and the answer was a function, and when the program is
gone.  Two answers go stale all the same: "not found" once a program appears, and anything but a
function once a subshell gives a function back (`execHash_agrees_iff`).
-/

namespace Shish

variable {β : Type}

/-! ## The model -/

/-- `builtin_flag`. -/
inductive BuiltinFlag where
  | default
  | special
  | exec
  deriving DecidableEq

/-- `struct command`: a builtin by its place in the table, a function by its body.  A program that
was not found has no path. -/
inductive Command (β : Type) where
  | program (path : Option Str)
  | exec (i : ℕ)
  | sbuiltin (i : ℕ)
  | function (body : β)
  | builtin (i : ℕ)
  deriving DecidableEq

namespace Command

/-- `cmd.ptr` is set. -/
def found : Command β → Bool
  | program path => path.isSome
  | _ => true

/-- The same kind of command, the same body or builtin, and a program when there is one. -/
def Agrees : Command β → Command β → Prop
  | program p, program p' => p.isSome = p'.isSome
  | c, c' => c = c'

end Command

/-- `struct exechash`; a mask of -1 is `none`. -/
structure ExecEntry (β : Type) where
  hash : UInt32
  hits : ℕ := 0
  name : Str
  cmd : Command β
  mask : Option ℕ

/-- `exec_hashstr`; a `char` is signed. -/
def execHashstr (s : Str) : UInt32 :=
  s.foldl (fun hash c =>
    let c := UInt32.ofNat (if c.toNat < 128 then c.toNat else c.toNat + 0xffffff00)
    (hash * 0x0123456b) ^^^ c) 0x7fedcb95

/-- `path_isname`. -/
def pathIsname (name : Str) : Bool := name.all (· ≠ '/')

/-- `PATH_MAX`. -/
def pathMax : ℕ := 4096

/-- The candidates of `path_search`: each element with the name, unless that is too long. -/
def pathCandidates (list name : Str) : List Str :=
  ((list.splitOnP (fun c => c == ':' || c == ';')).map (pathCat · name)).filter (·.length < pathMax)

/-- The functions, the remembered commands and what they depend on: the builtins, the value of `PATH`
and the one `exec_hash` saw last, the paths that lead to an executable file and those to a
directory, and `sh->opts.hashall`. -/
structure ExecState (β : Type) where
  builtins : List (Str × BuiltinFlag)
  dirs : Str → Bool
  files : Str → Bool
  path : Str
  functions : Functions β := {}
  exechash : Buckets (ExecEntry β) := fun _ => []
  pathSeen : Option Str := none
  hashall : Bool := true

namespace ExecState

/-- The chain of a name. -/
def chain (name : Str) : ℕ := (execHashstr name &&& 31).toNat

/-- The test of `exec_lookup`. -/
def isEntry (name : Str) (e : ExecEntry β) : Bool := e.hash == execHashstr name && e.name == name

/-- `exec_lookup`. -/
def execLookup (s : ExecState β) (name : Str) : Option (ExecEntry β) :=
  s.exechash.find chain isEntry name

/-- The entry of a name is changed, if there is one. -/
def modify (s : ExecState β) (name : Str) (f : ExecEntry β → ExecEntry β) : ExecState β :=
  { s with exechash := s.exechash.modify chain isEntry name f }

/-- `entry->mask = -1`. -/
def forget (s : ExecState β) (name : Str) : ExecState β := s.modify name fun e => { e with mask := none }

/-- `access(path, X_OK) == 0`, of a directory too. -/
def access (s : ExecState β) (path : Str) : Bool := s.files path || s.dirs path

/-- `exec_path_ok`. -/
def execPathOk (s : ExecState β) (path : Str) : Bool := s.access path && !s.dirs path

/-- `exec_path`. -/
def execPath (s : ExecState β) (name : Str) : Option Str :=
  (pathCandidates s.path name).find? s.execPathOk

/-- `builtin_search`. -/
def builtinSearch (s : ExecState β) (name : Str) (flag : BuiltinFlag) : Option ℕ :=
  s.builtins.findIdx? fun b => b.2 == flag && b.1 == name

/-- The body of the function of that name. -/
def searchFunction (s : ExecState β) (name : Str) : Option (Option β) :=
  (s.functions.findFunction name).map fun found =>
    found.bind fun f => (s.functions.heap.val f.2).map NFunc.body

/-- `exec_search`: the bits of the mask leave out special builtins (1), functions (3) and builtins
(2).  It is `none` when the list of functions has a released node. -/
def execSearch (s : ExecState β) (name : Str) (mask : ℕ) : Option (Command β) :=
  match s.builtinSearch name .exec with
  | some i => some (.exec i)
  | none =>
    match if mask.testBit 1 then none else s.builtinSearch name .special with
    | some i => some (.sbuiltin i)
    | none =>
      (if mask.testBit 3 then some none else s.searchFunction name).map fun fn =>
        match fn with
        | some body => .function body
        | none =>
          match if mask.testBit 2 then none else s.builtinSearch name .default with
          | some i => .builtin i
          | none => .program (s.execPath name)

/-- `exec_hash_invalidate_all`. -/
def execHashInvalidateAll (s : ExecState β) : ExecState β :=
  { s with exechash := s.exechash.mapAll fun e => { e with mask := none } }

/-- The entries are forgotten when `PATH` is another than the one seen last. -/
def checkPath (s : ExecState β) : ExecState β :=
  if s.pathSeen = some s.path then s
  else { s.execHashInvalidateAll with pathSeen := some s.path }

/-- `entry->cmd.path` is not executable any more. -/
def gone (s : ExecState β) : Command β → Bool
  | .program (some path) => !s.access path
  | _ => false

/-- The part of `exec_hash` for a bare name, with hashing on. -/
def execHashName (s : ExecState β) (name : Str) (mask : ℕ) : Option (ExecState β × Command β) :=
  let s := s.modify name fun e =>
    { e with
      hits := e.hits + 1
      mask := if e.mask = some mask ∧ s.gone e.cmd then none else e.mask }
  match s.execLookup name with
  | none =>
      (s.execSearch name mask).map fun cmd =>
        let e : ExecEntry β := { hash := execHashstr name, hits := 1, name, cmd, mask := some mask }
        (if cmd.found then { s with exechash := s.exechash.put chain name e } else s, cmd)
  | some e =>
      if e.mask = some mask then some (s, e.cmd)
      else
        (s.execSearch name mask).map fun cmd =>
          (s.modify name fun e => { e with hits := 1, cmd, mask := some mask }, cmd)

/-- `exec_hash`. -/
def execHash (s : ExecState β) (name : Str) (mask : ℕ) : Option (ExecState β × Command β) :=
  let s := s.checkPath
  if !pathIsname name then
    some (s, .program (if s.execPathOk name then some name else none))
  else if !s.hashall then (s.execSearch name mask).map fun cmd => (s, cmd)
  else s.execHashName name mask

/-- `hash_commands_in_node`, for the command names in a body. -/
def hashCommands (s : ExecState β) : List Str → Option (ExecState β)
  | [] => some s
  | name :: names =>
      if s.hashall && name ≠ [] && pathIsname name then
        (s.execHash name 0).bind fun r => hashCommands r.1 names
      else hashCommands s names

/-- `eval_function`. -/
def evalFunction (s : ExecState β) (name : Str) (body : β) (cmds : List Str) :
    Option (ExecState β) := do
  let s ← s.hashCommands cmds
  let functions ← funcStep s.functions (.define name body)
  some { s.forget name with functions }

/-- `unset -f`: the entry is forgotten when there was such a function. -/
def builtinUnset (s : ExecState β) (name : Str) : Option (ExecState β) := do
  let found ← s.functions.findFunction name
  let functions ← funcStep s.functions (.unset name)
  some { if Functions.parseIsfuncname name && found.isSome then s.forget name else s with functions }

/-- `exec_functions_restore`: the entries of functions are forgotten. -/
def execFunctionsRestore (s : ExecState β) : Option (ExecState β) :=
  (funcStep s.functions .restore).map fun functions =>
    { s with
      functions
      exechash := s.exechash.mapAll fun e =>
        match e.cmd with
        | .function _ => { e with mask := none }
        | _ => e }

end ExecState

/-- What may happen: a lookup, a function defined, unset, entered or left, a subshell entered or left,
another value of `PATH` (by an assignment, or as a scope ends), an executable file created or
removed. -/
inductive ExecEvent (β : Type) where
  | lookup (name : Str) (mask : ℕ)
  | define (name : Str) (body : β) (cmds : List Str)
  | unset (name : Str)
  | call
  | ret
  | enter
  | leave
  | path (value : Str) (assigned : Bool)
  | create (path : Str)
  | remove (path : Str)

/-- What the event does to the functions. -/
def ExecEvent.funcOp : ExecEvent β → Option (FuncOp β)
  | define name body _ => some (.define name body)
  | unset name => some (.unset name)
  | call => some .enter
  | ret => some .leave
  | enter => some .save
  | leave => some .restore
  | _ => none

def ExecState.step (s : ExecState β) : ExecEvent β → Option (ExecState β)
  | .lookup name mask => (s.execHash name mask).map Prod.fst
  | .define name body cmds => s.evalFunction name body cmds
  | .unset name => s.builtinUnset name
  | .call => (funcStep s.functions .enter).map fun functions => { s with functions }
  | .ret => (funcStep s.functions .leave).map fun functions => { s with functions }
  | .enter => (funcStep s.functions .save).map fun functions => { s with functions }
  | .leave => s.execFunctionsRestore
  | .path value assigned => some { if assigned then s.execHashInvalidateAll else s with path := value }
  | .create path => if s.dirs path then none else some { s with files := Function.update s.files path true }
  | .remove path => some { s with files := Function.update s.files path false }

/-- The event does not release a function that a subshell has noted. -/
def ExecState.Spares (s : ExecState β) (ev : ExecEvent β) : Prop :=
  ∀ op ∈ ev.funcOp, Shish.Spares s.functions op

/-- **The remembered answer is stale**: it is "not found" and there is a program, or it is no function
and no special builtin where the search sees a function. -/
def ExecState.Stale (s : ExecState β) (name : Str) (mask : ℕ) : Prop :=
  s.pathSeen = some s.path ∧ ∃ e, s.execLookup name = some e ∧ e.mask = some mask ∧
    ((e.cmd = .program none ∧ (s.execPath name).isSome) ∨
      (mask.testBit 3 = false ∧ (s.searchFunction name).any Option.isSome ∧ !s.gone e.cmd ∧
        match e.cmd with
        | .builtin _ | .program _ => True
        | _ => False))

/-! ## The table of entries -/

theorem Command.agrees_refl (c : Command β) : c.Agrees c := by
  cases c <;> rfl

namespace ExecState

variable {s s' : ExecState β} {m m' : Scoped β} {name n : Str} {mask : ℕ} {c : Command β}
  {e : ExecEntry β} {f : ExecEntry β → ExecEntry β}

theorem isEntry_name (h : isEntry name e) : e.name = name := by
  rw [isEntry, Bool.and_eq_true] at h
  exact beq_iff_eq.1 h.2

theorem isEntry_inj : ∀ (e : ExecEntry β) (n n' : Str), isEntry n e → isEntry n' e → n = n' :=
  fun _ _ _ h h' => (isEntry_name h).symm.trans (isEntry_name h')

theorem execLookup_modify (hf : ∀ e, (f e).hash = e.hash ∧ (f e).name = e.name) (n : Str) :
    (s.modify name f).execLookup n =
      if n = name then (s.execLookup name).map f else s.execLookup n :=
  Buckets.find_modify isEntry_inj (fun e n => by rw [isEntry, (hf e).1, (hf e).2]; rfl) n

theorem execLookup_forget (n : Str) : (s.forget name).execLookup n =
    if n = name then (s.execLookup name).map fun e => { e with mask := none } else s.execLookup n :=
  execLookup_modify (f := fun e => { e with mask := none }) (fun _ => ⟨rfl, rfl⟩) n

theorem execLookup_put (he : isEntry name e) (n : Str) :
    execLookup { s with exechash := s.exechash.put chain name e } n =
      if n = name then some e else s.execLookup n :=
  Buckets.find_put isEntry_inj he n

theorem execLookup_mapAll (hf : ∀ e, (f e).hash = e.hash ∧ (f e).name = e.name) (n : Str) :
    execLookup { s with exechash := s.exechash.mapAll f } n = (s.execLookup n).map f :=
  Buckets.find_mapAll (fun e n => by rw [isEntry, (hf e).1, (hf e).2]; rfl) n

/-! ## A search -/

/-- What is found in front of the functions. -/
def early (s : ExecState β) (name : Str) (mask : ℕ) : Option (Command β) :=
  match s.builtinSearch name .exec with
  | some i => some (.exec i)
  | none => (if mask.testBit 1 then none else s.builtinSearch name .special).map .sbuiltin

/-- The builtin that is found behind the functions. -/
def late (s : ExecState β) (name : Str) (mask : ℕ) : Option (Command β) :=
  (if mask.testBit 2 then none else s.builtinSearch name .default).map .builtin

theorem execSearch_early (h : s.early name mask = some c) : s.execSearch name mask = some c := by
  unfold early at h
  unfold execSearch
  split at h
  · exact h
  · obtain ⟨i, hi, rfl⟩ := Option.map_eq_some_iff.1 h
    rw [hi]

theorem execSearch_late (h : s.early name mask = none) : s.execSearch name mask =
    (if mask.testBit 3 then some none else s.searchFunction name).map fun fn =>
      fn.elim ((s.late name mask).getD (.program (s.execPath name))) .function := by
  unfold early at h
  unfold execSearch late
  split at h
  · exact nomatch h
  · rw [Option.map_eq_none_iff.1 h]
    refine congrArg (Option.map · _) (funext fun fn => ?_)
    cases fn with
    | some body => rfl
    | none => cases if mask.testBit 2 then none else s.builtinSearch name .default <;> rfl

theorem early_cases (h : s.early name mask = some c) : (∃ i, c = .exec i) ∨ ∃ i, c = .sbuiltin i := by
  unfold early at h
  split at h
  · next i _ => exact .inl ⟨i, (Option.some.inj h).symm⟩
  · obtain ⟨i, -, rfl⟩ := Option.map_eq_some_iff.1 h
    exact .inr ⟨i, rfl⟩

theorem late_cases (h : s.late name mask = some c) : ∃ i, c = .builtin i := by
  obtain ⟨i, -, rfl⟩ := Option.map_eq_some_iff.1 h
  exact ⟨i, rfl⟩

/-- **An answer that was right**, under the `PATH` seen last: what it says of the builtins, the
function it names and the place of its program. -/
def Right (s : ExecState β) (m : Scoped β) (seen name : Str) (mask : ℕ) : Command β → Prop
  | .function body => s.early name mask = none ∧ mask.testBit 3 = false ∧
      (m.cur.find? (·.name == name)).map NFunc.body = some body
  | .builtin i => s.early name mask = none ∧ s.late name mask = some (.builtin i)
  | .program none => s.early name mask = none ∧ s.late name mask = none
  | .program (some p) => s.early name mask = none ∧ s.late name mask = none ∧
      p ∈ pathCandidates seen name ∧ s.dirs p = false
  | c => s.early name mask = some c

/-- **What every event keeps**: the functions are those of `m`, and every remembered answer was
right when it was given. -/
structure Kept (s : ExecState β) (m : Scoped β) : Prop where
  functions : ∃ fs rs, s.functions.Keeps m fs rs
  hashall : s.hashall = true
  right : ∀ name e mask, s.execLookup name = some e → e.mask = some mask →
    ∃ seen, s.pathSeen = some seen ∧ s.Right m seen name mask e.cmd

theorem Kept.searchFunction_eq (h : s.Kept m) (name : Str) :
    s.searchFunction name = some ((m.cur.find? (·.name == name)).map NFunc.body) := by
  obtain ⟨fs, rs, hk⟩ := h.functions
  obtain ⟨found, hf, hval⟩ := hk.find_eq name
  rw [searchFunction, hf, ← hval, Option.map_some]
  cases found <;> rfl

/-- The program that is found. -/
theorem execPath_eq {p : Str} (h : s.execPath name = some p) :
    p ∈ pathCandidates s.path name ∧ s.dirs p = false := by
  refine ⟨List.mem_of_find?_eq_some h, ?_⟩
  have hok := List.find?_some h
  rw [execPathOk, Bool.and_eq_true] at hok
  simpa using hok.2

/-- **A search has an answer, and it is right.** -/
theorem Kept.search (h : s.Kept m) (name : Str) (mask : ℕ) :
    ∃ c, s.execSearch name mask = some c ∧ s.Right m s.path name mask c := by
  cases he : s.early name mask with
  | some c =>
    refine ⟨c, execSearch_early he, ?_⟩
    rcases early_cases he with ⟨i, rfl⟩ | ⟨i, rfl⟩ <;> exact he
  | none =>
    have hlate : s.Right m s.path name mask
        ((s.late name mask).getD (.program (s.execPath name))) := by
      cases hl : s.late name mask with
      | some c =>
        obtain ⟨i, rfl⟩ := late_cases hl
        exact ⟨he, hl⟩
      | none =>
        cases hp : s.execPath name with
        | none => exact ⟨he, hl⟩
        | some p => exact ⟨he, hl, execPath_eq hp⟩
    rw [execSearch_late he, h.searchFunction_eq]
    cases hb : mask.testBit 3 with
    | true => exact ⟨_, rfl, hlate⟩
    | false =>
      cases hf : (m.cur.find? (·.name == name)).map NFunc.body with
      | none => exact ⟨_, rfl, hlate⟩
      | some body => exact ⟨_, rfl, he, hb, hf⟩

/-! ## A lookup -/

/-- **What `exec_hash` does with a bare name**: it answers from the entry of the name, or searches,
and the entry is the answer afterwards. -/
theorem execHashName_cases (h : s.execHashName name mask = some (s', c)) :
    (∃ t, s' = { s with exechash := t }) ∧ (∀ n, n ≠ name → s'.execLookup n = s.execLookup n) ∧
      (∀ e, s'.execLookup name = some e → e.mask = some mask ∧ e.cmd = c) ∧
      ((∃ e, s.execLookup name = some e ∧ e.mask = some mask ∧ s.gone e.cmd = false ∧ c = e.cmd) ∨
        (∀ e, s.execLookup name = some e → e.mask = some mask → s.gone e.cmd) ∧
          s.execSearch name mask = some c) := by
  set f : ExecEntry β → ExecEntry β := fun e =>
    { e with
      hits := e.hits + 1
      mask := if e.mask = some mask ∧ s.gone e.cmd then none else e.mask } with hf
  have hlook : ∀ n, (s.modify name f).execLookup n =
      if n = name then (s.execLookup name).map f else s.execLookup n :=
    execLookup_modify fun _ => ⟨rfl, rfl⟩
  have hself : (s.modify name f).execLookup name = (s.execLookup name).map f := by
    rw [hlook, if_pos rfl]
  rw [execHashName] at h
  simp only [← hf, hself] at h
  cases hent : s.execLookup name with
  | none =>
    rw [hent] at h
    obtain ⟨cmd, hcmd, heq⟩ := Option.map_eq_some_iff.1 h
    obtain ⟨rfl, rfl⟩ := Prod.mk.inj heq
    refine ⟨?_, fun n hn => ?_, fun e he => ?_, .inr ⟨nofun, hcmd⟩⟩
    · split <;> exact ⟨_, rfl⟩
    · split
      · rw [execLookup_put (by simp [isEntry]), if_neg hn, hlook, if_neg hn]
      · rw [hlook, if_neg hn]
    · split at he
      · rw [execLookup_put (by simp [isEntry]), if_pos rfl] at he
        obtain rfl := Option.some.inj he
        exact ⟨rfl, rfl⟩
      · rw [hself, hent] at he
        exact nomatch he
  | some e =>
    rw [hent] at h
    simp only [Option.map_some] at h
    split at h
    · next hm =>
      obtain ⟨rfl, rfl⟩ := Prod.mk.inj (Option.some.inj h)
      have hmask : e.mask = some mask ∧ s.gone e.cmd = false := by
        simp only [f] at hm
        split at hm
        · exact nomatch hm
        · next hg => exact ⟨hm, by simpa [hm] using hg⟩
      refine ⟨⟨_, rfl⟩, fun n hn => by rw [hlook, if_neg hn], fun e' he' => ?_,
        .inl ⟨e, rfl, hmask.1, hmask.2, rfl⟩⟩
      rw [hself, hent] at he'
      obtain rfl := Option.some.inj he'
      exact ⟨hm, rfl⟩
    · next hm =>
      obtain ⟨cmd, hcmd, heq⟩ := Option.map_eq_some_iff.1 h
      obtain ⟨rfl, rfl⟩ := Prod.mk.inj heq
      have hlook' : ∀ n, ((s.modify name f).modify name fun e =>
          { e with hits := 1, cmd, mask := some mask }).execLookup n = if n = name then
            ((s.modify name f).execLookup name).map fun e =>
              { e with hits := 1, cmd, mask := some mask }
          else (s.modify name f).execLookup n :=
        execLookup_modify (f := fun e => { e with hits := 1, cmd, mask := some mask })
          fun _ => ⟨rfl, rfl⟩
      refine ⟨⟨_, rfl⟩, fun n hn => ?_, fun e' he' => ?_, .inr ⟨fun e' he' hm' => ?_, hcmd⟩⟩
      · rw [hlook', if_neg hn, hlook, if_neg hn]
      · rw [hlook', if_pos rfl, hself, hent] at he'
        obtain rfl := Option.some.inj he'
        exact ⟨rfl, rfl⟩
      · obtain rfl := Option.some.inj he'
        by_contra hg
        exact hm ((if_neg fun hand => hg hand.2).trans hm')

/-! ## What the events keep -/

theorem right_congr (hb : s'.builtins = s.builtins) (hd : s'.dirs = s.dirs)
    (hf : ∀ body, c = .function body → (m'.cur.find? (·.name == name)).map NFunc.body =
      (m.cur.find? (·.name == name)).map NFunc.body) {seen : Str}
    (h : s.Right m seen name mask c) : s'.Right m' seen name mask c := by
  have he : s'.early name mask = s.early name mask := by
    simp only [early, builtinSearch, hb]
  have hl : s'.late name mask = s.late name mask := by
    simp only [late, builtinSearch, hb]
  cases c with
  | program p =>
    cases p with
    | none => exact ⟨he.trans h.1, hl.trans h.2⟩
    | some p => exact ⟨he.trans h.1, hl.trans h.2.1, h.2.2.1, by rw [hd]; exact h.2.2.2⟩
  | exec i => exact he.trans h
  | sbuiltin i => exact he.trans h
  | function body => exact ⟨he.trans h.1, h.2.1, (hf body rfl).trans h.2.2⟩
  | builtin i => exact ⟨he.trans h.1, hl.trans h.2⟩

/-- **Answers stay right** as long as none is new and those that name a function are not about one
that changed. -/
theorem Kept.mono (h : s.Kept m) (hb : s'.builtins = s.builtins) (hd : s'.dirs = s.dirs)
    (hh : s'.hashall = s.hashall) (hseen : s'.pathSeen = s.pathSeen)
    (hf : ∃ fs rs, s'.functions.Keeps m' fs rs)
    (hent : ∀ name e mask, s'.execLookup name = some e → e.mask = some mask →
      ∃ e₀, s.execLookup name = some e₀ ∧ e₀.mask = some mask ∧ e₀.cmd = e.cmd ∧
        ∀ body, e.cmd = .function body → (m'.cur.find? (·.name == name)).map NFunc.body =
          (m.cur.find? (·.name == name)).map NFunc.body) : s'.Kept m' where
  functions := hf
  hashall := hh.trans h.hashall
  right name e mask he hm := by
    obtain ⟨e₀, he₀, hm₀, hcmd, hfun⟩ := hent name e mask he hm
    obtain ⟨seen, hs, hr⟩ := h.right name e₀ mask he₀ hm₀
    exact ⟨seen, hseen.trans hs, right_congr hb hd hfun (hcmd ▸ hr)⟩

/-- No entry is left that counts. -/
theorem execLookup_invalidated (n : Str) : s.execHashInvalidateAll.execLookup n =
    (s.execLookup n).map fun e => { e with mask := none } :=
  execLookup_mapAll (f := fun e => { e with mask := none }) (fun _ => ⟨rfl, rfl⟩) n

theorem mask_invalidated (he : s.execHashInvalidateAll.execLookup name = some e) :
    e.mask = none := by
  rw [execLookup_invalidated] at he
  obtain ⟨e₀, -, rfl⟩ := Option.map_eq_some_iff.1 he
  rfl

theorem checkPath_eq (s : ExecState β) :
    ∃ t, s.checkPath = { s with exechash := t, pathSeen := some s.path } := by
  unfold checkPath
  split
  · next h => exact ⟨s.exechash, by rw [← h]⟩
  · exact ⟨_, rfl⟩

theorem Kept.checkPath (h : s.Kept m) : s.checkPath.Kept m := by
  unfold ExecState.checkPath
  split
  · exact h
  · exact ⟨h.functions, h.hashall, fun name e mask he hm =>
      absurd hm (by rw [mask_invalidated he]; exact nofun)⟩

theorem Kept.execHashName (h : s.Kept m) (hseen : s.pathSeen = some s.path)
    (hs : s.execHashName name mask = some (s', c)) :
    s'.Kept m ∧ ∃ t, s' = { s with exechash := t } := by
  obtain ⟨⟨t, rfl⟩, hother, hself, hc⟩ := execHashName_cases hs
  refine ⟨⟨h.functions, h.hashall, fun n e k he hk => ?_⟩, t, rfl⟩
  by_cases hn : n = name
  · subst hn
    obtain ⟨hm, rfl⟩ := hself e he
    obtain rfl := Option.some.inj (hm.symm.trans hk)
    rcases hc with ⟨e₀, he₀, hm₀, -, hcmd⟩ | ⟨-, hsearch⟩
    · rw [hcmd]
      exact h.right n e₀ mask he₀ hm₀
    · obtain ⟨c', hc', hr⟩ := h.search n mask
      obtain rfl := Option.some.inj (hsearch.symm.trans hc')
      exact ⟨s.path, hseen, hr⟩
  · rw [hother n hn] at he
    exact h.right n e k he hk

theorem Kept.execHash (h : s.Kept m) (hs : s.execHash name mask = some (s', c)) :
    s'.Kept m ∧ s'.functions = s.functions := by
  have hc := h.checkPath
  obtain ⟨t, ht⟩ := checkPath_eq s
  have hfun : s.checkPath.functions = s.functions := by rw [ht]
  have hseen : s.checkPath.pathSeen = some s.checkPath.path := by rw [ht]
  unfold ExecState.execHash at hs
  cases hname : pathIsname name with
  | false =>
    simp only [hname, Bool.not_false, if_pos] at hs
    obtain ⟨rfl, -⟩ := Prod.mk.inj (Option.some.inj hs)
    exact ⟨hc, hfun⟩
  | true =>
    simp only [hname, hc.hashall, Bool.not_true, if_neg Bool.false_ne_true] at hs
    obtain ⟨h', t', rfl⟩ := hc.execHashName hseen hs
    exact ⟨h', hfun⟩

theorem Kept.hashCommands : ∀ {cmds : List Str} {s s' : ExecState β}, s.Kept m →
    s.hashCommands cmds = some s' → s'.Kept m ∧ s'.functions = s.functions
  | [], s, s', h, hs => by
      obtain rfl := Option.some.inj hs
      exact ⟨h, rfl⟩
  | name :: cmds, s, s', h, hs => by
      rw [ExecState.hashCommands] at hs
      split at hs
      · obtain ⟨⟨s₁, c⟩, hs₁, hs⟩ := Option.bind_eq_some_iff.1 hs
        obtain ⟨h₁, hf₁⟩ := h.execHash hs₁
        obtain ⟨h', hf'⟩ := h₁.hashCommands hs
        exact ⟨h', hf'.trans hf₁⟩
      · exact h.hashCommands hs

theorem find?_eraseP {l : List (NFunc β)} (hne : n ≠ name) :
    (l.eraseP (·.name == name)).find? (·.name == n) = l.find? (·.name == n) := by
  induction l with
  | nil => rfl
  | cons f l ih =>
    cases hf : f.name == name with
    | true =>
      have hfn : (f.name == n) = false := by
        rw [beq_eq_false_iff_ne, beq_iff_eq.1 hf]
        exact Ne.symm hne
      rw [List.eraseP_cons_of_pos (by exact hf), List.find?_cons, hfn]
    | false => rw [List.eraseP_cons_of_neg (by simp [hf]), List.find?_cons, List.find?_cons, ih]

/-- A step of the functions alone. -/
theorem Kept.funcStep (h : s.Kept m) {op : FuncOp β} {functions : Functions β}
    (hok : Shish.Spares s.functions op) (hs : Shish.funcStep s.functions op = some functions) :
    ∃ fs rs, functions.Keeps (m.step op) fs rs := by
  obtain ⟨fs, rs, hk⟩ := h.functions
  obtain ⟨f', fs', rs', hf', hk'⟩ := hk.step hok
  obtain rfl := Option.some.inj (hs.symm.trans hf')
  exact ⟨fs', rs', hk'⟩

/-- The entry of a name is forgotten, and the functions of other names are as they were. -/
theorem Kept.forget (h : s.Kept m) {functions : Functions β}
    (hf : ∃ fs rs, functions.Keeps m' fs rs)
    (hother : ∀ n, n ≠ name → m'.cur.find? (·.name == n) = m.cur.find? (·.name == n)) :
    Kept { s.forget name with functions } m' := by
  refine h.mono rfl rfl rfl rfl hf fun n e k he hk => ?_
  have he' : (s.forget name).execLookup n = some e := he
  rw [execLookup_forget] at he'
  split at he'
  · obtain ⟨e₀, -, rfl⟩ := Option.map_eq_some_iff.1 he'
    exact nomatch hk
  · next hn => exact ⟨e, he', hk, rfl, fun _ _ => by rw [hother n hn]⟩

/-- **What every event keeps.** -/
theorem Kept.step {ev : ExecEvent β} (h : s.Kept m) (hok : s.Spares ev) (hs : s.step ev = some s') :
    s'.Kept (ev.funcOp.elim m m.step) := by
  cases ev with
  | lookup name mask =>
    obtain ⟨⟨s₁, c⟩, hs₁, rfl⟩ := Option.map_eq_some_iff.1 hs
    exact (h.execHash hs₁).1
  | define name body cmds =>
    obtain ⟨s₁, hs₁, hs⟩ := Option.bind_eq_some_iff.1 hs
    obtain ⟨functions, hf, hs⟩ := Option.bind_eq_some_iff.1 hs
    obtain rfl := Option.some.inj hs
    obtain ⟨h₁, hfun⟩ := h.hashCommands hs₁
    refine h₁.forget (h₁.funcStep (hfun ▸ hok _ rfl) hf) fun n hn => ?_
    have hne : (name == n) = false := beq_eq_false_iff_ne.2 (Ne.symm hn)
    change (⟨name, body⟩ :: m.cur.eraseP (·.name == name)).find? (·.name == n) = _
    rw [List.find?_cons]
    simp only [hne]
    exact find?_eraseP hn
  | unset name =>
    obtain ⟨found, hfound, hs⟩ := Option.bind_eq_some_iff.1 hs
    obtain ⟨functions, hf, hs⟩ := Option.bind_eq_some_iff.1 hs
    obtain rfl := Option.some.inj hs
    have hfun := h.funcStep (hok _ rfl) hf
    have hother : ∀ n, n ≠ name → (m.step (.unset name)).cur.find? (·.name == n) =
        m.cur.find? (·.name == n) := fun n hn => by
      simp only [Scoped.step]
      split
      · exact find?_eraseP hn
      · rfl
    have hsame : found = none → (m.step (.unset name)).cur = m.cur := by
      rintro rfl
      obtain ⟨fs, rs, hk⟩ := h.functions
      obtain ⟨found', hf', heq⟩ := hk.find_eq name
      obtain rfl := Option.some.inj (hfound.symm.trans hf')
      simp only [Scoped.step]
      split
      · refine List.eraseP_of_forall_not fun f hmem => ?_
        exact List.find?_eq_none.1 heq.symm f hmem
      · rfl
    cases hcond : Functions.parseIsfuncname name && found.isSome with
    | true => exact h.forget hfun hother
    | false =>
      refine ⟨hfun, h.hashall, fun n e k he hk => ?_⟩
      obtain ⟨seen, hseen, hr⟩ := h.right n e k he hk
      refine ⟨seen, hseen, right_congr (s := s) rfl rfl (fun _ _ => ?_) hr⟩
      have hcur : (m.step (.unset name)).cur = m.cur := by
        rcases Bool.and_eq_false_iff.1 hcond with hname | hnone
        · simp [Scoped.step, hname]
        · exact hsame (Option.isNone_iff_eq_none.1 (by simpa using hnone))
      exact congrArg (fun l => (List.find? (·.name == n) l).map NFunc.body) hcur
  | call =>
    simp only [ExecState.step] at hs
    obtain ⟨functions, hf, rfl⟩ := Option.map_eq_some_iff.1 hs
    exact ⟨h.funcStep (hok _ rfl) hf, h.hashall, h.right⟩
  | ret =>
    simp only [ExecState.step] at hs
    obtain ⟨functions, hf, rfl⟩ := Option.map_eq_some_iff.1 hs
    exact ⟨h.funcStep (hok _ rfl) hf, h.hashall, h.right⟩
  | enter =>
    simp only [ExecState.step] at hs
    obtain ⟨functions, hf, rfl⟩ := Option.map_eq_some_iff.1 hs
    exact ⟨h.funcStep (hok _ rfl) hf, h.hashall, h.right⟩
  | leave =>
    obtain ⟨functions, hf, rfl⟩ := Option.map_eq_some_iff.1 hs
    refine h.mono rfl rfl rfl rfl (h.funcStep (hok _ rfl) hf) fun n e k he hk => ?_
    have he' := (execLookup_mapAll (s := s) (f := fun e : ExecEntry β =>
      match e.cmd with
      | .function _ => { e with mask := none }
      | _ => e) (fun e => by split <;> exact ⟨rfl, rfl⟩) n).symm.trans he
    obtain ⟨e₀, he₀, rfl⟩ := Option.map_eq_some_iff.1 he'
    split at hk
    · cases hk
    · next hfun => exact ⟨e₀, he₀, hk, rfl, fun body hbody => absurd hbody (hfun body)⟩
  | path value assigned =>
    obtain rfl := Option.some.inj hs
    cases assigned with
    | false => exact ⟨h.functions, h.hashall, h.right⟩
    | true =>
      refine ⟨h.functions, h.hashall, fun n e k he hk => absurd hk ?_⟩
      rw [mask_invalidated (s := s) he]
      rintro ⟨⟩
  | create path =>
    simp only [ExecState.step] at hs
    split at hs
    · cases hs
    · obtain rfl := Option.some.inj hs
      exact ⟨h.functions, h.hashall, h.right⟩
  | remove path =>
    obtain rfl := Option.some.inj hs
    exact ⟨h.functions, h.hashall, h.right⟩

theorem Kept.run : ∀ {evs : List (ExecEvent β)} {s s' : ExecState β} {m : Scoped β}, s.Kept m →
    Along ExecState.step Spares s evs → runs ExecState.step s evs = some s' → ∃ m', s'.Kept m'
  | [], s, s', m, h, _, hs => by
      obtain rfl := Option.some.inj hs
      exact ⟨m, h⟩
  | ev :: evs, s, s', m, h, ⟨hok, hrest⟩, hs => by
      obtain ⟨s₁, hs₁, hs⟩ := Option.bind_eq_some_iff.1 hs
      exact (h.step hok hs₁).run (hrest s₁ hs₁) hs

/-! ## What a lookup answers -/

/-- The function a search sees. -/
def seenFunction (m : Scoped β) (name : Str) (mask : ℕ) : Option β :=
  if mask.testBit 3 then none else (m.cur.find? (·.name == name)).map NFunc.body

theorem Kept.search_late (h : s.Kept m) (he : s.early name mask = none) : s.execSearch name mask =
    some ((seenFunction m name mask).elim ((s.late name mask).getD (.program (s.execPath name)))
      .function) := by
  rw [execSearch_late he, h.searchFunction_eq, seenFunction]
  cases mask.testBit 3 <;> rfl

theorem Kept.seen_iff (h : s.Kept m) :
    (mask.testBit 3 = false ∧ (s.searchFunction name).any Option.isSome) ↔
      (seenFunction m name mask).isSome := by
  rw [h.searchFunction_eq, seenFunction]
  cases mask.testBit 3 <;> simp

/-- A program that is still executable is one that a search finds. -/
theorem execPath_isSome {p : Str} (hp : p ∈ pathCandidates s.path name) (hd : s.dirs p = false)
    (hg : s.gone (.program (some p)) = false) : (s.execPath name).isSome := by
  have haccess : s.access p = true := by simpa [gone] using hg
  refine List.find?_isSome.2 ⟨p, hp, ?_⟩
  rw [execPathOk, haccess, hd]
  rfl

/-- **A remembered answer that still stands is the answer of a search**, unless it is stale. -/
theorem Kept.agrees_iff (h : s.Kept m) (hseen : s.pathSeen = some s.path)
    (he : s.execLookup name = some e) (hm : e.mask = some mask) (hg : s.gone e.cmd = false) :
    ∃ c, s.execSearch name mask = some c ∧ (e.cmd.Agrees c ↔ ¬s.Stale name mask) := by
  obtain ⟨seen, hs, hr⟩ := h.right name e mask he hm
  obtain rfl := Option.some.inj (hs.symm.trans hseen)
  have hstale : s.Stale name mask ↔ ((e.cmd = .program none ∧ (s.execPath name).isSome) ∨
      (seenFunction m name mask).isSome ∧
        match e.cmd with
        | .builtin _ | .program _ => True
        | _ => False) := by
    rw [← h.seen_iff]
    constructor
    · rintro ⟨-, e', he', -, hor⟩
      obtain rfl := Option.some.inj (he.symm.trans he')
      refine hor.imp id ?_
      rintro ⟨hb, hf, -, hc⟩
      exact ⟨⟨hb, hf⟩, hc⟩
    · exact fun hor => ⟨hseen, e, he, hm, hor.imp id fun ⟨⟨hb, hf⟩, hc⟩ =>
        ⟨hb, hf, by rw [hg]; rfl, hc⟩⟩
  rw [hstale]
  cases hcmd : e.cmd with
  | exec i =>
    rw [hcmd] at hr
    exact ⟨_, execSearch_early hr, by simp [Command.Agrees]⟩
  | sbuiltin i =>
    rw [hcmd] at hr
    exact ⟨_, execSearch_early hr, by simp [Command.Agrees]⟩
  | function body =>
    rw [hcmd] at hr
    have hfn : seenFunction m name mask = some body := by rw [seenFunction, hr.2.1, ← hr.2.2]; rfl
    exact ⟨_, h.search_late hr.1, by simp [hfn, Command.Agrees]⟩
  | builtin i =>
    rw [hcmd] at hr
    refine ⟨_, h.search_late hr.1, ?_⟩
    rw [hr.2]
    cases seenFunction m name mask <;> simp [Command.Agrees]
  | program p =>
    cases p with
    | none =>
      rw [hcmd] at hr
      refine ⟨_, h.search_late hr.1, ?_⟩
      rw [hr.2]
      cases seenFunction m name mask <;> simp [Command.Agrees]
    | some p =>
      rw [hcmd] at hr hg
      have hpath := execPath_isSome hr.2.2.1 hr.2.2.2 hg
      refine ⟨_, h.search_late hr.1, ?_⟩
      rw [hr.2.1]
      cases seenFunction m name mask <;> simp [Command.Agrees, hpath]

/-- A lookup has an answer when a search has. -/
theorem execHashName_isSome (hc : s.execSearch name mask = some c) :
    ∃ s' c', s.execHashName name mask = some (s', c') := by
  have hmod : ∀ f, (s.modify name f).execSearch name mask = some c := fun _ => hc
  simp only [execHashName, hmod, Option.map_some]
  split
  · exact ⟨_, _, rfl⟩
  · split
    · exact ⟨_, _, rfl⟩
    · exact ⟨_, _, rfl⟩

/-- The shell at its start: what it has built in, the directories, the files and `PATH`. -/
def start (builtins : List (Str × BuiltinFlag)) (dirs files : Str → Bool) (path : Str) :
    ExecState β := { builtins, dirs, files, path }

theorem Kept.start (builtins : List (Str × BuiltinFlag)) (dirs files : Str → Bool) (path : Str) :
    (ExecState.start (β := β) builtins dirs files path).Kept {} where
  functions := ⟨[], [], Functions.Keeps.init⟩
  hashall := rfl
  right _ _ _ he := nomatch he

end ExecState

/-- **A lookup answers as a search would, exactly unless the remembered answer is stale**, whatever
happened before: in every run in which `unset -f` spares the functions that subshells have noted. -/
theorem execHash_agrees_iff (builtins : List (Str × BuiltinFlag)) (dirs files : Str → Bool)
    (path : Str) (evs : List (ExecEvent β)) (s : ExecState β)
    (hok : Along ExecState.step ExecState.Spares (.start builtins dirs files path) evs)
    (hrun : runs ExecState.step (.start builtins dirs files path) evs = some s)
    (name : Str) (mask : ℕ) (hname : pathIsname name) :
    ∃ s' c c', s.execHash name mask = some (s', c) ∧ s.execSearch name mask = some c' ∧
      (c.Agrees c' ↔ ¬s.Stale name mask) := by
  obtain ⟨m, h⟩ := (ExecState.Kept.start builtins dirs files path).run hok hrun
  have hc := h.checkPath
  obtain ⟨t, ht⟩ := s.checkPath_eq
  have hseen : s.checkPath.pathSeen = some s.checkPath.path := by rw [ht]
  have hsearch : s.checkPath.execSearch name mask = s.execSearch name mask := by
    rw [ht]
    rfl
  have hhash : s.execHash name mask = s.checkPath.execHashName name mask := by
    unfold ExecState.execHash
    simp [hname, hc.hashall]
  obtain ⟨cs, hcs, -⟩ := hc.search name mask
  obtain ⟨s', c, hs'⟩ := ExecState.execHashName_isSome hcs
  obtain ⟨-, -, -, hcases⟩ := ExecState.execHashName_cases hs'
  rcases hcases with ⟨e, he, hm, hg, rfl⟩ | ⟨hno, hcs'⟩
  · -- an entry counts only when `PATH` is the one that was seen
    by_cases hpath : s.pathSeen = some s.path
    · have hsame : s.checkPath = s := if_pos hpath
      rw [hsame] at he hg
      obtain ⟨c', hc', hiff⟩ := h.agrees_iff hpath he hm hg
      exact ⟨s', e.cmd, c', hhash.trans hs', hc', hiff⟩
    · have hinv : s.checkPath = { s.execHashInvalidateAll with pathSeen := some s.path } :=
        if_neg hpath
      rw [hinv] at he
      rw [ExecState.mask_invalidated (s := s) he] at hm
      exact nomatch hm
  · obtain rfl := Option.some.inj (hcs.symm.trans hcs')
    refine ⟨s', cs, cs, hhash.trans hs', hsearch.symm.trans hcs, ?_⟩
    refine ⟨fun _ => ?_, fun _ => Command.agrees_refl cs⟩
    rintro ⟨hpath, e, he, hm, hor⟩
    have hsame : s.checkPath = s := if_pos hpath
    have hgone : s.gone e.cmd := by
      have := hno e (by rw [hsame]; exact he) hm
      rwa [hsame] at this
    rcases hor with ⟨hcmd, -⟩ | ⟨-, -, hg, -⟩
    · rw [hcmd] at hgone
      exact nomatch hgone
    · rw [hgone] at hg
      exact nomatch hg

/-- A shell with one builtin and nothing in `/bin`. -/
def sampleShell : ExecState ℕ :=
  .start [("true".toList, .default)] (fun _ => false) (fun _ => false) "/bin".toList

/-- A function is defined and called. -/
theorem execHash_agrees_iff_sample :
    ∃ s, runs ExecState.step sampleShell [.define "f".toList 1 [], .lookup "f".toList 0] = some s ∧
      ∃ s' c c', s.execHash "f".toList 0 = some (s', c) ∧ s.execSearch "f".toList 0 = some c' ∧
        (c.Agrees c' ↔ ¬s.Stale "f".toList 0) := by
  have hrun : (runs ExecState.step sampleShell
      [.define "f".toList 1 [], .lookup "f".toList 0]).isSome := by decide
  obtain ⟨s, hs⟩ := Option.isSome_iff_exists.1 hrun
  refine ⟨s, hs, execHash_agrees_iff [("true".toList, .default)] (fun _ => false) (fun _ => false)
    "/bin".toList [.define "f".toList 1 [], .lookup "f".toList 0] s ?_ hs "f".toList 0 (by decide)⟩
  refine ⟨fun op hop => ?_, fun _ _ => ⟨nofun, fun _ _ => trivial⟩⟩
  obtain rfl := Option.some.inj hop
  trivial

/-- A program is removed, looked for and put back. -/
def putBack : List (ExecEvent ℕ) :=
  [.create "/bin/x".toList, .lookup "x".toList 0, .remove "/bin/x".toList, .lookup "x".toList 0,
    .create "/bin/x".toList]

/-- A function is replaced, unset and looked for in a subshell. -/
def givenBack : List (ExecEvent ℕ) :=
  [.define "f".toList 1 [], .lookup "f".toList 0, .enter, .define "f".toList 2 [], .unset "f".toList,
    .lookup "f".toList 0, .leave]

/-- Neither the program nor the function is found again. -/
theorem stale_answers :
    ((runs ExecState.step sampleShell putBack).bind fun s =>
        (s.execHash "x".toList 0).map Prod.snd) = some (.program none) ∧
      ((runs ExecState.step sampleShell putBack).bind fun s => s.execSearch "x".toList 0) =
        some (.program (some "/bin/x".toList)) ∧
      ((runs ExecState.step sampleShell givenBack).bind fun s =>
        (s.execHash "f".toList 0).map Prod.snd) = some (.program none) ∧
      ((runs ExecState.step sampleShell givenBack).bind fun s => s.execSearch "f".toList 0) =
        some (.function 1) := by
  decide

end Shish
