import Shish.Lib.Linked
import Shish.Lib.Nested

/-!
# Builtin/Trap — traps, dispositions and in-process subshells

A trap on a signal is a node in a list, a disposition installed for the signal, and the disposition
it took the place of, on a stack of the signal's own.  `trap` changes the three one after another;
a subshell notes the nodes of the list down when it begins, and at its end takes out what is not
noted, arms what is, and links the list again.

Which signals the system lets be changed at all is the parameter `catchable`; `τ` are the bodies.
-/

namespace Shish

/-! ## Signals -/

/-- What is installed for a signal: the default, `SIG_IGN`, `trap_relay`, or a handler of the
shell's own. -/
inductive Disp where
  | dfl
  | ign
  | relay
  | own
  deriving DecidableEq

/-- `(char)sig > 0`: no pseudo-signal. -/
def isReal (sig : ℕ) : Bool := 0 < sig && sig < 128

/-- `SIGINT`, `SIGQUIT` and `SIGTERM`. -/
def shellSigs : List ℕ := [2, 3, 15]

/-- The dispositions, the stacks of `sig_pusha` and `sig_pop`, the signals ignored on entry, and
what the shell knows about itself: `sh_interactive`, `sh_async`, `sh_child` and `sh_subshell`. -/
structure Signals where
  disp : ℕ → Disp
  stack : ℕ → List Disp := fun _ => []
  ignored : ℕ → Bool := fun _ => false
  interactive : Bool := false
  async : Bool := false
  child : Bool := false
  subshell : ℕ := 0

namespace Signals

variable (catchable : ℕ → Bool)

/-- `sig_was_ignored`; the signals go up to 64. -/
def sigWasIgnored (g : Signals) (sig : ℕ) : Bool := 0 < sig && sig < 65 && g.ignored sig

def sigUnignore (g : Signals) (sig : ℕ) : Signals :=
  { g with ignored := Function.update g.ignored sig false }

/-- `sig_action`. -/
def sigAction (g : Signals) (sig : ℕ) (d : Disp) : Signals :=
  if catchable sig then { g with disp := Function.update g.disp sig d } else g

/-- `sig_pusha`: the disposition that was is kept, if there is room. -/
def sigPush (g : Signals) (sig : ℕ) (d : Disp) : Signals :=
  if 0 < sig && sig < 65 && (g.stack sig).length < 16 && catchable sig then
    { g with
      disp := Function.update g.disp sig d
      stack := Function.update g.stack sig (g.disp sig :: g.stack sig) }
  else g

/-- `sig_pop`: it comes back. -/
def sigPop (g : Signals) (sig : ℕ) : Signals :=
  match g.stack sig with
  | [] => g
  | d :: ds =>
      if 0 < sig && sig < 65 && catchable sig then
        { g with
          disp := Function.update g.disp sig d
          stack := Function.update g.stack sig ds }
      else g

/-- `trap_reset_entry_ignore`. -/
def trapResetEntryIgnore (g : Signals) (sig : ℕ) : Signals :=
  let shellSig := decide (sig ∈ shellSigs)
  if isReal sig && shellSig && (g.async || (g.interactive && g.subshell != 0)) then
    let g := g.sigAction catchable sig .dfl
    if g.sigWasIgnored sig then g.sigUnignore sig else g
  else if isReal sig && g.sigWasIgnored sig && g.interactive then
    (g.sigAction catchable sig (if shellSig then .ign else .dfl)).sigUnignore sig
  else g

/-- The signals `trap` leaves alone: ignored on entry, in a shell that is not interactive. -/
def leaves (g : Signals) (sig : ℕ) : Bool := isReal sig && g.sigWasIgnored sig && !g.interactive

/-- One signal of `sh_sigignore`. -/
def ignoreOne (g : Signals) (sig : ℕ) : Signals :=
  if g.sigWasIgnored sig || g.disp sig != .dfl then g else g.sigAction catchable sig .ign

/-- `sh_sigignore`. -/
def shSigignore (g : Signals) : Signals :=
  if g.interactive then shellSigs.foldl (ignoreOne catchable) g else g

end Signals

/-! ## Traps -/

variable {τ : Type}

/-- A node of the list; a trap without a body ignores its signal. -/
structure Trap (τ : Type) where
  sig : ℕ
  tree : Option τ
  deriving DecidableEq

/-- What a trap installs. -/
def Trap.inForce (t : Trap τ) : Disp := if t.tree.isSome then .relay else .ign

/-- The signals, the list of traps, the nodes the subshells that are still to end have noted, and
`exec_subshell_depth`.  `fresh` is the next node. -/
structure Traps (τ : Type) where
  sigs : Signals
  heap : Heap (Trap τ) := fun _ => none
  fresh : ℕ := 0
  traps : Option ℕ := none
  snaps : List (List ℕ) := []
  subshellDepth : ℕ := 0

namespace Traps

variable (catchable : ℕ → Bool)

/-- The walk of `trap_find` and `trap_uninstall`. -/
def trapFind (s : Traps τ) (sig : ℕ) : Option (Option (Option ℕ × ℕ)) :=
  s.heap.find (·.sig == sig) s.fresh none s.traps

/-- `*ptr = t->next`. -/
def takeOut (s : Traps τ) (prev : Option ℕ) (t : ℕ) : Traps τ :=
  let r := s.heap.unlink s.traps prev ((s.heap t).bind Cell.next)
  { s with heap := r.1, traps := r.2 }

/-- A new node in front. -/
def prepend (s : Traps τ) (t : Trap τ) : Traps τ :=
  { s with
    heap := Function.update s.heap s.fresh (some ⟨t, s.traps⟩)
    fresh := s.fresh + 1
    traps := some s.fresh }

/-- `trap_uninstall`: in a subshell the node is not released. -/
def trapUninstall (s : Traps τ) (sig : ℕ) : Option (Traps τ) :=
  if s.sigs.leaves sig then some s
  else do
    let found ← s.trapFind sig
    match found with
    | none => some { s with sigs := s.sigs.trapResetEntryIgnore catchable sig }
    | some (prev, t) =>
        let sigs := if isReal sig then
            (s.sigs.sigPop catchable sig).trapResetEntryIgnore catchable sig
          else s.sigs
        let s := { s with sigs }.takeOut prev t
        some (if s.subshellDepth = 0 then { s with heap := s.heap.release t } else s)

/-- What `trap_install` installs for a signal: `sig_push`, and `trap_arm` for a body. -/
def installed (g : Signals) (t : Trap τ) : Signals :=
  if isReal t.sig then
    let g := g.sigPush catchable t.sig t.inForce
    if t.tree.isSome then g.sigAction catchable t.sig .relay else g
  else g

/-- `trap_install`. -/
def trapInstall (s : Traps τ) (t : Trap τ) : Option (Traps τ) :=
  if s.sigs.leaves t.sig then some s
  else do
    let s ← s.trapUninstall catchable t.sig
    some { s.prepend t with sigs := installed catchable s.sigs t }

/-- `trap_snapshot_save`. -/
def trapSnapshotSave (s : Traps τ) : Option (Traps τ) :=
  (s.heap.nodes s.fresh s.traps).map fun ns => { s with snaps := ns :: s.snaps }

/-- The first loop of `trap_snapshot_restore`: the nodes from `p` on that are not noted go. -/
def undo (noted : List ℕ) : Traps τ → ℕ → Option ℕ → Option (Traps τ)
  | s, _, none => some s
  | _, 0, some _ => none
  | s, k + 1, some t =>
      match s.heap t with
      | none => none
      | some c =>
          if t ∈ noted then undo noted s k c.next
          else
            let sigs := if isReal c.val.sig then s.sigs.sigPop catchable c.val.sig else s.sigs
            undo noted { s with sigs, heap := s.heap.release t } k c.next

/-- Its second loop: the noted traps with a body are armed. -/
def rearm (s : Traps τ) : List ℕ → Option (Traps τ)
  | [] => some s
  | n :: ns =>
      match s.heap n with
      | none => none
      | some c =>
          if isReal c.val.sig && c.val.tree.isSome then
            rearm { s with sigs := s.sigs.sigAction catchable c.val.sig .relay } ns
          else rearm s ns

/-- `trap_snapshot_restore`. -/
def trapSnapshotRestore (s : Traps τ) : Option (Traps τ) :=
  match s.snaps with
  | [] => none
  | ns :: snaps => do
      let s ← undo catchable ns s s.fresh s.traps
      let s ← rearm catchable s ns
      let heap ← s.heap.relink ns
      some { s with heap, traps := ns.head?, snaps }

/-- The traps, newest first; `none` when that reads a released node. -/
def list (s : Traps τ) : Option (List (Trap τ)) :=
  s.heap.values s.fresh s.traps

/-- One signal of `trap_reset_caught`. -/
def resetOne (g : Signals) (t : Trap τ) : Signals :=
  if isReal t.sig && t.tree.isSome && !(g.async && (t.sig == 2 || t.sig == 3)) then
    g.sigAction catchable t.sig .dfl
  else g

/-- `trap_reset_caught`, on the traps in the list. -/
def trapResetCaught (g : Signals) (ts : List (Trap τ)) : Signals :=
  if g.child then ts.foldl (resetOne catchable) g else g

/-- One signal of `sh_sigrestore`; `trap_ignores` looks for its trap. -/
def restoreOne (ts : List (Trap τ)) (g : Signals) (sig : ℕ) : Signals :=
  if g.sigWasIgnored sig || (g.async && sig != 15) then g
  else if (ts.find? (·.sig == sig)).any (·.tree.isNone) then g
  else g.sigAction catchable sig .dfl

/-- `sh_sigrestore`. -/
def shSigrestore (g : Signals) (ts : List (Trap τ)) : Signals :=
  let g := trapResetCaught catchable g ts
  if g.interactive then shellSigs.foldl (restoreOne catchable ts) g else g

/-- How `eval_subshell` begins. -/
def subshellEnter (s : Traps τ) : Option (Traps τ) := do
  let s ← trapSnapshotSave { s with subshellDepth := s.subshellDepth + 1 }
  let ts ← s.list
  let sigs := shSigrestore catchable s.sigs ts
  some { s with sigs := { sigs with subshell := sigs.subshell + 1 } }

/-- How it ends. -/
def subshellLeave (s : Traps τ) : Option (Traps τ) := do
  let s ← s.trapSnapshotRestore catchable
  let sigs := Signals.shSigignore catchable { s.sigs with subshell := s.sigs.subshell - 1 }
  some { s with sigs, subshellDepth := s.subshellDepth - 1 }

end Traps

/-- `trap CODE SIG` and `trap '' SIG`, `trap - SIG`, and a subshell begins and ends. -/
inductive TrapOp (τ : Type) where
  | install (t : Trap τ)
  | uninstall (sig : ℕ)
  | enter
  | leave
  deriving DecidableEq

def TrapOp.begins (op : TrapOp τ) : Bool := op matches .enter

def TrapOp.ends (op : TrapOp τ) : Bool := op matches .leave

/-- A step; `none` when it reads a released node. -/
def trapStep (catchable : ℕ → Bool) (s : Traps τ) : TrapOp τ → Option (Traps τ)
  | .install t => s.trapInstall catchable t
  | .uninstall sig => s.trapUninstall catchable sig
  | .enter => s.subshellEnter catchable
  | .leave => s.subshellLeave catchable

/-! ## What goes well -/

/-- The signals a trap can be installed for. -/
def settable (catchable : ℕ → Bool) (sig : ℕ) : Bool := 0 < sig && sig < 65 && catchable sig

/-- The disposition of a signal without its trap. -/
def Signals.under (g : Signals) (sig : ℕ) : Disp := (g.stack sig).headD (g.disp sig)

/-- What `trap_reset_entry_ignore` may install in a subshell is no news: nothing at all, the default
where it is the default already, or the default of a signal an interactive shell ignores by itself
and outside of its subshells only. -/
def Signals.Harmless (g : Signals) (sig : ℕ) : Prop :=
  (sig ∈ shellSigs ∧ g.async ∧ ¬ g.interactive) ∨
      (sig ∉ shellSigs ∧ g.interactive ∧ g.sigWasIgnored sig) →
    g.under sig = .dfl

instance (g : Signals) (sig : ℕ) : Decidable (g.Harmless sig) := by
  unfold Signals.Harmless
  infer_instance

/-- What is asked of removing a trap: in a subshell, it is one set there, and resetting its signal is
harmless. -/
def Traps.Removes (s : Traps τ) (sig : ℕ) : Prop :=
  (∀ r ∈ s.trapFind sig, ∀ f ∈ r, ∀ snap ∈ s.snaps, f.2 ∉ snap) ∧
    (s.snaps ≠ [] → isReal sig → s.sigs.Harmless sig)

/-- **Which steps go well.**  A subshell begins when every trap is in force and an interactive shell
ignores the signals it has no traps for, and ends after it began. -/
def Keeping (catchable : ℕ → Bool) (s : Traps τ) : TrapOp τ → Prop
  | .install t => s.sigs.leaves t.sig = false →
      (isReal t.sig → settable catchable t.sig) ∧ s.Removes t.sig
  | .uninstall sig => s.sigs.leaves sig = false → s.Removes sig
  | .enter => ∀ ts ∈ s.list, (∀ t ∈ ts, isReal t.sig → s.sigs.disp t.sig = t.inForce) ∧
      (s.sigs.interactive → ∀ sig ∈ shellSigs, s.sigs.disp sig = .ign ∨ ∃ t ∈ ts, t.sig = sig)
  | .leave => s.snaps ≠ []

instance (s : Traps τ) (sig : ℕ) : Decidable (s.Removes sig) := by
  unfold Traps.Removes
  infer_instance

instance (catchable : ℕ → Bool) (s : Traps τ) (op : TrapOp τ) :
    Decidable (Keeping catchable s op) := by
  cases op <;> unfold Keeping <;> infer_instance

/-- **The traps of a shell that is in no subshell**: there is at most one for a signal, and the stack
of a signal has an entry if there is one and none otherwise. -/
structure InOrder (catchable : ℕ → Bool) (s : Traps τ) (l : List (ℕ × Trap τ)) : Prop where
  lists : s.heap.Lists s.traps l
  fresh : ∀ n, (s.heap n).isSome → n < s.fresh
  distinct : (l.map (·.2.sig)).Nodup
  stackLen : ∀ sig, (s.sigs.stack sig).length =
    if isReal sig ∧ sig ∈ l.map (·.2.sig) then 1 else 0
  settable : ∀ x ∈ l, isReal x.2.sig → settable catchable x.2.sig

end Shish
