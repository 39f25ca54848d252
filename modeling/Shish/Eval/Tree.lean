import Shish.Chartable

/-!
# Eval/Tree — evaluating command trees, and the jumps out of them

The evaluator with its control flow: `break`, `continue`, `return` and `exit` look for a frame on the
`eval` stack and leave for it with a `longjmp`, past every call between.  A call that raised
`errexit_suppress` and is left so does not lower it again.

A jump is an outcome here, handed up until the frame it names takes it; `Ctx` is what it passes: the
frames of the `eval` stack, and between them the operands evaluated with `set -e` suppressed.  What
the commands themselves do belongs to the rest of the shell (`World`).
-/

namespace Shish.Eval

/-! ## Trees -/

/-- `union node`.  `ω` are the words of a command: what is to be expanded, and run with the result.
A missing list is empty. -/
inductive Node (ω : Type)
  | simple (w : ω)
  | list (cmds : List (Node ω))
  | bracegroup (cmds : List (Node ω))
  | subshell (cmds : List (Node ω))
  | not (left : Node ω)
  | and (left right : Node ω)
  | or (left right : Node ω)
  | nif (test cmd0 cmd1 : List (Node ω))
  | loop (isUntil : Bool) (test cmds : List (Node ω))
  | nfor (args : ω) (cmds : List (Node ω))
  | ncase (word : ω) (arms : List (List (Node ω)))
  | pipeline (w : ω) (last : Node ω) (wait : ω)
  | time (pipeline : Node ω)
  | redir (rdir : ω) (node : Node ω)
  | bgnd (w : ω) (node : Node ω)

namespace Node

variable {ω : Type}

/-- The nodes whose status `set -e` does not look at: what is in them has been looked at. -/
def transparent : Node ω → Bool
  | .not .. | .and .. | .or .. | .bracegroup .. | .nif .. | .nfor .. | .ncase .. | .loop ..
  | .list .. => true
  | .redir _ node | .bgnd _ node => node.transparent
  | .simple .. | .subshell .. | .pipeline .. | .time .. => false

/-- `node->id == N_IF`, whatever else hangs on the node. -/
def asIf : Node ω → Option (List (Node ω) × List (Node ω) × List (Node ω))
  | .nif test cmd0 cmd1 => some (test, cmd0, cmd1)
  | .redir _ node | .bgnd _ node => node.asIf
  | _ => none

end Node

/-! ## The rest of the shell -/

/-- What the words of a command come to next. -/
inductive Action (ω : Type)
  /-- the status; of the words of a loop the number of items, of a case the arm -/
  | done (r : ℕ)
  /-- a command substitution, with what follows it -/
  | subst (cmds : List (Node ω)) (w : ω)
  /-- `set -e` or `set +e` -/
  | set (errexit : Bool) (w : ω)
  /-- `break` or `continue`, with what follows when there is nothing to jump to -/
  | jump (levels : ℕ) (cont : Bool) (w : ω)
  /-- `return` -/
  | ret (value : ℕ) (w : ω)
  /-- `exit`, or an error that ends the shell -/
  | exit (code : ℕ)
  /-- a function -/
  | call (fn : Node ω)
  /-- `eval`, list by list -/
  | eval (cmds : List (List (Node ω)))
  /-- `.`, list by list -/
  | source (cmds : List (List (Node ω)))

/-- What words do, given `$?`. -/
abbrev World (ω σ : Type) := ω → ℕ → σ → Action ω × σ

/-! ## Frames and jumps -/

/-- What a jump may pass: the frames of the `eval` stack, with the flags that matter, and the
operands around which `errexit_suppress` is raised. -/
inductive Ctx
  /-- `E_LOOP` -/
  | loop
  /-- `E_FUNCTION` -/
  | function
  /-- `E_ROOT`: a subshell or a command substitution -/
  | root
  /-- `E_ROOT` without a jump buffer: the shell itself -/
  | top
  /-- `E_ROOT | E_EVAL`, without a jump buffer -/
  | eval
  /-- `E_ROOT | E_SOURCE` -/
  | source
  /-- no frame: between `errexit_suppress++` and `errexit_suppress--` -/
  | raised
deriving DecidableEq, Repr

/-- The value a jump carries; `pending` is what `.` goes on with. -/
inductive Val
  | brk
  | cont
  | status (r : ℕ)
  | pending (levels : ℕ) (cont : Bool)
deriving DecidableEq, Repr

/-- How an evaluation ends: with a status, in a jump to the frame with `d` below it, or with the
process. -/
inductive Outcome
  | normal (r : ℕ)
  | jump (d : ℕ) (v : Val)
  | gone (r : ℕ)
deriving DecidableEq, Repr

/-- The frame `eval_jump` finds; `j` is the loop found so far. -/
def evalJump (cont : Bool) : ℕ → Option (ℕ × Val) → List Ctx → Option (ℕ × Val)
  | 0, j, _ => j
  | _, j, [] => j
  | n + 1, j, c :: ctx =>
      match c with
      | .source => if j.isNone then some (ctx.length, .pending (n + 1) cont) else j
      | .function | .root | .top => j
      | .loop => evalJump cont n (some (ctx.length, if cont then .cont else .brk)) ctx
      | .eval | .raised => evalJump cont (n + 1) j ctx

/-- The frame `eval_return` finds. -/
def evalReturn : List Ctx → Option ℕ
  | [] => none
  | c :: ctx => match c with
      | .function | .root | .source => some ctx.length
      | .loop | .top | .eval | .raised => evalReturn ctx

/-- The frame `eval_exit` finds. -/
def evalExit : List Ctx → Option ℕ
  | [] => none
  | c :: ctx => match c with
      | .root | .source => some ctx.length
      | .function | .loop | .top | .eval | .raised => evalExit ctx

/-! ## States and computations -/

/-- `errexit_suppress`; `sh->opts.errexit` and `sh->exitcode` of the current environment; the
`exitcode` of the frame commands are run against. -/
structure State (σ : Type) where
  suppress : ℕ
  errexit : Bool
  last : ℕ
  code : ℕ
  world : σ
deriving DecidableEq

/-- An evaluation; `none` when it does not come to an end. -/
abbrev Comp (σ : Type) := State σ → Option (Outcome × State σ)

variable {ω σ : Type}

namespace Comp

/-- Go on with the status. -/
def bind (f : Comp σ) (k : ℕ → Comp σ) : Comp σ := fun s =>
  match f s with
  | some (.normal r, s') => k r s'
  | x => x

/-- Around a `setjmp` of the frame with `d` below it. -/
def catching (d : ℕ) (f : Comp σ) (k : Val → Comp σ) : Comp σ := fun s =>
  match f s with
  | some (.jump d' v, s') => if d' = d then k v s' else some (.jump d' v, s')
  | x => x

/-- `errexit_suppress++; …; errexit_suppress--`. -/
def suppressed (f : Comp σ) : Comp σ := fun s =>
  match f { s with suppress := s.suppress + 1 } with
  | some (.normal r, s') => some (.normal r, { s' with suppress := s'.suppress - 1 })
  | x => x

/-- Around `eval_push` and `eval_pop`: the frame has an exit code of its own. -/
def inFrame (f : Comp σ) : Comp σ := fun s =>
  (f { s with code := 0 }).map fun p => (p.1, { p.2 with code := s.code })

/-- Around `sh_push` and `sh_pop`, with a frame: the environment has options and an exit code of its
own, which a subshell starts with from outside. -/
def inEnv (inherit : Bool) (f : Comp σ) : Comp σ := fun s =>
  (f { s with code := 0, last := if inherit then s.last else 0 }).map fun p =>
    (p.1, { p.2 with code := s.code, errexit := s.errexit, last := s.last })

/-- Change the state on the way. -/
def after (g : State σ → State σ) (f : Comp σ) : Comp σ := fun s => f (g s)

/-- End with a status. -/
def pure (r : ℕ) : Comp σ := fun s => some (.normal r, s)

/-- End with a status and note it in `sh->exitcode`. -/
def setLast (r : ℕ) : Comp σ := fun s => some (.normal r, { s with last := r })

/-- End with `e->exitcode`. -/
def code : Comp σ := fun s => some (.normal s.code, s)

end Comp

/-- What is asked of a run: of a jump from under `ctx` to a depth, and of a state `set -e` is looked
at in.  A run that does not meet it has no result. -/
structure Guard where
  jump : List Ctx → ℕ → Bool
  test : List Ctx → ℕ → Bool

/-- The code asks nothing. -/
def Guard.none : Guard := ⟨fun _ _ => true, fun _ _ => true⟩

section

variable (G : Guard) (ctx : List Ctx)

/-- `longjmp`. -/
def jumpTo (d : ℕ) (v : Val) : Comp σ := fun s =>
  if G.jump ctx d then some (.jump d v, s) else none

/-- `sh_exit`. -/
def shExit (r : ℕ) : Comp σ :=
  match evalExit ctx with
  | some d => jumpTo G ctx d (.status r)
  | none => fun s => some (.gone r, s)

/-- The test of `set -e` after a command of `eval_tree` and of `eval_cmdlist`. -/
def testErrexit (node : Node ω) (r : ℕ) : Comp σ := fun s =>
  if G.test ctx s.suppress then
    if s.errexit && r != 0 && s.suppress == 0 && !node.transparent then shExit G ctx r s
    else some (.normal r, s)
  else none

/-- What a frame makes of the value it is jumped to with. -/
def Val.exitcode : Val → ℕ
  | .status r => r
  | _ => 0

end

/-! ## The evaluator -/

section

variable (W : World ω σ) (G : Guard)

mutual

/-- `eval_node_bgnd`, `eval_node` and `eval_command`. -/
def evalNode : ℕ → List Ctx → Node ω → Comp σ
  | 0, _, _ => fun _ => none
  | n + 1, ctx, node =>
      match node with
      | .simple w => (evalWord n ctx w).bind .setLast
      | .list cmds | .bracegroup cmds => evalCmds false n ctx cmds
      | .subshell cmds => (Comp.inEnv true (evalRoot n ctx cmds)).bind .setLast
      -- eval_and_or
      | .not left => (evalCmds true n (.raised :: ctx) [left]).suppressed.bind fun ret =>
          .pure (if ret = 0 then 1 else 0)
      | .and left right => (evalCmds true n (.raised :: ctx) [left]).suppressed.bind fun ret =>
          if ret = 0 then evalCmds true n ctx [right] else .pure ret
      | .or left right => (evalCmds true n (.raised :: ctx) [left]).suppressed.bind fun ret =>
          if ret ≠ 0 then evalCmds true n ctx [right] else .pure ret
      | .nif test cmd0 cmd1 => evalIf n ctx test cmd0 cmd1
      | .loop isUntil test cmds => evalLoop n ctx isUntil test cmds none
      | .nfor args cmds => (evalWord n ctx args).bind fun argc => evalFor n ctx cmds argc false
      | .ncase word arms => (evalWord n ctx word).bind fun k =>
          match arms[k]? with
          | some cmds => evalCmds true n ctx cmds
          | none => .pure 0
      | .pipeline w last wait => (evalWord n ctx w).bind fun forked =>
          (if forked = 0 then evalCmds true n ctx [last] else .pure 0).bind fun _ =>
            (evalWord n ctx wait).bind .setLast
      | .time pipeline => (evalCmds true n (.raised :: ctx) [pipeline]).suppressed
      | .redir rdir node => (evalWord n ctx rdir).bind fun err =>
          if err = 0 then evalNode n ctx node else .pure 1
      | .bgnd w _ => evalWord n ctx w

/-- `eval_tree` on a list (`tree`), which notes the status in `e->exitcode`, and `eval_cmdlist`,
which notes it in `sh->exitcode`. -/
def evalCmds (tree : Bool) : ℕ → List Ctx → List (Node ω) → Comp σ
  | 0, _, _ => fun _ => none
  | _ + 1, _, [] => .pure 0
  | n + 1, ctx, node :: next => (evalNode n ctx node).bind fun ret =>
      .after (fun s => if tree then { s with code := ret } else { s with last := ret })
        ((testErrexit G ctx node ret).bind fun ret =>
          if next.isEmpty then .pure ret else evalCmds tree n ctx next)

/-- The commands of a subshell or a command substitution, up to `eval_pop`. -/
def evalRoot : ℕ → List Ctx → List (Node ω) → Comp σ
  | 0, _, _ => fun _ => none
  | n + 1, ctx, cmds =>
      .catching ctx.length ((evalCmds true n (.root :: ctx) cmds).bind fun _ => .code)
        fun v => .pure v.exitcode

/-- `eval_if`, which goes on with an else part that is an if command in place. -/
def evalIf : ℕ → List Ctx → List (Node ω) → List (Node ω) → List (Node ω) → Comp σ
  | 0, _, _, _, _ => fun _ => none
  | n + 1, ctx, test, cmd0, cmd1 =>
      (evalCmds true n (.raised :: ctx) test).suppressed.bind fun ret =>
        if ret = 0 then evalCmds true n ctx cmd0
        else
          match cmd1 with
          | [] => .pure 0
          | node :: next =>
              match node.asIf with
              | some (test, cmd0, cmd1) => evalIf n ctx test cmd0 cmd1
              | none => evalCmds true n ctx (node :: next)

/-- The rounds of `eval_loop`; `status` is that of the last round, if there was one.  After a
`continue` it is that of the round before. -/
def evalLoop : ℕ → List Ctx → Bool → List (Node ω) → List (Node ω) → Option ℕ → Comp σ
  | 0, _, _, _, _, _ => fun _ => none
  | n + 1, ctx, isUntil, test, cmds, status =>
      .catching ctx.length
        ((evalCmds true n (.raised :: .loop :: ctx) test).suppressed.bind fun ret =>
          if (ret == 0) != isUntil then
            (evalCmds true n (.loop :: ctx) cmds).bind fun _ => Comp.code.bind fun status =>
              evalLoop n ctx isUntil test cmds (some status)
          else .setLast (status.getD 0))
        fun v => if v = .cont then evalLoop n ctx isUntil test cmds status else Comp.code.bind .setLast

/-- The rounds of `eval_for`; `ran` says that one of them went through. -/
def evalFor : ℕ → List Ctx → List (Node ω) → ℕ → Bool → Comp σ
  | 0, _, _, _, _ => fun _ => none
  | _ + 1, _, _, 0, ran => Comp.code.bind fun code => .setLast (if ran then code else 0)
  | n + 1, ctx, cmds, items + 1, ran =>
      .catching ctx.length
        ((evalCmds true n (.loop :: ctx) cmds).bind fun _ => evalFor n ctx cmds items true)
        fun v => if v = .cont then evalFor n ctx cmds items ran
          else Comp.code.bind fun code => .setLast (if ran then code else 0)

/-- The words of a command, and what they run. -/
def evalWord : ℕ → List Ctx → ω → Comp σ
  | 0, _, _ => fun _ => none
  | n + 1, ctx, w => fun s =>
      let (action, world) := W w s.last s.world
      evalAction n ctx action { s with world := world }

/-- One step of a command. -/
def evalAction : ℕ → List Ctx → Action ω → Comp σ
  | 0, _, _ => fun _ => none
  | n + 1, ctx, action =>
      match action with
      | .done r => .pure r
      -- expand_command
      | .subst cmds w => (Comp.inEnv false (evalRoot n ctx cmds)).bind fun ret =>
          (Comp.setLast ret).bind fun _ => evalWord n ctx w
      | .set errexit w => .after (fun s => { s with errexit := errexit }) (evalWord n ctx w)
      | .jump levels cont w =>
          match evalJump cont levels none ctx with
          | some (d, v) => jumpTo G ctx d v
          | none => evalWord n ctx w
      | .ret value w =>
          match evalReturn ctx with
          | some d => jumpTo G ctx d (.status value)
          | none => evalWord n ctx w
      | .exit code => shExit G ctx code
      -- exec_command, H_FUNCTION
      | .call fn => .inEnv false
          (.catching ctx.length (evalNode n (.function :: ctx) fn) fun v => .pure v.exitcode)
      -- builtin_eval
      | .eval cmds => .inFrame ((evalLists false n (.eval :: ctx) cmds).bind fun _ => .code)
      -- builtin_source; a break out of the file goes on from here
      | .source cmds => .catching ctx.length
          ((evalLists true n (.eval :: .source :: ctx) cmds).bind fun _ =>
            fun s => some (.normal s.last, s))
          fun v => (Comp.setLast v.exitcode).bind fun ret =>
            match v with
            | .pending levels cont =>
                match evalJump cont levels none ctx with
                | some (d, v) => jumpTo G ctx d v
                | none => .pure ret
            | _ => .pure ret

/-- The lists of `eval`, and those of `.`, where `sh_loop` has a frame for each (`own`). -/
def evalLists (own : Bool) : ℕ → List Ctx → List (List (Node ω)) → Comp σ
  | 0, _, _ => fun _ => none
  | _ + 1, _, [] => .pure 0
  | n + 1, ctx, cmds :: next =>
      (if own then
        (Comp.inFrame ((evalCmds true n ctx cmds).bind fun _ => .code)).bind .setLast
      else evalCmds true n ctx cmds).bind fun _ => evalLists own n ctx next

end

end

end Shish.Eval
