import Shish.Sed.Script

/-!
# Sed/Build — the script becomes a list of commands

`sed_parse` reads a script from front to end and pushes its commands into one array.  A `{` is entered on a stack,
and its `}`, which is pushed and taken back, tells it where its block ends; the names behind `b`, `t` and `T` are
looked up when all labels are known.

What it accepts is a grammar (`sedParse_iff`): the text reads as a `Script`, commands with blocks in one another, no
more than 256 deep and with a label for every branch, and the array is that script laid out flat (`Script.emit`).
-/

namespace Shish.Sed

variable {e : Engine}

/-! ## The builder -/

/-- `SED_MAXNEST`. -/
def sedMaxnest : ℕ := 256

/-- The body of a branch to `jump`. -/
def Branch.body (jump : ℕ) : Branch → Body e
  | .b => .b jump
  | .t => .t jump
  | .T => .T jump

/-- The body of a command, when `target` is where a name is. -/
def Act.body (target : Bytes → ℕ) : Act e → Body e
  | .plain body => body
  | .label _ => .label
  | .branch k name => k.body (target name)

/-- The label a command at the index `k` is. -/
def Act.labels (k : ℕ) : Act e → List (Bytes × ℕ)
  | .label name => [(name, k)]
  | _ => []

/-- The branch a command at the index `k` is. -/
def Act.fixups (k : ℕ) : Act e → List (ℕ × Bytes)
  | .branch _ name => [(k, name)]
  | _ => []

/-- A command with its addresses. -/
def Head.cmd (h : Head e) (body : Body e) : Cmd e :=
  { naddr := h.naddr, negate := h.negate, a1 := h.a1, a2 := h.a2, inRange := false, body }

/-- `c->jump = jump`. -/
def Cmd.setJump (jump : ℕ) (c : Cmd e) : Cmd e :=
  match c.body with
  | .block _ => { c with body := .block jump }
  | .b _ => { c with body := .b jump }
  | .t _ => { c with body := .t jump }
  | .T _ => { c with body := .T jump }
  | _ => c

/-- `struct sed_builder`: the last entry of the brace stack first. -/
structure Builder (e : Engine) where
  cmds : List (Cmd e) := []
  braces : List ℕ := []
  labels : List (Bytes × ℕ) := []
  fixups : List (ℕ × Bytes) := []

/-- What `sed_parse_command` does with a command once it is read. -/
def Builder.add (b : Builder e) (t : Tok e) : Except Err (Builder e) :=
  let n := b.cmds.length
  match t.op with
  | .opens =>
      if b.braces.length = sedMaxnest then .error .size
      else .ok { b with cmds := b.cmds ++ [t.head.cmd (.block 0)], braces := n :: b.braces }
  | .closes =>
      match b.braces with
      | [] => .error .brace
      | i :: braces =>
          if t.head.naddr ≠ 0 ∨ t.head.negate then .error .brace
          else .ok { b with cmds := b.cmds.modify i (Cmd.setJump n), braces }
  | .act a =>
      .ok { b with
        cmds := b.cmds ++ [t.head.cmd (a.body fun _ => 0)]
        labels := b.labels ++ a.labels n
        fixups := b.fixups ++ a.fixups n }

/-- Where a branch goes: to the end without a name, and else to the first label that has it. -/
def lookup (labels : List (Bytes × ℕ)) (n : ℕ) (name : Bytes) : Option ℕ :=
  if name = [] then some n else (labels.find? fun l => l.1 = name).map Prod.snd

/-- The loop of `sed_parse` over the branches. -/
def fixAll (labels : List (Bytes × ℕ)) (n : ℕ) : List (ℕ × Bytes) → List (Cmd e) → Except Err (List (Cmd e))
  | [], cmds => .ok cmds
  | (i, name) :: fixups, cmds =>
      match lookup labels n name with
      | none => .error .label
      | some j => fixAll labels n fixups (cmds.modify i (Cmd.setJump j))

/-- What is done when all commands are read. -/
def Builder.finish (b : Builder e) : Except Err (List (Cmd e)) :=
  if b.braces ≠ [] then .error .brace else fixAll b.labels b.cmds.length b.fixups b.cmds

/-- `struct sed`. -/
structure Program (e : Engine) where
  cmds : List (Cmd e)
  autoprintOff : Bool
  wfiles : List Bytes

section

variable (r : Regexes) (ere : Bool)

/-- The loop of `sed_parse` over the commands; `fuel` bounds how many there are. -/
def parseLoop : ℕ → Builder r.toEngine → List Bytes → Bytes → Except Err (Builder r.toEngine × List Bytes)
  | 0, _, _, _ => .error .size
  | fuel + 1, b, ws, p =>
      match skipSep false p with
      | [] => .ok (b, ws)
      | c :: t =>
          (readCommand r ere ws (c :: t)).bind fun x =>
            (b.add x.1).bind fun b => parseLoop fuel b x.2.1 x.2.2

/-- Whether a script begins with the line `#n`, and what is behind it. -/
def hashN (script : Bytes) : Bool × Bytes :=
  if [('#').toUInt8, ('n').toUInt8].isPrefixOf script ∧ (script.length = 2 ∨ script[2]? = some newline) then
    (true, script.drop 3)
  else (false, script)

/-- `sed_parse`; `quiet` is `SED_NOAUTOPRINT`. -/
def sedParse (quiet : Bool) (script : Bytes) : Except Err (Program r.toEngine) :=
  let h := hashN script
  (parseLoop r ere (h.2.length + 1) {} [] h.2).bind fun x =>
    x.1.finish.map fun cmds => { cmds, autoprintOff := quiet || h.1, wfiles := x.2 }

/-! ## The grammar -/

/-- What the text reads as, and the table of files behind it. -/
inductive Reads : List Bytes → Bytes → List (Tok r.toEngine) → List Bytes → Prop
  | done {ws : List Bytes} {p : Bytes} (h : skipSep false p = []) : Reads ws p [] ws
  | more {ws ws' ws'' : List Bytes} {p p' : Bytes} {t : Tok r.toEngine} {ts : List (Tok r.toEngine)}
      (h : skipSep false p ≠ []) (hread : readCommand r ere ws (skipSep false p) = .ok (t, ws', p'))
      (hrest : Reads ws' p' ts ws'') : Reads ws p (t :: ts) ws''

end

/-- **A script**: commands one behind the other, some of them blocks of others. -/
inductive Script (e : Engine)
  | nil
  | act (h : Head e) (a : Act e) (rest : Script e)
  | block (h : Head e) (body rest : Script e)

/-- A closing brace has no addresses. -/
def Tok.close : Tok e := { head := { naddr := 0, negate := false, a1 := .none, a2 := .none }, op := .closes }

namespace Script

/-- What a script is read as. -/
def toks : Script e → List (Tok e)
  | nil => []
  | act h a rest => ⟨h, .act a⟩ :: rest.toks
  | block h body rest => ⟨h, .opens⟩ :: (body.toks ++ .close :: rest.toks)

/-- How many commands there are, the braces at the end of the blocks apart. -/
def size : Script e → ℕ
  | nil => 0
  | act _ _ rest => 1 + rest.size
  | block _ body rest => 1 + (body.size + rest.size)

/-- How deep the blocks are in one another. -/
def depth : Script e → ℕ
  | nil => 0
  | act _ _ rest => rest.depth
  | block _ body rest => max (1 + body.depth) rest.depth

/-- **The script laid out flat**, from the index `k` on: a block is told the index behind it, a branch where its
name is. -/
def emit (target : Bytes → ℕ) : Script e → ℕ → List (Cmd e)
  | nil, _ => []
  | act h a rest, k => h.cmd (a.body target) :: rest.emit target (k + 1)
  | block h body rest, k =>
      h.cmd (.block (k + 1 + body.size)) :: (body.emit target (k + 1) ++ rest.emit target (k + 1 + body.size))

/-- The labels with their indices. -/
def labels : Script e → ℕ → List (Bytes × ℕ)
  | nil, _ => []
  | act _ a rest, k => a.labels k ++ rest.labels (k + 1)
  | block _ body rest, k => body.labels (k + 1) ++ rest.labels (k + 1 + body.size)

/-- The branches with their indices. -/
def fixups : Script e → ℕ → List (ℕ × Bytes)
  | nil, _ => []
  | act _ a rest, k => a.fixups k ++ rest.fixups (k + 1)
  | block _ body rest, k => body.fixups (k + 1) ++ rest.fixups (k + 1 + body.size)

/-- Where a name is: the end, or the first label that has it. -/
def target (s : Script e) (name : Bytes) : ℕ := (lookup (s.labels 0) s.size name).getD 0

/-- Every branch has its label. -/
def Labelled (s : Script e) : Prop := ∀ f ∈ s.fixups 0, (lookup (s.labels 0) s.size f.2).isSome

end Script

/-! ## The builder follows the grammar -/

variable {s : Script e} {b b' : Builder e} {f : Bytes → ℕ} {k : ℕ}

@[simp] theorem Script.length_emit : ∀ (s : Script e) (k : ℕ), (s.emit f k).length = s.size
  | .nil, _ => rfl
  | .act _ _ rest, k => by
      rw [emit, List.length_cons, rest.length_emit, size, Nat.add_comm]
  | .block _ body rest, k => by
      rw [emit, List.length_cons, List.length_append, body.length_emit, rest.length_emit, size, Nat.add_comm]

theorem modify_length (f : Cmd e → Cmd e) (c : Cmd e) (post : List (Cmd e)) :
    ∀ pre : List (Cmd e), (pre ++ c :: post).modify pre.length f = pre ++ f c :: post
  | [] => rfl
  | d :: pre => congrArg (d :: ·) (modify_length f c post pre)

/-- The builder behind a script. -/
def Builder.after (b : Builder e) (s : Script e) : Builder e :=
  { b with
    cmds := b.cmds ++ s.emit (fun _ => 0) b.cmds.length
    labels := b.labels ++ s.labels b.cmds.length
    fixups := b.fixups ++ s.fixups b.cmds.length }

theorem Builder.add_close {i : ℕ} {braces : List ℕ} (hb : b.braces = i :: braces) :
    b.add .close = .ok { b with cmds := b.cmds.modify i (Cmd.setJump b.cmds.length), braces } := by
  rw [add, Tok.close, hb]
  rfl

/-- **A script that is not too deep is pushed as it is laid out**, with its labels and branches. -/
theorem Builder.add_toks : ∀ (s : Script e) (ts : List (Tok e)) (b : Builder e),
    b.braces.length + s.depth ≤ sedMaxnest →
      (s.toks ++ ts).foldlM Builder.add b = ts.foldlM Builder.add (b.after s)
  | .nil, ts, b, _ => by
      have hb : b.after .nil = b := by simp [after, Script.emit, Script.labels, Script.fixups]
      rw [hb]
      rfl
  | .act h a rest, ts, b, hd => by
      refine (Builder.add_toks rest ts { b with
        cmds := b.cmds ++ [h.cmd (a.body fun _ => 0)]
        labels := b.labels ++ a.labels b.cmds.length
        fixups := b.fixups ++ a.fixups b.cmds.length } hd).trans ?_
      simp [after, Script.emit, Script.labels, Script.fixups]
  | .block h body rest, ts, b, hd => by
      rw [Script.depth] at hd
      have hopen : b.add ⟨h, .opens⟩ = .ok { b with
          cmds := b.cmds ++ [h.cmd (.block 0)], braces := b.cmds.length :: b.braces } :=
        if_neg (by omega)
      have hbody := Builder.add_toks body (Tok.close :: (rest.toks ++ ts))
        { b with cmds := b.cmds ++ [h.cmd (.block 0)], braces := b.cmds.length :: b.braces }
        (by rw [List.length_cons]; omega)
      have hclose : Builder.add (Builder.after
          { b with cmds := b.cmds ++ [h.cmd (.block 0)], braces := b.cmds.length :: b.braces } body) .close =
          .ok { b with
            cmds := b.cmds ++ h.cmd (.block (b.cmds.length + 1 + body.size)) ::
              body.emit (fun _ => 0) (b.cmds.length + 1)
            labels := b.labels ++ body.labels (b.cmds.length + 1)
            fixups := b.fixups ++ body.fixups (b.cmds.length + 1) } := by
        have hlen : (b.cmds ++ h.cmd (.block 0) :: body.emit (fun _ => 0) (b.cmds.length + 1)).length =
            b.cmds.length + 1 + body.size := by
          rw [List.length_append, List.length_cons, Script.length_emit]
          omega
        rw [Builder.add_close rfl]
        simp only [after, List.length_append, List.length_singleton, List.append_assoc, List.singleton_append] at hlen ⊢
        rw [hlen, modify_length]
        rfl
      have hdepth : b.braces.length + rest.depth ≤ sedMaxnest := by omega
      have hrest := Builder.add_toks rest ts { b with
        cmds := b.cmds ++ h.cmd (.block (b.cmds.length + 1 + body.size)) ::
          body.emit (fun _ => 0) (b.cmds.length + 1)
        labels := b.labels ++ body.labels (b.cmds.length + 1)
        fixups := b.fixups ++ body.fixups (b.cmds.length + 1) } hdepth
      rw [Script.toks, List.cons_append, List.foldlM_cons, hopen, List.append_assoc]
      refine hbody.trans ?_
      rw [List.foldlM_cons, hclose]
      refine hrest.trans ?_
      have hlen : (b.cmds ++ h.cmd (.block (b.cmds.length + 1 + body.size)) ::
          body.emit (fun _ => 0) (b.cmds.length + 1)).length = b.cmds.length + 1 + body.size := by
        rw [List.length_append, List.length_cons, Script.length_emit]
        omega
      simp only [after, hlen, Script.emit, Script.labels, Script.fixups, List.append_assoc, List.cons_append]

/-! ## Only scripts are accepted -/

/-- **What the builder takes is a script**: between two braces, and up to the end. -/
theorem Builder.exists_script : ∀ (ts : List (Tok e)) {b b' : Builder e}, (∀ t ∈ ts, t.op = .closes →
      t.head.naddr = 0 → t.head.negate = false → t = .close) → b.braces.length ≤ sedMaxnest →
    ts.foldlM Builder.add b = .ok b' → b'.braces = [] → ∃ s : Script e, b.braces.length + s.depth ≤ sedMaxnest ∧
      (b.braces = [] ∧ ts = s.toks ∨ ∃ i braces rest b₁, b.braces = i :: braces ∧ ts = s.toks ++ .close :: rest ∧
        b₁.braces = braces ∧ rest.foldlM Builder.add b₁ = .ok b')
  | [], b, b', _, _, h, hend => by
      obtain rfl := Except.ok.inj h
      exact ⟨.nil, by rw [hend]; exact Nat.zero_le _, .inl ⟨hend, rfl⟩⟩
  | ⟨hd, .act a⟩ :: ts, b, b', hc, hle, h, hend => by
      obtain ⟨s, hdepth, hs⟩ := Builder.exists_script ts (b := { b with
        cmds := b.cmds ++ [hd.cmd (a.body fun _ => 0)]
        labels := b.labels ++ a.labels b.cmds.length
        fixups := b.fixups ++ a.fixups b.cmds.length }) (fun t ht => hc t (.tail _ ht)) hle h hend
      refine ⟨.act hd a s, hdepth, ?_⟩
      rcases hs with ⟨hb, rfl⟩ | ⟨i, braces, rest, b₁, hb, rfl, hrest⟩
      · exact .inl ⟨hb, rfl⟩
      · exact .inr ⟨i, braces, rest, b₁, hb, rfl, hrest⟩
  | ⟨hd, .opens⟩ :: ts, b, b', hc, hle, h, hend => by
      have hroom : b.braces.length ≠ sedMaxnest := fun hfull => by
        have hopen : b.add ⟨hd, .opens⟩ = .error .size := if_pos hfull
        rw [List.foldlM_cons, hopen] at h
        cases h
      have hopen : b.add ⟨hd, .opens⟩ = .ok { b with
        cmds := b.cmds ++ [hd.cmd (.block 0)], braces := b.cmds.length :: b.braces } := if_neg hroom
      rw [List.foldlM_cons, hopen] at h
      obtain ⟨body, hdepth, hs⟩ := Builder.exists_script ts
        (b := { b with cmds := b.cmds ++ [hd.cmd (.block 0)], braces := b.cmds.length :: b.braces })
        (fun t ht => hc t (.tail _ ht)) (Nat.lt_of_le_of_ne hle hroom) h hend
      rcases hs with ⟨hb, -⟩ | ⟨i, braces, rest, b₁, hb, rfl, hb₁, hrest⟩
      · cases hb
      · obtain ⟨rfl, rfl⟩ := List.cons.inj hb
        have hlt : rest.length < (body.toks ++ Tok.close :: rest).length := by
          rw [List.length_append, List.length_cons]
          omega
        obtain ⟨s, hdepth', hs⟩ := Builder.exists_script rest
          (fun t ht => hc t (.tail _ (List.mem_append_right _ (.tail _ ht)))) (hb₁ ▸ hle) hrest hend
        rw [List.length_cons] at hdepth
        rw [hb₁] at hdepth' hs
        refine ⟨.block hd body s, ?_, ?_⟩
        · rw [Script.depth]
          omega
        · rcases hs with ⟨hb, rfl⟩ | ⟨i, braces, rest', b₂, hb, rfl, hrest'⟩
          · exact .inl ⟨hb, rfl⟩
          · refine .inr ⟨i, braces, rest', b₂, hb, ?_, hrest'⟩
            rw [Script.toks, List.cons_append, List.append_assoc, List.cons_append]
  | ⟨hd, .closes⟩ :: ts, b, b', hc, hle, h, hend => by
      cases hb : b.braces with
      | nil =>
        have herr : b.add ⟨hd, .closes⟩ = .error .brace := by
          rw [add, hb]
        rw [List.foldlM_cons, herr] at h
        cases h
      | cons i braces =>
        by_cases hhead : hd.naddr ≠ 0 ∨ hd.negate
        · have herr : b.add ⟨hd, .closes⟩ = .error .brace := by
            rw [add, hb]
            exact if_pos hhead
          rw [List.foldlM_cons, herr] at h
          cases h
        · obtain ⟨hnaddr, hnegate⟩ := not_or.1 hhead
          obtain hclose := hc _ (.head _) rfl (not_not.1 hnaddr) (Bool.eq_false_of_not_eq_true hnegate)
          rw [hclose, List.foldlM_cons, Builder.add_close hb] at h
          rw [hb] at hle
          refine ⟨.nil, hle, .inr ⟨i, braces, ts, _, rfl, ?_, rfl, h⟩⟩
          rw [hclose]
          rfl
termination_by ts => ts.length

/-! ## The branches find their labels -/

section

variable {L : List (Bytes × ℕ)} {n : ℕ} {fs : List (ℕ × Bytes)} {cmds cmds' : List (Cmd e)}

theorem lookup_of_fixAll : ∀ {fs : List (ℕ × Bytes)} {cmds : List (Cmd e)}, fixAll L n fs cmds = .ok cmds' →
    ∀ f ∈ fs, (lookup L n f.2).isSome
  | (i, name) :: fs, cmds, h, f, hf => by
      cases hl : lookup L n name with
      | none =>
        rw [fixAll, hl] at h
        cases h
      | some j =>
        rw [fixAll, hl] at h
        rcases List.mem_cons.1 hf with rfl | hf
        · rw [hl]
          rfl
        · exact lookup_of_fixAll h f hf

/-- **The branches of a script are set to where their names are**, wherever it stands among the commands. -/
theorem fixAll_script : ∀ (s : Script e) (fs : List (ℕ × Bytes)) (pre post : List (Cmd e)),
    (∀ f ∈ s.fixups pre.length, (lookup L n f.2).isSome) →
      fixAll L n (s.fixups pre.length ++ fs) (pre ++ (s.emit (fun _ => 0) pre.length ++ post)) =
        fixAll L n fs (pre ++ (s.emit (fun name => (lookup L n name).getD 0) pre.length ++ post))
  | .nil, _, _, _, _ => rfl
  | .act h a rest, fs, pre, post, hl => by
      have hrest := fixAll_script rest fs (pre ++ [h.cmd (a.body fun name => (lookup L n name).getD 0)]) post
      rw [List.length_append, List.length_singleton] at hrest
      simp only [List.append_assoc, List.singleton_append] at hrest
      rw [Script.fixups] at hl ⊢
      rw [Script.emit, Script.emit, List.cons_append, List.cons_append, List.append_assoc,
        ← hrest fun f hf => hl f (List.mem_append_right _ hf)]
      cases a with
      | plain body | label name => rfl
      | branch kind name =>
        obtain ⟨j, hj⟩ := Option.isSome_iff_exists.1 (hl (pre.length, name) (.head _))
        have hjump : Cmd.setJump j (h.cmd ((Act.branch kind name).body fun _ => 0)) =
            h.cmd ((Act.branch kind name).body fun name => (lookup L n name).getD 0) := by
          rw [Act.body, Act.body, hj]
          cases kind <;> rfl
        rw [Act.fixups, List.singleton_append, fixAll, hj]
        dsimp only
        rw [modify_length, hjump]
  | .block h body rest, fs, pre, post, hl => by
      have hlen : (pre ++ h.cmd (.block (pre.length + 1 + body.size)) ::
          body.emit (fun name => (lookup L n name).getD 0) (pre.length + 1)).length = pre.length + 1 + body.size := by
        rw [List.length_append, List.length_cons, Script.length_emit]
        omega
      have hbody := fixAll_script body (rest.fixups (pre.length + 1 + body.size) ++ fs)
        (pre ++ [h.cmd (.block (pre.length + 1 + body.size))])
        (rest.emit (fun _ => 0) (pre.length + 1 + body.size) ++ post)
      have hrest := fixAll_script rest fs (pre ++ h.cmd (.block (pre.length + 1 + body.size)) ::
        body.emit (fun name => (lookup L n name).getD 0) (pre.length + 1)) post
      rw [Script.fixups] at hl ⊢
      rw [hlen] at hrest
      rw [List.length_append, List.length_singleton] at hbody
      simp only [List.append_assoc, List.cons_append, List.nil_append] at hbody hrest
      rw [Script.emit, Script.emit, List.append_assoc]
      simp only [List.append_assoc, List.cons_append]
      exact (hbody fun f hf => hl f (List.mem_append_left _ hf)).trans
        (hrest fun f hf => hl f (List.mem_append_right _ hf))

end

/-! ## The parser -/

section

variable {r : Regexes} {ere : Bool} {b b' : Builder r.toEngine}

/-- Without an address there is none to keep. -/
theorem readAddrs_none {p : Bytes} {a : ℕ × Addr r.toEngine × Addr r.toEngine × Bytes}
    (h : readAddrs r ere p = .ok a) (h0 : a.1 = 0) : a.2.1 = .none ∧ a.2.2.1 = .none := by
  rw [readAddrs] at h
  split at h
  · obtain ⟨a1, -, h⟩ := bind_eq_ok.1 h
    dsimp only at h
    split at h
    · obtain ⟨a2, -, rfl⟩ := map_eq_ok.1 h
      cases h0
    · obtain rfl := Except.ok.inj h
      cases h0
  · obtain rfl := Except.ok.inj h
    exact ⟨rfl, rfl⟩

/-- A brace that closes without an address is `Tok.close`. -/
theorem readCommand_close {ws : List Bytes} {p : Bytes} {x : Tok r.toEngine × List Bytes × Bytes}
    (h : readCommand r ere ws p = .ok x) (hop : x.1.op = .closes) (h0 : x.1.head.naddr = 0)
    (hn : x.1.head.negate = false) : x.1 = .close := by
  obtain ⟨a, c, t, o, ha, -, -, rfl⟩ := readCommand_eq_ok h
  obtain ⟨h₁, h₂⟩ := readAddrs_none ha h0
  dsimp only at hop h0 hn ⊢
  rw [Tok.close, hop, h0, hn, h₁, h₂]

theorem Reads.close {ws ws' : List Bytes} {p : Bytes} {ts : List (Tok r.toEngine)} (h : Reads r ere ws p ts ws') :
    ∀ t ∈ ts, t.op = .closes → t.head.naddr = 0 → t.head.negate = false → t = .close := by
  induction h with
  | done => exact fun t ht => by cases ht
  | more _ hread _ ih =>
    intro t ht
    rcases List.mem_cons.1 ht with rfl | ht
    · exact readCommand_close hread
    · exact ih t ht

/-- The loop reads what there is and pushes it. -/
theorem reads_of_parseLoop : ∀ {fuel : ℕ} {b : Builder r.toEngine} {ws : List Bytes} {p : Bytes}
    {x : Builder r.toEngine × List Bytes}, parseLoop r ere fuel b ws p = .ok x →
      ∃ ts, Reads r ere ws p ts x.2 ∧ ts.foldlM Builder.add b = .ok x.1
  | fuel + 1, b, ws, p, x, h => by
      rw [parseLoop] at h
      cases hp : skipSep false p with
      | nil =>
        rw [hp] at h
        obtain rfl := Except.ok.inj h
        exact ⟨[], .done hp, rfl⟩
      | cons c t =>
        rw [hp] at h
        obtain ⟨y, hread, h⟩ := bind_eq_ok.1 h
        obtain ⟨b', hadd, h⟩ := bind_eq_ok.1 h
        obtain ⟨ts, hts, hfold⟩ := reads_of_parseLoop h
        refine ⟨y.1 :: ts, .more (hp ▸ List.cons_ne_nil c t) (hp ▸ hread) hts, ?_⟩
        rw [List.foldlM_cons, hadd]
        exact hfold

/-- The loop has enough turns. -/
theorem parseLoop_of_reads {ws ws' : List Bytes} {p : Bytes} {ts : List (Tok r.toEngine)}
    (h : Reads r ere ws p ts ws') : ∀ {fuel : ℕ} {b b' : Builder r.toEngine}, p.length < fuel →
      ts.foldlM Builder.add b = .ok b' → parseLoop r ere fuel b ws p = .ok (b', ws') := by
  induction h with
  | done hp =>
    intro fuel b b' hlt hfold
    obtain ⟨fuel, rfl⟩ := Nat.exists_eq_succ_of_ne_zero (Nat.ne_of_gt (Nat.zero_lt_of_lt hlt))
    obtain rfl := Except.ok.inj hfold
    rw [parseLoop, hp]
  | @more ws ws₁ ws₂ p p₁ t ts hne hread _ ih =>
    intro fuel b b' hlt hfold
    obtain ⟨fuel, rfl⟩ := Nat.exists_eq_succ_of_ne_zero (Nat.ne_of_gt (Nat.zero_lt_of_lt hlt))
    have hleft : p₁.length < fuel := by
      have hshort := length_readCommand hread
      have hskip := length_skipSep false p
      dsimp only at hshort
      omega
    obtain ⟨c, t', hp⟩ := List.exists_cons_of_ne_nil hne
    rw [hp] at hread
    rw [List.foldlM_cons] at hfold
    obtain ⟨b₁, hadd, hfold⟩ := bind_eq_ok.1 hfold
    rw [parseLoop, hp]
    exact bind_eq_ok.2 ⟨_, hread, bind_eq_ok.2 ⟨b₁, hadd, ih hleft hfold⟩⟩

/-- The end of a script that was pushed. -/
theorem Builder.finish_after {s : Script e} {cmds : List (Cmd e)} :
    (Builder.after {} s).finish = .ok cmds ↔ s.Labelled ∧ cmds = s.emit s.target 0 := by
  have hb : Builder.after {} s =
      { cmds := s.emit (fun _ => 0) 0, labels := s.labels 0, fixups := s.fixups 0 } := by
    simp [after]
  have hfix := fixAll_script (L := s.labels 0) (n := s.size) s [] [] []
  simp only [List.length_nil, List.append_nil, List.nil_append] at hfix
  rw [hb, finish, if_neg (not_not.2 rfl)]
  dsimp only
  rw [Script.length_emit]
  constructor
  · intro h
    have hl : s.Labelled := lookup_of_fixAll h
    rw [hfix hl] at h
    exact ⟨hl, (Except.ok.inj h).symm⟩
  · rintro ⟨hl, rfl⟩
    rw [hfix hl]
    rfl

/-- **What the parser accepts, and what it makes of it.**  A script is accepted exactly when its text reads as
commands with blocks in one another, no more than 256 deep, and every branch has its label; the commands are then
those of the script in order, each block with the index behind it, each branch with the index of its label. -/
theorem sedParse_iff {quiet : Bool} {script : Bytes} {prog : Program r.toEngine} :
    sedParse r ere quiet script = .ok prog ↔ ∃ s : Script r.toEngine,
      Reads r ere [] (hashN script).2 s.toks prog.wfiles ∧ s.depth ≤ sedMaxnest ∧ s.Labelled ∧
        prog.cmds = s.emit s.target 0 ∧ prog.autoprintOff = (quiet || (hashN script).1) := by
  have hpush : ∀ s : Script r.toEngine, s.depth ≤ sedMaxnest →
      s.toks.foldlM Builder.add {} = .ok (Builder.after {} s) := fun s hd => by
    have hadd := Builder.add_toks s [] {} (by simpa using hd)
    rwa [List.append_nil] at hadd
  constructor
  · intro h
    obtain ⟨x, hloop, h⟩ := bind_eq_ok.1 h
    obtain ⟨cmds, hfin, rfl⟩ := map_eq_ok.1 h
    obtain ⟨ts, hreads, hfold⟩ := reads_of_parseLoop hloop
    have hend : x.1.braces = [] := by
      by_contra hne
      rw [Builder.finish, if_pos hne] at hfin
      cases hfin
    obtain ⟨s, hd, ⟨-, rfl⟩ | ⟨i, braces, rest, b₁, hb, -⟩⟩ :=
      Builder.exists_script ts hreads.close (Nat.zero_le _) hfold hend
    · have hd : s.depth ≤ sedMaxnest := by simpa using hd
      obtain hx := Except.ok.inj ((hpush s hd).symm.trans hfold)
      rw [← hx] at hfin
      obtain ⟨hl, hcmds⟩ := Builder.finish_after.1 hfin
      exact ⟨s, hreads, hd, hl, hcmds, rfl⟩
    · cases hb
  · rintro ⟨s, hreads, hd, hl, hcmds, hquiet⟩
    have hloop := parseLoop_of_reads hreads (Nat.lt_succ_self _) (hpush s hd)
    refine bind_eq_ok.2 ⟨_, hloop, map_eq_ok.2 ⟨prog.cmds, Builder.finish_after.2 ⟨hl, hcmds⟩, ?_⟩⟩
    rw [← hquiet]

end

end Shish.Sed
