import Shish.Lib.Lockstep
import Shish.Sed.Build
import Shish.Sed.Flag

/-!
# Sed/Block — blocks by jumps

What a script says is in its blocks: a block whose address matches is run before what stands behind it, and one
whose address does not match is passed over; a branch goes on behind its label, wherever that is.  `blockStep` runs a
script so, with what is still to be done in its hands and no index to jump to.

The commands `sed_parse` makes of it do the same, step by step, on every input (`sed_blocks`).  A range is open or
not for each command, so the commands are numbered.
-/

namespace Shish.Sed

variable {e : Engine}

/-- A script with its commands numbered. -/
inductive Plan (e : Engine)
  | nil
  | act (i : ℕ) (a : Act e) (rest : Plan e)
  | block (i : ℕ) (body rest : Plan e)

/-- The commands of a script are numbered from `k` on. -/
def Script.plan : Script e → ℕ → Plan e
  | nil, _ => .nil
  | act _ a rest, k => .act k a (rest.plan (k + 1))
  | block _ body rest, k => .block k (body.plan (k + 1)) (rest.plan (k + 1 + body.size))

namespace Plan

/-- One behind the other. -/
def append : Plan e → Plan e → Plan e
  | nil, k => k
  | act i a rest, k => act i a (rest.append k)
  | block i body rest, k => block i body (rest.append k)

/-- What is to be done from the first label of that name on. -/
def find (name : Bytes) : Plan e → Option (Plan e)
  | nil => none
  | act i a rest =>
      match a with
      | .label n => if n = name then some (act i a rest) else rest.find name
      | _ => rest.find name
  | block _ body rest =>
      match body.find name with
      | some k => some (k.append rest)
      | none => rest.find name

end Plan

/-! ## A script run by its blocks -/

/-- Whether a branch is taken. -/
def Branch.taken (s : State e) : Branch → Bool
  | .b => true
  | .t => s.tflag
  | .T => !s.tflag

/-- What a branch leaves of the flag it asks. -/
def Branch.asked (s : State e) : Branch → State e
  | .b => s
  | .t | .T => { s with tflag := false }

/-- The number of the first command; behind the script, how many there are. -/
def Plan.next (n : ℕ) : Plan e → ℕ
  | nil => n
  | act i _ _ => i
  | block i _ _ => i

/-- `k` is to be done. -/
def Plan.resume (k : Plan e) (s : State e) : Plan e × State e := (k, s.goto (k.next s.cmds.length))

/-- A command that is selected; `whole` is the script, which `D` begins again, and `rest` is what stands behind. -/
def Act.go (whole rest : Plan e) (c : Cmd e) (i : ℕ) (s : State e) : Act e → Plan e × State e
  | .plain body =>
      let s' := execCmd { c with body } i s
      (if s'.phase = .cmd 0 then whole else rest, s')
  | .label _ => rest.resume s
  | .branch k name =>
      (if k.taken s then if name = [] then .nil else (whole.find name).getD .nil else rest).resume (k.asked s)

/-- **One step of a script**, with what is still to be done in the cycle. -/
def blockStep (whole : Plan e) (k : Plan e × State e) : Option (Plan e × State e) :=
  match k.2.phase with
  | .cmd _ =>
      match k.1 with
      | .nil => some (.nil, { k.2 with phase := .endCycle })
      | .act i a rest => k.2.cmds[i]?.map fun c =>
          let m := matched c i k.2
          if m.1 then a.go whole rest m.2.1 i m.2.2 else rest.resume m.2.2
      | .block i body rest => k.2.cmds[i]?.map fun c =>
          let m := matched c i k.2
          (if m.1 then body.append rest else rest).resume m.2.2
  | _ => (step k.2).map fun s => (whole, s)

/-! ## The numbered script and the commands -/

/-- The commands `p` to `q` are those of the plan: branches go where `target` says, and a block knows its end. -/
def Laid (target : Bytes → ℕ) (bodies : List (Body e)) : Plan e → ℕ → ℕ → Prop
  | .nil, p, q => p = q
  | .act i a rest, p, q => i = p ∧ bodies[p]? = some (a.body target) ∧ Laid target bodies rest (p + 1) q
  | .block i body rest, p, q => ∃ m, i = p ∧ bodies[p]? = some (.block m) ∧ Laid target bodies body (p + 1) m ∧
      Laid target bodies rest m q

/-- A command that goes to the next one, or begins or ends a cycle. -/
def Body.Straight : Body e → Prop
  | .block _ | .b _ | .t _ | .T _ => False
  | _ => True

/-- All commands of a plan, the braces apart, are as `P` says. -/
def Plan.All (P : Act e → Prop) : Plan e → Prop
  | nil => True
  | act _ a rest => P a ∧ rest.All P
  | block _ body rest => body.All P ∧ rest.All P

/-- What is known of the commands of a script: branches have their labels, and what is no branch does not jump. -/
def Act.Sound (whole : Plan e) : Act e → Prop
  | .plain body => body.Straight
  | .label _ => True
  | .branch _ name => name = [] ∨ (whole.find name).isSome

variable {target : Bytes → ℕ} {bodies : List (Body e)} {P : Act e → Prop} {p q m : ℕ}

theorem Laid.append : ∀ {k k' : Plan e} {p : ℕ}, Laid target bodies k p m → Laid target bodies k' m q →
    Laid target bodies (k.append k') p q
  | .nil, _, _, h, h' => h ▸ h'
  | .act _ _ _, _, _, ⟨hi, hb, h⟩, h' => ⟨hi, hb, h.append h'⟩
  | .block _ _ _, _, _, ⟨m, hi, hb, hbody, h⟩, h' => ⟨m, hi, hb, hbody, h.append h'⟩

theorem Plan.All.append : ∀ {k k' : Plan e}, k.All P → k'.All P → (k.append k').All P
  | .nil, _, _, h' => h'
  | .act _ _ _, _, ⟨ha, h⟩, h' => ⟨ha, h.append h'⟩
  | .block _ _ _, _, ⟨hb, h⟩, h' => ⟨hb, h.append h'⟩

/-- A script that is laid out flat is laid out as it is numbered. -/
theorem laid_emit (target : Bytes → ℕ) : ∀ (s : Script e) (pre post : List (Cmd e)),
    Laid target ((pre ++ (s.emit target pre.length ++ post)).map Cmd.body) (s.plan pre.length) pre.length
      (pre.length + s.size)
  | .nil, _, _ => rfl
  | .act h a rest, pre, post => by
      have hrest := laid_emit target rest (pre ++ [h.cmd (a.body target)]) post
      rw [List.length_append, List.length_singleton, List.append_assoc, List.singleton_append] at hrest
      refine ⟨rfl, ?_, ?_⟩
      · rw [List.getElem?_map, List.getElem?_append_right (le_refl _), Nat.sub_self]
        rfl
      · rw [Script.size, ← Nat.add_assoc]
        exact hrest
  | .block h body rest, pre, post => by
      have hlen : (pre ++ h.cmd (.block (pre.length + 1 + body.size)) ::
          body.emit target (pre.length + 1)).length = pre.length + 1 + body.size := by
        rw [List.length_append, List.length_cons, Script.length_emit]
        omega
      have hbody := laid_emit target body (pre ++ [h.cmd (.block (pre.length + 1 + body.size))])
        (rest.emit target (pre.length + 1 + body.size) ++ post)
      have hrest := laid_emit target rest (pre ++ h.cmd (.block (pre.length + 1 + body.size)) ::
        body.emit target (pre.length + 1)) post
      rw [hlen] at hrest
      rw [List.length_append, List.length_singleton] at hbody
      simp only [List.append_assoc, List.cons_append, List.nil_append] at hbody hrest
      rw [Script.emit, List.cons_append, List.append_assoc]
      refine ⟨pre.length + 1 + body.size, rfl, ?_, hbody, ?_⟩
      · rw [List.getElem?_map, List.getElem?_append_right (le_refl _), Nat.sub_self]
        rfl
      · rw [Script.size, ← Nat.add_assoc, ← Nat.add_assoc]
        exact hrest

/-- A script takes as many commands as it has. -/
theorem laid_size : ∀ (s : Script e) {k q : ℕ}, Laid target bodies (s.plan k) k q → q = k + s.size
  | .nil, _, _, h => h.symm
  | .act _ _ rest, _, _, ⟨_, _, h⟩ => by
      rw [laid_size rest h, Script.size, Nat.add_assoc]
  | .block _ body rest, _, _, ⟨m, _, _, hbody, h⟩ => by
      rw [laid_size body hbody] at h
      rw [laid_size rest h, Script.size]
      omega

/-- **The labels and the plan agree**: what is found begins at the index the labels have. -/
theorem find_labels (target : Bytes → ℕ) (bodies : List (Body e)) (P : Act e → Prop) (name : Bytes) : ∀ (s : Script e) (k : ℕ),
    (((s.labels k).find? fun l => l.1 = name) = none → (s.plan k).find name = none) ∧
      ∀ l, ((s.labels k).find? fun l => l.1 = name) = some l → ∃ k', (s.plan k).find name = some k' ∧
        ((s.plan k).All P → k'.All P) ∧
          ∀ q, Laid target bodies (s.plan k) k q → Laid target bodies k' l.2 q
  | .nil, _ => ⟨fun _ => rfl, fun l hl => absurd hl.symm (Option.some_ne_none l)⟩
  | .act h a rest, k => by
      obtain ⟨hnone, hsome⟩ := find_labels target bodies P name rest (k + 1)
      have hskip : (∀ n, a = .label n → n ≠ name) →
          (((Script.act h a rest).labels k).find? fun l => l.1 = name) =
            ((rest.labels (k + 1)).find? fun l => l.1 = name) ∧
          ((Script.act h a rest).plan k).find name = (rest.plan (k + 1)).find name := by
        intro hne
        cases a with
        | plain body | branch kind n => exact ⟨rfl, rfl⟩
        | label n =>
          have hn : ¬n = name := hne n rfl
          refine ⟨?_, if_neg hn⟩
          rw [Script.labels, Act.labels, List.singleton_append, List.find?_cons_of_neg (by simpa using hn)]
      by_cases hlabel : a = .label name
      · subst hlabel
        have hfind : (((Script.act h (.label name) rest).labels k).find? fun l => l.1 = name) = some (name, k) := by
          rw [Script.labels, Act.labels, List.singleton_append, List.find?_cons_of_pos (by simp)]
        rw [hfind]
        refine ⟨fun hl => absurd hl (Option.some_ne_none _), fun l hl => ?_⟩
        obtain rfl := Option.some.inj hl
        exact ⟨_, if_pos rfl, id, fun q h => h⟩
      · obtain ⟨hlabels, hfind⟩ := hskip fun n hn hname => hlabel (hname ▸ hn)
        rw [hlabels, hfind]
        refine ⟨hnone, fun l hl => ?_⟩
        obtain ⟨k', hk', hstraight, hlaid⟩ := hsome l hl
        exact ⟨k', hk', fun h => hstraight h.2, fun q h => hlaid q h.2.2⟩
  | .block h body rest, k => by
      obtain ⟨hnone, hsome⟩ := find_labels target bodies P name body (k + 1)
      obtain ⟨hnone', hsome'⟩ := find_labels target bodies P name rest (k + 1 + body.size)
      rw [Script.labels, List.find?_append, Script.plan, Plan.find]
      cases hb : (body.labels (k + 1)).find? fun l => l.1 = name with
      | none =>
        rw [hnone hb, Option.none_or]
        refine ⟨hnone', fun l hl => ?_⟩
        obtain ⟨k', hk', hstraight, hlaid⟩ := hsome' l hl
        refine ⟨k', hk', fun h => hstraight h.2, fun q h => hlaid q ?_⟩
        obtain ⟨m, -, -, hbody, hrest⟩ := h
        exact laid_size body hbody ▸ hrest
      | some l =>
        obtain ⟨k', hk', hstraight, hlaid⟩ := hsome l hb
        rw [hk', Option.some_or]
        refine ⟨fun hl => absurd hl (Option.some_ne_none _), fun l' hl => ?_⟩
        obtain rfl := Option.some.inj hl
        refine ⟨_, rfl, fun h => (hstraight h.1).append h.2, fun q h => ?_⟩
        obtain ⟨m, -, -, hbody, hrest⟩ := h
        exact (hlaid m hbody).append hrest

/-! ## Step by step -/

/-- What is laid out begins where it should. -/
theorem Laid.next : ∀ {k : Plan e}, Laid target bodies k p q → k.next q = p
  | .nil, h => h.symm
  | .act _ _ _, h => h.1
  | .block _ _ _, ⟨_, hi, _⟩ => hi

/-- What a step keeps: the state is the same, and what is still to be done is laid out from the next command on. -/
structure Sim (target : Bytes → ℕ) (B : List (Body e)) (P : Act e → Prop) (s : State e) (k : Plan e × State e) : Prop where
  same : k.2 = s
  bodies : s.cmds.map Cmd.body = B
  laid : ∀ p, s.phase = .cmd p → Laid target B k.1 p B.length
  sound : k.1.All P

theorem readAhead_cmds (s : State e) : s.readAhead.cmds = s.cmds := by
  rw [State.readAhead]
  split <;> rfl

theorem readLine_cmds {s s' : State e} {f : Bytes → Bytes} (h : s.readLine f = some s') : s'.cmds = s.cmds := by
  obtain ⟨r, hr, rfl⟩ := Option.map_eq_some_iff.1 h
  rw [State.fetchLine] at hr
  cases hnext : s.readAhead.next with
  | none =>
    rw [hnext] at hr
    cases hr
  | some l =>
    rw [hnext] at hr
    obtain rfl := Option.some.inj hr
    exact (readAhead_cmds _).trans (readAhead_cmds s)

theorem outPattern_cmds (s : State e) : s.outPattern.cmds = s.cmds := by
  rw [State.outPattern]
  split <;> rfl

theorem outWfileLine_cmds (s : State e) (idx : Option ℕ) (b : Bytes) : (s.outWfileLine idx b).cmds = s.cmds := by
  cases idx <;> rfl

theorem substExec_cmds (b : Subst e) (s : State e) : (substExec b s).2.cmds = s.cmds := by
  rw [substExec]
  split
  · rfl
  · split <;> rfl

/-- What a straight command does: it goes on, or the script is begun again, or the cycle is over. -/
theorem execCmd_straight {c : Cmd e} (hc : c.body.Straight) (pc : ℕ) (s : State e) :
    (execCmd c pc s).cmds = s.cmds ∧ ((execCmd c pc s).phase = .cmd (pc + 1) ∨ (execCmd c pc s).phase = .cmd 0 ∨
      (execCmd c pc s).phase = .endCycle) := by
  rw [execCmd]
  cases hbody : c.body with
  | block jump | b jump | t jump | T jump =>
    rw [hbody] at hc
    exact hc.elim
  | c text =>
    refine ⟨?_, .inr (.inr rfl)⟩
    dsimp only [State.endCycle]
    split_ifs <;> rfl
  | d | q status | Q status => exact ⟨rfl, .inr (.inr rfl)⟩
  | D =>
    dsimp only
    split
    · exact ⟨rfl, .inr (.inl rfl)⟩
    · exact ⟨rfl, .inr (.inr rfl)⟩
  | n =>
    have hcmds : (if s.autoprintOff then s else s.outPattern).pendingFlush.cmds = s.cmds := by
      split
      · rfl
      · exact outPattern_cmds s
    dsimp only
    split
    case h_1 => exact ⟨hcmds, .inr (.inr rfl)⟩
    case h_2 s' hs' => exact ⟨(readLine_cmds hs').trans hcmds, .inl rfl⟩
  | N =>
    dsimp only
    split
    case h_1 => exact ⟨rfl, .inr (.inr rfl)⟩
    case h_2 s' hs' => exact ⟨(readLine_cmds hs' : s'.cmds = s.cmds), .inl rfl⟩
  | p => exact ⟨outPattern_cmds s, .inl rfl⟩
  | s b =>
    dsimp only
    split
    case isTrue =>
      refine ⟨(outWfileLine_cmds _ _ _).trans ?_, .inl rfl⟩
      split
      · exact (outPattern_cmds _).trans (substExec_cmds b s)
      · exact substExec_cmds b s
    case isFalse => exact ⟨substExec_cmds b s, .inl rfl⟩
  | w idx => exact ⟨outWfileLine_cmds s idx _, .inl rfl⟩
  | _ => exact ⟨rfl, .inl rfl⟩

theorem addrMatch_cmds (a : Addr e) (s : State e) : (addrMatch a s).2.cmds = s.cmds := by
  cases a with
  | step first step =>
    rw [addrMatch]
    split_ifs <;> rfl
  | regex re =>
    rw [addrMatch]
    cases re.or s.lastRe <;> rfl
  | none | line n | last | mult step line => rfl

theorem rangeMatch_cmds (c : Cmd e) (s : State e) : (rangeMatch c s).2.2.cmds = s.cmds := by
  have hcloses : ∀ c : Cmd e, (rangeCloses c s).2.cmds = s.cmds := fun c => by
    rw [rangeCloses]
    split
    case h_3 => exact addrMatch_cmds _ s
    all_goals rfl
  rw [rangeMatch]
  generalize (if c.fromZero s = true then { c with inRange := true } else c) = c'
  dsimp only
  split
  · rfl
  · split
    · exact addrMatch_cmds _ s
    · split
      · exact addrMatch_cmds _ s
      · exact hcloses c'

/-- Matching an address leaves the bodies of the commands. -/
theorem matched_bodies {c : Cmd e} {s : State e} (hc : s.cmds[p]? = some c) :
    (matched c p s).2.2.cmds.map Cmd.body = s.cmds.map Cmd.body := by
  have hset : (matched c p s).2.2.cmds = s.cmds.set p (matched c p s).2.1 :=
    congrArg (List.set · p _) (rangeMatch_cmds c s)
  have hp : (s.cmds.map Cmd.body)[p]? = some c.body := by rw [List.getElem?_map, hc]; rfl
  obtain ⟨hlt, hget⟩ := List.getElem?_eq_some_iff.1 hp
  rw [hset, List.map_set, matched_body, ← hget, List.set_getElem_self]

section

variable {s : State e} {k whole : Plan e} {B : List (Body e)}

/-- To go on with what is laid out at `p`. -/
theorem Sim.resume (hB : s.cmds.map Cmd.body = B) (hk : Laid target B k p B.length) (hall : k.All P) :
    Sim target B P (s.goto p) (k.resume s) := by
  have hlen : s.cmds.length = B.length := by rw [← hB, List.length_map]
  have hnext : k.next s.cmds.length = p := by
    rw [hlen]
    exact hk.next
  refine ⟨congrArg s.goto hnext, hB, ?_, hall⟩
  intro p' hp'
  obtain rfl := Phase.cmd.inj hp'
  exact hk

/-- What is known of a script: it is laid out from the first command on, and so is what stands behind a label. -/
structure Whole (target : Bytes → ℕ) (B : List (Body e)) (whole : Plan e) : Prop where
  laid : Laid target B whole 0 B.length
  sound : whole.All (Act.Sound whole)
  ends : target [] = B.length
  find : ∀ name k, name ≠ [] → whole.find name = some k →
    Laid target B k (target name) B.length ∧ k.All (Act.Sound whole)

/-- Where a branch goes is laid out at its target. -/
theorem Whole.branch (hw : Whole target B whole) {name : Bytes} (hname : name = [] ∨ (whole.find name).isSome) :
    Laid target B (if name = [] then .nil else (whole.find name).getD .nil) (target name) B.length ∧
      (if name = [] then Plan.nil else (whole.find name).getD .nil).All (Act.Sound whole) := by
  split
  case isTrue h => exact ⟨h ▸ hw.ends, trivial⟩
  case isFalse h =>
    obtain ⟨k, hk⟩ := Option.isSome_iff_exists.1 (hname.resolve_left h)
    rw [hk]
    exact hw.find name k h hk

/-- What `b`, `t` and `T` do. -/
theorem execCmd_branch {c : Cmd e} {kind : Branch} {j : ℕ} (hc : c.body = kind.body j) :
    execCmd c p s = (kind.asked s).goto (if kind.taken s then j else p + 1) := by
  have hclear : s.tflag = false → ({ s with tflag := false } : State e) = s := fun ht => by rw [← ht]
  rw [execCmd, hc]
  cases kind with
  | b => rfl
  | t =>
    cases ht : s.tflag with
    | false => simp only [Branch.body, Branch.taken, Branch.asked, ht, hclear ht, Bool.false_eq_true, if_false]
    | true => simp only [Branch.body, Branch.taken, Branch.asked, ht, if_true]
  | T =>
    cases ht : s.tflag with
    | false => simp only [Branch.body, Branch.taken, Branch.asked, ht, hclear ht, Bool.false_eq_true, if_false,
        Bool.not_false, if_true]
    | true => simp only [Branch.body, Branch.taken, Branch.asked, ht, Bool.not_true, Bool.false_eq_true, if_false,
        if_true]

/-- **A command that is selected does what its body says.** -/
theorem Sim.go (hw : Whole target B whole) (hB : s.cmds.map Cmd.body = B) {a : Act e} {c : Cmd e}
    (hc : c.body = a.body target) (hrest : Laid target B k (p + 1) B.length) (hk : k.All (Act.Sound whole))
    (ha : a.Sound whole) : Sim target B (Act.Sound whole) (execCmd c p s) (a.go whole k c p s) := by
  cases a with
  | plain body =>
    have hbody : { c with body } = c := by rw [← show c.body = body from hc]
    have hstraight : c.body.Straight := by rw [hc]; exact ha
    obtain ⟨hcmds, hphase⟩ := execCmd_straight hstraight p s
    rw [Act.go, hbody]
    refine ⟨rfl, by rw [hcmds, hB], ?_, ?_⟩
    · intro p' hp'
      dsimp only
      split
      case isTrue h0 =>
        obtain rfl := Phase.cmd.inj (hp'.symm.trans h0)
        exact hw.laid
      case isFalse h0 =>
        rcases hphase with h | h | h
        · obtain rfl := Phase.cmd.inj (hp'.symm.trans h)
          exact hrest
        · exact absurd h h0
        · cases hp'.symm.trans h
    · dsimp only
      split
      · exact hw.sound
      · exact hk
  | label name =>
    have hgoto : execCmd c p s = s.goto (p + 1) := by
      rw [execCmd, hc]
      rfl
    rw [hgoto]
    exact Sim.resume hB hrest hk
  | branch kind name =>
    have hasked : (kind.asked s).cmds.map Cmd.body = B := by
      cases kind <;> exact hB
    obtain ⟨hlaid, hall⟩ := hw.branch ha
    rw [execCmd_branch hc, Act.go]
    split
    · exact Sim.resume hasked hlaid hall
    · exact Sim.resume hasked hrest hk

/-- Outside of a cycle no command is changed, and a cycle begins with the first one. -/
theorem step_between {s' : State e} (hphase : ∀ p, s.phase ≠ .cmd p) (h : Sed.step s = some s') :
    s'.cmds = s.cmds ∧ ∀ p, s'.phase = .cmd p → p = 0 := by
  rw [Sed.step] at h
  split at h
  case h_1 =>
    split at h
    case h_1 =>
      obtain rfl := Option.some.inj h
      refine ⟨rfl, fun p hp => ?_⟩
      cases hp
    case h_2 s₁ hs₁ =>
      obtain rfl := Option.some.inj h
      exact ⟨(readLine_cmds hs₁ : s₁.cmds = s.cmds), fun p hp => (Phase.cmd.inj hp).symm⟩
  case h_2 pc hpc => exact absurd hpc (hphase pc)
  case h_3 =>
    obtain rfl := Option.some.inj h
    refine ⟨?_, ?_⟩
    · dsimp only [State.pendingFlush]
      split
      · exact outPattern_cmds s
      · rfl
    · intro p hp
      have hends : ∀ b : Bool, (if b = true then Phase.done else Phase.fetch) ≠ .cmd p := by
        intro b
        cases b <;> simp
      exact absurd hp (hends _)
  case h_4 => cases h

/-- Where it goes on when a command is not selected. -/
def Body.behind (pc : ℕ) : Body e → ℕ
  | .block jump => jump
  | _ => pc + 1

theorem turn_eq (c : Cmd e) (pc : ℕ) (s : State e) : turn c pc s =
    if (matched c pc s).1 then execCmd (matched c pc s).2.1 pc (matched c pc s).2.2
    else (matched c pc s).2.2.goto (c.body.behind pc) := by
  rw [turn]
  cases c.body <;> rfl

theorem behind_act {a : Act e} (ha : a.Sound whole) (pc : ℕ) : (a.body target).behind pc = pc + 1 := by
  cases a with
  | plain body =>
    rw [Act.body]
    cases body with
    | block jump => exact ha.elim
    | _ => rfl
  | label name => rfl
  | branch kind name => cases kind <;> rfl

/-- **A step of the commands is a step of the script.** -/
theorem Sim.step (hw : Whole target B whole) {k : Plan e × State e} (h : Sim target B (Act.Sound whole) s k) :
    Option.Rel (Sim target B (Act.Sound whole)) (Sed.step s) (blockStep whole k) := by
  obtain ⟨k, s'⟩ := k
  obtain ⟨rfl, hB, hlaid, hall⟩ := h
  dsimp only at hB hlaid hall ⊢
  by_cases hcmd : ∃ p, s'.phase = .cmd p
  · obtain ⟨p, hp⟩ := hcmd
    have hk := hlaid p hp
    have hget : ∀ {body : Body e}, B[p]? = some body → ∃ c, s'.cmds[p]? = some c ∧ c.body = body := by
      intro body hbody
      rw [← hB, List.getElem?_map] at hbody
      exact Option.map_eq_some_iff.1 hbody
    have hturn : ∀ {c : Cmd e}, s'.cmds[p]? = some c → Sed.step s' = some (turn c p s') := fun hc => by
      rw [Sed.step, hp]
      dsimp only
      rw [hc]
    cases k with
    | nil =>
      have hnone : s'.cmds[p]? = none := by
        rw [List.getElem?_eq_none_iff, ← List.length_map (f := Cmd.body), hB]
        exact hk.ge
      have hstep : Sed.step s' = some { s' with phase := .endCycle } := by
        rw [Sed.step, hp]
        dsimp only
        rw [hnone]
      have hblock : blockStep whole (.nil, s') = some (.nil, { s' with phase := .endCycle }) := by
        rw [blockStep, hp]
      rw [hstep, hblock]
      refine .some ⟨rfl, hB, fun p hp => ?_, trivial⟩
      cases hp
    | act i a rest =>
      obtain ⟨rfl, hbody, hrest⟩ := hk
      obtain ⟨c, hc, hcb⟩ := hget hbody
      have hB' := (matched_bodies hc).trans hB
      have hblock : blockStep whole (.act i a rest, s') = some (if (matched c i s').1 then
          a.go whole rest (matched c i s').2.1 i (matched c i s').2.2 else rest.resume (matched c i s').2.2) := by
        rw [blockStep, hp]
        dsimp only
        rw [hc]
        rfl
      rw [hturn hc, hblock, turn_eq]
      refine .some ?_
      split
      · exact Sim.go hw hB' ((matched_body c i s').trans hcb) hrest hall.2 hall.1
      · rw [hcb, behind_act hall.1]
        exact Sim.resume hB' hrest hall.2
    | block i body rest =>
      obtain ⟨m, rfl, hbody, hin, hrest⟩ := hk
      obtain ⟨c, hc, hcb⟩ := hget hbody
      have hB' := (matched_bodies hc).trans hB
      have hblock : blockStep whole (.block i body rest, s') = some ((if (matched c i s').1 then
          body.append rest else rest).resume (matched c i s').2.2) := by
        rw [blockStep, hp]
        dsimp only
        rw [hc]
        rfl
      rw [hturn hc, hblock, turn_eq]
      refine .some ?_
      split
      · have hexec : execCmd (matched c i s').2.1 i (matched c i s').2.2 = (matched c i s').2.2.goto (i + 1) := by
          rw [execCmd, matched_body, hcb]
        rw [hexec]
        exact Sim.resume hB' (hin.append hrest) (hall.1.append hall.2)
      · rw [hcb]
        exact Sim.resume hB' hrest hall.2
  · have hphase : ∀ p, s'.phase ≠ .cmd p := fun p hp => hcmd ⟨p, hp⟩
    have hblock : blockStep whole (k, s') = (Sed.step s').map fun s => (whole, s) := by
      rw [blockStep]
      split
      · exact absurd ‹_› (hphase _)
      · rfl
    rw [hblock]
    cases hs : Sed.step s' with
    | none => exact .none
    | some s₁ =>
      obtain ⟨hcmds, hzero⟩ := step_between hphase hs
      refine .some ⟨rfl, by rw [hcmds, hB], fun p hp => ?_, hw.sound⟩
      obtain rfl := hzero p hp
      exact hw.laid

end

/-! ## What is accepted runs by its blocks -/

section

variable {r : Regexes} {ere : Bool}

theorem letterOnly_straight {c : Char} {b : Body r.toEngine} (h : letterOnly r c = some b) : b.Straight := by
  rw [letterOnly.eq_def] at h
  split at h
  case h_14 => cases h
  all_goals
    obtain rfl := Option.some.inj h
    trivial

/-- A letter that is read as no jump is none. -/
theorem readOp_straight {ws : List Bytes} {c : Char} {p : Bytes} {x : Op r.toEngine × List Bytes × Bytes}
    {body : Body r.toEngine} (h : readOp r ere ws c p = .ok x) (hx : x.1 = .act (.plain body)) : body.Straight := by
  have hplain : ∀ {o : Op r.toEngine} {b : Body r.toEngine}, x.1 = o → o = .act (.plain b) → b.Straight →
      body.Straight := fun hxo ho hb => by
    rw [hxo, ho] at hx
    obtain rfl := Act.plain.inj (Op.act.inj hx)
    exact hb
  rw [readOp.eq_def] at h
  split at h
  case h_3 =>
    dsimp only at h
    split at h
    · cases h
    · obtain rfl := Except.ok.inj h
      cases hx
  case h_1 | h_2 | h_4 | h_5 | h_6 =>
    obtain rfl := Except.ok.inj h
    cases hx
  case h_7 | h_8 | h_9 | h_10 | h_11 =>
    obtain rfl := Except.ok.inj h
    exact hplain rfl rfl trivial
  case h_12 | h_13 | h_14 | h_15 =>
    obtain ⟨n, -, rfl⟩ := map_eq_ok.1 h
    exact hplain rfl rfl trivial
  case h_16 =>
    dsimp only at h
    split at h
    · obtain rfl := Except.ok.inj h
      exact hplain rfl rfl trivial
    · obtain rfl := Except.ok.inj h
      exact hplain rfl rfl trivial
  case h_17 =>
    split at h
    case h_1 b hb =>
      obtain rfl := Except.ok.inj h
      exact hplain rfl rfl (letterOnly_straight hb)
    case h_2 => cases h

/-- The commands of a script that is read. -/
theorem Reads.straight {ws ws' : List Bytes} {p : Bytes} {ts : List (Tok r.toEngine)} (h : Reads r ere ws p ts ws') :
    ∀ t ∈ ts, ∀ body, t.op = .act (.plain body) → body.Straight := by
  induction h with
  | done => exact fun t ht => by cases ht
  | more _ hread _ ih =>
    intro t ht body hbody
    rcases List.mem_cons.1 ht with rfl | ht
    · obtain ⟨a, c, t, o, -, -, ho, hx⟩ := readCommand_eq_ok hread
      exact readOp_straight ho ((congrArg (fun x => x.1.op) hx).symm.trans hbody)
    · exact ih t ht body hbody

end

/-- What is known of every command is known of the plan. -/
theorem plan_all {whole : Plan e} : ∀ (s : Script e) (k : ℕ),
    (∀ t ∈ s.toks, ∀ body, t.op = .act (.plain body) → body.Straight) →
      (∀ f ∈ s.fixups k, f.2 = [] ∨ (whole.find f.2).isSome) → (s.plan k).All (Act.Sound whole)
  | .nil, _, _, _ => trivial
  | .act h a rest, k, hs, hf => by
      refine ⟨?_, plan_all rest (k + 1) (fun t ht => hs t (.tail _ ht)) fun f hm => hf f (List.mem_append_right _ hm)⟩
      cases a with
      | plain body => exact hs _ (.head _) body rfl
      | label name => trivial
      | branch kind name => exact hf (k, name) (List.mem_append_left _ (.head _))
  | .block h body rest, k, hs, hf => by
      refine ⟨plan_all body _ (fun t ht => hs t (.tail _ (List.mem_append_left _ ht)))
        fun f hm => hf f (List.mem_append_left _ hm), plan_all rest _ (fun t ht => hs t ?_)
        fun f hm => hf f (List.mem_append_right _ hm)⟩
      exact .tail _ (List.mem_append_right _ (.tail _ ht))

/-- The commands a script is laid out as, and its plan. -/
theorem whole_plan {s : Script e} (hs : ∀ t ∈ s.toks, ∀ body, t.op = .act (.plain body) → body.Straight)
    (hl : s.Labelled) : Whole s.target ((s.emit s.target 0).map Cmd.body) (s.plan 0) := by
  have hlen : ((s.emit s.target 0).map Cmd.body).length = s.size := by rw [List.length_map, Script.length_emit]
  have hlaid : Laid s.target ((s.emit s.target 0).map Cmd.body) (s.plan 0) 0 s.size := by
    have hemit := laid_emit s.target s [] []
    simpa using hemit
  have hfind : ∀ name, name ≠ [] → ∀ l, ((s.labels 0).find? fun l => l.1 = name) = some l → s.target name = l.2 := by
    intro name hname l hl
    rw [Script.target, lookup, if_neg hname, hl]
    rfl
  have hnamed : ∀ f ∈ s.fixups 0, f.2 = [] ∨ ((s.plan 0).find f.2).isSome := by
    intro f hf
    rcases Decidable.em (f.2 = []) with hname | hname
    · exact .inl hname
    · have hlook := hl f hf
      rw [lookup, if_neg hname, Option.isSome_map] at hlook
      obtain ⟨l, hl⟩ := Option.isSome_iff_exists.1 hlook
      obtain ⟨k', hk', -⟩ := (find_labels s.target [] (fun _ => True) f.2 s 0).2 l hl
      exact .inr (hk' ▸ rfl)
  have hall := plan_all s 0 hs hnamed
  refine ⟨hlen.symm ▸ hlaid, hall, ?_, fun name k hname hk => ?_⟩
  · rw [hlen]
    rfl
  · obtain ⟨hnone, hsome⟩ := find_labels s.target ((s.emit s.target 0).map Cmd.body)
      (Act.Sound (s.plan 0)) name s 0
    cases hl : (s.labels 0).find? fun l => l.1 = name with
    | none =>
      rw [hnone hl] at hk
      cases hk
    | some l =>
      obtain ⟨k', hk', hsound, hat⟩ := hsome l hl
      obtain rfl := Option.some.inj (hk.symm.trans hk')
      rw [hfind name hname l hl, hlen]
      exact ⟨hat _ hlaid, hsound hall⟩

/-- **A script that is accepted runs as its blocks say.**  On every input, and after any number of steps, the
commands with their jumps are where the script with its blocks and labels is: in the same state, with the same
output. -/
theorem sed_blocks {r : Regexes} {ere quiet : Bool} {script : Bytes} {prog : Program r.toEngine}
    (h : sedParse r ere quiet script = .ok prog) : ∃ s : Script r.toEngine,
      Reads r ere [] (hashN script).2 s.toks prog.wfiles ∧ ∀ (input : List (Bytes × Bool)) (n : ℕ),
        times step n (.new prog.cmds prog.autoprintOff input) =
          (times (blockStep (s.plan 0)) n (s.plan 0, .new prog.cmds prog.autoprintOff input)).map Prod.snd := by
  obtain ⟨s, hreads, -, hl, hcmds, -⟩ := sedParse_iff.1 h
  have hw := whole_plan hreads.straight hl
  refine ⟨s, hreads, fun input n => ?_⟩
  have hstart : Sim s.target ((s.emit s.target 0).map Cmd.body) (Act.Sound (s.plan 0))
      (.new prog.cmds prog.autoprintOff input) (s.plan 0, .new prog.cmds prog.autoprintOff input) := by
    refine ⟨rfl, congrArg _ hcmds, fun p hp => ?_, hw.sound⟩
    cases hp
  have hrun := times_rel (fun _ _ => Sim.step hw) n hstart
  rw [← map_eq_of_rel (u := id) (fun _ _ h => h.same.symm) hrun, Option.map_id]
  rfl

/-- All lines but the last are joined in a loop. -/
theorem sed_blocks_loop : ∃ prog, sedParse (dfaRegexes 9) false false (ascii ":a\n$!\x7b\nN\nba\n\x7d") = .ok prog ∧
    ∃ s : Script (dfaEngine 9),
      Reads (dfaRegexes 9) false [] (hashN (ascii ":a\n$!\x7b\nN\nba\n\x7d")).2 s.toks prog.wfiles ∧
        ∀ (input : List (Bytes × Bool)) (n : ℕ), times step n (.new prog.cmds prog.autoprintOff input) =
          (times (blockStep (s.plan 0)) n (s.plan 0, .new prog.cmds prog.autoprintOff input)).map Prod.snd := by
  obtain ⟨prog, h⟩ : ∃ prog, sedParse (dfaRegexes 9) false false (ascii ":a\n$!\x7b\nN\nba\n\x7d") = .ok prog :=
    ⟨_, rfl⟩
  exact ⟨prog, h, sed_blocks h⟩

end Shish.Sed
