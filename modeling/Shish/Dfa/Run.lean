import Mathlib.Data.Finset.Range
import Mathlib.Logic.Relation
import Mathlib.Logic.Function.Basic
import Shish.Dfa.Prog
import Shish.Lib.Fuel
import Shish.Lib.Visit

/-!
# Dfa/Run — running a program over a subject

`dfaRun` follows all paths of a program at once: a list of threads, each at an instruction that reads
a byte or ends the match, moves on byte by byte.  `addthread` puts what can be reached without reading
on the list; an instruction is marked with the generation of the list it was reached for, and is left
the next time.

What a program means is `Goes`, one instruction of one path.
-/

namespace Shish

/-! ## Subjects -/

/-- What a program is run over: the bytes at `s` — some of them may lie behind the length `n` — and
whether `s` is not the start of a line. -/
structure Subject where
  byte : ℕ → Char
  n : ℕ
  notbol : Bool

/-- The slots of the groups; a slot that is not set is `-1` in the source. -/
abbrev Saves := List (Option ℕ)

/-- `struct dfa_thread`. -/
abbrev Thread := ℕ × Saves

/-- `struct dfa_span`. -/
structure Span where
  start : ℕ
  stop : ℕ
  deriving DecidableEq

/-- `isw`. -/
def isw (c : Char) : Bool := Byteset.isalnum c || c == '_'

namespace Subject
variable (t : Subject)

/-- `dfa_wordok`. -/
def dfaWordok (kind pos : ℕ) : Bool :=
  let before := decide (0 < pos) && isw (t.byte (pos - 1))
  let after := decide (pos < t.n) && isw (t.byte pos)
  match kind with
  | 0 => before != after
  | 1 => before == after
  | 2 => !before && after
  | _ => before && !after

/-- `DFA_BOL` holds. -/
def bolok (multi : Bool) (pos : ℕ) : Bool :=
  pos == 0 && !t.notbol || multi && decide (0 < pos) && t.byte (pos - 1) == '\n'

/-- `DFA_EOL` holds. -/
def eolok (multi : Bool) (pos : ℕ) : Bool :=
  pos == t.n || multi && t.byte pos == '\n'

/-- The byte that is read at `pos`; `none` is `-1`. -/
def read (pos : ℕ) : Option Char := if pos < t.n then some (t.byte pos) else none

end Subject

/-! ## The simulation -/

namespace Dfa
variable (d : Dfa) (t : Subject)

section Addthread
variable (gen pos : ℕ)

/-- `addthread`: what can be reached from `pc` at `pos` without reading.  `none` is an error — a
target, a slot or the list out of bounds — or calls that are too deep. -/
def addthread : ℕ → ℕ → Saves → (ℕ → Option ℕ) × List Thread →
    Option ((ℕ → Option ℕ) × List Thread)
  | 0, _, _, _ => none
  | fuel + 1, pc, save, l =>
    match d.prog[pc]? with
    | none => none
    | some i =>
      if l.1 pc = some gen then some l
      else
        let l' := (Function.update l.1 pc (some gen), l.2)
        match i with
        | .jmp x => x.bind fun x => addthread fuel x save l'
        | .split x y =>
          (x.bind fun x => addthread fuel x save l').bind fun l =>
            y.bind fun y => addthread fuel y save l
        | .save slot =>
          if d.ngroup = 0 then addthread fuel (pc + 1) save l'
          else if slot < save.length then addthread fuel (pc + 1) (save.set slot (some pos)) l'
          else none
        | .bol => if t.bolok d.multi pos then addthread fuel (pc + 1) save l' else some l'
        | .eol => if t.eolok d.multi pos then addthread fuel (pc + 1) save l' else some l'
        | .word kind => if t.dfaWordok kind pos then addthread fuel (pc + 1) save l' else some l'
        | _ => if l.2.length < d.prog.length then some (l'.1, l.2 ++ [(pc, save)]) else none

end Addthread

/-- `best_end` and `best_save` behind a thread at `DFA_MATCH`. -/
def longer (best : Option (ℕ × Saves)) (pos : ℕ) (sv : Saves) : Option (ℕ × Saves) :=
  match best with
  | none => some (pos, sv)
  | some b => if b.1 < pos then some (pos, sv) else some b

/-- One thread of `clist` at `pos`: `mark`, `nlist` and the best match so far. -/
def runThread (fuel gen pos : ℕ) (st : ((ℕ → Option ℕ) × List Thread) × Option (ℕ × Saves))
    (th : Thread) : Option (((ℕ → Option ℕ) × List Thread) × Option (ℕ × Saves)) :=
  let move := (addthread d t gen (pos + 1) fuel (th.1 + 1) th.2 st.1).map fun l => (l, st.2)
  match d.prog[th.1]? with
  | none => none
  | some .done => some (st.1, longer st.2 pos th.2)
  | some (.char x) => if t.read pos = some x then move else some st
  | some .any => if (t.read pos).isSome then move else some st
  | some (.set i) =>
    match t.read pos with
    | none => some st
    | some c => d.sets[i]?.bind fun set => if set.has c then move else some st
  | some _ => some st

/-- The loop over `pos`. -/
def runPos (depth : ℕ) : ℕ → ℕ → ℕ → (ℕ → Option ℕ) → List Thread → Option (ℕ × Saves) →
    Option (ℕ × (ℕ → Option ℕ) × Option (ℕ × Saves))
  | 0, _, _, _, _, _ => none
  | fuel + 1, pos, gen, mark, clist, best =>
    if clist = [] then some (gen, mark, best)
    else
      (clist.foldlM (runThread d t depth (gen + 1) pos) ((mark, []), best)).bind fun st =>
        if t.n ≤ pos then some (gen + 1, st.1.1, st.2)
        else runPos depth fuel (pos + 1) (gen + 1) st.1.1 st.1.2 st.2

/-- The slots before a match: none is set. -/
def noSaves : Saves := List.replicate (2 * d.ngroup) none

/-- The span of group `i`, if both slots are set. -/
def groupSpan (save : Saves) (i : ℕ) : Option Span :=
  match save[2 * i]?, save[2 * i + 1]? with
  | some (some s), some (some e) => if i < d.ngroup then some ⟨s, e⟩ else none
  | _, _ => none

/-- `g[0]` to `g[ng - 1]`; a group that did not take part is `none`. -/
def spans (save : Saves) (ng : ℕ) : List (Option Span) := (List.range ng).map (groupSpan d save)

/-- The loop over `from`. -/
def runFrom (anchored : Bool) (ng depth : ℕ) : ℕ → ℕ → ℕ → (ℕ → Option ℕ) →
    Option (Option (Span × List (Option Span)))
  | 0, _, _, _ => none
  | fuel + 1, start, gen, mark =>
    (addthread d t (gen + 1) start depth 0 (noSaves d) (mark, [])).bind fun l =>
      (runPos d t depth depth start (gen + 1) l.1 l.2 none).bind fun r =>
        match r.2.2 with
        | some best => some (some (⟨start, best.1⟩, spans d best.2 ng))
        | none =>
          if anchored || decide (t.n ≤ start) then some none
          else runFrom anchored ng depth fuel (start + 1) r.1 r.2.1

/-- `dfa_run`, with a bound on the calls and the turns of each loop.  `mark` is `-1` everywhere at
first, and `gen` is 0. -/
def dfaRun (start : ℕ) (anchored : Bool) (ng fuel : ℕ) : Option (Option (Span × List (Option Span))) :=
  if d.prog.length = 0 then some none
  else runFrom d t anchored ng fuel fuel start 0 fun _ => none

/-! ## Paths -/

/-- A point of a path: the next instruction, the position and the slots. -/
structure Point where
  pc : ℕ
  pos : ℕ
  save : Saves

/-- **One instruction of a path.** -/
inductive Goes : Point → Point → Prop where
  | jmp {pc x pos sv} : d.prog[pc]? = some (.jmp (some x)) → Goes ⟨pc, pos, sv⟩ ⟨x, pos, sv⟩
  | split {pc x y z pos sv} : d.prog[pc]? = some (.split x y) → some z = x ∨ some z = y →
      Goes ⟨pc, pos, sv⟩ ⟨z, pos, sv⟩
  | save {pc slot pos sv} : d.prog[pc]? = some (.save slot) →
      Goes ⟨pc, pos, sv⟩ ⟨pc + 1, pos, sv.set slot (some pos)⟩
  | bol {pc pos sv} : d.prog[pc]? = some .bol → t.bolok d.multi pos →
      Goes ⟨pc, pos, sv⟩ ⟨pc + 1, pos, sv⟩
  | eol {pc pos sv} : d.prog[pc]? = some .eol → t.eolok d.multi pos →
      Goes ⟨pc, pos, sv⟩ ⟨pc + 1, pos, sv⟩
  | word {pc kind pos sv} : d.prog[pc]? = some (.word kind) → t.dfaWordok kind pos →
      Goes ⟨pc, pos, sv⟩ ⟨pc + 1, pos, sv⟩
  | char {pc c pos sv} : d.prog[pc]? = some (.char c) → pos < t.n → t.byte pos = c →
      Goes ⟨pc, pos, sv⟩ ⟨pc + 1, pos + 1, sv⟩
  | any {pc pos sv} : d.prog[pc]? = some .any → pos < t.n → Goes ⟨pc, pos, sv⟩ ⟨pc + 1, pos + 1, sv⟩
  | set {pc i set pos sv} : d.prog[pc]? = some (.set i) → d.sets[i]? = some set → pos < t.n →
      set.has (t.byte pos) → Goes ⟨pc, pos, sv⟩ ⟨pc + 1, pos + 1, sv⟩
  | backref {pc g s e pos sv} : d.prog[pc]? = some (.backref g) → sv[2 * (g - 1)]? = some (some s) →
      sv[2 * (g - 1) + 1]? = some (some e) → s ≤ e → pos + (e - s) ≤ t.n →
      (∀ k < e - s, t.byte (pos + k) = t.byte (s + k)) →
      Goes ⟨pc, pos, sv⟩ ⟨pc + 1, pos + (e - s), sv⟩

/-- The path from the entry of the program at `start` comes to this point. -/
def Comes (start : ℕ) : Point → Prop := Relation.ReflTransGen (Goes d t) ⟨0, start, noSaves d⟩

/-- **A path from `start` comes to `DFA_MATCH` at `stop`**, with these slots. -/
def Accepts (start stop : ℕ) (save : Saves) : Prop :=
  ∃ pc, d.prog[pc]? = some .done ∧ Comes d t start ⟨pc, stop, save⟩

variable {d t}

theorem Goes.le {p p' : Point} (h : Goes d t p p') : p.pos ≤ p'.pos := by
  cases h <;> first | exact Nat.le_refl _ | exact Nat.le_add_right _ _

theorem Goes.length {p p' : Point} (h : Goes d t p p') : p'.save.length = p.save.length := by
  cases h <;> first | rfl | exact List.length_set

theorem Comes.le {start : ℕ} {p : Point} (h : Comes d t start p) : start ≤ p.pos := by
  induction h with
  | refl => exact Nat.le_refl _
  | tail _ hg ih => exact Nat.le_trans ih hg.le

theorem Comes.length {start : ℕ} {p : Point} (h : Comes d t start p) :
    p.save.length = 2 * d.ngroup := by
  induction h with
  | refl => exact List.length_replicate
  | tail _ hg ih => exact hg.length.trans ih

end Dfa

end Shish
