import Mathlib.Data.List.Basic
import Shish.Chartable

/-!
# Dfa/Prog — compiled patterns

A pattern is compiled to a flat program.  A target is `none` while it is not known, which the
compiler writes as `-1`.  In a well-formed program every path has a next instruction, or is at
`DFA_MATCH`, and every set and every group that is named exists.
-/

namespace Shish

/-! ## Sets of bytes -/

/-- A 256-bit map. -/
abbrev Byteset := BitVec 256

namespace Byteset

def has (s : Byteset) (c : Char) : Bool := s.getLsbD (c.toNat % 256)

/-- `byteset_add`. -/
def add (s : Byteset) (c : Char) : Byteset := s ||| BitVec.twoPow 256 (c.toNat % 256)

/-- The bytes from `lo` to `hi`. -/
def bytes (lo hi : ℕ) : List Char := (List.range' lo (hi + 1 - lo)).map Char.ofNat

/-- `byteset_range`. -/
def range (s : Byteset) (lo hi : Char) : Option Byteset :=
  if hi.toNat < lo.toNat then none
  else some ((bytes lo.toNat (min hi.toNat 255)).foldl add s)

def isupper (c : Char) : Bool := 'A' ≤ c && c ≤ 'Z'

def islower (c : Char) : Bool := 'a' ≤ c && c ≤ 'z'

def isdigit (c : Char) : Bool := '0' ≤ c && c ≤ '9'

def isalpha (c : Char) : Bool := isupper c || islower c

def isalnum (c : Char) : Bool := isalpha c || isdigit c

def isgraph (c : Char) : Bool := '!' ≤ c && c ≤ '~'

def isspace (c : Char) : Bool := c == ' ' || (9 ≤ c.toNat && c.toNat ≤ 13)

def toupper (c : Char) : Char := if islower c then Char.ofNat (c.toNat - 32) else c

def tolower (c : Char) : Char := if isupper c then Char.ofNat (c.toNat + 32) else c

/-- The classes of `byteset_class`, in the C locale. -/
def classes : List (String × (Char → Bool)) :=
  [("upper", isupper), ("lower", islower), ("alpha", isalpha), ("digit", isdigit),
    ("alnum", isalnum), ("punct", fun c => isgraph c && !isalnum c), ("graph", isgraph),
    ("print", fun c => c == ' ' || isgraph c), ("cntrl", fun c => c.toNat < 32 || c.toNat == 127),
    ("blank", fun c => c == ' ' || c == '\t'), ("space", isspace), ("xdigit", parseIsxdigit)]

/-- `byteset_class`. -/
def addClass (s : Byteset) (name : Str) : Option Byteset :=
  (classes.find? (·.1.toList == name)).map fun k => ((bytes 0 255).filter k.2).foldl add s

/-- `byteset_icase`. -/
def icase (s : Byteset) : Byteset :=
  let s := (bytes 97 122).foldl (fun s c => if s.has c then s.add (toupper c) else s) s
  (bytes 65 90).foldl (fun s c => if s.has c then s.add (tolower c) else s) s

end Byteset

/-! ## Programs -/

/-- `struct dfa_inst`. -/
inductive Inst where
  | char (c : Char)
  | any
  | set (i : ℕ)
  | split (x y : Option ℕ)
  | jmp (x : Option ℕ)
  | save (slot : ℕ)
  | bol
  | eol
  | word (kind : ℕ)
  | backref (g : ℕ)
  | done
  deriving DecidableEq

namespace Inst

/-- The targets. -/
def targets : Inst → List (Option ℕ)
  | split x y => [x, y]
  | jmp x => [x]
  | _ => []

/-- Where the program may go on behind the instruction at `pc`; `done` is `DFA_MATCH`. -/
def next (pc : ℕ) : Inst → List (Option ℕ)
  | split x y => [x, y]
  | jmp x => [x]
  | done => []
  | _ => [some (pc + 1)]

/-- The set and the group an instruction names exist. -/
def Names (nsets ngroup : ℕ) : Inst → Prop
  | set i => i < nsets
  | save slot => slot < 2 * ngroup
  | backref g => 1 ≤ g ∧ g ≤ ngroup
  | _ => True

theorem Names.mono {nsets nsets' ngroup ngroup' : ℕ} {i : Inst} (h : i.Names nsets ngroup)
    (hs : nsets ≤ nsets') (hg : ngroup ≤ ngroup') : i.Names nsets' ngroup' := by
  cases i with
  | set i => exact Nat.lt_of_lt_of_le h hs
  | save slot =>
    have h : slot < 2 * ngroup := h
    exact (by omega : slot < 2 * ngroup')
  | backref g => exact ⟨h.1, Nat.le_trans h.2 hg⟩
  | _ => trivial

end Inst

/-- `struct dfa`. -/
structure Dfa where
  prog : List Inst
  sets : List Byteset
  ngroup : ℕ
  hasBackref : Bool
  multi : Bool
  deriving DecidableEq

/-- **A well-formed program**: it begins, every path goes on inside of it or ends at `DFA_MATCH`, and
the sets and groups it names exist. -/
structure Dfa.WellFormed (d : Dfa) : Prop where
  start : 0 < d.prog.length
  next : ∀ (pc : ℕ) (i : Inst), d.prog[pc]? = some i → ∀ t ∈ i.next pc, ∃ n, t = some n ∧ n < d.prog.length
  names : ∀ i ∈ d.prog, i.Names d.sets.length d.ngroup

end Shish
