import Mathlib.Data.BitVec
import Shish.Arith.Longest

/-!
# Builtin/Umask — the operand of `umask`

The mask is set by an octal number or by a symbolic mode, a list of clauses that change the permissions one after
another.  `Mode` is what a symbolic mode says, without bits and without a scanner; `scan_umask` accepts exactly the
modes and does what they say (`scanUmask_iff`).  `scan_8short` does not look whether it read the whole operand, nor how
large the number is (`umask_accepts_iff`).
-/

namespace Shish

/-! ## The model -/

/-- `uint16`. -/
abbrev Word16 := BitVec 16

/-- The loop of `scan_8short`. -/
def scan8shortGo (i : ℕ) (l : Word16) : Str → ℕ × Word16
  | [] => (i, l)
  | c :: t =>
      if parseIsodigit c then
        if l >>> 13 ≠ 0 then (i, l)
        else scan8shortGo (i + 1) (l * 8 + BitVec.ofNat 16 (scanFromhex c)) t
      else (i, l)

/-- `scan_8short`: how many digits were read, and the number. -/
def scan8short (src : Str) : ℕ × Word16 := scan8shortGo 0 0 src

namespace Umask

/-- `scan_rwx`: the bits, and what is behind the letters. -/
def scanRwx (bits : Word16) : Str → Word16 × Str
  | 'r' :: t => scanRwx (bits ||| 4) t
  | 'w' :: t => scanRwx (bits ||| 2) t
  | 'x' :: t => scanRwx (bits ||| 1) t
  | s => (bits, s)

/-- The letters in front of a clause of `scan_umask`. -/
def scanWho (who : Word16) : Str → Word16 × Str
  | 'u' :: t => scanWho (who ||| 0o700) t
  | 'g' :: t => scanWho (who ||| 0o070) t
  | 'o' :: t => scanWho (who ||| 0o007) t
  | 'a' :: t => scanWho (who ||| 0o777) t
  | s => (who, s)

/-- `str_chr("=+-", c) < 3`. -/
def isOp (c : Char) : Bool := c ∈ ['=', '+', '-']

/-- What an action gives or takes: the bits of a class as they are, or those of the letters. -/
def scanBits (perms : Word16) : Str → Word16 × Str
  | 'u' :: t => let cls := perms >>> 6 &&& 7; (cls <<< 6 ||| cls <<< 3 ||| cls, t)
  | 'g' :: t => let cls := perms >>> 3 &&& 7; (cls <<< 6 ||| cls <<< 3 ||| cls, t)
  | 'o' :: t => let cls := perms &&& 7; (cls <<< 6 ||| cls <<< 3 ||| cls, t)
  | s => let r := scanRwx 0 s; (r.1 <<< 6 ||| r.1 <<< 3 ||| r.1, r.2)

/-- An action on the permissions. -/
def applyOp (op : Char) (perms who bits : Word16) : Word16 :=
  let bits := bits &&& who
  if op = '+' then perms ||| bits else if op = '-' then perms &&& ~~~bits else perms &&& ~~~who ||| bits

theorem scanRwx_length (bits : Word16) (s : Str) : (scanRwx bits s).2.length ≤ s.length := by
  fun_induction scanRwx bits s with
  | case1 bits t ih => exact ih.trans (Nat.le_succ _)
  | case2 bits t ih => exact ih.trans (Nat.le_succ _)
  | case3 bits t ih => exact ih.trans (Nat.le_succ _)
  | case4 bits s => exact le_rfl

theorem scanWho_length (who : Word16) (s : Str) : (scanWho who s).2.length ≤ s.length := by
  fun_induction scanWho who s with
  | case1 who t ih => exact ih.trans (Nat.le_succ _)
  | case2 who t ih => exact ih.trans (Nat.le_succ _)
  | case3 who t ih => exact ih.trans (Nat.le_succ _)
  | case4 who t ih => exact ih.trans (Nat.le_succ _)
  | case5 who s => exact le_rfl

theorem scanBits_length (perms : Word16) (s : Str) : (scanBits perms s).2.length ≤ s.length := by
  rw [scanBits.eq_def]
  split
  · exact Nat.le_succ _
  · exact Nat.le_succ _
  · exact Nat.le_succ _
  · exact scanRwx_length 0 _

/-- The actions of a clause. -/
def scanActions (who perms : Word16) : Str → Word16 × Str
  | [] => (perms, [])
  | c :: t =>
      if isOp c then
        let r := scanBits perms t
        have := scanBits_length perms t
        scanActions who (applyOp c perms who r.1) r.2
      else (perms, c :: t)
termination_by s => s.length
decreasing_by exact Nat.lt_succ_of_le this

theorem scanActions_length (who perms : Word16) (s : Str) : (scanActions who perms s).2.length ≤ s.length := by
  fun_induction scanActions who perms s with
  | case1 perms => exact le_rfl
  | case2 perms c t hop r hlen ih => exact (ih.trans hlen).trans (Nat.le_succ _)
  | case3 perms c t hop => exact le_rfl

/-- The clauses of `scan_umask`, in the complement of the mask; `none` when they are no mode. -/
def scanClauses (perms : Word16) (s : Str) : Option Word16 :=
  let w := scanWho 0 s
  let who := if w.1 = 0 then 0o777 else w.1
  if (w.2.head?.map isOp).getD false then
    let r := scanActions who perms w.2
    match h : r.2 with
    | [] => some r.1
    | c :: t =>
        if c = ',' then
          have : t.length < s.length := by
            have h₁ := scanWho_length 0 s
            have h₂ := scanActions_length who perms w.2
            rw [show (scanActions who perms w.2).2 = c :: t from h, List.length_cons] at h₂
            exact Nat.lt_of_succ_le (h₂.trans h₁)
          scanClauses r.1 t
        else none
  else none
termination_by s.length

/-- `scan_umask`: the new mask. -/
def scanUmask (s : Str) (umask : Word16) : Option Word16 :=
  (scanClauses (~~~umask &&& 0o777) s).map fun perms => ~~~perms &&& 0o777

/-- `builtin_umask` with an operand: `sh->umask`, which has twelve bits, and what is reported. -/
def builtinUmask (umask : BitVec 12) (operand : Str) : BitVec 12 × Option (Str × String) :=
  let r := scan8short operand
  if r.1 ≠ 0 then (r.2.setWidth 12, none)
  else
    match scanUmask operand (umask.setWidth 16) with
    | some num => (num.setWidth 12, none)
    | none => (umask, some (operand, "invalid mode"))

/-! ## What a mode says -/

/-- A class of users. -/
inductive Cls
  | user
  | group
  | others
  deriving DecidableEq

inductive Right
  | read
  | write
  | exec
  deriving DecidableEq

/-- Who may do what. -/
abbrev Perms := Cls → Right → Bool

inductive Op
  | add
  | remove
  | assign
  deriving DecidableEq

/-- What an action gives or takes: some rights, or those that a class has. -/
inductive What
  | rights (rs : List Right)
  | copy (c : Cls)

structure Action where
  op : Op
  what : What

/-- A clause: classes, `none` for all of them, and at least one action. -/
structure Clause where
  who : List (Option Cls)
  first : Action
  more : List Action

/-- A symbolic mode: clauses, at least one. -/
structure Mode where
  first : Clause
  more : List Clause

/-- The rights that an action is about. -/
def What.eval (w : What) (p : Perms) (r : Right) : Bool :=
  match w with
  | rights rs => decide (r ∈ rs)
  | copy c => p c r

/-- An action, for those classes. -/
def Action.apply (who : Cls → Bool) (p : Perms) (a : Action) : Perms := fun c r =>
  match a.op with
  | .add => p c r || who c && a.what.eval p r
  | .remove => p c r && !(who c && a.what.eval p r)
  | .assign => if who c then a.what.eval p r else p c r

/-- The classes of a clause; without any it is for all. -/
def Clause.concerns (cl : Clause) (c : Cls) : Bool := decide (cl.who = [] ∨ none ∈ cl.who ∨ some c ∈ cl.who)

/-- The actions of a clause, one after another. -/
def Clause.apply (p : Perms) (cl : Clause) : Perms := (cl.first :: cl.more).foldl (Action.apply cl.concerns) p

/-- **What a mode does**: its clauses, one after another. -/
def Mode.apply (m : Mode) (p : Perms) : Perms := (m.first :: m.more).foldl Clause.apply p

/-! ## The text of a mode -/

def Cls.char : Cls → Char
  | user => 'u'
  | group => 'g'
  | others => 'o'

def Right.char : Right → Char
  | read => 'r'
  | write => 'w'
  | exec => 'x'

def Op.char : Op → Char
  | add => '+'
  | remove => '-'
  | assign => '='

def whoChar : Option Cls → Char
  | none => 'a'
  | some c => c.char

def What.text : What → Str
  | rights rs => rs.map Right.char
  | copy c => [c.char]

def Action.text (a : Action) : Str := a.op.char :: a.what.text

def Clause.text (cl : Clause) : Str := cl.who.map whoChar ++ (cl.first :: cl.more).flatMap Action.text

/-- The text of a mode: its clauses, with commas in between. -/
def Mode.text (m : Mode) : Str := m.first.text ++ m.more.flatMap fun cl => ',' :: cl.text

/-! ## Bits -/

/-- Where the bits of a class are. -/
def Cls.shift : Cls → ℕ
  | user => 6
  | group => 3
  | others => 0

def Right.bit : Right → ℕ
  | read => 2
  | write => 1
  | exec => 0

/-- The permissions that the bits are. -/
def permsOf {w : ℕ} (m : BitVec w) : Perms := fun c r => m.getLsbD (c.shift + r.bit)

theorem shift_add_bit_lt (c : Cls) (r : Right) : c.shift + r.bit < 9 := by
  cases c <;> cases r <;> decide

section Bits

variable {perms who bits : Word16} {c : Cls} {r : Right} {rest : Str}

/-- **An action on the bits** is the action. -/
theorem permsOf_applyOp {a : Action} {concerned : Cls → Bool} (hwho : ∀ c r, permsOf who c r = concerned c)
    (hbits : ∀ c r, permsOf bits c r = a.what.eval (permsOf perms) r) :
    permsOf (applyOp a.op.char perms who bits) = a.apply concerned (permsOf perms) := by
  funext c r
  have hlt := shift_add_bit_lt c r
  have hw := hwho c r
  have hb := hbits c r
  rw [permsOf] at hw hb
  have hlt' : c.shift + r.bit < 16 := by omega
  cases hop : a.op with
  | add =>
    rw [permsOf, Action.apply, hop]
    simp only [applyOp, Op.char, if_true, BitVec.getLsbD_or, BitVec.getLsbD_and, hw, hb, Bool.and_comm]
    rfl
  | remove =>
    rw [permsOf, Action.apply, hop]
    simp only [applyOp, Op.char, Char.reduceEq, if_true, if_false, BitVec.getLsbD_not, BitVec.getLsbD_and, hw, hb,
      hlt', decide_true, Bool.true_and, Bool.and_comm]
    rfl
  | assign =>
    rw [permsOf, Action.apply, hop]
    simp only [applyOp, Op.char, Char.reduceEq, if_false, BitVec.getLsbD_not, BitVec.getLsbD_and, BitVec.getLsbD_or,
      hw, hb, hlt', decide_true, Bool.true_and]
    cases concerned c <;> simp [permsOf]

/-- Three copies of three bits. -/
theorem permsOf_three (x : Word16) (hx : x &&& 7 = x) (c : Cls) (r : Right) :
    permsOf (x <<< 6 ||| x <<< 3 ||| x) c r = x.getLsbD r.bit := by
  have hhigh : ∀ i, 3 ≤ i → i < 16 → x.getLsbD i = false := by
    intro i hi hlt
    rw [← hx, BitVec.getLsbD_and]
    have hseven : (7 : Word16).getLsbD i = false := by
      revert i
      decide
    rw [hseven, Bool.and_false]
  have hshift : ∀ n i : ℕ, n + i < 16 → (x <<< n).getLsbD (n + i) = x.getLsbD i := by
    intro n i hlt
    rw [BitVec.getLsbD_shiftLeft, decide_eq_true hlt, decide_eq_false (by omega), Nat.add_sub_cancel_left]
    rfl
  have hlow : ∀ n i : ℕ, i < n → (x <<< n).getLsbD i = false := by
    intro n i hlt
    rw [BitVec.getLsbD_shiftLeft, decide_eq_true hlt]
    simp
  have hbit : r.bit < 3 := by cases r <;> decide
  simp only [permsOf, BitVec.getLsbD_or]
  cases c with
  | user =>
    have h₃ := hshift 3 (3 + r.bit) (by omega)
    rw [show 3 + (3 + r.bit) = 6 + r.bit by omega, hhigh _ (by omega) (by omega)] at h₃
    rw [Cls.shift, hshift 6 _ (by omega), h₃, hhigh (6 + r.bit) (by omega) (by omega), Bool.or_false, Bool.or_false]
  | group =>
    rw [Cls.shift, hlow 6 _ (by omega), hshift 3 _ (by omega), hhigh (3 + r.bit) (by omega) (by omega), Bool.or_false,
      Bool.false_or]
  | others =>
    rw [Cls.shift, Nat.zero_add, hlow 6 _ (by omega), hlow 3 _ (by omega), Bool.false_or, Bool.false_or]

/-- The letters of `scan_rwx`. -/
theorem scanRwx_text (rs : List Right) (rest : Str) (hrest : ∀ c ∈ rest.head?, c ∉ ['r', 'w', 'x']) (bits : Word16)
    (hbits : bits &&& 7 = bits) : ∃ b, scanRwx bits (rs.map Right.char ++ rest) = (b, rest) ∧ b &&& 7 = b ∧
      ∀ r, b.getLsbD r.bit = (bits.getLsbD r.bit || decide (r ∈ rs)) := by
  induction rs generalizing bits with
  | nil =>
    have hstop : scanRwx bits rest = (bits, rest) := by
      unfold scanRwx
      split <;> simp_all
    exact ⟨bits, hstop, hbits, fun r => by simp⟩
  | cons q rs ih =>
    have hone : ∀ q : Right, ∃ one : Word16, scanRwx bits (q.char :: (rs.map Right.char ++ rest)) =
        scanRwx (bits ||| one) (rs.map Right.char ++ rest) ∧ one &&& 7 = one ∧
        ∀ r : Right, one.getLsbD r.bit = decide (r = q) := by
      intro q
      cases q with
      | read => exact ⟨4, rfl, by decide, fun r => by cases r <;> decide⟩
      | write => exact ⟨2, rfl, by decide, fun r => by cases r <;> decide⟩
      | exec => exact ⟨1, rfl, by decide, fun r => by cases r <;> decide⟩
    obtain ⟨one, hscan, hseven, hget⟩ := hone q
    have hor : (bits ||| one) &&& 7 = bits ||| one := by
      rw [BitVec.and_or_distrib_right, hbits, hseven]
    obtain ⟨b, hb, hb7, hbr⟩ := ih (bits ||| one) hor
    refine ⟨b, hscan.trans hb, hb7, fun r => ?_⟩
    rw [hbr, BitVec.getLsbD_or, hget, Bool.or_assoc]
    simp [List.mem_cons]

/-- Nothing of an action or a clause goes on behind it. -/
def Ends (rest : Str) : Prop := ∀ c ∈ rest.head?, isOp c = true ∨ c = ','

theorem Ends.notMem (h : Ends rest) {l : List Char} (hl : ∀ c ∈ l, isOp c = false ∧ c ≠ ',') :
    ∀ c ∈ rest.head?, c ∉ l := by
  intro c hc hmem
  obtain ⟨hop, hcomma⟩ := hl c hmem
  rcases h c hc with h | h
  · exact absurd (hop.symm.trans h) Bool.false_ne_true
  · exact hcomma h

theorem scanBits_letters {s : Str} (h : ∀ c ∈ s.head?, c ∉ ['u', 'g', 'o']) (perms : Word16) : scanBits perms s =
    ((scanRwx 0 s).1 <<< 6 ||| (scanRwx 0 s).1 <<< 3 ||| (scanRwx 0 s).1, (scanRwx 0 s).2) := by
  rw [scanBits.eq_def]
  split
  · exact absurd (h 'u' rfl) (by decide)
  · exact absurd (h 'g' rfl) (by decide)
  · exact absurd (h 'o' rfl) (by decide)
  · rfl

/-- **What an action gives or takes** is read from its text. -/
theorem scanBits_text (w : What) (hrest : Ends rest) (perms : Word16) : ∃ bits,
    scanBits perms (w.text ++ rest) = (bits, rest) ∧ ∀ c r, permsOf bits c r = w.eval (permsOf perms) r := by
  cases w with
  | rights rs =>
    obtain ⟨b, hb, hseven, hget⟩ := scanRwx_text rs rest (hrest.notMem (by simp [isOp])) 0 (by decide)
    have hhead : ∀ c ∈ (rs.map Right.char ++ rest).head?, c ∉ ['u', 'g', 'o'] := by
      cases rs with
      | nil => exact hrest.notMem (by simp [isOp])
      | cons q rs =>
        rintro c hc
        obtain rfl : q.char = c := Option.some.inj hc
        cases q <;> decide
    refine ⟨b <<< 6 ||| b <<< 3 ||| b, by rw [What.text, scanBits_letters hhead, hb], fun c r => ?_⟩
    rw [permsOf_three b hseven, hget]
    simp [What.eval]
  | copy d =>
    have hcls : ∀ k : ℕ, (perms >>> k &&& 7) &&& 7 = perms >>> k &&& 7 := fun k => by
      rw [BitVec.and_assoc, BitVec.and_self]
    have hget : ∀ (k : ℕ) (r : Right), k + r.bit < 16 → (perms >>> k &&& 7).getLsbD r.bit = perms.getLsbD (k + r.bit) := by
      intro k r hlt
      have hseven : (7 : Word16).getLsbD r.bit = true := by cases r <;> decide
      rw [BitVec.getLsbD_and, hseven, Bool.and_true, BitVec.getLsbD_ushiftRight]
    have hzero : perms >>> 0 &&& 7 = perms &&& 7 := by rw [BitVec.ushiftRight_zero]
    refine ⟨(perms >>> d.shift &&& 7) <<< 6 ||| (perms >>> d.shift &&& 7) <<< 3 ||| (perms >>> d.shift &&& 7), ?_,
      fun c r => ?_⟩
    · cases d with
      | user => rfl
      | group => rfl
      | others =>
        rw [Cls.shift, hzero]
        rfl
    · have hlt := shift_add_bit_lt d r
      rw [permsOf_three _ (hcls d.shift), hget _ _ (by omega)]
      rfl

end Bits

/-! ## A mode is read from its text -/

section Reads

variable {perms who : Word16} {rest : Str}

/-- The classes in front of a clause. -/
theorem scanWho_text (cs : List (Option Cls)) (hrest : ∀ c ∈ rest.head?, c ∉ ['u', 'g', 'o', 'a']) (who : Word16) :
    ∃ w, scanWho who (cs.map whoChar ++ rest) = (w, rest) ∧
      (∀ c r, permsOf w c r = (permsOf who c r || decide (none ∈ cs ∨ some c ∈ cs))) ∧ (w = 0 ↔ who = 0 ∧ cs = []) := by
  induction cs generalizing who with
  | nil =>
    have hstop : scanWho who rest = (who, rest) := by
      unfold scanWho
      split <;> simp_all
    exact ⟨who, hstop, fun c r => by simp, by simp⟩
  | cons d cs ih =>
    have hone : ∀ d : Option Cls, ∃ one : Word16, scanWho who (whoChar d :: (cs.map whoChar ++ rest)) =
        scanWho (who ||| one) (cs.map whoChar ++ rest) ∧ one ≠ 0 ∧
        ∀ c r, permsOf one c r = decide (d = none ∨ d = some c) := by
      intro d
      cases d with
      | none => exact ⟨0o777, rfl, by decide, fun c r => by cases c <;> cases r <;> decide⟩
      | some d =>
        cases d with
        | user => exact ⟨0o700, rfl, by decide, fun c r => by cases c <;> cases r <;> decide⟩
        | group => exact ⟨0o070, rfl, by decide, fun c r => by cases c <;> cases r <;> decide⟩
        | others => exact ⟨0o007, rfl, by decide, fun c r => by cases c <;> cases r <;> decide⟩
    obtain ⟨one, hscan, hne, hget⟩ := hone d
    obtain ⟨w, hw, hperms, hzero⟩ := ih (who ||| one)
    refine ⟨w, hscan.trans hw, fun c r => ?_, ?_⟩
    · have hor : permsOf (who ||| one) c r = (permsOf who c r || permsOf one c r) := BitVec.getLsbD_or
      rw [hperms, hor, hget, Bool.or_assoc, Bool.eq_iff_iff]
      simp only [Bool.or_eq_true, decide_eq_true_eq, List.mem_cons, eq_comm (b := d)]
      tauto
    · rw [hzero]
      refine iff_of_false (fun h => hne ?_) nofun
      exact (BitVec.or_eq_zero_iff.1 h.1).2

theorem isOp_char (op : Op) : isOp op.char = true := by cases op <;> decide

theorem ends_actions (as : List Action) (hrest : ∀ c ∈ rest.head?, c = ',') :
    Ends (as.flatMap Action.text ++ rest) := by
  cases as with
  | nil => exact fun c hc => .inr (hrest c hc)
  | cons a as =>
    intro c hc
    obtain rfl : a.op.char = c := Option.some.inj hc
    exact .inl (isOp_char a.op)

/-- **The actions of a clause** are read from their text, and done. -/
theorem scanActions_text (as : List Action) (hrest : ∀ c ∈ rest.head?, c = ',') {concerned : Cls → Bool}
    (hwho : ∀ c r, permsOf who c r = concerned c) (perms : Word16) : ∃ q,
    scanActions who perms (as.flatMap Action.text ++ rest) = (q, rest) ∧
      permsOf q = as.foldl (Action.apply concerned) (permsOf perms) := by
  induction as generalizing perms with
  | nil =>
    have hstop : scanActions who perms rest = (perms, rest) := by
      cases rest with
      | nil => rw [scanActions]
      | cons c t =>
        obtain rfl := hrest c rfl
        rw [scanActions, if_neg (by decide)]
    exact ⟨perms, hstop, rfl⟩
  | cons a as ih =>
    obtain ⟨bits, hbits, hget⟩ := scanBits_text a.what (ends_actions as hrest) perms
    obtain ⟨q, hq, hperms⟩ := ih (applyOp a.op.char perms who bits)
    refine ⟨q, ?_, ?_⟩
    · rw [List.flatMap_cons, Action.text, List.cons_append, List.cons_append, scanActions, if_pos (isOp_char a.op),
        List.append_assoc]
      simp only [hbits]
      exact hq
    · rw [hperms, permsOf_applyOp hwho hget, List.foldl_cons]

/-- **A clause** is read from its text, and the actions are done. -/
theorem scanClause_text (cl : Clause) (hrest : ∀ c ∈ rest.head?, c = ',') (perms : Word16) : ∃ w t q,
    scanWho 0 (cl.text ++ rest) = (w, t) ∧ (t.head?.map isOp).getD false = true ∧
      scanActions (if w = 0 then 0o777 else w) perms t = (q, rest) ∧ permsOf q = cl.apply (permsOf perms) := by
  have hop : ∀ c ∈ ((cl.first :: cl.more).flatMap Action.text ++ rest).head?, c ∉ ['u', 'g', 'o', 'a'] :=
    (ends_actions _ hrest).notMem (by simp [isOp])
  obtain ⟨w, hw, hget, hzero⟩ := scanWho_text cl.who hop 0
  have hwho : ∀ c r, permsOf (if w = 0 then 0o777 else w) c r = cl.concerns c := by
    intro c r
    have hnone : permsOf (0 : Word16) c r = false := by simp [permsOf]
    by_cases hnil : cl.who = []
    · rw [if_pos (hzero.2 ⟨rfl, hnil⟩), Clause.concerns, hnil]
      cases c <;> cases r <;> decide
    · rw [if_neg fun h => hnil (hzero.1 h).2, hget, hnone, Bool.false_or, Clause.concerns]
      simp [hnil]
  obtain ⟨q, hq, hperms⟩ := scanActions_text (cl.first :: cl.more) hrest hwho perms
  refine ⟨w, _, q, ?_, ?_, hq, hperms⟩
  · rw [Clause.text, List.append_assoc]
    exact hw
  · exact isOp_char cl.first.op

/-- A clause, and what is behind it. -/
theorem scanClauses_step {s t : Str} {w q : Word16} (hw : scanWho 0 s = (w, t))
    (hop : (t.head?.map isOp).getD false = true)
    (hq : scanActions (if w = 0 then 0o777 else w) perms t = (q, rest)) : scanClauses perms s =
      match rest with
      | [] => some q
      | c :: t => if c = ',' then scanClauses q t else none := by
  rw [scanClauses.eq_def]
  simp only [hw, hop, if_true]
  split
  · rename_i h
    simp only [hw, hq] at h
    subst h
    simp only [hq]
  · rename_i c u h
    simp only [hw, hq] at h
    subst h
    simp only [hq]

/-- **A mode** is read from its text, and done. -/
theorem scanClauses_text (cl : Clause) (cls : List Clause) (perms : Word16) : ∃ q,
    scanClauses perms (cl.text ++ cls.flatMap fun cl => ',' :: cl.text) = some q ∧
      permsOf q = (cl :: cls).foldl Clause.apply (permsOf perms) := by
  induction cls generalizing cl perms with
  | nil =>
    have hend : ∀ c ∈ ([] : Str).head?, c = ',' := nofun
    obtain ⟨w, t, q, hw, hop, hq, hperms⟩ := scanClause_text cl hend perms
    exact ⟨q, scanClauses_step hw hop hq, hperms⟩
  | cons d cls ih =>
    have hcomma : ∀ c ∈ ((d :: cls).flatMap fun cl : Clause => ',' :: cl.text).head?, c = ',' :=
      fun c hc => (Option.some.inj hc).symm
    obtain ⟨w, t, q, hw, hop, hq, hperms⟩ := scanClause_text cl hcomma perms
    obtain ⟨q', hq', hperms'⟩ := ih d q
    refine ⟨q', (scanClauses_step hw hop hq).trans hq', ?_⟩
    rw [hperms', hperms]
    rfl

end Reads

/-! ## What is read is a mode -/

section Sound

theorem scanRwx_sound (bits : Word16) (s : Str) : ∃ rs : List Right, s = rs.map Right.char ++ (scanRwx bits s).2 := by
  fun_induction scanRwx bits s with
  | case1 bits t ih =>
    obtain ⟨rs, hrs⟩ := ih
    exact ⟨.read :: rs, congrArg ('r' :: ·) hrs⟩
  | case2 bits t ih =>
    obtain ⟨rs, hrs⟩ := ih
    exact ⟨.write :: rs, congrArg ('w' :: ·) hrs⟩
  | case3 bits t ih =>
    obtain ⟨rs, hrs⟩ := ih
    exact ⟨.exec :: rs, congrArg ('x' :: ·) hrs⟩
  | case4 bits s => exact ⟨[], rfl⟩

theorem scanBits_sound (perms : Word16) (s : Str) : ∃ w : What, s = w.text ++ (scanBits perms s).2 := by
  rw [scanBits.eq_def]
  split
  · exact ⟨.copy .user, rfl⟩
  · exact ⟨.copy .group, rfl⟩
  · exact ⟨.copy .others, rfl⟩
  · obtain ⟨rs, hrs⟩ := scanRwx_sound 0 s
    exact ⟨.rights rs, hrs⟩

theorem scanWho_sound (who : Word16) (s : Str) : ∃ cs : List (Option Cls), s = cs.map whoChar ++ (scanWho who s).2 := by
  fun_induction scanWho who s with
  | case1 who t ih =>
    obtain ⟨cs, hcs⟩ := ih
    exact ⟨some .user :: cs, congrArg ('u' :: ·) hcs⟩
  | case2 who t ih =>
    obtain ⟨cs, hcs⟩ := ih
    exact ⟨some .group :: cs, congrArg ('g' :: ·) hcs⟩
  | case3 who t ih =>
    obtain ⟨cs, hcs⟩ := ih
    exact ⟨some .others :: cs, congrArg ('o' :: ·) hcs⟩
  | case4 who t ih =>
    obtain ⟨cs, hcs⟩ := ih
    exact ⟨none :: cs, congrArg ('a' :: ·) hcs⟩
  | case5 who s => exact ⟨[], rfl⟩

theorem exists_op {c : Char} (h : isOp c = true) : ∃ op : Op, op.char = c := by
  simp only [isOp, List.mem_cons, List.not_mem_nil, or_false, decide_eq_true_eq] at h
  rcases h with rfl | rfl | rfl
  · exact ⟨.assign, rfl⟩
  · exact ⟨.add, rfl⟩
  · exact ⟨.remove, rfl⟩

theorem scanActions_sound (who perms : Word16) (s : Str) :
    ∃ as : List Action, s = as.flatMap Action.text ++ (scanActions who perms s).2 := by
  fun_induction scanActions who perms s with
  | case1 perms => exact ⟨[], rfl⟩
  | case2 perms c t hop r hlen ih =>
    obtain ⟨as, has⟩ := ih
    obtain ⟨op, rfl⟩ := exists_op hop
    obtain ⟨w, hw⟩ := scanBits_sound perms t
    refine ⟨⟨op, w⟩ :: as, ?_⟩
    rw [List.flatMap_cons, List.append_assoc, ← has]
    exact congrArg (op.char :: ·) hw
  | case3 perms c t hop => exact ⟨[], rfl⟩

/-- Where an operator stands there is an action. -/
theorem scanActions_cons (who perms : Word16) {s : Str} (h : (s.head?.map isOp).getD false = true) :
    ∃ (a : Action) (as : List Action), s = (a :: as).flatMap Action.text ++ (scanActions who perms s).2 := by
  cases s with
  | nil => exact absurd h Bool.false_ne_true
  | cons c t =>
    obtain ⟨op, rfl⟩ := exists_op h
    obtain ⟨w, hw⟩ := scanBits_sound perms t
    have h' : isOp op.char = true := h
    obtain ⟨as, has⟩ := scanActions_sound who (applyOp op.char perms who (scanBits perms t).1) (scanBits perms t).2
    refine ⟨⟨op, w⟩, as, ?_⟩
    rw [scanActions, if_pos h', List.flatMap_cons, List.append_assoc, ← has]
    exact congrArg (op.char :: ·) hw

/-- **What is accepted is a mode.** -/
theorem scanClauses_sound (perms : Word16) (s : Str) (h : (scanClauses perms s).isSome = true) :
    ∃ (cl : Clause) (cls : List Clause), s = cl.text ++ cls.flatMap fun cl => ',' :: cl.text := by
  fun_induction scanClauses perms s with
  | case1 perms s w who hop r hrest =>
    obtain ⟨cs, hcs⟩ := scanWho_sound 0 s
    obtain ⟨a, as, has⟩ := scanActions_cons who perms hop
    have hend : (scanActions who perms w.2).2 = [] := hrest
    refine ⟨⟨cs, a, as⟩, [], ?_⟩
    rw [hend, List.append_nil] at has
    rw [List.flatMap_nil, List.append_nil, Clause.text, ← has]
    exact hcs
  | case2 perms s w who hop r t hrest hlen ih =>
    obtain ⟨cs, hcs⟩ := scanWho_sound 0 s
    obtain ⟨a, as, has⟩ := scanActions_cons who perms hop
    have hend : (scanActions who perms w.2).2 = ',' :: t := hrest
    obtain ⟨cl, cls, ht⟩ := ih h
    refine ⟨⟨cs, a, as⟩, cl :: cls, ?_⟩
    rw [hend] at has
    rw [List.flatMap_cons, List.cons_append, ← ht, Clause.text, List.append_assoc, ← has]
    exact hcs
  | case3 perms s w who hop r c t hrest hcomma => exact absurd h Bool.false_ne_true
  | case4 perms s w hop => exact absurd h Bool.false_ne_true

end Sound

/-! ## The operand -/

/-- The bits of a mask, which is at most `0777`, are what it takes away. -/
structure IsMask {w : ℕ} (mask : BitVec w) (p : Perms) : Prop where
  le : mask.toNat ≤ 0o777
  takes : ∀ c r, permsOf mask c r = !p c r

/-- The operand is an octal number, at most `0777`. -/
def OctalMode (operand : Str) : Prop :=
  operand ≠ [] ∧ (∀ c ∈ operand, parseIsodigit c = true) ∧ digits 8 0 operand ≤ 0o777

/-- **What `umask` is to do** with an operand, by the mask there was: set the octal number, or what the mode makes of
the permissions, or report the operand and leave the mask. -/
inductive Meets (umask : BitVec 12) (operand : Str) : BitVec 12 × Option (Str × String) → Prop
  | octal {new : BitVec 12} (h : OctalMode operand) (hnew : new.toNat = digits 8 0 operand) :
      Meets umask operand (new, none)
  | mode {new : BitVec 12} (m : Mode) (hm : m.text = operand)
      (hnew : ∀ m' : Mode, m'.text = operand → IsMask new (m'.apply fun c r => !permsOf umask c r)) :
      Meets umask operand (new, none)
  | error (hoctal : ¬OctalMode operand) (hmode : ∀ m : Mode, m.text ≠ operand) :
      Meets umask operand (umask, some (operand, "invalid mode"))

theorem permsOf_complement (x : Word16) : permsOf (~~~x &&& 0o777) = fun c r => !permsOf x c r := by
  funext c r
  have hlt := shift_add_bit_lt c r
  have hmask : (0o777 : Word16).getLsbD (c.shift + r.bit) = true := by cases c <;> cases r <;> decide
  rw [permsOf, BitVec.getLsbD_and, hmask, Bool.and_true, BitVec.getLsbD_not, decide_eq_true (by omega), Bool.true_and,
    permsOf]

/-- **A mode is accepted, and does what it says.** -/
theorem scanUmask_text (m : Mode) (umask : Word16) : ∃ num, scanUmask m.text umask = some num ∧
    IsMask num (m.apply fun c r => !permsOf umask c r) := by
  obtain ⟨q, hq, hperms⟩ := scanClauses_text m.first m.more (~~~umask &&& 0o777)
  refine ⟨~~~q &&& 0o777, ?_, ?_, fun c r => ?_⟩
  · rw [scanUmask, Mode.text, hq]
    rfl
  · rw [BitVec.toNat_and]
    exact Nat.and_le_right
  · rw [permsOf_complement, hperms, permsOf_complement]
    rfl

/-- **What is accepted is a mode**, and every mode is. -/
theorem scanUmask_iff (s : Str) (umask : Word16) : (scanUmask s umask).isSome = true ↔ ∃ m : Mode, m.text = s := by
  constructor
  · intro h
    rw [scanUmask, Option.isSome_map] at h
    obtain ⟨cl, cls, rfl⟩ := scanClauses_sound _ s h
    exact ⟨⟨cl, cls⟩, rfl⟩
  · rintro ⟨m, rfl⟩
    obtain ⟨num, hnum, -⟩ := scanUmask_text m umask
    rw [hnum]
    rfl

/-- A mask that is at most `0777` keeps its bits in the twelve of `sh->umask`. -/
theorem IsMask.setWidth {num : Word16} {p : Perms} (h : IsMask num p) : IsMask (num.setWidth 12) p where
  le := by
    rw [BitVec.toNat_setWidth]
    exact (Nat.mod_le _ _).trans h.le
  takes c r := by
    have hlt := shift_add_bit_lt c r
    rw [permsOf, BitVec.getLsbD_setWidth, decide_eq_true (by omega), Bool.true_and]
    exact h.takes c r

theorem permsOf_setWidth (umask : BitVec 12) : permsOf (umask.setWidth 16) = permsOf umask := by
  funext c r
  have hlt := shift_add_bit_lt c r
  rw [permsOf, BitVec.getLsbD_setWidth, decide_eq_true (by omega), Bool.true_and]
  rfl

/-- The digits of a number that is at most `0777` are all read. -/
theorem scan8shortGo_eq : ∀ (s : Str) (i : ℕ) (l : Word16), (∀ c ∈ s, parseIsodigit c = true) →
    digits 8 l.toNat s ≤ 0o777 → scan8shortGo i l s = (i + s.length, BitVec.ofNat 16 (digits 8 l.toNat s))
  | [], i, l, _, _ => by simp [scan8shortGo, digits]
  | c :: t, i, l, hs, hle => by
      have hc := scanFromhex_lt_eight (hs c (.head _))
      rw [digits_cons] at hle ⊢
      have hbound := (le_digits 8 (by decide) (l.toNat * 8 + scanFromhex c) t).trans hle
      have hshift : l >>> 13 = 0 := by
        apply BitVec.eq_of_toNat_eq
        rw [BitVec.toNat_ushiftRight, Nat.shiftRight_eq_div_pow, show (0 : Word16).toNat = 0 from rfl]
        omega
      have hadd : (l * 8 + BitVec.ofNat 16 (scanFromhex c)).toNat = l.toNat * 8 + scanFromhex c := by
        rw [BitVec.toNat_add, BitVec.toNat_mul, BitVec.toNat_ofNat, show (8 : Word16).toNat = 8 from rfl]
        omega
      have hrest := scan8shortGo_eq t (i + 1) (l * 8 + BitVec.ofNat 16 (scanFromhex c))
        (fun d hd => hs d (.tail _ hd)) (by rwa [hadd])
      rw [scan8shortGo, if_pos (hs c (.head _)), if_neg (not_not.2 hshift), hrest, hadd, List.length_cons]
      congr 1
      omega

theorem le_scan8shortGo : ∀ (s : Str) (i : ℕ) (l : Word16), i ≤ (scan8shortGo i l s).1
  | [], i, l => le_rfl
  | c :: t, i, l => by
      rw [scan8shortGo]
      split_ifs
      · exact le_rfl
      · exact (Nat.le_succ i).trans (le_scan8shortGo t _ _)
      · exact le_rfl

/-- A number is read where an octal digit stands. -/
theorem scan8short_pos (s : Str) : (scan8short s).1 ≠ 0 ↔ ∃ c ∈ s.head?, parseIsodigit c = true := by
  cases s with
  | nil => simp [scan8short, scan8shortGo]
  | cons c t =>
    by_cases hc : parseIsodigit c = true
    · have hle := le_scan8shortGo t 1 (0 * 8 + BitVec.ofNat 16 (scanFromhex c))
      have hgo : scan8short (c :: t) = scan8shortGo 1 (0 * 8 + BitVec.ofNat 16 (scanFromhex c)) t := by
        rw [scan8short, scan8shortGo, if_pos hc, if_neg (by decide)]
      rw [hgo]
      exact iff_of_true (by omega) ⟨c, rfl, hc⟩
    · rw [scan8short, scan8shortGo, if_neg hc]
      simp [hc]

/-- No mode starts with an octal digit. -/
theorem Mode.head_text (m : Mode) : ∃ c ∈ m.text.head?, parseIsodigit c = false := by
  obtain ⟨⟨who, a, as⟩, cls⟩ := m
  cases who with
  | nil =>
    refine ⟨a.op.char, rfl, ?_⟩
    cases a.op <;> decide
  | cons d who =>
    refine ⟨whoChar d, rfl, ?_⟩
    rcases d with - | d
    · decide
    · cases d <;> decide

/-- An operand that starts with an octal digit is taken for a number. -/
theorem builtinUmask_octal {umask : BitVec 12} {operand : Str} (h : ∃ c ∈ operand.head?, parseIsodigit c = true) :
    builtinUmask umask operand = ((scan8short operand).2.setWidth 12, none) := by
  rw [builtinUmask]
  exact if_pos ((scan8short_pos operand).2 h)

/-- Any other operand is taken for a mode, and all is well. -/
theorem meets_of_mode {umask : BitVec 12} {operand : Str} (h : ∀ c ∈ operand.head?, parseIsodigit c = false) :
    Meets umask operand (builtinUmask umask operand) := by
  have hdigit : ¬∃ c ∈ operand.head?, parseIsodigit c = true := by
    rintro ⟨c, hc, htrue⟩
    exact absurd ((h c hc).symm.trans htrue) Bool.false_ne_true
  have hoctal : ¬OctalMode operand := by
    rintro ⟨hne, hall, -⟩
    obtain ⟨c, t, rfl⟩ := List.exists_cons_of_ne_nil hne
    exact hdigit ⟨c, rfl, hall c (.head _)⟩
  have hscan : builtinUmask umask operand = match scanUmask operand (umask.setWidth 16) with
      | some num => (num.setWidth 12, none)
      | none => (umask, some (operand, "invalid mode")) := by
    rw [builtinUmask]
    exact if_neg (mt (scan8short_pos operand).1 hdigit)
  rw [hscan]
  cases hnum : scanUmask operand (umask.setWidth 16) with
  | none =>
    refine .error hoctal fun m hm => ?_
    have hsome := (scanUmask_iff operand (umask.setWidth 16)).2 ⟨m, hm⟩
    rw [hnum] at hsome
    exact Bool.false_ne_true hsome
  | some num =>
    obtain ⟨m, hm⟩ := (scanUmask_iff operand (umask.setWidth 16)).1 (by rw [hnum]; rfl)
    refine .mode m hm fun m' hm' => ?_
    obtain ⟨num', hnum', hmask⟩ := scanUmask_text m' (umask.setWidth 16)
    obtain rfl : num = num' := by
      rw [hm', hnum] at hnum'
      exact Option.some.inj hnum'
    rw [permsOf_setWidth] at hmask
    exact hmask.setWidth

/-- What may be accepted with an octal digit in front is an octal number. -/
theorem Meets.octalMode {umask new : BitVec 12} {operand : Str} (h : Meets umask operand (new, none))
    (hdigit : ∃ c ∈ operand.head?, parseIsodigit c = true) : OctalMode operand := by
  cases h with
  | octal hoctal hnew => exact hoctal
  | mode m hm hnew =>
    obtain ⟨c, hc, hfalse⟩ := m.head_text
    obtain ⟨d, hd, htrue⟩ := hdigit
    rw [hm] at hc
    obtain rfl : c = d := Option.some.inj (hc.symm.trans hd)
    exact absurd (hfalse.symm.trans htrue) Bool.false_ne_true

/-- **`umask` meets it** when its operand does not start with an octal digit or is an octal number that is at most
`0777`. -/
theorem umask_accepts_iff (umask : BitVec 12) (operand : Str) : Meets umask operand (builtinUmask umask operand) ↔
    (∀ c ∈ operand.head?, parseIsodigit c = false) ∨ OctalMode operand := by
  by_cases hdigit : ∃ c ∈ operand.head?, parseIsodigit c = true
  · rw [builtinUmask_octal hdigit]
    constructor
    · exact fun h => .inr (h.octalMode hdigit)
    · rintro (hnone | hoctal)
      · obtain ⟨d, hd, htrue⟩ := hdigit
        exact absurd ((hnone d hd).symm.trans htrue) Bool.false_ne_true
      · have hle := hoctal.2.2
        have hval := scan8shortGo_eq operand 0 0 hoctal.2.1 hle
        refine .octal hoctal ?_
        rw [scan8short, hval, BitVec.toNat_setWidth, BitVec.toNat_ofNat]
        change digits 8 0 operand % _ % _ = _
        omega
  · have hnone : ∀ c ∈ operand.head?, parseIsodigit c = false := by
      intro c hc
      exact Bool.eq_false_iff.2 fun htrue => hdigit ⟨c, hc, htrue⟩
    exact iff_of_true (meets_of_mode hnone) (.inl hnone)

/-- What stands behind the digits is not looked at. -/
theorem umask_accepts_eight : ¬Meets 0o22 ['0', '8'] (builtinUmask 0o22 ['0', '8']) := by
  have hset : builtinUmask 0o22 ['0', '8'] = (0, none) := by decide
  rw [hset]
  intro h
  obtain ⟨-, hall, -⟩ := h.octalMode ⟨'0', rfl, by decide⟩
  exact absurd (hall '8' (.tail _ (.head _))) (by decide)

end Umask

end Shish
