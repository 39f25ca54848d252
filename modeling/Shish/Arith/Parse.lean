import Shish.Arith.Tree
import Shish.Scan
import Shish.Source

/-!
# Arith/Parse — the parser of `$(( ))`

One function for each `parse_arith_*.c`, in the same order of tests.  They call each other without
a bound, so each takes a bound on the depth of calls first; the result is `none` when that is used
up, and where the C program has no defined result (a number scanned from no digits, an assignment
whose kind was never set).  `null` is the `NULL` of the source.

`parse_arith_binary` has no loop.  At precedence `p` it reads an operand at `p - 1` and then at most
one operator, of that level or a tighter one.
-/

namespace Shish

/-- `FMT_LONG`. -/
def fmtLong : ℕ := 41

/-- `ARITH_PREC_TOP`. -/
def arithPrecTop : ℕ := 11

/-! ## Numbers -/

/-- The class of digits that goes with a base. -/
def inBase (base : ℕ) (c : Char) : Bool :=
  if base = 16 then parseIsxdigit c else if base = 8 then parseIsodigit c else parseIsdigit c

/-- The loop over the digits of `parse_arith_value`: the characters it keeps in `x`, the base, and
what is left.  A letter behind a single `0` drops what was read. -/
def numLoop : ℕ → Str → ℕ → Char → Source → Str × ℕ × Source
  | 0, x, base, _, s => (x, base, s)
  | n + 1, x, base, c, s =>
      let x := x ++ [c]
      let s := s.skip
      match s.peek with
      | none => (x, base, s)
      | some c =>
          let digit := inBase base c
          if x = ['0'] then
            let base := if c = 'x' then 16 else if parseIsodigit c then 8 else base
            if parseIsalpha c then
              let s := s.skip
              match s.peek with
              | none => ([], base, s)
              | some c => numLoop n [] base c s
            else if digit then numLoop n x base c s
            else (x, base, s)
          else if digit && x.length < fmtLong then numLoop n x base c s
          else (x, base, s)

/-- The number in `x`; in base 10 there is none without digits. -/
def scanBase (base : ℕ) (x : Str) : Option Int64 :=
  if base = 8 then some (scan8longlong x).2.toInt64
  else if base = 16 then some (scanXlonglong x).2.toInt64
  else (scanLonglong x).map Prod.snd

/-! ## Operators -/

/-- What the loop over the levels finds: nothing, so the operand is the result; an increment, so
`NULL` is; or an operator, of one or two characters, and its level. -/
inductive Found
  | left
  | null
  | op (id : BinOp) (long : Bool) (precedence : ℕ)
deriving DecidableEq, Repr

/-- The operator of one level that starts with `a`, `b` and `c`. -/
def opAt (precedence : ℕ) (a b : Char) (c : Option Char) : Option (BinOp × Bool) :=
  match precedence with
  | 1 => if a = '*' ∧ b = '*' then some (.exp, true) else none
  | 2 =>
      if b ≠ '=' then
        if a = '*' then some (.mul, false)
        else if a = '/' then some (.div, false)
        else if a = '%' then some (.mod, false)
        else none
      else none
  | 3 =>
      if b ≠ '=' then
        if a = '+' then some (.add, false)
        else if a = '-' then some (.sub, false)
        else none
      else none
  | 4 =>
      if c ≠ some '=' ∧ (a = '>' ∨ a = '<') ∧ a = b then
        some (if a = '>' then .shr else .shl, true)
      else none
  | 5 =>
      if a = '>' ∧ b ≠ '>' then some (if b = '=' then (.ge, true) else (.gt, false))
      else if a = '<' ∧ b ≠ '<' then some (if b = '=' then (.le, true) else (.lt, false))
      else none
  | 6 =>
      if b = '=' ∧ (a = '=' ∨ a = '!') then some (if a = '!' then .ne else .eq, true) else none
  | 7 => if a = '&' ∧ b ≠ '&' ∧ b ≠ '=' then some (.bitand, false) else none
  | 8 => if a = '^' ∧ b ≠ '=' then some (.bitxor, false) else none
  | 9 => if a = '|' ∧ b ≠ '|' ∧ b ≠ '=' then some (.bitor, false) else none
  | 10 => if a = '&' ∧ b = '&' then some (.and, true) else none
  | 11 => if a = '|' ∧ b = '|' then some (.or, true) else none
  | _ => none

/-- The loop of `parse_arith_binary` from a level down to the tightest. -/
def findOp : ℕ → Char → Char → Option Char → Found
  | 0, _, _, _ => .left
  | p + 1, a, b, c =>
      if p + 1 ≤ arithPrecTop ∧ (a = '-' ∨ a = '+') ∧ b = a then .null
      else if p + 1 = 4 ∧ c = none then .left
      else
        match opAt (p + 1) a b c with
        | some (id, long) => .op id long (p + 1)
        | none => findOp p a b c

/-- What `parse_arith_binary` finds behind its left operand. -/
def nextOp (precedence : ℕ) (s : Source) : Found :=
  match s.peek, s.peekn 1 with
  | some a, some b => findOp precedence a b (s.peekn 2)
  | _, _ => .left

/-- The assignment that starts with `c₀`, `c₁` and `c₂`, and its length: `none` when there is none,
`some none` when its kind is never set. -/
def asgnAt (c₀ : Char) (c₁ c₂ : Option Char) : Option (Option (AsgnOp × ℕ)) :=
  if c₀ ∉ ['=', '*', '/', '%', '+', '-', '<', '>', '&', '^', '|'] then none
  else if c₀ = '=' then some (some (.vassign, 1))
  else if c₁ = none then none
  else if (c₀ = '<' ∨ c₀ = '>') ∧ c₁ = some c₀ then
    if c₂ = some '=' then some (some (if c₀ = '<' then .vshl else .vshr, 3)) else none
  else if c₁ = some '=' then
    some (match c₀ with
      | '*' => some (.vmul, 2)
      | '/' => some (.vdiv, 2)
      | '%' => some (.vmod, 2)
      | '+' => some (.vadd, 2)
      | '-' => some (.vsub, 2)
      | '&' => some (.vbitand, 2)
      | '^' => some (.vbitxor, 2)
      | '|' => some (.vbitor, 2)
      | _ => none)
  else none

/-! ## The parser -/

/-- What the word parser does for an operand: `parse_subst` and the node it leaves, `parse_bquoted`,
which may fail, and whether a node is an `N_ARGPARAM`. -/
structure Operands (ω : Type) where
  isParam : ω → Bool
  subst : Source → Option (ω × Source)
  bquoted : Source → Option (Option ω × Source)

variable {ω : Type} (O : Operands ω)

/-- A node is an `N_ARGPARAM`. -/
def Arith.isParam : Arith ω → Bool
  | .operand a => O.isParam a
  | _ => false

/-- A backquoted operand. -/
def arithBquoted (s : Source) : Option (Arith ω × Source) := do
  let (a, s) ← O.bquoted s
  return (a.elim .null .operand, s)

mutual

/-- `parse_arith_expr`. -/
def parseArithExpr : ℕ → Source → Option (Arith ω × Source)
  | 0, _ => none
  | n + 1, s => do
      let s := s.skipspace true
      if s.peek = none then return (.null, s)
      let (node, s) ← parseArithAssign n s
      let (node, s) ← (if node.isNull then parseArithUnary n s else some (node, s))
      if node.isNull then parseArithValue n s else return (node, s)

/-- `parse_arith_assign`, each round of its loop a call. -/
def parseArithAssign : ℕ → Source → Option (Arith ω × Source)
  | 0, _ => none
  | n + 1, s => do
      let (left, s) ← parseArithTernary n s
      if !left.isParam O then return (left, s)
      let s := s.skipspace true
      match s.peek with
      | none => return (left, s)
      | some c =>
          match asgnAt c (s.peekn 1) (s.peekn 2) with
          | none => return (left, s)
          | some none => none
          | some (some (id, len)) =>
              let (right, s) ← parseArithAssign n ((Source.skip^[len] s).skipspace true)
              return (.assign id left right, s)

/-- `parse_arith_ternary`. -/
def parseArithTernary : ℕ → Source → Option (Arith ω × Source)
  | 0, _ => none
  | n + 1, s => do
      let (cond, s) ← parseArithBinary n arithPrecTop s
      if cond.isNull then return (.null, s)
      let s := s.skipspace true
      if s.peek ≠ some '?' then return (cond, s)
      let (ontrue, s) ← parseArithExpr n (s.skip.skipspace true)
      if ontrue.isNull then return (.null, s)
      let s := s.skipspace true
      if s.peek ≠ some ':' then return (.null, s)
      let (onfalse, s) ← parseArithTernary n (s.skip.skipspace true)
      if onfalse.isNull then return (.null, s)
      return (.ternary cond ontrue onfalse, s)

/-- `parse_arith_binary`. -/
def parseArithBinary : ℕ → ℕ → Source → Option (Arith ω × Source)
  | 0, _, _ => none
  | n + 1, precedence, s => do
      let (left, s) ←
        (if precedence ≤ 1 then parseArithUnary n s else parseArithBinary n (precedence - 1) s)
      if left.isNull then return (.null, s)
      let s := s.skipspace true
      match nextOp precedence s with
      | .left => return (left, s)
      | .null => return (.null, s)
      | .op id long precedence =>
          let s := (if long then s.skip else s).skip.skipspace true
          let (right, s) ←
            (if precedence ≤ 1 then parseArithUnary n s else parseArithBinary n (precedence - 1) s)
          let (right, s) ← (if right.isNull then parseArithValue n s else some (right, s))
          if right.isNull then return (left, s)
          return (.binary id left right, s)

/-- `parse_arith_unary`.  Behind a value `++` and `--` are read like operators in front of one. -/
def parseArithUnary : ℕ → Source → Option (Arith ω × Source)
  | 0, _ => none
  | n + 1, s =>
      let sign (id : UnOp) (s : Source) : Option (Arith ω × Source) := do
        let (node, s) ← parseArithUnary n (s.skipspace true)
        return (.unary id node, s)
      let step (id : UnOp) (s : Source) : Option (Arith ω × Source) := do
        let (node, s) ← parseArithValue n (s.skipspace true)
        return (.unary id node, s)
      match s.peek with
      | none => return (.null, s)
      | some '!' => sign .not s.skip
      | some '~' => sign .bnot s.skip
      | some '-' =>
          match s.peekn 1 with
          | none => return (.null, s)
          | some '-' => step .predecr s.skip.skip
          | some _ => sign .unaryminus s.skip
      | some '+' =>
          match s.peekn 1 with
          | none => return (.null, s)
          | some '+' => step .preincr s.skip.skip
          | some _ => sign .unaryplus s.skip
      | some _ => do
          let (node, s) ← parseArithValue n s
          if node.isNull then return (node, s)
          match s.peek, s.peekn 1 with
          | some '-', some '-' => sign .postdecr s.skip.skip
          | some '+', some '+' => sign .postincr s.skip.skip
          | _, _ => return (node, s)

/-- `parse_arith_value`. -/
def parseArithValue : ℕ → Source → Option (Arith ω × Source)
  | 0, _ => none
  | n + 1, s =>
      match s.peek with
      | none => return (.null, s)
      | some '(' => parseArithParen n s
      | some '`' => arithBquoted O s
      | some '$' => do
          -- at the end of the input the dollar sign itself is looked at
          let c := (s.peekn 1).getD '$'
          if parseIsparam c || c = '(' || c = '{' then
            let (a, s) ← O.subst s
            return (.operand a, s)
          else if c = '`' then arithBquoted O s
          else return (.null, s)
      | some c =>
          if parseIsdigit c then do
            let (x, base, s) := numLoop (s.buf.length + 1) [] 10 c s
            let num ← scanBase base x
            return (.num num base, s)
          else if parseIsalpha c || c = '_' then do
            let (a, s) ← O.subst s
            return (.operand a, s)
          else return (.null, s)

/-- `parse_arith_paren`. -/
def parseArithParen : ℕ → Source → Option (Arith ω × Source)
  | 0, _ => none
  | n + 1, s => do
      if s.peek ≠ some '(' then return (.null, s)
      let (tree, s) ← parseArithList n (s.skip.skipspace true)
      if tree.isNull then return (.null, s) else return (.paren tree, s)

/-- The loop of `parse_arith_paren` over what commas separate. -/
def parseArithList : ℕ → Source → Option (Arith ω × Source)
  | 0, _ => none
  | n + 1, s => do
      let (tree, s) ← parseArithExpr n s
      if tree.isNull then return (.null, s)
      match s.peek with
      | some ',' => do
          let (next, s) ← parseArithList n s.skip
          if next.isNull then return (.null, s) else return (.comma tree next, s)
      | some ')' => return (tree, s.skip)
      | _ => return (.null, s)

end

end Shish
