import Shish.Arith.Chain
import Shish.Fmt

/-!
# Arith/Print — printing an expression

The arithmetic cases of `tree_cat_n`, and when what they print is read back.  Four things get lost
on the way.  A sign in front of an operand that starts with the same sign prints as an increment or
a decrement; a postfix operator is read as one of what comes after it; a negative number, which only
a slip of the scanner makes, prints as an expression; and an operator that the parser dropped for
want of a right operand leaves a tree that the text of its tokens is not grouped into.
-/

namespace Shish

variable {ω : Type}

/-! ## The printer -/

/-- What stands in front of the operand. -/
def UnOp.before : UnOp → Str
  | unaryminus => ['-']
  | unaryplus => ['+']
  | not => ['!']
  | bnot => ['~']
  | predecr => ['-', '-']
  | preincr => ['+', '+']
  | _ => []

/-- What stands behind the operand. -/
def UnOp.behind : UnOp → Str
  | postdecr => ['-', '-']
  | postincr => ['+', '+']
  | _ => []

/-- What an assignment looks like. -/
def AsgnOp.text : AsgnOp → Str
  | vassign => ['=']
  | vadd => ['+', '=']
  | vsub => ['-', '=']
  | vmul => ['*', '=']
  | vdiv => ['/', '=']
  | vmod => ['%', '=']
  | vshl => ['<', '<', '=']
  | vshr => ['>', '>', '=']
  | vbitand => ['&', '=']
  | vbitxor => ['^', '=']
  | vbitor => ['|', '=']

/-- `A_NUM` of `tree_cat_n`. -/
def catNum (num : Int64) (base : ℕ) : Str :=
  if base = 8 then '0' :: fmt8longlong num.toUInt64
  else if base = 16 then '0' :: 'x' :: fmtXlonglong num.toUInt64
  else fmtLonglong num

/-- `tree_cat_n` on arithmetic nodes, given what it prints for an operand. -/
def catArith (cat : ω → Str) : Arith ω → Str
  | .null => []
  | .num v base => catNum v base
  | .operand a => cat a
  | .paren t => '(' :: (catArith cat t ++ [')'])
  | .comma t u => catArith cat t ++ ([',', ' '] ++ catArith cat u)
  | .unary id t => id.before ++ (catArith cat t ++ id.behind)
  | .binary id l r => catArith cat l ++ (' ' :: (id.text ++ (' ' :: catArith cat r)))
  | .ternary c t u =>
      catArith cat c ++ ([' ', '?', ' '] ++ (catArith cat t ++ ([' ', ':', ' '] ++ catArith cat u)))
  | .assign id l r => catArith cat l ++ (' ' :: (id.text ++ (' ' :: catArith cat r)))

/-! ## When it is read back -/

namespace Arith

/-- What `parse_arith_value` returns. -/
def isValue : Arith ω → Bool
  | num .. | operand _ | paren _ => true
  | _ => false

/-- What `parse_arith_unary` returns. -/
def isUnary : Arith ω → Bool
  | unary .. => true
  | t => t.isValue

/-- What `parse_arith_binary` returns, at any level. -/
def isBinary : Arith ω → Bool
  | binary .. => true
  | t => t.isUnary

/-- What `parse_arith_ternary` returns. -/
def isTernary : Arith ω → Bool
  | ternary .. => true
  | t => t.isBinary && t.need ≤ arithPrecTop

/-- What `parse_arith_expr` returns. -/
def isExpr : Arith ω → Bool
  | assign .. => true
  | t => t.isTernary

/-- What `parse_arith_paren` finds between the parentheses. -/
def isList : Arith ω → Bool
  | comma t u => t.isExpr && u.isList
  | t => t.isExpr

/-- A sign in front of an operand that starts with the same sign. -/
def doubles : UnOp → Arith ω → Bool
  | .unaryminus, unary .unaryminus _ | .unaryminus, unary .predecr _ => true
  | .unaryplus, unary .unaryplus _ | .unaryplus, unary .preincr _ => true
  | _, _ => false

end Arith

/-- The level of the operator that comes next, if one does. -/
def levelOf (next : Option BinOp) : ℕ := next.elim (arithPrecTop + 1) BinOp.level

/-- An operator that a missing operand would take for a sign. -/
def BinOp.isSign : BinOp → Bool
  | add | sub | ne => true
  | _ => false

/-- The tree is read back from its text, with the operator `next` coming next; `ok` says which
operands are. -/
def Arith.reads (O : Operands ω) (ok : ω → Bool) (next : Option BinOp) : Arith ω → Bool
  | null => false
  | num v base => base = 8 || base = 16 || (base = 10 && 0 ≤ v)
  | operand a => ok a
  | paren t => t.isList && t.reads O ok none
  | comma t u => t.reads O ok none && u.reads O ok none
  | unary id t =>
      match id with
      | .postdecr | .postincr => false
      | .predecr | .preincr => t.isNull || (t.isValue && t.reads O ok next)
      | id =>
          if t.isNull then !next.any BinOp.isSign
          else t.isUnary && t.reads O ok next && !doubles id t
  | binary op l r =>
      l.isBinary && r.isBinary && (op != .exp || l.need == 0) && l.reads O ok (some op) &&
        r.reads O ok next && r.need < op.level && (r.need + 1 == op.level || op.level ≤ levelOf next)
  | ternary c t u =>
      c.isBinary && c.need ≤ arithPrecTop && c.reads O ok none && t.isExpr && t.reads O ok none &&
        u.isTernary && u.reads O ok none
  | assign _ l r => l.isParam O && l.reads O ok none && (r.isNull || (r.isExpr && r.reads O ok none))

end Shish
