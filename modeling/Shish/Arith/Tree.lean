import Shish.Chartable

/-!
# Arith/Tree — arithmetic expressions

The arithmetic nodes of `union node`.  An operand that starts with a name or a dollar sign is a
substitution and belongs to the word parser; here it is of any type `ω`.
-/

namespace Shish

/-- The binary operators, `A_OR` to `A_EXP`. -/
inductive BinOp
  | or | and | bitor | bitxor | bitand | eq | ne | lt | gt | ge | le | shl | shr | add | sub | mul
  | div | mod | exp
deriving DecidableEq, Repr

/-- The unary operators. -/
inductive UnOp
  | unaryminus | unaryplus | not | bnot | predecr | preincr | postdecr | postincr
deriving DecidableEq, Repr

/-- The assignments. -/
inductive AsgnOp
  | vassign | vadd | vsub | vmul | vdiv | vmod | vshl | vshr | vbitand | vbitxor | vbitor
deriving DecidableEq, Repr

/-- An arithmetic node.  `null` is a missing one; `comma` is a node with a `next`, as a list in
parentheses links them. -/
inductive Arith (ω : Type)
  | null
  | num (num : Int64) (base : ℕ)
  | operand (a : ω)
  | paren (tree : Arith ω)
  | comma (tree next : Arith ω)
  | unary (id : UnOp) (node : Arith ω)
  | binary (id : BinOp) (left right : Arith ω)
  | ternary (cond ontrue onfalse : Arith ω)
  | assign (id : AsgnOp) (left right : Arith ω)
deriving DecidableEq, Repr

variable {ω : Type}

namespace Arith

/-- `node == NULL`. -/
def isNull : Arith ω → Bool
  | null => true
  | _ => false

end Arith

namespace BinOp

/-- What an operator looks like, in the source and in `tree_cat_n`. -/
def text : BinOp → Str
  | or => ['|', '|']
  | and => ['&', '&']
  | bitor => ['|']
  | bitxor => ['^']
  | bitand => ['&']
  | eq => ['=', '=']
  | ne => ['!', '=']
  | lt => ['<']
  | gt => ['>']
  | ge => ['>', '=']
  | le => ['<', '=']
  | shl => ['<', '<']
  | shr => ['>', '>']
  | add => ['+']
  | sub => ['-']
  | mul => ['*']
  | div => ['/']
  | mod => ['%']
  | exp => ['*', '*']

/-- The level `parse_arith_binary` reads an operator at: 1 binds tightest. -/
def level : BinOp → ℕ
  | exp => 1
  | mul | div | mod => 2
  | add | sub => 3
  | shl | shr => 4
  | lt | gt | ge | le => 5
  | eq | ne => 6
  | bitand => 7
  | bitxor => 8
  | bitor => 9
  | and => 10
  | or => 11

end BinOp

end Shish
