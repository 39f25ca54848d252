import Shish.Arith.Tree
import Shish.Scan

/-!
# Arith/Expand — the value of an expression

`expand_arith_expr` and what it calls, over any meaning of the operands and of the variables.  The
arithmetic is that of 64-bit words; a shift counts modulo 64, as the machine does where C leaves it
open.  `BinOp.apply` is what C says of a binary operator in terms of integers, and
`expandArithOp_eq` that the code follows it.
-/

namespace Shish

/-! ## The code -/

/-- How an evaluation can end without a return: `sh_exit`, or by what C leaves undefined (a division
by zero or an increment of something that is no variable). -/
inductive ArithStop
  | exit
  | undefined
deriving DecidableEq, Repr

/-- What evaluation needs of the shell: the expansion of an operand, the name of a variable, its
text with "0" for an unset one (`var_vdefault`), storing a number by `var_setv` and by `var_setvint`
(which a readonly variable refuses), and `pow` of the C library. -/
structure ArithEnv (ω σ : Type) where
  operand : ω → σ → σ × Option Int64
  name : ω → Option Str
  get : Str → σ → Str
  set : Str → Int64 → σ → Option σ
  setInt : Str → Int64 → σ → Option σ
  pow : Int64 → Int64 → Int64

/-- `scan_number`: how many characters were read, and the number unless there are no decimal
digits. -/
def scanNumber (x : Str) : ℕ × Option Int64 :=
  match x with
  | '0' :: 'x' :: t | '0' :: 'X' :: t =>
      let (n, l) := scanXlonglong t
      (n, some l.toInt64)
  | '0' :: t =>
      let (n, l) := scan8longlong t
      (n, some l.toInt64)
  | t =>
      match scanLonglong t with
      | some (n, l) => (n, some l)
      | none => (0, none)

/-- The truth of a comparison. -/
def ofTruth (p : Prop) [Decidable p] : Int64 := if p then 1 else 0

/-- The switch of `expand_arith_binary`, both operands being evaluated; `none` is `return 1`. -/
def expandArithOp (pow : Int64 → Int64 → Int64) (id : BinOp) (left right : Int64) : Option Int64 :=
  match id with
  | .or => some (ofTruth (left ≠ 0 ∨ right ≠ 0))
  | .and => some (ofTruth (left ≠ 0 ∧ right ≠ 0))
  | .bitor => some (left ||| right)
  | .bitxor => some (left ^^^ right)
  | .bitand => some (left &&& right)
  | .eq => some (ofTruth (left = right))
  | .ne => some (ofTruth (left ≠ right))
  | .lt => some (ofTruth (left < right))
  | .gt => some (ofTruth (left > right))
  | .ge => some (ofTruth (left ≥ right))
  | .le => some (ofTruth (left ≤ right))
  | .shl => some (left <<< right)
  | .shr => some (left >>> right)
  | .add => some (left + right)
  | .sub => some (left - right)
  | .mul => some (left * right)
  | .div => if right = 0 ∨ (right = -1 ∧ left = Int64.minValue) then none else some (left / right)
  | .mod => if right = 0 ∨ (right = -1 ∧ left = Int64.minValue) then none else some (left % right)
  | .exp => some (pow left right)

/-- The switch of `expand_arith_assign`. -/
def expandAsgnOp (id : AsgnOp) (left right : Int64) : Except ArithStop Int64 :=
  match id with
  | .vassign => .ok right
  | .vadd => .ok (left + right)
  | .vsub => .ok (left - right)
  | .vmul => .ok (left * right)
  | .vdiv =>
      if right = 0 ∨ (right = -1 ∧ left = Int64.minValue) then .error .undefined
      else .ok (left / right)
  | .vmod =>
      if right = 0 ∨ (right = -1 ∧ left = Int64.minValue) then .error .undefined
      else .ok (left % right)
  | .vshl => .ok (left <<< right)
  | .vshr => .ok (left >>> right)
  | .vbitand => .ok (left &&& right)
  | .vbitxor => .ok (left ^^^ right)
  | .vbitor => .ok (left ||| right)

/-- The switch of `expand_arith_unary`: the result, and what the variable holds afterwards. -/
def expandUnOp (id : UnOp) (value : Int64) : Int64 × Int64 :=
  match id with
  | .unaryminus => (0 - value, value)
  | .unaryplus => (value, value)
  | .not => (ofTruth (value = 0), value)
  | .bnot => (~~~value, value)
  | .preincr => (value + 1, value + 1)
  | .postincr => (value, value + 1)
  | .predecr => (value - 1, value - 1)
  | .postdecr => (value, value - 1)

/-- `pre_post`. -/
def UnOp.steps : UnOp → Bool
  | .predecr | .preincr | .postdecr | .postincr => true
  | _ => false

variable {ω σ : Type} (E : ArithEnv ω σ)

/-- The name of a variable, when a node is one. -/
def Arith.name? : Arith ω → Option Str
  | .operand a => E.name a
  | _ => none

/-- `expand_arith_expr`; `none` is a nonzero return. -/
def expandArithExpr : Arith ω → σ → Except ArithStop (σ × Option Int64)
  | .null, s => .ok (s, none)
  | .num v _, s => .ok (s, some v)
  | .operand a, s => .ok (E.operand a s)
  | .paren tree, s => expandArithExpr tree s
  | .comma tree _, s => expandArithExpr tree s
  | .unary id node, s => do
      let (s, value) ← expandArithExpr node s
      match value with
      | none => return (s, none)
      | some value =>
          let (r, value) := expandUnOp id value
          if id.steps then
            match node.name? E with
            | none => throw .undefined
            | some name =>
                match E.setInt name value s with
                | none => throw .exit
                | some s => return (s, some r)
          else return (s, some r)
  | .binary id left right, s => do
      let (s, l) ← expandArithExpr left s
      match l with
      | none => return (s, none)
      | some l =>
          if id = .and ∧ l = 0 then return (s, some 0)
          else if id = .or ∧ l ≠ 0 then return (s, some 1)
          else
            let (s, r) ← expandArithExpr right s
            match r with
            | none => return (s, none)
            | some r => return (s, expandArithOp E.pow id l r)
  | .ternary cond ontrue onfalse, s => do
      let (s, c) ← expandArithExpr cond s
      match c with
      | none => return (s, none)
      | some c => if c ≠ 0 then expandArithExpr ontrue s else expandArithExpr onfalse s
  | .assign id left right, s =>
      match left.name? E with
      | none => throw .undefined
      | some name => do
          let (n, l) := scanNumber (E.get name s)
          let l := if n = 0 then 0 else l.getD 0
          -- an error on the right counts as 0
          let (s, r) ← expandArithExpr right s
          let v ← expandAsgnOp id l (r.getD 0)
          match E.set name v s with
          | none => throw .exit
          | some s => return (s, some v)

/-! ## What C says -/

/-- The value of a binary operator in terms of integers, wrapped to 64 bits; `none` where it has
none. -/
def BinOp.apply (id : BinOp) (a b : Int64) : Option Int64 :=
  match id with
  | .or => some (if a.toInt = 0 ∧ b.toInt = 0 then 0 else 1)
  | .and => some (if a.toInt = 0 ∨ b.toInt = 0 then 0 else 1)
  | .bitor => some (a ||| b)
  | .bitxor => some (a ^^^ b)
  | .bitand => some (a &&& b)
  | .eq => some (if a.toInt = b.toInt then 1 else 0)
  | .ne => some (if a.toInt = b.toInt then 0 else 1)
  | .lt => some (if a.toInt < b.toInt then 1 else 0)
  | .gt => some (if b.toInt < a.toInt then 1 else 0)
  | .ge => some (if b.toInt ≤ a.toInt then 1 else 0)
  | .le => some (if a.toInt ≤ b.toInt then 1 else 0)
  | .shl => if 0 ≤ b.toInt ∧ b.toInt < 64 then some (.ofInt (a.toInt * 2 ^ b.toInt.toNat)) else none
  | .shr => if 0 ≤ b.toInt ∧ b.toInt < 64 then some (.ofInt (a.toInt / 2 ^ b.toInt.toNat)) else none
  | .add => some (.ofInt (a.toInt + b.toInt))
  | .sub => some (.ofInt (a.toInt - b.toInt))
  | .mul => some (.ofInt (a.toInt * b.toInt))
  | .div =>
      if b.toInt = 0 ∨ (b.toInt = -1 ∧ a.toInt = -2 ^ 63) then none
      else some (.ofInt (a.toInt.tdiv b.toInt))
  | .mod =>
      if b.toInt = 0 ∨ (b.toInt = -1 ∧ a.toInt = -2 ^ 63) then none
      else some (.ofInt (a.toInt.tmod b.toInt))
  | .exp => none

/-- The value of a tree of numbers, parentheses and binary operators: `&&` and `||` do not look at
their right operand when the left one decides. -/
def Arith.value : Arith ω → Option Int64
  | .num v _ => some v
  | .paren t => t.value
  | .binary id l r => do
      let a ← l.value
      if id = .and ∧ a.toInt = 0 then return 0
      if id = .or ∧ a.toInt ≠ 0 then return 1
      let b ← r.value
      id.apply a b
  | _ => none

/-! ## The code does what C says -/

section Agree

variable {a b v : Int64}

theorem toInt_eq_zero : a.toInt = 0 ↔ a = 0 :=
  Int64.toInt_inj (y := 0)

theorem toInt_eq_neg_one : a.toInt = -1 ↔ a = -1 :=
  Int64.toInt_inj (y := -1)

theorem toInt_eq_min : a.toInt = -2 ^ 63 ↔ a = Int64.minValue :=
  Int64.toInt_inj (y := Int64.minValue)

/-- A shift count below 64 is what it is. -/
theorem toNat_smod (h₀ : 0 ≤ b.toInt) (h₁ : b.toInt < 64) :
    (b.toBitVec.smod 64).toNat = b.toInt.toNat := by
  have hmsb : b.toBitVec.msb = false := by
    rw [BitVec.msb_eq_toInt]
    simpa using h₀
  have hn : b.toBitVec.toNat = b.toInt.toNat := by
    have := BitVec.toInt_eq_toNat_of_msb hmsb
    simp only [Int64.toInt_toBitVec] at this
    omega
  rw [BitVec.smod_eq, hmsb]
  have h64 : (64 : BitVec 64).msb = false := by decide
  rw [h64]
  simp only [BitVec.umod_eq, BitVec.toNat_umod, hn]
  have : (64 : BitVec 64).toNat = 64 := by decide
  rw [this]
  omega

theorem shl_eq (h₀ : 0 ≤ b.toInt) (h₁ : b.toInt < 64) :
    a <<< b = .ofInt (a.toInt * 2 ^ b.toInt.toNat) := by
  apply Int64.toInt_inj.1
  have hs : (a <<< b).toBitVec = a.toBitVec <<< b.toInt.toNat := by
    rw [← toNat_smod h₀ h₁]
    rfl
  have ha : a.toInt = (a.toBitVec.toNat : Int).bmod (2 ^ 64) := by
    rw [← Int64.toInt_toBitVec, BitVec.toInt_eq_toNat_bmod]
  have hsize : Int64.size = 2 ^ 64 := rfl
  rw [← Int64.toInt_toBitVec (a <<< b), hs, BitVec.toInt_shiftLeft, Int64.toInt_ofInt, ha, hsize,
    Int.bmod_mul_bmod, Nat.shiftLeft_eq, Nat.cast_mul, Nat.cast_pow, Nat.cast_ofNat]

theorem shr_eq (h₀ : 0 ≤ b.toInt) (h₁ : b.toInt < 64) :
    a >>> b = .ofInt (a.toInt / 2 ^ b.toInt.toNat) := by
  have hs : (a >>> b).toBitVec = a.toBitVec.sshiftRight b.toInt.toNat := by
    rw [← toNat_smod h₀ h₁]
    rfl
  rw [← Int64.ofInt_toInt (a >>> b), ← Int64.toInt_toBitVec, hs, BitVec.toInt_sshiftRight,
    Int.shiftRight_eq_div_pow, Int64.toInt_toBitVec]
  rfl

/-- **Where C gives an operator a value, the code computes it.** -/
theorem expandArithOp_eq {pow : Int64 → Int64 → Int64} {id : BinOp} (h : id.apply a b = some v) :
    expandArithOp pow id a b = some v := by
  rw [← h]
  have hmin := toInt_eq_min (a := a)
  cases id with
  | or => simp only [expandArithOp, BinOp.apply, ofTruth, toInt_eq_zero]; grind
  | and => simp only [expandArithOp, BinOp.apply, ofTruth, toInt_eq_zero]; grind
  | bitor => rfl
  | bitxor => rfl
  | bitand => rfl
  | eq => simp only [expandArithOp, BinOp.apply, ofTruth, Int64.toInt_inj]
  | ne => simp only [expandArithOp, BinOp.apply, ofTruth, Int64.toInt_inj]; grind
  | lt => simp only [expandArithOp, BinOp.apply, ofTruth, Int64.lt_iff_toInt_lt]
  | gt => simp only [expandArithOp, BinOp.apply, ofTruth, gt_iff_lt, Int64.lt_iff_toInt_lt]
  | ge => simp only [expandArithOp, BinOp.apply, ofTruth, ge_iff_le, Int64.le_iff_toInt_le]
  | le => simp only [expandArithOp, BinOp.apply, ofTruth, Int64.le_iff_toInt_le]
  | shl =>
    simp only [BinOp.apply] at h ⊢
    split_ifs at h ⊢ with hb
    rw [← shl_eq hb.1 hb.2, expandArithOp]
  | shr =>
    simp only [BinOp.apply] at h ⊢
    split_ifs at h ⊢ with hb
    rw [← shr_eq hb.1 hb.2, expandArithOp]
  | add => simp [expandArithOp, BinOp.apply]
  | sub => simp [expandArithOp, BinOp.apply]
  | mul => simp [expandArithOp, BinOp.apply]
  | div => 
    have hd : Int64.ofInt (a.toInt.tdiv b.toInt) = a / b := by
      apply Int64.toInt_inj.1
      rw [Int64.toInt_div, Int64.toInt_ofInt]
    simp only [expandArithOp, BinOp.apply, toInt_eq_zero, toInt_eq_neg_one, toInt_eq_min, hd]
  | mod => 
    have hd : Int64.ofInt (a.toInt.tmod b.toInt) = a % b := by
      rw [← Int64.toInt_mod, Int64.ofInt_toInt]
    simp only [expandArithOp, BinOp.apply, toInt_eq_zero, toInt_eq_neg_one, toInt_eq_min, hd]
  | exp => exact absurd h nofun

/-- **Where C gives a tree of numbers a value, evaluating it gives that value.** -/
theorem expandArithExpr_eq : ∀ {t : Arith ω} {v : Int64}, t.value = some v → ∀ s,
    expandArithExpr E t s = .ok (s, some v)
  | .num v _, _, h, s => by
      cases h
      rfl
  | .paren t, _, h, s => expandArithExpr_eq (t := t) h s
  | .binary id l r, v, h, s => by
      simp only [Arith.value, Option.bind_eq_bind, Option.bind_eq_some_iff, Option.pure_def] at h
      obtain ⟨a, ha, h⟩ := h
      have hl := expandArithExpr_eq ha s
      simp only [toInt_eq_zero, ne_eq] at h
      simp only [expandArithExpr, hl, bind, Except.bind, pure, Except.pure, ne_eq]
      split_ifs at h ⊢
      · cases h
        rfl
      · cases h
        rfl
      · rw [Option.bind_eq_some_iff] at h
        obtain ⟨b, hb, h⟩ := h
        simp only [expandArithExpr_eq hb s, expandArithOp_eq h]

end Agree

end Shish
