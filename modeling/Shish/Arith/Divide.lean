import Shish.Arith.Expand
import Shish.Fmt

/-!
# Arith/Divide — divisions that fail

A division by zero, or of the least number by `-1`, is an error of `expand_arith_binary` that every
caller but one forwards: `expand_arith_assign` takes a failed right operand for 0, and divides
itself without a look at the divisor.  `DivSafe` is what should hold of an evaluation that comes to
such a division, `refArith` the evaluation with the errors forwarded, and `divSafe_iff` says for
which trees and variables the code is safe.
-/

namespace Shish

/-- What is wrong with a division. -/
inductive DivFault
  | zero
  | overflow
deriving DecidableEq, Repr

/-- The test of `expand_arith_binary` before it divides. -/
def divFault (left right : Int64) : Option DivFault :=
  if right = 0 then some .zero
  else if right = -1 ∧ left = Int64.minValue then some .overflow
  else none

/-- `A_DIV` and `A_MOD`. -/
def BinOp.divides : BinOp → Bool
  | .div | .mod => true
  | _ => false

/-- `A_VDIV` and `A_VMOD`. -/
def AsgnOp.divides : AsgnOp → Bool
  | .vdiv | .vmod => true
  | _ => false

variable {ω σ : Type} (E : ArithEnv ω σ)

/-- What an assignment finds on its left. -/
def assignLeft (name : Str) (s : σ) : Int64 :=
  let (n, l) := scanNumber (E.get name s)
  if n = 0 then 0 else l.getD 0

/-! ## What an evaluation comes to -/

/-- `Reaches E t s u s'`: evaluating `t` in `s` comes to evaluating its part `u`, in `s'`. -/
inductive Reaches : Arith ω → σ → Arith ω → σ → Prop
  | refl (t s) : Reaches t s t s
  | paren {t s u s'} : Reaches t s u s' → Reaches (.paren t) s u s'
  | comma {t next s u s'} : Reaches t s u s' → Reaches (.comma t next) s u s'
  | unary {id t s u s'} : Reaches t s u s' → Reaches (.unary id t) s u s'
  | left {id l r s u s'} : Reaches l s u s' → Reaches (.binary id l r) s u s'
  | right {id l r s s₁ a u s'} : expandArithExpr E l s = .ok (s₁, some a) →
      ¬(id = .and ∧ a = 0) → ¬(id = .or ∧ a ≠ 0) → Reaches r s₁ u s' →
      Reaches (.binary id l r) s u s'
  | cond {c t f s u s'} : Reaches c s u s' → Reaches (.ternary c t f) s u s'
  | ontrue {c t f s s₁ a u s'} : expandArithExpr E c s = .ok (s₁, some a) → a ≠ 0 →
      Reaches t s₁ u s' → Reaches (.ternary c t f) s u s'
  | onfalse {c t f s s₁ u s'} : expandArithExpr E c s = .ok (s₁, some 0) →
      Reaches f s₁ u s' → Reaches (.ternary c t f) s u s'
  | assign {id l r name s u s'} : l.name? E = some name → Reaches r s u s' →
      Reaches (.assign id l r) s u s'

/-- `Faults E u s k`: evaluating the node `u` in `s` comes to a division that fails by `k`. -/
inductive Faults : Arith ω → σ → DivFault → Prop
  | binary {id l r s s₁ s₂ a b k} : id.divides → expandArithExpr E l s = .ok (s₁, some a) →
      expandArithExpr E r s₁ = .ok (s₂, some b) → divFault a b = some k →
      Faults (.binary id l r) s k
  | assign {id l r name s s₁ b k} : id.divides → l.name? E = some name →
      expandArithExpr E r s = .ok (s₁, b) →
      divFault (assignLeft E name s) (b.getD 0) = some k → Faults (.assign id l r) s k

/-- **What an evaluation that comes to a failing division should do**: it does not divide all the
same, it returns an error if the divisor is zero, and an assignment with the division on its right
does not store anything. -/
def DivSafe (t : Arith ω) (s : σ) : Prop :=
  ∀ u s' k, Reaches E t s u s' → Faults E u s' k →
    expandArithExpr E u s' ≠ .error .undefined ∧
    (k = .zero → ∃ s₁, expandArithExpr E t s = .ok (s₁, none)) ∧
    ∀ id l r s₀, Reaches E t s (.assign id l r) s₀ → Reaches E r s₀ u s' →
      ∀ s₁ v, expandArithExpr E (.assign id l r) s₀ ≠ .ok (s₁, some v)

/-! ## The evaluation with the errors forwarded -/

/-- How the evaluation of a node ends: with a number, with another error, at a failing division, or
at one that an assignment does not forward. -/
inductive ArithEnd
  | value (v : Int64)
  | error
  | fault (k : DivFault)
  | lost
deriving DecidableEq, Repr

/-- The number, if there is one. -/
def ArithEnd.value? : ArithEnd → Option Int64
  | .value v => some v
  | _ => none

/-- The end of an operand. -/
def ArithEnd.ofOption : Option Int64 → ArithEnd
  | some v => .value v
  | none => .error

/-- Goes on with the number of an operand; any other end is forwarded. -/
def forward (m : Except ArithStop (σ × ArithEnd))
    (f : σ → Int64 → Except ArithStop (σ × ArithEnd)) : Except ArithStop (σ × ArithEnd) :=
  match m with
  | .error x => .error x
  | .ok (s, .value v) => f s v
  | .ok (s, e) => .ok (s, e)

/-- An assignment of the reference, once its right operand has ended with `e` in `s`.  The end is
`lost` when the code would store something in spite of a failed division or fails to divide itself;
a variable that refuses to be assigned makes the shell exit, which loses a division by zero only. -/
def refAssign (id : AsgnOp) (name : Str) (left : Int64) (e : ArithEnd) (s : σ) :
    Except ArithStop (σ × ArithEnd) :=
  if e = .lost then .ok (s, .lost)
  else
    match expandAsgnOp id left (e.value?.getD 0) with
    | .error _ => .ok (s, .lost)
    | .ok v =>
        match E.set name v s, e with
        | none, .fault .zero => .ok (s, .lost)
        | none, _ => .error .exit
        | some _, .fault _ => .ok (s, .lost)
        | some s', _ => .ok (s', .value v)

/-- **The reference evaluation**: as the code, but a failing division ends it. -/
def refArith : Arith ω → σ → Except ArithStop (σ × ArithEnd)
  | .null, s => .ok (s, .error)
  | .num v _, s => .ok (s, .value v)
  | .operand a, s => .ok ((E.operand a s).1, .ofOption (E.operand a s).2)
  | .paren tree, s => refArith tree s
  | .comma tree _, s => refArith tree s
  | .unary id node, s =>
      forward (refArith node s) fun s value =>
        if id.steps then
          match node.name? E with
          | none => .error .undefined
          | some name =>
              match E.setInt name (expandUnOp id value).2 s with
              | none => .error .exit
              | some s => .ok (s, .value (expandUnOp id value).1)
        else .ok (s, .value (expandUnOp id value).1)
  | .binary id left right, s =>
      forward (refArith left s) fun s l =>
        if id = .and ∧ l = 0 then .ok (s, .value 0)
        else if id = .or ∧ l ≠ 0 then .ok (s, .value 1)
        else
          forward (refArith right s) fun s r =>
            match id.divides, divFault l r with
            | true, some k => .ok (s, .fault k)
            | _, _ => .ok (s, .ofOption (expandArithOp E.pow id l r))
  | .ternary cond ontrue onfalse, s =>
      forward (refArith cond s) fun s c =>
        if c ≠ 0 then refArith ontrue s else refArith onfalse s
  | .assign id left right, s =>
      match left.name? E with
      | none => .error .undefined
      | some name =>
          match refArith right s with
          | .error x => .error x
          | .ok (s', e) => refAssign E id name (assignLeft E name s) e s'

/-! ## Where nothing is lost the code follows the reference -/

section Agree

variable {E} {t : Arith ω} {s s' : σ} {e : ArithEnd} {x : ArithStop} {k : DivFault}

@[simp] theorem value?_ofOption (v : Option Int64) : (ArithEnd.ofOption v).value? = v := by
  cases v <;> rfl

theorem value_of_value? {e : ArithEnd} {v : Int64} (h : e.value? = some v) : e = .value v := by
  cases e with
  | value w => exact congrArg ArithEnd.value (Option.some.inj h)
  | error => exact absurd h nofun
  | fault k => exact absurd h nofun
  | lost => exact absurd h nofun

/-- A plain division fails with an error. -/
theorem expandArithOp_fault {pow : Int64 → Int64 → Int64} {id : BinOp} {a b : Int64}
    (hd : id.divides) (h : divFault a b = some k) : expandArithOp pow id a b = none := by
  have hb : b = 0 ∨ (b = -1 ∧ a = Int64.minValue) := by
    unfold divFault at h
    split_ifs at h with h₀ h₁
    · exact .inl h₀
    · exact .inr h₁
  cases id with
  | div => exact if_pos hb
  | mod => exact if_pos hb
  | _ => exact absurd hd (by decide)

/-- A compound division that fails is undefined, and nothing else of an assignment is. -/
theorem expandAsgnOp_error {id : AsgnOp} {a b : Int64} :
    expandAsgnOp id a b = .error x ↔
      id.divides ∧ (divFault a b).isSome ∧ x = .undefined := by
  have hb : (divFault a b).isSome ↔ b = 0 ∨ (b = -1 ∧ a = Int64.minValue) := by
    unfold divFault
    split_ifs with h₀ h₁ <;> simp_all
  cases id with
  | vdiv => by_cases h : b = 0 ∨ (b = -1 ∧ a = Int64.minValue) <;>
      simp [expandAsgnOp, AsgnOp.divides, hb, h, eq_comm]
  | vmod => by_cases h : b = 0 ∨ (b = -1 ∧ a = Int64.minValue) <;>
      simp [expandAsgnOp, AsgnOp.divides, hb, h, eq_comm]
  | _ => simp [expandAsgnOp, AsgnOp.divides]

/-- Goes on with the number of an operand; an error is returned. -/
def onNumber (m : Except ArithStop (σ × Option Int64))
    (f : σ → Int64 → Except ArithStop (σ × Option Int64)) : Except ArithStop (σ × Option Int64) :=
  match m with
  | .error x => .error x
  | .ok (s, some v) => f s v
  | .ok (s, none) => .ok (s, none)

variable (E) in
theorem expandArithExpr_unary (id : UnOp) (t : Arith ω) (s : σ) :
    expandArithExpr E (.unary id t) s = onNumber (expandArithExpr E t s) fun s value =>
      if id.steps then
        match t.name? E with
        | none => .error .undefined
        | some name =>
            match E.setInt name (expandUnOp id value).2 s with
            | none => .error .exit
            | some s => .ok (s, some (expandUnOp id value).1)
      else .ok (s, some (expandUnOp id value).1) := by
  rw [expandArithExpr]
  rcases expandArithExpr E t s with x | ⟨s₁, _ | v⟩ <;> rfl

variable (E) in
theorem expandArithExpr_binary (id : BinOp) (l r : Arith ω) (s : σ) :
    expandArithExpr E (.binary id l r) s = onNumber (expandArithExpr E l s) fun s a =>
      if id = .and ∧ a = 0 then .ok (s, some 0)
      else if id = .or ∧ a ≠ 0 then .ok (s, some 1)
      else onNumber (expandArithExpr E r s) fun s b => .ok (s, expandArithOp E.pow id a b) := by
  rw [expandArithExpr]
  rcases expandArithExpr E l s with x | ⟨s₁, _ | a⟩
  · rfl
  · rfl
  · simp only [onNumber, bind, Except.bind, pure, Except.pure]
    split_ifs
    · rfl
    · rfl
    · rcases expandArithExpr E r s₁ with x | ⟨s₂, _ | b⟩ <;> rfl

variable (E) in
theorem expandArithExpr_ternary (c t f : Arith ω) (s : σ) :
    expandArithExpr E (.ternary c t f) s = onNumber (expandArithExpr E c s) fun s c =>
      if c ≠ 0 then expandArithExpr E t s else expandArithExpr E f s := by
  rw [expandArithExpr]
  rcases expandArithExpr E c s with x | ⟨s₁, _ | a⟩ <;> rfl

/-- An assignment to a variable whose right operand was evaluated. -/
theorem expandArithExpr_assign {id : AsgnOp} {l r : Arith ω} {name : Str} {b : Option Int64}
    (hn : l.name? E = some name) (hr : expandArithExpr E r s = .ok (s', b)) :
    expandArithExpr E (.assign id l r) s =
      match expandAsgnOp id (assignLeft E name s) (b.getD 0) with
      | .error x => .error x
      | .ok v =>
          match E.set name v s' with
          | none => .error .exit
          | some s'' => .ok (s'', some v) := by
  simp only [expandArithExpr, hn, hr, bind, Except.bind, assignLeft]
  cases expandAsgnOp id _ (b.getD 0) with
  | error x => rfl
  | ok v =>
    cases E.set name v s' <;> rfl

/-- The code does what the reference does, unless that has lost an error. -/
def Follows (code : Except ArithStop (σ × Option Int64)) :
    Except ArithStop (σ × ArithEnd) → Prop
  | .ok (_, .lost) => True
  | .ok (s, e) => code = .ok (s, e.value?)
  | .error x => code = .error x

theorem Follows.bind {c : Except ArithStop (σ × Option Int64)}
    {r : Except ArithStop (σ × ArithEnd)} {f g} (h : Follows c r)
    (hf : ∀ s v, Follows (g s v) (f s v)) : Follows (onNumber c g) (forward r f) := by
  match r, h with
  | .error x, h => rw [show c = .error x from h]; rfl
  | .ok (s, .value v), h => rw [show c = .ok (s, some v) from h]; exact hf s v
  | .ok (s, .error), h => rw [show c = .ok (s, none) from h]; rfl
  | .ok (s, .fault k), h => rw [show c = .ok (s, none) from h]; rfl
  | .ok (s, .lost), _ => trivial

/-- The end of an assignment whose right operand ended with `e`. -/
theorem follows_assign {id : AsgnOp} {l r : Arith ω} {name : Str}
    (hn : l.name? E = some name) (hr : expandArithExpr E r s = .ok (s', e.value?)) :
    Follows (expandArithExpr E (.assign id l r) s)
      (refAssign E id name (assignLeft E name s) e s') := by
  rw [expandArithExpr_assign hn hr, refAssign]
  split_ifs
  · trivial
  · cases expandAsgnOp id (assignLeft E name s) (e.value?.getD 0) with
    | error x => trivial
    | ok v =>
      simp only []
      cases E.set name v s' with
      | none => rcases e with _ | _ | ⟨_ | _⟩ | _ <;> first | rfl | trivial
      | some s'' => rcases e with _ | _ | ⟨_ | _⟩ | _ <;> first | rfl | trivial

end Agree

/-- **The code follows the reference until an error is lost.** -/
theorem follows : ∀ (t : Arith ω) (s : σ), Follows (expandArithExpr E t s) (refArith E t s)
  | .null, s => rfl
  | .num v b, s => rfl
  | .operand a, s => by
      rw [expandArithExpr, refArith]
      rcases E.operand a s with ⟨s₁, _ | v⟩ <;> rfl
  | .paren t, s => follows t s
  | .comma t _, s => follows t s
  | .unary id t, s => by
      rw [expandArithExpr_unary, refArith]
      refine (follows t s).bind fun s v => ?_
      split_ifs
      · cases t.name? E with
        | none => rfl
        | some name =>
          simp only []
          cases E.setInt name (expandUnOp id v).2 s <;> rfl
      · rfl
  | .binary id l r, s => by
      rw [expandArithExpr_binary, refArith]
      refine (follows l s).bind fun s a => ?_
      split_ifs
      · rfl
      · rfl
      · refine (follows r s).bind fun s b => ?_
        split
        · rename_i k hd hf
          rw [expandArithOp_fault hd hf]
          rfl
        · cases expandArithOp E.pow id a b <;> rfl
  | .ternary c t f, s => by
      rw [expandArithExpr_ternary, refArith]
      refine (follows c s).bind fun s v => ?_
      split_ifs
      · exact follows t s
      · exact follows f s
  | .assign id l r, s => by
      have ih := follows r s
      rw [refArith]
      cases hn : l.name? E with
      | none => simp [expandArithExpr, hn, Follows, throw, throwThe, MonadExceptOf.throw]
      | some name =>
        rcases hr : refArith E r s with x | ⟨s₁, b | _ | k | _⟩ <;> rw [hr] at ih
        · simp only [Follows] at ih
          simp [expandArithExpr, hn, ih, Follows, bind, Except.bind]
        · exact follows_assign hn ih
        · exact follows_assign hn ih
        · exact follows_assign hn ih
        · exact trivial

section Ends

variable {E} {t u l r : Arith ω} {s s' s₁ : σ} {e : ArithEnd} {x : ArithStop} {k : DivFault}
  {a : Int64}

theorem code_of_value (h : refArith E t s = .ok (s₁, .value a)) :
    expandArithExpr E t s = .ok (s₁, some a) := by
  have := follows E t s
  rwa [h] at this

theorem code_of_ref (h : refArith E t s = .ok (s₁, e)) (he : e ≠ .lost) :
    expandArithExpr E t s = .ok (s₁, e.value?) := by
  have := follows E t s
  rw [h] at this
  cases e with
  | lost => exact absurd rfl he
  | _ => exact this

theorem ref_of_ok {b : Option Int64} (h : expandArithExpr E t s = .ok (s₁, b))
    (hl : ¬∃ s', refArith E t s = .ok (s', .lost)) :
    ∃ e, refArith E t s = .ok (s₁, e) ∧ e.value? = b := by
  have := follows E t s
  match hr : refArith E t s, this with
  | .error y, this => exact absurd (h.symm.trans this) nofun
  | .ok (s₂, .lost), _ => exact absurd ⟨s₂, hr⟩ hl
  | .ok (s₂, .value v), this => cases h.symm.trans this; exact ⟨_, rfl, rfl⟩
  | .ok (s₂, .error), this => cases h.symm.trans this; exact ⟨_, rfl, rfl⟩
  | .ok (s₂, .fault k), this => cases h.symm.trans this; exact ⟨_, rfl, rfl⟩

theorem ref_of_code (h : expandArithExpr E t s = .ok (s₁, some a))
    (hl : ¬∃ s', refArith E t s = .ok (s', .lost)) : refArith E t s = .ok (s₁, .value a) := by
  obtain ⟨e, he, hv⟩ := ref_of_ok h hl
  rw [he, value_of_value? hv]

/-- An operand that does not end with a number ends what it is an operand of. -/
theorem forward_ok {m : Except ArithStop (σ × ArithEnd)} {f}
    (h : forward m f = .ok (s', e)) :
    (m = .ok (s', e) ∧ ∀ v, e ≠ .value v) ∨ ∃ s v, m = .ok (s, .value v) ∧ f s v = .ok (s', e) := by
  match m, h with
  | .ok (s, .value v), h => exact .inr ⟨s, v, rfl, h⟩
  | .ok (s, .error), h => cases h; exact .inl ⟨rfl, nofun⟩
  | .ok (s, .fault k), h => cases h; exact .inl ⟨rfl, nofun⟩
  | .ok (s, .lost), h => cases h; exact .inl ⟨rfl, nofun⟩

theorem Reaches.trans {u' : Arith ω} {s'' : σ} (h : Reaches E t s u s') :
    Reaches E u s' u' s'' → Reaches E t s u' s'' := by
  intro h'
  induction h with
  | refl t s => exact h'
  | paren _ ih => exact .paren (ih h')
  | comma _ ih => exact .comma (ih h')
  | unary _ ih => exact .unary (ih h')
  | left _ ih => exact .left (ih h')
  | right hl hand hor _ ih => exact .right hl hand hor (ih h')
  | cond _ ih => exact .cond (ih h')
  | ontrue hc ha _ ih => exact .ontrue hc ha (ih h')
  | onfalse hc _ ih => exact .onfalse hc (ih h')
  | assign hn _ ih => exact .assign hn (ih h')

/-- A stop anywhere stops the whole evaluation. -/
theorem Reaches.stop (h : Reaches E t s u s') :
    expandArithExpr E u s' = .error x → expandArithExpr E t s = .error x := by
  intro hx
  induction h with
  | refl t s => exact hx
  | paren _ ih => exact ih hx
  | comma _ ih => exact ih hx
  | unary _ ih => rw [expandArithExpr_unary, ih hx]; rfl
  | left _ ih => rw [expandArithExpr_binary, ih hx]; rfl
  | right hl hand hor _ ih =>
    rw [expandArithExpr_binary, hl]
    simp only [onNumber, if_neg hand, if_neg hor, ih hx]
  | cond _ ih => rw [expandArithExpr_ternary, ih hx]; rfl
  | ontrue hc ha _ ih =>
    rw [expandArithExpr_ternary, hc]
    simp only [onNumber, if_pos ha, ih hx]
  | onfalse hc _ ih =>
    rw [expandArithExpr_ternary, hc]
    simp only [onNumber, ne_eq, not_true, if_false, ih hx]
  | assign hn _ ih => simp [expandArithExpr, hn, ih hx, bind, Except.bind]

/-- **An end that nothing but an assignment takes for a number is the end of the whole
evaluation.** -/
theorem Reaches.ends (P : Except ArithStop (σ × ArithEnd) → Prop)
    (hlost : ∀ s, P (.ok (s, .lost))) (hforward : ∀ m f, P m → P (forward m f))
    (hassign : ∀ id name left e s, P (.ok (s, e)) → P (refAssign E id name left e s))
    (h : Reaches E t s u s') : P (refArith E u s') → P (refArith E t s) := by
  intro hu
  have operand {l : Arith ω} {s s₁ : σ} {a : Int64} {f} (hl : expandArithExpr E l s = .ok (s₁, some a))
      (hf : P (f s₁ a)) : P (forward (refArith E l s) f) := by
    by_cases hl' : ∃ s', refArith E l s = .ok (s', .lost)
    · obtain ⟨s', hl'⟩ := hl'
      exact hforward _ _ (hl' ▸ hlost s')
    · rw [ref_of_code hl hl']
      exact hf
  induction h with
  | refl t s => exact hu
  | paren _ ih => exact ih hu
  | comma _ ih => exact ih hu
  | unary _ ih => exact hforward _ _ (ih hu)
  | left _ ih => exact hforward _ _ (ih hu)
  | right hl hand hor _ ih =>
    rw [refArith]
    refine operand hl ?_
    simp only [if_neg hand, if_neg hor]
    exact hforward _ _ (ih hu)
  | cond _ ih => exact hforward _ _ (ih hu)
  | ontrue hc ha _ ih =>
    rw [refArith]
    refine operand hc ?_
    rw [if_pos ha]
    exact ih hu
  | onfalse hc _ ih =>
    rw [refArith]
    refine operand hc ?_
    rw [if_neg (not_not.2 rfl)]
    exact ih hu
  | @assign id l r name s u s' hn _ ih =>
    rw [refArith, hn]
    cases hr : refArith E r s with
    | error x =>
      have := ih hu
      rwa [hr] at this
    | ok p => exact hassign id name _ p.2 p.1 (hr ▸ ih hu)

variable (E) in
/-- The reference loses an error. -/
def Loses (t : Arith ω) (s : σ) : Prop :=
  ∃ s', refArith E t s = .ok (s', .lost)

/-- The reference ends at a division failing by `k`, or at an assignment that is refused. -/
def EndsAt (k : DivFault) : Except ArithStop (σ × ArithEnd) → Prop
  | .ok (_, .lost) => True
  | .ok (_, .fault k') => k' = k
  | .error x => k = .overflow ∧ x = .exit
  | _ => False

theorem Loses.of_reaches (h : Reaches E t s u s') : Loses E u s' → Loses E t s := by
  refine h.ends (fun m => ∃ s', m = .ok (s', .lost)) (fun s => ⟨s, rfl⟩) ?_ ?_
  · rintro m f ⟨s, rfl⟩
    exact ⟨s, rfl⟩
  · rintro id name left e s ⟨s₁, h⟩
    cases h
    exact ⟨s, rfl⟩

theorem EndsAt.of_reaches (h : Reaches E t s u s') :
    EndsAt k (refArith E u s') → EndsAt k (refArith E t s) := by
  refine h.ends (EndsAt k) (fun s => trivial) ?_ ?_
  · intro m f hm
    match m, hm with
    | .error x, hm => exact hm
    | .ok (s, .fault k'), hm => exact hm
    | .ok (s, .lost), hm => exact hm
  · intro id name left e s he
    match e, he with
    | .lost, _ => exact trivial
    | .fault k', he =>
      cases he
      simp only [refAssign, reduceCtorEq, if_false]
      cases expandAsgnOp id left _ with
      | error x => exact trivial
      | ok v =>
        simp only []
        cases E.set name v s with
        | none => cases k <;> simp [EndsAt]
        | some s' => exact trivial

/-- What the code does where the reference ends at a failing division. -/
theorem EndsAt.code (h : EndsAt k (refArith E t s)) (hl : ¬Loses E t s) :
    (∃ s₁, expandArithExpr E t s = .ok (s₁, none)) ∨
      k = .overflow ∧ expandArithExpr E t s = .error .exit := by
  have hfollows := follows E t s
  match hr : refArith E t s, h, hfollows with
  | .ok (s₁, .lost), _, _ => exact absurd ⟨s₁, hr⟩ hl
  | .ok (s₁, .fault _), _, hc => exact .inl ⟨s₁, hc⟩
  | .error x, ⟨hk, hx⟩, hc => exact .inr ⟨hk, hx ▸ hc⟩

/-- A division that fails is where the reference ends, and an assignment that fails to divide loses
the error. -/
theorem Faults.endsAt (h : Faults E u s k) :
    Loses E u s ∨ (∃ id l r, u = .binary id l r) ∧ EndsAt k (refArith E u s) := by
  cases h with
  | @binary id l r _ s₁ s₂ a b _ hd hl hr hk =>
    have hand : ¬(id = .and ∧ a = 0) := by
      rintro ⟨rfl, -⟩
      exact absurd hd (by decide)
    have hor : ¬(id = .or ∧ a ≠ 0) := by
      rintro ⟨rfl, -⟩
      exact absurd hd (by decide)
    by_cases hl' : Loses E l s
    · exact .inl (Loses.of_reaches (.left (.refl l s)) hl')
    by_cases hr' : Loses E r s₁
    · exact .inl (Loses.of_reaches (.right hl hand hor (.refl r s₁)) hr')
    refine .inr ⟨⟨id, l, r, rfl⟩, ?_⟩
    simp only [refArith, ref_of_code hl hl', forward, if_neg hand, if_neg hor, ref_of_code hr hr',
      hd, hk]
    rfl
  | @assign id l r name _ s₁ b _ hd hn hr hk =>
    left
    by_cases hr' : Loses E r s
    · exact Loses.of_reaches (.assign hn (.refl r s)) hr'
    obtain ⟨e, he, rfl⟩ := ref_of_ok hr hr'
    have hx := expandAsgnOp_error.2 ⟨hd, Option.isSome_of_eq_some hk, rfl⟩
    refine ⟨s₁, ?_⟩
    simp only [refArith, hn, he, refAssign, hx, ite_self]

theorem refAssign_ne_fault {id : AsgnOp} {name : Str} {left : Int64} :
    refAssign E id name left e s ≠ .ok (s', .fault k) := by
  intro h
  unfold refAssign at h
  split_ifs at h
  · exact absurd h nofun
  · cases hx : expandAsgnOp id left (e.value?.getD 0) with
    | error x => rw [hx] at h; exact absurd h nofun
    | ok v =>
      simp only [hx] at h
      split at h <;> exact absurd h nofun

/-- A failed division, forwarded or lost. -/
def ArithEnd.fails : ArithEnd → Bool
  | .fault _ | .lost => true
  | _ => false

theorem ofOption_fails (v : Option Int64) : (ArithEnd.ofOption v).fails = false := by
  cases v <;> rfl

variable (E) in
/-- `Origin E u s e`: the end `e` arises at the node `u`, at a division that fails or at an
assignment that loses an error its right operand has not lost. -/
def Origin (u : Arith ω) (s : σ) : ArithEnd → Prop
  | .fault k => Faults E u s k
  | _ => ∃ id l r, u = .assign id l r ∧ Loses E u s ∧ ¬Loses E r s

/-- **Where a failed division arises the evaluation comes to.** -/
theorem reaches_origin : ∀ {t : Arith ω} {s s' : σ} {e : ArithEnd}, refArith E t s = .ok (s', e) →
    e.fails → ∃ u s₁, Reaches E t s u s₁ ∧ Origin E u s₁ e
  | .null, _, _, _, h, he => by
      cases h
      exact absurd he nofun
  | .num .., _, _, _, h, he => by
      cases h
      exact absurd he nofun
  | .operand a, _, _, _, h, he => by
      cases h
      rw [ofOption_fails] at he
      exact absurd he nofun
  | .paren t, _, _, _, h, he => by
      obtain ⟨u, s₁, hu, ho⟩ := reaches_origin (t := t) h he
      exact ⟨u, s₁, .paren hu, ho⟩
  | .comma t _, _, _, _, h, he => by
      obtain ⟨u, s₁, hu, ho⟩ := reaches_origin (t := t) h he
      exact ⟨u, s₁, .comma hu, ho⟩
  | .unary id t, _, _, _, h, he => by
      rw [refArith] at h
      rcases forward_ok h with ⟨h, -⟩ | ⟨s₁, v, -, h⟩
      · obtain ⟨u, s₁, hu, ho⟩ := reaches_origin h he
        exact ⟨u, s₁, .unary hu, ho⟩
      · split_ifs at h
        · split at h
          · exact absurd h nofun
          · split at h <;> cases h
            exact absurd he nofun
        · cases h
          exact absurd he nofun
  | .binary id l r, _, _, _, h, he => by
      rw [refArith] at h
      rcases forward_ok h with ⟨h, -⟩ | ⟨s₁, a, hl, h⟩
      · obtain ⟨u, s₁, hu, ho⟩ := reaches_origin h he
        exact ⟨u, s₁, .left hu, ho⟩
      · split_ifs at h with hand hor
        · cases h
          exact absurd he nofun
        · cases h
          exact absurd he nofun
        · rcases forward_ok h with ⟨h, -⟩ | ⟨s₂, b, hr, h⟩
          · obtain ⟨u, s₁, hu, ho⟩ := reaches_origin h he
            exact ⟨u, s₁, .right (code_of_value hl) hand hor hu, ho⟩
          · split at h
            · rename_i k' hd hk
              cases h
              exact ⟨_, _, .refl _ _, .binary hd (code_of_value hl) (code_of_value hr) hk⟩
            · cases h
              rw [ofOption_fails] at he
              exact absurd he nofun
  | .ternary c t f, _, _, _, h, he => by
      rw [refArith] at h
      rcases forward_ok h with ⟨h, -⟩ | ⟨s₁, a, hc, h⟩
      · obtain ⟨u, s₁, hu, ho⟩ := reaches_origin h he
        exact ⟨u, s₁, .cond hu, ho⟩
      · split_ifs at h with ha
        · obtain ⟨u, s₁, hu, ho⟩ := reaches_origin h he
          exact ⟨u, s₁, .ontrue (code_of_value hc) ha hu, ho⟩
        · obtain ⟨u, s₁, hu, ho⟩ := reaches_origin h he
          rw [not_not] at ha
          exact ⟨u, s₁, .onfalse (ha ▸ code_of_value hc) hu, ho⟩
  | .assign id l r, s, s', e, h, he => by
      have hlost : e = .lost := by
        rw [refArith] at h
        split at h
        · exact absurd h nofun
        · split at h
          · exact absurd h nofun
          · cases e with
            | lost => rfl
            | fault k => exact absurd h refAssign_ne_fault
            | _ => exact absurd he nofun
      subst hlost
      by_cases hr : Loses E r s
      · obtain ⟨s₁, hr⟩ := hr
        obtain ⟨u, s₁, hu, ho⟩ := reaches_origin hr rfl
        cases hn : l.name? E with
        | none =>
          simp only [refArith, hn] at h
          exact absurd h nofun
        | some name => exact ⟨u, s₁, .assign hn hu, ho⟩
      · exact ⟨_, s, .refl _ _, id, l, r, rfl, ⟨s', h⟩, hr⟩

/-- How an assignment can lose an error that its right operand has not lost: it fails to divide, or
the right operand is a failed division. -/
theorem Loses.assign_cases {id : AsgnOp} (h : Loses E (.assign id l r) s) (hr : ¬Loses E r s) :
    (∃ k, Faults E (.assign id l r) s k ∧
      expandArithExpr E (.assign id l r) s = .error .undefined) ∨
    ∃ u s₁ k, Reaches E (.assign id l r) s u s₁ ∧ Reaches E r s u s₁ ∧ Faults E u s₁ k ∧
      (k = .zero ∧ expandArithExpr E (.assign id l r) s = .error .exit ∨
        ∃ s₂ v, expandArithExpr E (.assign id l r) s = .ok (s₂, some v)) := by
  obtain ⟨s', h⟩ := h
  rw [refArith] at h
  cases hn : l.name? E with
  | none => rw [hn] at h; exact absurd h nofun
  | some name =>
    rw [hn] at h
    match he : refArith E r s with
    | .error x => rw [he] at h; exact absurd h nofun
    | .ok (s₁, e) =>
      have hlost : e ≠ .lost := by
        rintro rfl
        exact hr ⟨s₁, he⟩
      have hc := code_of_ref he hlost
      have hcode : expandArithExpr E (.assign id l r) s = _ := expandArithExpr_assign hn hc
      simp only [he, refAssign, if_neg hlost] at h
      cases hx : expandAsgnOp id (assignLeft E name s) (e.value?.getD 0) with
      | error x =>
        obtain ⟨hd, hk, rfl⟩ := expandAsgnOp_error.1 hx
        obtain ⟨k, hk⟩ := Option.isSome_iff_exists.1 hk
        simp only [hx] at hcode
        exact .inl ⟨k, .assign hd hn hc hk, hcode⟩
      | ok v =>
        simp only [hx] at h hcode
        right
        split at h
        · rename_i hset
          obtain ⟨u, s₂, hu, hf⟩ := reaches_origin he rfl
          rw [hset] at hcode
          exact ⟨u, s₂, .zero, .assign hn hu, hu, hf, .inl ⟨rfl, hcode⟩⟩
        · exact absurd h nofun
        · rename_i s₂ k hset
          obtain ⟨u, s₃, hu, hf⟩ := reaches_origin he rfl
          rw [hset] at hcode
          exact ⟨u, s₃, k, .assign hn hu, hu, hf, .inr ⟨_, _, hcode⟩⟩
        · exact absurd h nofun

end Ends

/-- **An evaluation is safe if and only if the reference loses no error**: it comes neither to a
compound assignment that divides by zero nor, with a failed division on its right, to any
assignment; but for the least number by `-1` on the right of a variable that refuses to be
assigned. -/
theorem divSafe_iff (t : Arith ω) (s : σ) : DivSafe E t s ↔ ¬Loses E t s := by
  constructor
  · rintro h ⟨s', hl⟩
    obtain ⟨_, s₁, ht, id, l, r, rfl, hl, hr⟩ := reaches_origin hl rfl
    rcases hl.assign_cases hr with ⟨k, hf, hx⟩ | ⟨u, s₂, k, hu, hu', hf, hx⟩
    · exact (h _ _ k ht hf).1 hx
    · obtain ⟨-, hzero, hstore⟩ := h u s₂ k (ht.trans hu) hf
      rcases hx with ⟨rfl, hx⟩ | ⟨s₃, v, hx⟩
      · obtain ⟨s₃, h'⟩ := hzero rfl
        cases h'.symm.trans (ht.stop hx)
      · exact hstore id l r s₁ ht hu' s₃ v hx
  · intro hl u s' k hu hf
    have hlost {v s₁} (hv : Reaches E t s v s₁) : ¬Loses E v s₁ := mt (Loses.of_reaches hv) hl
    have hend : EndsAt k (refArith E u s') := (hf.endsAt.resolve_left (hlost hu)).2
    refine ⟨fun hx => ?_, ?_, ?_⟩
    · rcases hend.code (hlost hu) with ⟨s₁, h⟩ | ⟨-, h⟩ <;> cases hx.symm.trans h
    · rintro rfl
      rcases (EndsAt.of_reaches hu hend).code hl with h | ⟨h, -⟩
      · exact h
      · cases h
    · intro id l r s₀ ha hr s₁ v hv
      cases hn : l.name? E with
      | none =>
        simp only [expandArithExpr, hn] at hv
        cases hv
      | some name =>
        have hend := EndsAt.of_reaches (show Reaches E (.assign id l r) s₀ _ _ from .assign hn hr) hend
        rcases hend.code (hlost ha) with ⟨s₂, h⟩ | ⟨-, h⟩ <;> cases hv.symm.trans h

/-- A shell with the one variable `x`. -/
def oneVar : ArithEnv Unit Str where
  operand _ s := (s, (scanLonglong s).map (·.2))
  name _ := some ['x']
  get _ s := s
  set _ v _ := some (fmtLonglong v)
  setInt _ v _ := some (fmtLonglong v.toInt32.toInt64)
  pow a _ := a

/-- `x /= 0` divides, and `x = 1 / 0` stores 0 and returns it. -/
theorem division_lost :
    ¬DivSafe oneVar (.assign .vdiv (.operand ()) (.num 0 10)) ['5'] ∧
    ¬DivSafe oneVar (.assign .vassign (.operand ()) (.binary .div (.num 1 10) (.num 0 10))) ['5'] ∧
    expandArithExpr oneVar (.assign .vassign (.operand ()) (.binary .div (.num 1 10) (.num 0 10)))
      ['5'] = .ok (['0'], some 0) := by
  have hx : expandArithExpr oneVar
      (.assign .vassign (.operand ()) (.binary .div (.num 1 10) (.num 0 10))) ['5'] =
        .ok (['0'], some 0) := by decide
  refine ⟨fun h => ?_, fun h => ?_, hx⟩
  · exact (h _ _ .zero (.refl _ _) (.assign rfl rfl rfl (by decide))).1 (by decide)
  · have hf : Faults oneVar (.binary .div (.num 1 10) (.num 0 10)) ['5'] .zero :=
      .binary rfl rfl rfl (by decide)
    obtain ⟨s₁, h⟩ := (h _ _ .zero (.assign rfl (.refl _ _)) hf).2.1 rfl
    exact absurd (hx.symm.trans h) nofun

end Shish
