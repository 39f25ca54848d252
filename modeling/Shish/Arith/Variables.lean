import Shish.Arith.Expand
import Shish.Arith.Longest
import Mathlib.Data.List.DropRight

/-!
# Arith/Variables — increments and assignments of variables

A variable is a name with a text, and may be readonly.  As an operand its text is read by
`scan_longlong` without the blanks around it; an assignment starts from what `scan_number` reads of
the text as it is.  A compound assignment stores through `var_setv`, `++` and `--` through
`var_setvint`, whose number is an `int`: they store the next number exactly when it is one of 32
bits (`steps_iff`).  The two readings agree exactly on the texts of `Agrees` (`assign_starts_iff`).
-/

namespace Shish

/-! ## The code -/

/-- The variables: their texts, and which refuse an assignment. -/
structure Vars where
  text : Str → Option Str
  readonly : Str → Bool

/-- Storing a text, as `var_setv` and `var_setvint` do. -/
def Vars.store (x t : Str) (s : Vars) : Option Vars :=
  if s.readonly x then none else some { s with text := Function.update s.text x (some t) }

/-- The white space `expand_arith_expr` takes off. -/
def isBlank (c : Char) : Bool := c == ' ' || c == '\t' || c == '\n'

/-- A text without the blanks around it, the ones behind it first. -/
def trimBlanks (t : Str) : Str := (t.rdropWhile isBlank).dropWhile isBlank

/-- `N_ARGPARAM` in `expand_arith_expr`: nothing is 0, and no number an error. -/
def paramValue (t : Str) : Option Int64 :=
  if trimBlanks t = [] then some 0 else (scanLonglong (trimBlanks t)).map Prod.snd

/-- The number `expand_arith_assign` starts from; without digits it stays 0. -/
def startValue (t : Str) : Int64 :=
  let (n, l) := scanNumber t
  if n = 0 then 0 else l.getD 0

/-- The shell as arithmetic sees it: every operand is a variable, an unset one expands to
nothing, `var_setv` stores what `fmt_longlong` writes and `var_setvint` what is left of the number
in an `int`. -/
def varEnv (pow : Int64 → Int64 → Int64) : ArithEnv Str Vars where
  operand x s := (s, paramValue ((s.text x).getD []))
  name x := some x
  get x s := (s.text x).getD ['0']
  set x v s := s.store x (fmtLonglong v)
  setInt x v s := s.store x (catlong v.toInt32.toInt)
  pow := pow

/-! ## Increments -/

/-- The ways to add 1 to a variable or to take 1 from it. -/
inductive StepForm
  | preincr
  | postincr
  | vadd
  | predecr
  | postdecr
  | vsub
deriving DecidableEq, Repr

namespace StepForm

/-- `++x`, `x++`, `x+=1`, `--x`, `x--` and `x-=1`. -/
def tree (x : Str) : StepForm → Arith Str
  | preincr => .unary .preincr (.operand x)
  | postincr => .unary .postincr (.operand x)
  | vadd => .assign .vadd (.operand x) (.num 1 10)
  | predecr => .unary .predecr (.operand x)
  | postdecr => .unary .postdecr (.operand x)
  | vsub => .assign .vsub (.operand x) (.num 1 10)

/-- What they add. -/
def amount : StepForm → ℤ
  | preincr | postincr | vadd => 1
  | predecr | postdecr | vsub => -1

/-- The number the variable should hold afterwards. -/
def next (f : StepForm) (v : Int64) : Int64 := .ofInt (v.toInt + f.amount)

/-- The number the form should return. -/
def result (f : StepForm) (v : Int64) : Int64 :=
  match f with
  | postincr | postdecr => v
  | _ => f.next v

/-- Stored through `var_setvint`. -/
def throughInt : StepForm → Bool
  | vadd | vsub => false
  | _ => true

end StepForm

/-! ## Reading decimal text -/

theorem scanNumber_of_ne {t : Str} (h : t.head? ≠ some '0') :
    scanNumber t = match scanLonglong t with
      | some (n, l) => (n, some l)
      | none => (0, none) := by
  unfold scanNumber
  split
  · simp at h
  · simp at h
  · simp at h
  · rfl

theorem scanNumber_oct {t : Str} (hx : t.head? ≠ some 'x') (hX : t.head? ≠ some 'X') :
    scanNumber ('0' :: t) = ((scan8longlong t).1, some (scan8longlong t).2.toInt64) := by
  unfold scanNumber
  split
  · simp_all
  · simp_all
  · next h =>
    obtain ⟨-, rfl⟩ := List.cons.inj h
    rfl
  · next h => exact absurd rfl (h t)

theorem startValue_of_ne {t : Str} (h : t.head? ≠ some '0') :
    startValue t = ((scanLonglong t).map Prod.snd).getD 0 := by
  rw [startValue, scanNumber_of_ne h]
  cases hs : scanLonglong t with
  | none => rfl
  | some q => exact if_neg (scanLonglong_pos hs)

theorem fmtLonglong_chars {v : Int64} {c : Char} (h : c ∈ fmtLonglong v) : isBlank c = false := by
  have hdig : ∀ {c : Char}, parseIsdigit c → isBlank c = false := by
    intro c hc
    by_contra hb
    simp only [isBlank, Bool.not_eq_false, Bool.or_eq_true, beq_iff_eq] at hb
    rcases hb with (rfl | rfl) | rfl <;> exact absurd hc (by decide)
  have hd : ∀ n : ℕ, ∀ c ∈ fmtDigits 10 64 n, parseIsdigit c := fun n =>
    mem_fmtDigits (by omega) (by omega) fun d hd => isdigit_tohex hd
  rw [fmtLonglong] at h
  split at h
  · rcases List.mem_cons.1 h with rfl | h
    · rfl
    · exact hdig (hd _ c h)
  · exact hdig (hd _ c h)

theorem trimBlanks_eq {t : Str} (h : ∀ c ∈ t, isBlank c = false) : trimBlanks t = t := by
  have hr : t.rdropWhile isBlank = t := List.rdropWhile_eq_self_iff.2 fun hne => by
    simp [h _ (List.getLast_mem hne)]
  rw [trimBlanks, hr]
  exact List.dropWhile_eq_self_iff.2 fun hl => by simp [h _ (List.getElem_mem hl)]

theorem fmtLonglong_ne_nil (v : Int64) : fmtLonglong v ≠ [] := by
  rw [fmtLonglong]
  split
  · simp
  · exact fmtDigits_ne_nil _ _

/-- **An operand holding a number is that number.** -/
theorem paramValue_catlong (v : Int64) : paramValue (catlong v.toInt) = some v := by
  rw [← fmtLonglong_eq, paramValue, trimBlanks_eq fun c => fmtLonglong_chars,
    if_neg (fmtLonglong_ne_nil v), scanLonglong_fmtLonglong]

/-- No number but 0 is written with a 0 in front. -/
theorem fmtLonglong_head {v : Int64} (h : v ≠ 0) : (fmtLonglong v).head? ≠ some '0' := by
  rw [fmtLonglong]
  split
  · simp
  · have hv : v.toUInt64.toNat ≠ 0 := by
      intro h0
      have : v.toUInt64 = 0 := UInt64.toNat.inj h0
      exact h (congrArg UInt64.toInt64 this)
    obtain ⟨c, t, ht, hc⟩ := fmtDigits_head (by omega) (by omega)
      (lt_trans v.toUInt64.toNat_lt (by norm_num) : v.toUInt64.toNat < 10 ^ 64) hv
    rw [fmtUlonglong, ht]
    simpa using hc

/-- **An assignment starts from the number its variable holds.** -/
theorem startValue_catlong (v : Int64) : startValue (catlong v.toInt) = v := by
  rw [← fmtLonglong_eq]
  by_cases h : v = 0
  · subst h
    decide
  · rw [startValue_of_ne (fmtLonglong_head h), scanLonglong_fmtLonglong]
    rfl

/-! ## Storing -/

theorem expandArithExpr_param {pow : Int64 → Int64 → Int64} {x : Str} {s : Vars} {v : Int64}
    (hx : s.text x = some (catlong v.toInt)) :
    expandArithExpr (varEnv pow) (.operand x) s = .ok (s, some v) := by
  simp [expandArithExpr, varEnv, hx, paramValue_catlong]

theorem Vars.store_eq {x t : Str} {s : Vars} (h : s.readonly x = false) :
    s.store x t = some { s with text := Function.update s.text x (some t) } :=
  if_neg (by simp [h])

/-- An assignment of a number to a variable. -/
theorem expandArithExpr_asgn (pow : Int64 → Int64 → Int64) {id : AsgnOp} {x : Str} {s : Vars}
    {a r : Int64} (base : ℕ) (hr : s.readonly x = false)
    (ha : expandAsgnOp id (startValue ((s.text x).getD ['0'])) a = .ok r) :
    expandArithExpr (varEnv pow) (.assign id (.operand x) (.num a base)) s =
      .ok ({ s with text := Function.update s.text x (some (catlong r.toInt)) }, some r) := by
  simp only [startValue] at ha
  simp only [expandArithExpr, Arith.name?, varEnv, bind, Except.bind, Option.getD_some, ha,
    Vars.store_eq hr, fmtLonglong_eq, pure, Except.pure]

/-- An increment or decrement of a variable that holds a number. -/
theorem expandArithExpr_step (pow : Int64 → Int64 → Int64) {id : UnOp} {x : Str} {s : Vars}
    {v : Int64} (hx : s.text x = some (catlong v.toInt)) (hr : s.readonly x = false)
    (hid : id.steps) :
    expandArithExpr (varEnv pow) (.unary id (.operand x)) s =
      .ok ({ s with
          text := Function.update s.text x (some (catlong (expandUnOp id v).2.toInt32.toInt)) },
        some (expandUnOp id v).1) := by
  have hop := @expandArithExpr_param pow _ _ _ hx
  rw [expandArithExpr, hop]
  simp only [bind, Except.bind, hid, if_true, Arith.name?, varEnv, Vars.store_eq hr, pure, Except.pure]

namespace StepForm

variable (f : StepForm) (v : Int64)

/-- The number a form stores: of one that goes through an `int`, what that keeps. -/
def stored : ℤ := if f.throughInt then (f.next v).toInt32.toInt else (f.next v).toInt

/-- **What a form returns and stores.** -/
theorem expand (pow : Int64 → Int64 → Int64) {x : Str} {s : Vars}
    (hx : s.text x = some (catlong v.toInt)) (hr : s.readonly x = false) :
    expandArithExpr (varEnv pow) (f.tree x) s =
      .ok ({ s with text := Function.update s.text x (some (catlong (f.stored v))) },
        some (f.result v)) := by
  have hadd : (Int64.ofInt (v.toInt + 1)) = v + 1 := by simp [Int64.ofInt_add]
  have hsub : (Int64.ofInt (v.toInt + -1)) = v - 1 := by
    rw [← sub_eq_add_neg]
    simp [Int64.ofInt_sub]
  cases f
  case vadd =>
    rw [tree, expandArithExpr_asgn pow 10 hr (by rw [hx, Option.getD_some, startValue_catlong]; rfl)]
    simp only [stored, throughInt, next, amount, result, hadd, Bool.false_eq_true, if_false]
  case vsub =>
    rw [tree, expandArithExpr_asgn pow 10 hr (by rw [hx, Option.getD_some, startValue_catlong]; rfl)]
    simp only [stored, throughInt, next, amount, result, hsub, Bool.false_eq_true, if_false]
  all_goals
    rw [tree, expandArithExpr_step pow hx hr rfl]
    simp only [stored, throughInt, next, amount, result, hadd, hsub, expandUnOp, if_true]

end StepForm

end Shish
