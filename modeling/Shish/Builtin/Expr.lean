import Shish.Arith.IntText
import Shish.Dfa.Submatch
import Shish.Lib.Levels

/-!
# Builtin/Expr — `expr`

Six levels of operators share a cursor over the arguments and an error that all of them stop on, and values are texts
that every operator scans again.  `exprGrammar` is the grammar and `reference` what the operators mean, on integers
without a bound.  The functions compute the tree of the arguments with their own operators (`exAt_reads`), and these
agree with the reference as long as the integers fit in 64 bits (`expr_reference`).
-/

namespace Shish.Expr

/-! ## Matching -/

/-- What `expr_match` asks of regular expressions. -/
structure Engine where
  /-- A compiled expression. -/
  Re : Type
  /-- `dfa_compile`, without flags. -/
  compile : Str → Option Re
  /-- `dfa_groups`. -/
  groups : Re → ℕ
  /-- `dfa_prefix`: the length of the match. -/
  matchLen : Re → Str → Option ℕ
  /-- `dfa_submatch` for one group; inside, `none` is a group that is not set. -/
  submatch : Re → Str → Span → Option (Option Span)

/-- The expressions of `text/dfa`, with a bound on the turns of a run. -/
def dfaEngine (fuel : ℕ) : Engine where
  Re := Dfa
  compile pat := (dfaCompile {} pat).toOption
  groups := Dfa.ngroup
  matchLen d s :=
    let t : Subject := ⟨fun k => s.getD k '\x00', s.length, false⟩
    let m := if d.hasBackref then d.dfaBtRun t true 0 fuel 0 else d.dfaRun t 0 true 0 fuel
    (m.bind id).map fun m => m.1.stop - m.1.start
  submatch d s m :=
    match d.dfaSubmatch ⟨fun k => s.getD k '\x00', s.length, false⟩ m 1 fuel with
    | some (true, some (g :: _)) => some g
    | _ => none

/-- `expr_match`: what it leaves in `out`. -/
def exprMatch (en : Engine) (str pat : Str) : Str :=
  match en.compile pat with
  | none => ['0']
  | some d =>
    match en.matchLen d str with
    | none => if en.groups d = 0 then ['0'] else []
    | some len =>
      if 0 < en.groups d then
        match en.submatch d str ⟨0, len⟩ with
        | some (some g) => (str.drop g.start).take (g.stop - g.start)
        | _ => []
      else fmtUlong len

/-! ## The cursor -/

/-- What `ex_fail` is called with. -/
inductive ExErr
  | missingOperand
  | expectingClose
  | nonInteger
  | divisionByZero
  | unexpectedArgument
  deriving DecidableEq

namespace ExErr

/-- The code of an error. -/
def status : ExErr → ℕ
  | divisionByZero => 3
  | _ => 2

/-- Its text. -/
def msg : ExErr → Str
  | missingOperand => "syntax error: missing operand".toList
  | expectingClose => "syntax error: expecting ')'".toList
  | nonInteger => "non-integer argument".toList
  | divisionByZero => "division by zero".toList
  | unexpectedArgument => "syntax error: unexpected argument".toList

end ExErr

/-- `struct ex`: the operands from the next one on, and the first error. -/
structure Ex where
  rest : List Str
  err : Option ExErr := none

namespace Ex

/-- `ex_fail`. -/
def fail (x : Ex) (err : ExErr) : Ex := if x.err = none then { x with err := some err } else x

/-- `ex_peek`. -/
def peek (x : Ex) (tok : Str) : Bool := x.rest.head? == some tok

/-- `x->i++`. -/
def skip (x : Ex) : Ex := { x with rest := x.rest.drop 1 }

end Ex

/-! ## Values -/

/-- `ex_int`. -/
def exInt (s : Str) : Option Int64 :=
  match scanLonglong s with
  | some (n, v) => if 0 < s.length ∧ n = s.length then some v else none
  | none => none

/-- `ex_true`. -/
def exTrue (v : Str) : Bool := v ≠ [] && exInt v ≠ some 0

/-- `ex_setint`. -/
def exSetint (n : Int64) : Str := fmtLonglong n

/-- `str_diff`. -/
def strDiff : Str → Str → ℤ
  | [], [] => 0
  | [], b :: _ => 0 - b.toNat
  | a :: _, [] => a.toNat - 0
  | a :: s, b :: t => if a = b then strDiff s t else a.toNat - b.toNat

/-- The operators. -/
inductive Op
  | or
  | and
  | eq
  | gt
  | ge
  | lt
  | le
  | ne
  | add
  | sub
  | mul
  | div
  | mod
  | colon
  deriving DecidableEq

/-! ## What the loops do with an operator -/

/-- In `ex_or`. -/
def orAct (_ : Op) (out rhs : Str) : Except ExErr Str :=
  .ok (if exTrue out then out else if exTrue rhs then rhs else exSetint 0)

/-- In `ex_and`. -/
def andAct (_ : Op) (out rhs : Str) : Except ExErr Str :=
  .ok (if exTrue out && exTrue rhs then out else exSetint 0)

/-- What `c` says about the operands. -/
def cmpHolds (op : Op) (c : ℤ) : Bool :=
  match op with
  | .eq => c = 0
  | .gt => 0 < c
  | .ge => 0 ≤ c
  | .lt => c < 0
  | .le => c ≤ 0
  | _ => c ≠ 0

/-- In `ex_cmp`. -/
def cmpAct (op : Op) (out rhs : Str) : Except ExErr Str :=
  let c : ℤ := match exInt out, exInt rhs with
    | some a, some b => if a < b then -1 else if b < a then 1 else 0
    | _, _ => strDiff out rhs
  .ok (exSetint (if cmpHolds op c then 1 else 0))

/-- In `ex_add`. -/
def addAct (op : Op) (out rhs : Str) : Except ExErr Str :=
  match exInt out, exInt rhs with
  | some a, some b => .ok (exSetint (if op = .add then a + b else a - b))
  | _, _ => .error .nonInteger

/-- In `ex_mul`; `b == -1` would overflow `INT64_MIN / -1`. -/
def mulAct (op : Op) (out rhs : Str) : Except ExErr Str :=
  match exInt out, exInt rhs with
  | some a, some b =>
    if op ≠ .mul ∧ b = 0 then .error .divisionByZero
    else .ok (exSetint (if op = .mul then a * b else if b = -1 then if op = .div then -a else 0
      else if op = .div then a / b else a % b))
  | _, _ => .error .nonInteger

/-- In `ex_match`. -/
def matchAct (en : Engine) (_ : Op) (out rhs : Str) : Except ExErr Str := .ok (exprMatch en out rhs)

/-! ## The levels -/

/-- The loop of a level, with a bound on its turns. -/
def exLoop (sub : Ex → Option (Ex × Str)) (ops : List (Str × Op)) (act : Op → Str → Str → Except ExErr Str) :
    ℕ → Ex → Str → Option (Ex × Str)
  | 0, _, _ => none
  | n + 1, x, out =>
    match if x.err = none then x.rest.head?.bind (List.lookup · ops) else none with
    | none => some (x, out)
    | some op =>
      (sub x.skip).bind fun (x, rhs) =>
        if x.err = none then
          match act op out rhs with
          | .ok out => exLoop sub ops act n x out
          | .error err => exLoop sub ops act n (x.fail err) out
        else exLoop sub ops act n x out

/-- A level: its first operand, and the loop over its operators. -/
def exLevel (sub : Ex → Option (Ex × Str)) (ops : List (Str × Op)) (act : Op → Str → Str → Except ExErr Str)
    (x : Ex) : Option (Ex × Str) :=
  (sub x).bind fun (x, out) => exLoop sub ops act (x.rest.length + 1) x out

section Levels
variable (en : Engine) (exOr : Ex → Option (Ex × Str))

/-- `ex_primary`, which calls `ex_or`. -/
def exPrimary (x : Ex) : Option (Ex × Str) :=
  match x.rest with
  | [] => some (x.fail .missingOperand, [])
  | s :: _ =>
    if x.peek ['('] then
      (exOr x.skip).bind fun (x, out) =>
        if x.peek [')'] then some (x.skip, out) else some (x.fail .expectingClose, out)
    else some (x.skip, s)

/-- `ex_match`. -/
def exMatch : Ex → Option (Ex × Str) := exLevel (exPrimary exOr) [([':'], .colon)] (matchAct en)

/-- `ex_mul`. -/
def exMul : Ex → Option (Ex × Str) := exLevel (exMatch en exOr) [(['*'], .mul), (['/'], .div), (['%'], .mod)] mulAct

/-- `ex_add`. -/
def exAdd : Ex → Option (Ex × Str) := exLevel (exMul en exOr) [(['+'], .add), (['-'], .sub)] addAct

/-- `ex_cmp`. -/
def exCmp : Ex → Option (Ex × Str) :=
  exLevel (exAdd en exOr) [(['='], .eq), (['=', '='], .eq), (['>'], .gt), (['>', '='], .ge), (['<'], .lt),
    (['<', '='], .le), (['!', '='], .ne)] cmpAct

/-- `ex_and`. -/
def exAnd : Ex → Option (Ex × Str) := exLevel (exCmp en exOr) [(['&'], .and)] andAct

end Levels

/-- `ex_or`, with a bound on how deep it is called. -/
def exOr (en : Engine) : ℕ → Ex → Option (Ex × Str)
  | 0 => fun _ => none
  | n + 1 => exLevel (exAnd en (exOr en n)) [(['|'], .or)] orAct

/-! ## The builtin -/

/-- What is written, what `builtin_errmsg` is given, and what is returned. -/
structure Outcome where
  out : Str
  diag : Option Str
  status : ℕ
  deriving DecidableEq

/-- An error. -/
def Outcome.fails (err : ExErr) : Outcome := ⟨[], some err.msg, err.status⟩

/-- A result, and whether it is null or zero. -/
def Outcome.prints (res : Str) (null : Bool) : Outcome := ⟨res ++ ['\n'], none, null.toNat⟩

/-- `length string`. -/
def exprLength (args : List Str) : Outcome :=
  let n := (args.head?.map List.length).getD 0
  .prints (fmtUlong n) (n == 0)

/-- `substr string pos len`. -/
def exprSubstr (s pos len : Str) : Outcome :=
  let (pos, len) := match exInt pos, exInt len with
    | some pos, some len => (pos, len)
    | _, _ => (0, 0)
  let len : ℕ :=
    if pos < 1 ∨ len < 1 ∨ s.length < pos.toInt.toNat then 0
    else if s.length - (pos.toInt.toNat - 1) < len.toInt.toNat then s.length - (pos.toInt.toNat - 1)
    else len.toInt.toNat
  .prints ((s.drop (if len = 0 then 0 else pos.toInt.toNat - 1)).take len) (len == 0)

/-- `index string chars`. -/
def exprIndex (args : List Str) : Outcome :=
  let result := match (args.getD 0 []).findIdx? ((args.getD 1 []).contains ·) with
    | some i => i + 1
    | none => 0
  .prints (fmtUlong result) (result == 0)

/-- The expression, in `builtin_expr`. -/
def exprEval (en : Engine) (args : List Str) : Option Outcome :=
  (exOr en (args.length + 1) { rest := args }).map fun (x, res) =>
    let x := if x.err = none ∧ x.rest ≠ [] then x.fail .unexpectedArgument else x
    match x.err with
    | some err => .fails err
    | none => .prints res !exTrue res

/-- `builtin_expr`, on the arguments behind its name; `none` is a bound that was too small. -/
def builtinExpr (en : Engine) (args : List Str) : Option Outcome :=
  let args := if args.head? = some "--".toList then args.drop 1 else args
  if args.head? = some "length".toList then some (exprLength (args.drop 1))
  else if args.head? = some "substr".toList ∧ args.length = 4 then
    some (exprSubstr (args.getD 1 []) (args.getD 2 []) (args.getD 3 []))
  else if args.head? = some "index".toList then some (exprIndex (args.drop 1))
  else exprEval en args

/-! ## The grammar -/

/-- The operators by their texts. -/
def opOf : Str → Option Op
  | ['|'] => some .or
  | ['&'] => some .and
  | ['='] => some .eq
  | ['=', '='] => some .eq
  | ['>'] => some .gt
  | ['>', '='] => some .ge
  | ['<'] => some .lt
  | ['<', '='] => some .le
  | ['!', '='] => some .ne
  | ['+'] => some .add
  | ['-'] => some .sub
  | ['*'] => some .mul
  | ['/'] => some .div
  | ['%'] => some .mod
  | [':'] => some .colon
  | _ => none

/-- The levels, the loosest first. -/
def Op.level : Op → ℕ
  | or => 0
  | and => 1
  | eq | gt | ge | lt | le | ne => 2
  | add | sub => 3
  | mul | div | mod => 4
  | colon => 5

/-- **The grammar of `expr`.** -/
def exprGrammar : Levels Str Op where
  op := opOf
  level := Op.level
  top := 6
  level_lt o := by cases o <;> decide
  opening := ['(']
  closing := [')']
  op_closing := rfl

/-! ## The functions by level -/

/-- The operators a loop looks for. -/
def opsAt : ℕ → List (Str × Op)
  | 0 => [(['|'], .or)]
  | 1 => [(['&'], .and)]
  | 2 => [(['='], .eq), (['=', '='], .eq), (['>'], .gt), (['>', '='], .ge), (['<'], .lt), (['<', '='], .le),
      (['!', '='], .ne)]
  | 3 => [(['+'], .add), (['-'], .sub)]
  | 4 => [(['*'], .mul), (['/'], .div), (['%'], .mod)]
  | 5 => [([':'], .colon)]
  | _ => []

/-- What it does with them. -/
def actAt (en : Engine) : ℕ → Op → Str → Str → Except ExErr Str
  | 0 => orAct
  | 1 => andAct
  | 2 => cmpAct
  | 3 => addAct
  | 4 => mulAct
  | _ => matchAct en

/-- The function of a level. -/
def exAt (en : Engine) (exOr : Ex → Option (Ex × Str)) : ℕ → Ex → Option (Ex × Str)
  | 0 => exLevel (exAnd en exOr) (opsAt 0) orAct
  | 1 => exAnd en exOr
  | 2 => exCmp en exOr
  | 3 => exAdd en exOr
  | 4 => exMul en exOr
  | 5 => exMatch en exOr
  | _ => exPrimary exOr

/-- What the functions compute: every operator on the texts of its operands. -/
def codeMeaning (en : Engine) : Levels.Meaning Str Op Str ExErr where
  leaf s := s
  act o := actAt en o.level o
  missing := .missingOperand
  unclosed := .expectingClose

variable {en : Engine} {l : ℕ} {acc : Option (OpTree Str Op)} {ts rest : List Str} {e : OpTree Str Op}

theorem exAt_succ (exOr : Ex → Option (Ex × Str)) (hl : l < 6) :
    exAt en exOr l = exLevel (exAt en exOr (l + 1)) (opsAt l) (actAt en l) := by
  match l, hl with
  | 0, _ | 1, _ | 2, _ | 3, _ | 4, _ | 5, _ => rfl

/-- A loop looks for the operators of its level. -/
theorem lookup_opsAt (hl : l < 6) {s : Str} {o : Op} :
    (opsAt l).lookup s = some o ↔ opOf s = some o ∧ o.level = l := by
  constructor
  · intro h
    have hall : ∀ l < 6, ∀ p ∈ opsAt l, opOf p.1 = some p.2 ∧ p.2.level = l := by decide +kernel
    obtain ⟨ps, ps', hps, -⟩ := List.lookup_eq_some_iff.1 h
    exact hall l hl (s, o) (hps ▸ List.mem_append_right _ List.mem_cons_self)
  · rintro ⟨h, rfl⟩
    unfold opOf at h
    split at h
    case h_16 => cases h
    all_goals
      cases h
      rfl

/-- What a function returns when the value is this, and this is left; behind an error anything may be. -/
def Agrees (r : Option (Ex × Str)) (v : Except ExErr Str) (rest : List Str) : Prop :=
  match v with
  | .ok s => r = some ({ rest }, s)
  | .error err => ∃ x out, r = some (x, out) ∧ x.err = some err

/-- What follows a function goes on from its value, or with an error. -/
theorem Agrees.bind {r : Option (Ex × Str)} {v w : Except ExErr Str} {rest' : List Str}
    {f : Ex × Str → Option (Ex × Str)} (h : Agrees r v rest) (hok : ∀ s, v = .ok s → Agrees (f ({ rest }, s)) w rest')
    (herr : ∀ x out err, v = .error err → x.err = some err → Agrees (f (x, out)) w rest') :
    Agrees (r.bind f) w rest' := by
  cases v with
  | ok s =>
    rw [show r = some ({ rest }, s) from h]
    exact hok s rfl
  | error err =>
    obtain ⟨x, out, rfl, hx⟩ := h
    exact herr x out err rfl hx

theorem Ex.fail_err {x : Ex} {err err' : ExErr} (h : x.err = some err) : (x.fail err').err = some err := by
  rw [fail, h, if_neg nofun]
  exact h

/-- A loop stops on an error. -/
theorem exLoop_err {sub : Ex → Option (Ex × Str)} {ops : List (Str × Op)} {act : Op → Str → Str → Except ExErr Str}
    {x : Ex} {err : ExErr} (h : x.err = some err) {n : ℕ} (hn : 0 < n) (out : Str) :
    exLoop sub ops act n x out = some (x, out) := by
  obtain ⟨n, rfl⟩ : ∃ m, n = m + 1 := ⟨n - 1, by omega⟩
  rw [exLoop, h, if_neg nofun]

/-- The function of a level computes the tree `e`, or its loop does when some of the level has been read. -/
def Computes (en : Engine) (n l : ℕ) (acc : Option (OpTree Str Op)) (ts : List Str) (e : OpTree Str Op)
    (rest : List Str) : Prop :=
  match acc with
  | none => Agrees (exAt en (exOr en n) l { rest := ts }) ((codeMeaning en).eval e) rest
  | some e₀ => l < 6 → ∀ s, (codeMeaning en).eval e₀ = .ok s → ∀ m, ts.length < m →
      Agrees (exLoop (exAt en (exOr en n) (l + 1)) (opsAt l) (actAt en l) m { rest := ts } s)
        ((codeMeaning en).eval e) rest

/-- **The functions compute the tree of what they read**, given room for how deep it is. -/
theorem exAt_reads (h : exprGrammar.Reads l acc ts e rest) : ∀ n, ts.length ≤ n → Computes en n l acc ts e rest := by
  induction h with
  | missing hl =>
    subst hl
    intro n _
    exact ⟨_, _, rfl, rfl⟩
  | @operand l a ts hl ha =>
    subst hl
    intro n _
    have hpeek : Ex.peek { rest := a :: ts } ['('] = false := beq_false_of_ne fun h => ha (Option.some.inj h)
    change Agrees (exPrimary (exOr en n) { rest := a :: ts }) (.ok a) ts
    rw [exPrimary, hpeek]
    rfl
  | @group l ts e rest hl _ ih =>
    subst hl
    intro n hn
    obtain ⟨k, rfl⟩ : ∃ k, n = k + 1 := ⟨n - 1, by rw [List.length_cons] at hn; omega⟩
    have hsub : Agrees (exAt en (exOr en k) 0 { rest := ts }) ((codeMeaning en).eval e) ([')'] :: rest) :=
      ih k (Nat.le_of_succ_le_succ hn)
    refine hsub.bind (fun s hv => ?_) fun x out err hv herr => ?_
    · rw [Levels.Meaning.eval, hv]
      rfl
    · rw [Levels.Meaning.eval, hv]
      dsimp only
      split_ifs
      · exact ⟨_, _, rfl, herr⟩
      · exact ⟨_, _, rfl, Ex.fail_err herr⟩
  | @unclosed l ts e rest hl _ hne ih =>
    subst hl
    intro n hn
    obtain ⟨k, rfl⟩ : ∃ k, n = k + 1 := ⟨n - 1, by rw [List.length_cons] at hn; omega⟩
    have hsub : Agrees (exAt en (exOr en k) 0 { rest := ts }) ((codeMeaning en).eval e) rest :=
      ih k (Nat.le_of_succ_le_succ hn)
    refine hsub.bind (fun s hv => ?_) fun x out err hv herr => ?_
    · have hpeek : Ex.peek { rest } [')'] = false := beq_false_of_ne hne
      rw [Levels.Meaning.eval, hv]
      dsimp only
      rw [hpeek]
      exact ⟨_, _, rfl, rfl⟩
    · rw [Levels.Meaning.eval, hv]
      dsimp only
      split_ifs
      · exact ⟨_, _, rfl, herr⟩
      · exact ⟨_, _, rfl, Ex.fail_err herr⟩
  | @level l ts e ts' e' rest hl h₁ h₂ ih ih' =>
    intro n hn
    have hsub : Agrees (exAt en (exOr en n) (l + 1) { rest := ts }) ((codeMeaning en).eval e) ts' := ih n hn
    rw [Computes, exAt_succ _ hl]
    refine hsub.bind (fun s hv => ?_) fun x out err hv herr => ?_
    · exact ih' n (h₁.length_le.trans hn) hl s hv _ (Nat.lt_succ_self _)
    · rw [Levels.Meaning.eval_error h₂ _ rfl hv]
      exact ⟨x, out, exLoop_err herr (Nat.succ_pos _) _, herr⟩
  | @last l e ts hends =>
    intro n hn hl s hv m hm
    obtain ⟨m, rfl⟩ : ∃ k, m = k + 1 := ⟨m - 1, by omega⟩
    have hlook : ts.head?.bind (List.lookup · (opsAt l)) = none := by
      cases ts with
      | nil => rfl
      | cons a ts =>
        rw [List.head?_cons, Option.bind_some, Option.eq_none_iff_forall_ne_some]
        intro o ho
        obtain ⟨ho, hlo⟩ := (lookup_opsAt hl).1 ho
        exact hends a o rfl ho hlo
    rw [exLoop, if_pos rfl, hlook, hv]
    rfl
  | @next l e a o ts e₁ ts' e' rest ho hl h₁ h₂ ih ih' =>
    intro n hn hl6 s hv m hm
    rw [List.length_cons] at hn hm
    obtain ⟨m, rfl⟩ : ∃ k, m = k + 1 := ⟨m - 1, by omega⟩
    have hle := h₁.length_le
    have hsub : Agrees (exAt en (exOr en n) (l + 1) { rest := ts }) ((codeMeaning en).eval e₁) ts' := ih n (by omega)
    have hnode : (codeMeaning en).eval (.node o e e₁) = ((codeMeaning en).eval e₁).bind (actAt en l o s) := by
      rw [Levels.Meaning.eval, hv, ← hl]
      rfl
    rw [exLoop, if_pos rfl, List.head?_cons, Option.bind_some, (lookup_opsAt hl6).2 ⟨ho, hl⟩]
    refine hsub.bind (fun s₁ hv₁ => ?_) fun x out err hv₁ herr => ?_
    · rw [hv₁] at hnode
      change _ = actAt en l o s s₁ at hnode
      dsimp only
      rw [if_pos rfl]
      cases hact : actAt en l o s s₁ with
      | ok s' =>
        rw [hact] at hnode
        exact ih' n (by omega) hl6 s' hnode m (by omega)
      | error err =>
        rw [hact] at hnode
        rw [Levels.Meaning.eval_error h₂ _ rfl hnode]
        exact ⟨_, s, exLoop_err rfl (by omega) _, rfl⟩
    · rw [hv₁] at hnode
      rw [Levels.Meaning.eval_error h₂ _ rfl hnode]
      dsimp only
      rw [if_neg (by rw [herr]; rintro ⟨⟩)]
      exact ⟨x, s, exLoop_err herr (by omega) _, herr⟩

/-! ## The reference -/

/-- A value: an argument or what was matched, or an integer. -/
inductive Value
  | text (s : Str)
  | int (z : ℤ)

namespace Value

/-- Its text. -/
def str : Value → Str
  | text s => s
  | int z => catlong z

/-- The integer it is. -/
def int? : Value → Option ℤ
  | text s => intText s
  | int z => some z

/-- It is neither null nor zero. -/
def isTrue (v : Value) : Bool := v.str ≠ [] && v.int? ≠ some 0

end Value

/-- A comparison, in any order. -/
def Op.holds {α : Type*} [LT α] [DecidableLT α] [DecidableEq α] (op : Op) (x y : α) : Bool :=
  match op with
  | eq => x = y
  | gt => y < x
  | ge => ¬x < y
  | lt => x < y
  | le => ¬y < x
  | _ => x ≠ y

/-- The arithmetic, on integers; quotients are rounded towards zero. -/
def Op.arith (op : Op) (x y : ℤ) : Except ExErr ℤ :=
  match op with
  | add => .ok (x + y)
  | sub => .ok (x - y)
  | mul => .ok (x * y)
  | div => if y = 0 then .error .divisionByZero else .ok (x.tdiv y)
  | _ => if y = 0 then .error .divisionByZero else .ok (x.tmod y)

/-- What an operator does. -/
def refAct (en : Engine) (op : Op) (a b : Value) : Except ExErr Value :=
  match op with
  | .or => .ok (if a.isTrue then a else if b.isTrue then b else .int 0)
  | .and => .ok (if a.isTrue && b.isTrue then a else .int 0)
  | .colon => .ok (.text (exprMatch en a.str b.str))
  | .add | .sub | .mul | .div | .mod =>
    match a.int?, b.int? with
    | some x, some y => (op.arith x y).map .int
    | _, _ => .error .nonInteger
  | _ =>
    let h := match a.int?, b.int? with
      | some x, some y => op.holds x y
      | _, _ => op.holds a.str b.str
    .ok (.int (if h then 1 else 0))

/-- **The reference.** -/
def reference (en : Engine) : Levels.Meaning Str Op Value ExErr where
  leaf := .text
  act := refAct en
  missing := .missingOperand
  unclosed := .expectingClose

/-- The integers of a comparison fit, and those of arithmetic with what comes out. -/
def Fitting (op : Op) (a b : Value) : Prop :=
  ∀ x y, a.int? = some x → b.int? = some y →
    (2 ≤ op.level ∧ op.level ≤ 4 → FitsInt64 x ∧ FitsInt64 y) ∧
      (3 ≤ op.level ∧ op.level ≤ 4 → ∀ z, op.arith x y = .ok z → FitsInt64 z)

/-- What `expr` does with a value, and with what is left behind it. -/
def Outcome.expected (v : Except ExErr Value) (rest : List Str) : Outcome :=
  match v with
  | .error err => .fails err
  | .ok v => if rest = [] then .prints v.str !v.isTrue else .fails .unexpectedArgument

/-- The syntax errors. -/
def ExErr.Misread (err : ExErr) : Prop :=
  err = missingOperand ∨ err = expectingClose ∨ err = unexpectedArgument

instance (err : ExErr) : Decidable err.Misread := inferInstanceAs (Decidable (_ ∨ _))

/-! ## Values as texts -/

theorem exInt_eq_some {s : Str} {w : Int64} : exInt s = some w ↔ intText s = some w.toInt := by
  have hlong := scanLonglong_longest s
  have hnil : intText s = some w.toInt → 0 < s.length := by
    intro h
    refine List.length_pos_of_ne_nil fun hs => ?_
    rw [hs, intText_nil] at h
    cases h
  have hfits : FitsInt64 w.toInt := ⟨w.le_toInt, w.toInt_lt⟩
  rw [exInt]
  cases hs : scanLonglong s with
  | none =>
    rw [hs] at hlong
    refine iff_of_false nofun fun h => hlong s.length w.toInt ?_ hfits
    rwa [List.take_length]
  | some r =>
    obtain ⟨n, v⟩ := r
    rw [hs] at hlong
    dsimp only at hlong ⊢
    constructor
    · intro h
      split_ifs at h with hn
      cases h
      have hreads := hlong.reads
      rwa [hn.2, List.take_length] at hreads
    · intro h
      have hn : n = s.length := by
        by_contra hne
        exact hlong.longest s.length (lt_of_le_of_ne hlong.le hne) le_rfl w.toInt (by rwa [List.take_length]) hfits
      have hreads := hlong.reads
      rw [hn, List.take_length, h] at hreads
      rw [if_pos ⟨hnil h, hn⟩, Int64.toInt_inj.1 (Option.some.inj hreads).symm]

/-- A value whose text is a string, and that fits if it is an integer. -/
structure Value.Good (v : Value) : Prop where
  nul : '\x00' ∉ v.str
  fits : ∀ z, v = .int z → FitsInt64 z

theorem str_toInt (v : Int64) : (Value.int v.toInt).str = exSetint v := (fmtLonglong_eq v).symm

theorem exists_toInt {z : ℤ} (h : FitsInt64 z) : ∃ w : Int64, w.toInt = z :=
  ⟨.ofInt z, Int64.toInt_ofInt_of_le h.1 h.2⟩

theorem nul_notMem_fmtUlong (n : ℕ) : '\x00' ∉ fmtUlong n := by
  intro h
  exact @mem_fmtDigits 10 (by omega) (by omega) (· ≠ '\x00') (by decide) 64 n _ h rfl

/-- An integer is scanned as what it is. -/
theorem exInt_str {v : Value} (hv : v.Good) {w : Int64} : exInt v.str = some w ↔ v.int? = some w.toInt := by
  cases v with
  | text s => exact exInt_eq_some
  | int z =>
    obtain ⟨u, rfl⟩ := exists_toInt (hv.fits z rfl)
    rw [str_toInt, exSetint, exInt_eq_some, intText_fmtLonglong]
    rfl

theorem good_int {z : ℤ} (h : FitsInt64 z) : (Value.int z).Good where
  nul := by
    obtain ⟨w, rfl⟩ := exists_toInt h
    rw [str_toInt, exSetint, fmtLonglong]
    split_ifs
    · exact List.not_mem_cons_of_ne_of_not_mem (by decide) (nul_notMem_fmtUlong _)
    · exact nul_notMem_fmtUlong _
  fits := by
    rintro _ ⟨⟩
    exact h

theorem exTrue_str {v : Value} (hv : v.Good) : exTrue v.str = v.isTrue := by
  have hzero : exInt v.str = some 0 ↔ v.int? = some 0 := exInt_str hv
  rw [exTrue, Value.isTrue, decide_eq_decide.2 hzero.not]

/-! ## The operators agree -/

/-- What comes out of a match is a string. -/
theorem nul_notMem_exprMatch {str pat : Str} (h : '\x00' ∉ str) : '\x00' ∉ exprMatch en str pat := by
  have hzero : '\x00' ∉ ['0'] := by decide
  rw [exprMatch]
  split
  · exact hzero
  split
  · split_ifs
    · exact hzero
    · exact List.not_mem_nil
  split_ifs
  · split
    · exact fun hm => h (List.mem_of_mem_drop (List.mem_of_mem_take hm))
    · exact List.not_mem_nil
  · exact nul_notMem_fmtUlong _

/-- A difference orders two things. -/
structure Orders {α : Type*} [LT α] (c : ℤ) (x y : α) : Prop where
  neg : c < 0 ↔ x < y
  pos : 0 < c ↔ y < x
  zero : c = 0 ↔ x = y

theorem strDiff_char {a b : Char} (hab : a ≠ b) (s t : Str) :
    Orders ((a.toNat : ℤ) - b.toNat) (a :: s) (b :: t) := by
  have hlt : ∀ {a b : Char}, a < b ↔ (a.toNat : ℤ) < b.toNat := by
    intro a b
    rw [Char.lt_def, UInt32.lt_iff_toNat_lt, Nat.cast_lt]
    rfl
  have hne : a.toNat ≠ b.toNat := fun h => hab (Char.toNat_inj.1 h)
  have hneg : a :: s < b :: t ↔ a < b := by simp [List.cons_lt_cons_iff, hab]
  have hpos : b :: t < a :: s ↔ b < a := by simp [List.cons_lt_cons_iff, hab.symm]
  refine ⟨?_, ?_, ?_⟩
  · rw [hneg, hlt]
    omega
  · rw [hpos, hlt]
    omega
  · rw [List.cons.injEq]
    exact iff_of_false (by omega) fun h => hab h.1

theorem toNat_pos {c : Char} {s : Str} (h : '\x00' ∉ c :: s) : 0 < c.toNat := by
  refine Nat.pos_of_ne_zero fun h0 => h ?_
  have hc : c = '\x00' := Char.toNat_inj.1 h0
  exact hc ▸ List.mem_cons_self

/-- **`str_diff`** compares from the left. -/
theorem strDiff_orders : ∀ {s t : Str}, '\x00' ∉ s → '\x00' ∉ t → Orders (strDiff s t) s t
  | [], [], _, _ => ⟨by simp [strDiff], by simp [strDiff], by simp [strDiff]⟩
  | [], b :: t, _, ht => by
      have hb := toNat_pos ht
      exact ⟨iff_of_true (by rw [strDiff]; omega) (List.nil_lt_cons b t), iff_of_false (by rw [strDiff]; omega)
        (List.not_lt_nil _), iff_of_false (by rw [strDiff]; omega) nofun⟩
  | a :: s, [], hs, _ => by
      have ha := toNat_pos hs
      exact ⟨iff_of_false (by rw [strDiff]; omega) (List.not_lt_nil _), iff_of_true (by rw [strDiff]; omega)
        (List.nil_lt_cons a s), iff_of_false (by rw [strDiff]; omega) nofun⟩
  | a :: s, b :: t, hs, ht => by
      rw [strDiff]
      split_ifs with hab
      · subst hab
        have h := strDiff_orders (List.not_mem_of_not_mem_cons hs) (List.not_mem_of_not_mem_cons ht)
        exact ⟨h.neg.trans (by simp), h.pos.trans (by simp), h.zero.trans (by simp)⟩
      · exact strDiff_char hab s t

/-- The difference that `ex_cmp` takes of two integers. -/
theorem int_orders (a b : Int64) : Orders (if a < b then -1 else if b < a then 1 else 0) a.toInt b.toInt := by
  have hlt : ∀ {a b : Int64}, a < b ↔ a.toInt < b.toInt := Int64.lt_iff_toInt_lt
  split_ifs with h h'
  · rw [hlt] at h
    exact ⟨by omega, by omega, by omega⟩
  · rw [hlt] at h h'
    exact ⟨by omega, by omega, by omega⟩
  · rw [hlt] at h h'
    exact ⟨by omega, by omega, by omega⟩

theorem cmpHolds_eq {α : Type*} [LT α] [DecidableLT α] [DecidableEq α] {op : Op} {c : ℤ} {x y : α}
    (hl : op.level = 2) (h : Orders c x y) : cmpHolds op c = op.holds x y := by
  cases op with
  | eq => exact decide_eq_decide.2 h.zero
  | gt => exact decide_eq_decide.2 h.pos
  | ge => exact decide_eq_decide.2 (by rw [← h.neg, not_lt])
  | lt => exact decide_eq_decide.2 h.neg
  | le => exact decide_eq_decide.2 (by rw [← h.pos, not_lt])
  | ne => exact decide_eq_decide.2 h.zero.not
  | or | and | add | sub | mul | div | mod | colon => cases hl

/-- Both are integers, also when they are scanned, or one is none. -/
theorem exInt_pair {a b : Value} (ha : a.Good) (hb : b.Good)
    (hfit : ∀ x y, a.int? = some x → b.int? = some y → FitsInt64 x ∧ FitsInt64 y) :
    (∃ w u, (exInt a.str = some w ∧ exInt b.str = some u) ∧ a.int? = some w.toInt ∧ b.int? = some u.toInt) ∨
      (exInt a.str = none ∨ exInt b.str = none) ∧ (a.int? = none ∨ b.int? = none) := by
  have hnone : ∀ {v : Value}, v.Good → v.int? = none → exInt v.str = none := by
    intro v hv h
    rw [Option.eq_none_iff_forall_ne_some]
    intro w hw
    rw [(exInt_str hv).1 hw] at h
    cases h
  cases hx : a.int? with
  | none => exact .inr ⟨.inl (hnone ha hx), .inl rfl⟩
  | some x =>
    cases hy : b.int? with
    | none => exact .inr ⟨.inr (hnone hb hy), .inr rfl⟩
    | some y =>
      obtain ⟨hfx, hfy⟩ := hfit x y hx hy
      obtain ⟨w, rfl⟩ := exists_toInt hfx
      obtain ⟨u, rfl⟩ := exists_toInt hfy
      exact .inl ⟨w, u, ⟨(exInt_str ha).2 hx, (exInt_str hb).2 hy⟩, rfl, rfl⟩

theorem cmpAct_str {op : Op} {a b : Value} (ha : a.Good) (hb : b.Good) (hl : op.level = 2) (hf : Fitting op a b) :
    cmpAct op a.str b.str = (refAct en op a b).map Value.str := by
  have href : refAct en op a b = .ok (.int (if (match a.int?, b.int? with
      | some x, some y => op.holds x y
      | _, _ => op.holds a.str b.str) then 1 else 0)) := by
    cases op with
    | eq | gt | ge | lt | le | ne => rfl
    | or | and | add | sub | mul | div | mod | colon => cases hl
  have hset : ∀ h : Bool, exSetint (if h then 1 else 0) = (Value.int (if h then 1 else 0)).str := by decide
  have hpair := exInt_pair ha hb fun x y hx hy => (hf x y hx hy).1 (by omega)
  rw [href, cmpAct]
  obtain ⟨w, u, ⟨hw, hu⟩, hx, hy⟩ | ⟨hcode, hval⟩ := hpair
  · rw [hw, hu, hx, hy]
    dsimp only
    rw [cmpHolds_eq hl (int_orders w u)]
    exact congrArg Except.ok (hset _)
  · have hc : (match exInt a.str, exInt b.str with
        | some w, some u => if w < u then -1 else if u < w then 1 else 0
        | _, _ => strDiff a.str b.str : ℤ) = strDiff a.str b.str := by
      split
      · simp_all
      · rfl
    have hr : (match a.int?, b.int? with
        | some x, some y => op.holds x y
        | _, _ => op.holds a.str b.str) = op.holds a.str b.str := by
      split
      · simp_all
      · rfl
    rw [hc, hr, cmpHolds_eq hl (strDiff_orders ha.nul hb.nul)]
    exact congrArg Except.ok (hset _)

/-- A number that fits is left as it is. -/
theorem bmod_fits {z : ℤ} (h : FitsInt64 z) : z.bmod (2 ^ 64) = z :=
  Int.bmod_eq_of_le (by have := h.1; omega) (by have := h.2; omega)

theorem setint_eq {v : Int64} {z : ℤ} (h : v.toInt = z.bmod (2 ^ 64)) (hz : FitsInt64 z) :
    exSetint v = (Value.int z).str := by
  rw [← str_toInt, h, bmod_fits hz]

theorem addAct_int {op : Op} {s t : Str} {w u : Int64} (hl : op.level = 3) (hw : exInt s = some w)
    (hu : exInt t = some u) (hfit : ∀ z, op.arith w.toInt u.toInt = .ok z → FitsInt64 z) :
    addAct op s t = (op.arith w.toInt u.toInt).map fun z => (Value.int z).str := by
  rw [addAct, hw, hu]
  cases op with
  | add => exact congrArg Except.ok (setint_eq (Int64.toInt_add w u) (hfit _ rfl))
  | sub => exact congrArg Except.ok (setint_eq (Int64.toInt_sub w u) (hfit _ rfl))
  | or | and | eq | gt | ge | lt | le | ne | mul | div | mod | colon => cases hl

theorem mulAct_int {op : Op} {s t : Str} {w u : Int64} (hl : op.level = 4) (hw : exInt s = some w)
    (hu : exInt t = some u) (hfit : ∀ z, op.arith w.toInt u.toInt = .ok z → FitsInt64 z) :
    mulAct op s t = (op.arith w.toInt u.toInt).map fun z => (Value.int z).str := by
  have hzero : u = 0 ↔ u.toInt = 0 := Int64.toInt_inj.symm
  have hone : u = -1 → u.toInt = -1 := fun h => by rw [h]; rfl
  rw [mulAct, hw, hu]
  cases op with
  | mul => exact congrArg Except.ok (setint_eq (Int64.toInt_mul w u) (hfit _ rfl))
  | div =>
    rw [Op.arith] at hfit ⊢
    by_cases h0 : u = 0
    · rw [if_pos (hzero.1 h0)]
      exact if_pos ⟨nofun, h0⟩
    · rw [if_neg (mt hzero.2 h0)] at hfit ⊢
      dsimp only
      rw [if_neg (fun h => h0 h.2), if_neg nofun, if_pos rfl, if_pos rfl]
      refine congrArg Except.ok (setint_eq ?_ (hfit _ rfl))
      split_ifs with h1
      · rw [Int64.toInt_neg, hone h1, Int.tdiv_neg, Int.tdiv_one]
      · exact Int64.toInt_div w u
  | mod =>
    have harith : Op.arith .mod w.toInt u.toInt =
        if u.toInt = 0 then .error .divisionByZero else .ok (w.toInt.tmod u.toInt) := rfl
    rw [harith] at hfit ⊢
    by_cases h0 : u = 0
    · rw [if_pos (hzero.1 h0)]
      exact if_pos ⟨nofun, h0⟩
    · rw [if_neg (mt hzero.2 h0)] at hfit ⊢
      dsimp only
      have hz := hfit _ rfl
      rw [if_neg (fun h => h0 h.2), if_neg nofun]
      refine congrArg Except.ok (setint_eq ?_ hz)
      rw [bmod_fits hz]
      by_cases h1 : u = -1
      · rw [if_pos h1, if_neg nofun, hone h1, Int.tmod_neg, Int.tmod_one]
        rfl
      · rw [if_neg h1, if_neg nofun]
        exact Int64.toInt_mod w u
  | or | and | eq | gt | ge | lt | le | ne | add | sub | colon => cases hl

theorem arith_str {op : Op} {a b : Value} (ha : a.Good) (hb : b.Good) (hl : op.level = 3 ∨ op.level = 4)
    (hf : Fitting op a b) : (codeMeaning en).act op a.str b.str = (refAct en op a b).map Value.str ∧
      ∀ c, refAct en op a b = .ok c → c.Good := by
  have href : refAct en op a b = match a.int?, b.int? with
      | some x, some y => (op.arith x y).map .int
      | _, _ => .error .nonInteger := by
    cases op with
    | add | sub | mul | div | mod => rfl
    | or | and | eq | gt | ge | lt | le | ne | colon => exact absurd hl (by decide)
  obtain ⟨w, u, ⟨hw, hu⟩, hx, hy⟩ | ⟨hcode, hval⟩ := exInt_pair ha hb fun x y hx hy => (hf x y hx hy).1 (by omega)
  · have hfit := (hf _ _ hx hy).2 (by omega)
    have hact : (codeMeaning en).act op a.str b.str = (op.arith w.toInt u.toInt).map fun z => (Value.int z).str := by
      rcases hl with hl | hl
      · exact (congrArg (actAt en · op a.str b.str) hl).trans (addAct_int hl hw hu hfit)
      · exact (congrArg (actAt en · op a.str b.str) hl).trans (mulAct_int hl hw hu hfit)
    rw [hact, href, hx, hy]
    dsimp only
    cases hz : op.arith w.toInt u.toInt with
    | error => exact ⟨rfl, nofun⟩
    | ok z =>
      refine ⟨rfl, ?_⟩
      rintro _ ⟨⟩
      exact good_int (hfit z hz)
  · have hr : refAct en op a b = .error .nonInteger := by
      rw [href]
      split
      · simp_all
      · rfl
    have hc : (codeMeaning en).act op a.str b.str = .error .nonInteger := by
      have hadd : addAct op a.str b.str = .error .nonInteger := by
        rw [addAct]
        split
        · simp_all
        · rfl
      have hmul : mulAct op a.str b.str = .error .nonInteger := by
        rw [mulAct]
        split
        · simp_all
        · rfl
      rcases hl with hl | hl
      · exact (congrArg (actAt en · op a.str b.str) hl).trans hadd
      · exact (congrArg (actAt en · op a.str b.str) hl).trans hmul
    rw [hr, hc]
    exact ⟨rfl, nofun⟩

/-- **The operators of the functions agree with the reference.** -/
theorem act_str (op : Op) (a b : Value) (ha : a.Good) (hb : b.Good) (hf : Fitting op a b) :
    (codeMeaning en).act op a.str b.str = (refAct en op a b).map Value.str ∧
      ∀ c, refAct en op a b = .ok c → c.Good := by
  have hzero : (Value.int 0).Good := good_int (by decide)
  have hbit : ∀ h : Bool, (Value.int (if h then 1 else 0)).Good := fun h => good_int (by cases h <;> decide)
  have hset : exSetint 0 = (Value.int 0).str := str_toInt 0 |>.symm
  cases op with
  | or =>
    refine ⟨?_, ?_⟩
    · show orAct .or a.str b.str = _
      rw [orAct, exTrue_str ha, exTrue_str hb, hset]
      refine congrArg Except.ok ?_
      split_ifs <;> rfl
    · rintro _ ⟨⟩
      split_ifs
      · exact ha
      · exact hb
      · exact hzero
  | and =>
    refine ⟨?_, ?_⟩
    · show andAct .and a.str b.str = _
      rw [andAct, exTrue_str ha, exTrue_str hb, hset]
      refine congrArg Except.ok ?_
      split_ifs <;> rfl
    · rintro _ ⟨⟩
      split_ifs
      · exact ha
      · exact hzero
  | eq | gt | ge | lt | le | ne =>
    refine ⟨cmpAct_str ha hb rfl hf, ?_⟩
    rintro _ ⟨⟩
    exact hbit _
  | add | sub => exact arith_str ha hb (.inl rfl) hf
  | mul | div | mod => exact arith_str ha hb (.inr rfl) hf
  | colon =>
    refine ⟨rfl, ?_⟩
    rintro _ ⟨⟩
    exact ⟨nul_notMem_exprMatch ha.nul, nofun⟩

/-! ## The builtin -/

/-- What comes out of a tree. -/
theorem exprEval_reads {args : List Str} (h : exprGrammar.Reads 0 none args e rest) :
    exprEval en args = some (match (codeMeaning en).eval e with
      | .error err => .fails err
      | .ok s => if rest = [] then .prints s !exTrue s else .fails .unexpectedArgument) := by
  have hrun : Agrees (exOr en (args.length + 1) { rest := args }) ((codeMeaning en).eval e) rest :=
    exAt_reads h args.length le_rfl
  rw [exprEval]
  cases hv : (codeMeaning en).eval e with
  | error err =>
    rw [hv] at hrun
    obtain ⟨x, out, hx, herr⟩ := hrun
    rw [hx, Option.map_some]
    dsimp only
    rw [if_neg (fun h => by rw [herr] at h; cases h.1), herr]
  | ok s =>
    rw [hv] at hrun
    rw [show exOr en (args.length + 1) { rest := args } = some ({ rest }, s) from hrun, Option.map_some]
    by_cases hrest : rest = []
    · simp [hrest]
    · simp [hrest, Ex.fail]

/-- The operators report no syntax errors. -/
theorem act_error {op : Op} {a b : Str} {err : ExErr} (h : (codeMeaning en).act op a b = .error err) :
    ¬err.Misread := by
  have hadd : ∀ {op : Op} {a b : Str}, addAct op a b = .error err → ¬err.Misread := by
    intro op a b h
    rw [addAct] at h
    split at h
    · cases h
    · cases h
      decide
  have hmul : ∀ {op : Op} {a b : Str}, mulAct op a b = .error err → ¬err.Misread := by
    intro op a b h
    rw [mulAct] at h
    split at h
    · split_ifs at h
      cases h
      decide
    · cases h
      decide
  cases op with
  | or | and | eq | gt | ge | lt | le | ne | colon => cases h
  | add | sub => exact hadd h
  | mul | div | mod => exact hmul h

theorem msg_ne {err err' : ExErr} (h : err.Misread) (h' : ¬err'.Misread) : err'.msg ≠ err.msg := by
  have hs : err.msg.head? = some 's' := by
    rcases h with rfl | rfl | rfl
    all_goals decide +kernel
  have hs' : err'.msg.head? ≠ some 's' := by
    cases err' with
    | nonInteger | divisionByZero => decide +kernel
    | missingOperand | expectingClose | unexpectedArgument => exact absurd (by decide) h'
  exact fun heq => hs' (heq ▸ hs)

/-- An argument list that is an expression. -/
theorem builtinExpr_eq {args : List Str}
    (h : ∀ s, args.head? = some s → s ∉ ["--".toList, "length".toList, "substr".toList, "index".toList]) :
    builtinExpr en args = exprEval en args := by
  have hne : ∀ s ∈ ["--".toList, "length".toList, "substr".toList, "index".toList], args.head? ≠ some s :=
    fun s hs hh => h s hh hs
  rw [builtinExpr, if_neg (hne _ (by simp)), if_neg (hne _ (by simp)), if_neg (fun hh => hne _ (by simp) hh.1),
    if_neg (hne _ (by simp))]

/-- **`expr`.**  Every list of arguments that does not begin with `--`, `length`, `substr` or `index` is read in one
way, and it is a sentence of the grammar, with the tree that was read, when nothing is missing and nothing is left.
Of a sentence no syntax error is reported; of anything else nothing is printed and 2 or 3 is returned.  As long as
the integers fit in 64 bits, what is printed, reported and returned is what the reference says. -/
theorem expr_reference (en : Engine) (args : List Str) (hnul : ∀ s ∈ args, '\x00' ∉ s)
    (hhead : ∀ s, args.head? = some s → s ∉ ["--".toList, "length".toList, "substr".toList, "index".toList]) :
    ∃ e rest o, exprGrammar.Reads 0 none args e rest ∧
      (∀ e' rest', exprGrammar.Reads 0 none args e' rest' → e' = e ∧ rest' = rest) ∧
      (∀ e', exprGrammar.Derives 0 e' args ↔ e' = e ∧ e.Whole ∧ rest = []) ∧
      builtinExpr en args = some o ∧
      ((∃ e', exprGrammar.Derives 0 e' args) → ∀ err : ExErr, err.Misread → o.diag ≠ some err.msg) ∧
      ((¬∃ e', exprGrammar.Derives 0 e' args) → o.out = [] ∧ (o.status = 2 ∨ o.status = 3)) ∧
      ((reference en).Met Fitting e → o = .expected ((reference en).eval e) rest) := by
  obtain ⟨e, rest, hread⟩ := exprGrammar.exists_reads args.length 6 0 args le_rfl rfl
  have hderives : ∀ e', exprGrammar.Derives 0 e' args ↔ e' = e ∧ e.Whole ∧ rest = [] := by
    intro e'
    rw [Levels.derives_iff]
    constructor
    · rintro ⟨hread', hw⟩
      obtain ⟨rfl, rfl⟩ := hread'.unique hread
      exact ⟨rfl, hw, rfl⟩
    · rintro ⟨rfl, hw, rfl⟩
      exact ⟨hread, hw⟩
  refine ⟨e, rest, _, hread, fun e' rest' h => h.unique hread, hderives, (builtinExpr_eq hhead).trans
    (exprEval_reads hread), ?_, ?_, ?_⟩
  · rintro ⟨e', he'⟩ err hm
    obtain ⟨-, hw, rfl⟩ := (hderives e').1 he'
    cases hv : (codeMeaning en).eval e with
    | ok s =>
      dsimp only
      rw [if_pos rfl]
      nofun
    | error err' =>
      obtain ⟨op, a, b, hact⟩ := Levels.Meaning.act_of_eval hw hv
      exact fun h => msg_ne hm (act_error hact) (Option.some.inj h)
  · intro hnot
    have hstatus : ∀ err : ExErr, err.status = 2 ∨ err.status = 3 := fun err => by cases err <;> decide
    by_cases hw : e.Whole
    · have hrest : rest ≠ [] := fun hrest => hnot ⟨e, (hderives e).2 ⟨rfl, hw, hrest⟩⟩
      cases (codeMeaning en).eval e with
      | ok s =>
        dsimp only
        rw [if_neg hrest]
        exact ⟨rfl, hstatus .unexpectedArgument⟩
      | error err => exact ⟨rfl, hstatus err⟩
    · obtain ⟨err, herr⟩ := @Levels.Meaning.eval_not_whole _ _ _ _ (codeMeaning en) e hw
      rw [herr]
      exact ⟨rfl, hstatus err⟩
  · intro hmet
    have hleaf : ∀ a ∈ e.operands, ((reference en).leaf a).Good ∧
        (codeMeaning en).leaf a = ((reference en).leaf a).str := by
      intro a ha
      exact ⟨⟨hnul a ((hread.mem_operands ha).resolve_right List.not_mem_nil), nofun⟩, rfl⟩
    obtain ⟨hcode, hgood⟩ := @Levels.Meaning.eval_map _ _ _ _ _ (reference en) (codeMeaning en) Value.str Value.Good
      Fitting rfl rfl act_str e hleaf hmet
    rw [hcode]
    cases hv : (reference en).eval e with
    | error err => rfl
    | ok v =>
      change (if rest = [] then Outcome.prints v.str !exTrue v.str else .fails .unexpectedArgument) = _
      rw [exTrue_str (hgood v hv)]
      rfl

/-- `7 - 2 * 3` is a sentence, since something is printed. -/
theorem expr_seven : ∃ e, exprGrammar.Derives 0 e [['7'], ['-'], ['2'], ['*'], ['3']] := by
  obtain ⟨_, _, o, -, -, -, ho, -, hnot, -⟩ := expr_reference (dfaEngine 0) [['7'], ['-'], ['2'], ['*'], ['3']]
    (by decide) (by decide)
  have hrun : builtinExpr (dfaEngine 0) [['7'], ['-'], ['2'], ['*'], ['3']] = some ⟨['1', '\n'], none, 0⟩ := by
    decide
  by_contra h
  rw [Option.some.inj (ho.symm.trans hrun)] at hnot
  exact absurd (hnot h).1 nofun

/-- `1 / 0 +` is a division by zero first. -/
example : builtinExpr (dfaEngine 0) [['1'], ['/'], ['0'], ['+']] = some (.fails .divisionByZero) := by decide +kernel

end Shish.Expr
