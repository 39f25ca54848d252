import Shish.Arith.Parse
import Shish.Lib.Fuel

/-!
# Arith/Rules — what the parser does, without bounds

A rule for each way a function of the parser can take that a well formed expression goes through:
what it reads, provided what it calls reads so much.  `level p` is `parse_arith_binary` at
precedence `p`, and `parse_arith_unary` below the tightest.
-/

namespace Shish

variable {ω : Type} {O : Operands ω}

/-! ## The levels -/

section Level

/-- What `parse_arith_binary` at precedence `p + 1` reads its operands with. -/
def level (O : Operands ω) (p n : ℕ) (s : Source) : Option (Arith ω × Source) :=
  if p = 0 then parseArithUnary O n s else parseArithBinary O n p s

example (p : ℕ) (s : Source) : parseArithBinary O 0 p s = none := by rw [parseArithBinary]

theorem ite_level (O : Operands ω) (p n : ℕ) (s : Source) :
    (if p ≤ 1 then parseArithUnary O n s else parseArithBinary O n (p - 1) s) =
      level O (p - 1) n s := by
  simp only [level, show p - 1 = 0 ↔ p ≤ 1 by omega]

/-- Behind an operand with no operator to read. -/
theorem level_left {p : ℕ} {s s' : Source} {l : Arith ω} (hl : Gives (level O p) s (l, s'))
    (h0 : l.isNull = false) (ho : nextOp (p + 1) (s'.skipspace true) = .left) :
    Gives (level O (p + 1)) s (l, s'.skipspace true) := by
  refine Soon.next hl fun n hn => ?_
  rw [level, if_neg (Nat.succ_ne_zero p), parseArithBinary, ite_level, Nat.add_sub_cancel, hn]
  simp [h0, ho]

/-- Behind an operand with an operator to read. -/
theorem level_op {p q : ℕ} {s s' s'' : Source} {l r : Arith ω} {id : BinOp} {long : Bool}
    (hl : Gives (level O p) s (l, s')) (h0 : l.isNull = false)
    (ho : nextOp (p + 1) (s'.skipspace true) = .op id long q)
    (hr : Gives (level O (q - 1)) ((if long then (s'.skipspace true).skip
      else s'.skipspace true).skip.skipspace true) (r, s'')) (hr0 : r.isNull = false) :
    Gives (level O (p + 1)) s (.binary id l r, s'') := by
  refine Soon.next (Soon.and hl hr) fun n ⟨hn, hm⟩ => ?_
  rw [level, if_neg (Nat.succ_ne_zero p), parseArithBinary, ite_level, Nat.add_sub_cancel, hn]
  simp [h0, ho, ite_level, hm, hr0]

end Level

/-! ## Operands -/

section Value

variable {s s' : Source} {t : Arith ω} {c : Char}

/-- No `++` and no `--`. -/
def Source.noStep (s : Source) : Prop :=
  ∀ c, s.peek = some c → c = '+' ∨ c = '-' → s.peekn 1 ≠ some c

theorem level_value (hc : s.peek = some c) (hs : c ∉ ['!', '~', '-', '+'])
    (hv : Gives (parseArithValue O) s (t, s')) (h0 : t.isNull = false) (hn : s'.noStep) :
    Gives (level O 0) s (t, s') := by
  refine Soon.next hv fun n hn' => ?_
  simp only [List.mem_cons, List.not_mem_nil, or_false, not_or] at hs
  obtain ⟨h₁, h₂, h₃, h₄⟩ := hs
  simp only [level, if_true, parseArithUnary, hc, hn', Option.bind_eq_bind, Option.bind_some, h0,
    Bool.false_eq_true, if_false]
  split
  · next hp hq => exact absurd hq (hn _ hp (by simp))
  · next hp hq => exact absurd hq (hn _ hp (by simp))
  · rfl

theorem value_paren (hc : s.peek = some '(')
    (hl : Gives (parseArithList O) (s.skip.skipspace true) (t, s')) (h0 : t.isNull = false) :
    Gives (parseArithValue O) s (.paren t, s') := by
  refine Soon.next (Q := fun n => parseArithValue O n s = some (.paren t, s'))
    (Soon.next (Q := fun n => parseArithParen O n s = some (.paren t, s')) hl fun n hn => ?_)
    fun n hn => ?_
  · simp [parseArithParen, hc, hn, h0]
  · simp [parseArithValue, hc, hn]

theorem value_num {x : Str} {base : ℕ} {num : Int64} (hc : s.peek = some c) (hd : parseIsdigit c)
    (hx : numLoop (s.buf.length + 1) [] 10 c s = (x, base, s')) (hnum : scanBase base x = some num) :
    Gives (parseArithValue O) s (.num num base, s') := by
  refine Soon.of_succ fun n => ?_
  simp only [parseArithValue, hc]
  split
  all_goals simp_all [show parseIsdigit '(' = false by decide, show parseIsdigit '`' = false by decide,
    show parseIsdigit '$' = false by decide]

theorem list_last (he : Gives (parseArithExpr O) s (t, s')) (h0 : t.isNull = false)
    (hc : s'.peek = some ')') : Gives (parseArithList O) s (t, s'.skip) := by
  refine Soon.next he fun n hn => ?_
  simp [parseArithList, hn, h0, hc]

end Value

/-! ## Whole expressions -/

section Expr

variable {s s' : Source} {t : Arith ω}

theorem ternary_cond (hb : Gives (level O arithPrecTop) s (t, s')) (h0 : t.isNull = false)
    (hc : (s'.skipspace true).peek ≠ some '?') :
    Gives (parseArithTernary O) s (t, s'.skipspace true) := by
  refine Soon.next hb fun n hn => ?_
  rw [level, if_neg (by decide)] at hn
  simp [parseArithTernary, hn, h0, hc]

theorem assign_other (ht : Gives (parseArithTernary O) s (t, s')) (hp : t.isParam O = false) :
    Gives (parseArithAssign O) s (t, s') := by
  refine Soon.next ht fun n hn => ?_
  simp [parseArithAssign, hn, hp]

theorem expr_assign (hs : (s.skipspace true).peek ≠ none)
    (ha : Gives (parseArithAssign O) (s.skipspace true) (t, s')) (h0 : t.isNull = false) :
    Gives (parseArithExpr O) s (t, s') := by
  refine Soon.next ha fun n hn => ?_
  simp [parseArithExpr, hs, hn, h0]

end Expr

/-! ## Operators in text -/

section Op

variable {p q : ℕ} {a b d : Char} {c : Option Char} {id : BinOp} {long : Bool}

theorem findOp_op (hs : ¬((a = '-' ∨ a = '+') ∧ b = a)) (hc : c ≠ none) (ho : opAt q a b c = some (id, long)) (hq : 0 < q) :
    q ≤ p → (∀ r, q < r → opAt r a b c = none) → findOp p a b c = .op id long q := by
  induction p with
  | zero => omega
  | succ p ih =>
    intro hp hn
    have h₁ : ¬(p + 1 ≤ arithPrecTop ∧ (a = '-' ∨ a = '+') ∧ b = a) := fun h => hs h.2
    simp only [findOp, if_neg h₁, hc, and_false, if_false]
    by_cases h : q = p + 1
    · subst h
      rw [ho]
    · rw [hn (p + 1) (by omega)]
      exact ih (by omega) hn

theorem findOp_left (hs : ¬((a = '-' ∨ a = '+') ∧ b = a)) :
    (∀ r, r ≤ p → opAt r a b c = none) → findOp p a b c = .left := by
  induction p with
  | zero => exact fun _ => rfl
  | succ p ih =>
    intro hn
    have h₁ : ¬(p + 1 ≤ arithPrecTop ∧ (a = '-' ∨ a = '+') ∧ b = a) := fun h => hs h.2
    simp only [findOp, if_neg h₁, hn (p + 1) le_rfl, ih fun r hr => hn r (by omega), ite_self]

/-- What may follow an operator without being taken for a part of it. -/
def endsOp (d : Char) : Bool := d ∉ ['=', '*', '+', '-', '<', '>', '&', '|']

example (c : Option Char) : opAt 0 a b c = none := by
  unfold opAt
  split <;> simp_all

/-- An operator is read at its own level only. -/
theorem opAt_text (hid : id ≠ .exp) (hd : endsOp d) (c : Option Char) (r : ℕ) :
    opAt r (id.text.headD ' ') (id.text.tail.headD d) (if id.text.length = 2 then some d else c) =
      if r = id.level then some (id, id.text.length == 2) else none := by
  simp only [endsOp, List.mem_cons, List.not_mem_nil, or_false, not_or, decide_eq_true_eq] at hd
  obtain ⟨h₁, h₂, h₃, h₄, h₅, h₆, h₇, h₈⟩ := hd
  have h₅' : '<' ≠ d := fun h => h₅ h.symm
  have h₆' : '>' ≠ d := fun h => h₆ h.symm
  cases id
  case exp => exact absurd rfl hid
  all_goals
    simp only [BinOp.text, List.headD_cons, List.tail_cons, List.headD_nil, BinOp.level,
      List.length_cons, List.length_nil]
    unfold opAt
    split <;> simp [*]
    assumption

/-- Behind an operand, the text of an operator. -/
theorem nextOp_text {t : Str} (hb : d ≠ '\\') (p : ℕ) :
    nextOp p (Source.ofStr (id.text ++ d :: t)) =
      findOp p (id.text.headD ' ') (id.text.tail.headD d)
        (if id.text.length = 2 then some d else (Source.ofStr t).peek) := by
  cases id <;> simp [nextOp, BinOp.text, Source.peek_cons, Source.peekn_succ, hb]

theorem not_step_text (hd : endsOp d) (id : BinOp) : ¬((id.text.headD ' ' = '-' ∨
    id.text.headD ' ' = '+') ∧ id.text.tail.headD d = id.text.headD ' ') := by
  simp only [endsOp, List.mem_cons, List.not_mem_nil, or_false, not_or, decide_eq_true_eq] at hd
  cases id <;> simp [BinOp.text, hd]

/-- An operator that is not tighter than the level is read. -/
theorem nextOp_op {t : Str} (hid : id ≠ .exp) (hb : d ≠ '\\') (hd : endsOp d)
    (ht : (Source.ofStr t).peek ≠ none) (hp : id.level ≤ p) :
    nextOp p (Source.ofStr (id.text ++ d :: t)) = .op id (id.text.length == 2) id.level := by
  rw [nextOp_text hb]
  refine findOp_op (not_step_text hd id) ?_ ?_ ?_ hp ?_
  · split
    · exact nofun
    · exact ht
  · rw [opAt_text hid hd, if_pos rfl]
  · cases id <;> decide
  · intro r hr
    rw [opAt_text hid hd, if_neg (by omega)]

/-- An operator that is looser than the level is left alone. -/
theorem nextOp_left {t : Str} (hid : id ≠ .exp) (hb : d ≠ '\\') (hd : endsOp d)
    (hp : p < id.level) : nextOp p (Source.ofStr (id.text ++ d :: t)) = .left := by
  rw [nextOp_text hb]
  refine findOp_left (not_step_text hd id) fun r hr => ?_
  rw [opAt_text hid hd, if_neg (by omega)]

/-- What ends an expression is no operator. -/
theorem nextOp_end {s : Source} (ha : s.peek = some a)
    (h : a ∈ [')', ',', '?', ':']) (p : ℕ) : nextOp p s = .left := by
  unfold nextOp
  rw [ha]
  split
  · next a' b h₁ h₂ =>
    obtain rfl := Option.some.inj h₁
    refine findOp_left ?_ fun r _ => ?_
    · rintro ⟨rfl | rfl, -⟩ <;> simp at h
    · simp only [List.mem_cons, List.not_mem_nil, or_false] at h
      unfold opAt
      rcases h with rfl | rfl | rfl | rfl <;> split <;> simp
  · rfl

end Op

/-! ## Signs and missing operands -/

section Sign

variable {s s' : Source} {t : Arith ω} {c d : Char}

theorem level_not (hc : s.peek = some '!') (h : Gives (level O 0) (s.skip.skipspace true) (t, s')) :
    Gives (level O 0) s (.unary .not t, s') := by
  refine Soon.next h fun n hn => ?_
  simp only [level, if_true] at hn ⊢
  simp [parseArithUnary, hc, hn]

theorem level_bnot (hc : s.peek = some '~') (h : Gives (level O 0) (s.skip.skipspace true) (t, s')) :
    Gives (level O 0) s (.unary .bnot t, s') := by
  refine Soon.next h fun n hn => ?_
  simp only [level, if_true] at hn ⊢
  simp [parseArithUnary, hc, hn]

theorem level_minus (hc : s.peek = some '-') (hd : s.peekn 1 = some d) (hne : d ≠ '-')
    (h : Gives (level O 0) (s.skip.skipspace true) (t, s')) :
    Gives (level O 0) s (.unary .unaryminus t, s') := by
  refine Soon.next h fun n hn => ?_
  simp only [level, if_true] at hn ⊢
  simp [parseArithUnary, hc, hd, hn]

theorem level_plus (hc : s.peek = some '+') (hd : s.peekn 1 = some d) (hne : d ≠ '+')
    (h : Gives (level O 0) (s.skip.skipspace true) (t, s')) :
    Gives (level O 0) s (.unary .unaryplus t, s') := by
  refine Soon.next h fun n hn => ?_
  simp only [level, if_true] at hn ⊢
  simp [parseArithUnary, hc, hd, hn]

theorem level_predecr (hc : s.peek = some '-') (hd : s.peekn 1 = some '-')
    (h : Gives (parseArithValue O) (s.skip.skip.skipspace true) (t, s')) :
    Gives (level O 0) s (.unary .predecr t, s') := by
  refine Soon.next h fun n hn => ?_
  simp [level, parseArithUnary, hc, hd, hn]

theorem level_preincr (hc : s.peek = some '+') (hd : s.peekn 1 = some '+')
    (h : Gives (parseArithValue O) (s.skip.skip.skipspace true) (t, s')) :
    Gives (level O 0) s (.unary .preincr t, s') := by
  refine Soon.next h fun n hn => ?_
  simp [level, parseArithUnary, hc, hd, hn]

/-- A character that no operand starts with. -/
def noValue (c : Char) : Bool :=
  c ∉ ['(', '`', '$', '_'] && !parseIsdigit c && !parseIsalpha c

theorem value_null (hc : s.peek = some c) (h : noValue c) :
    Gives (parseArithValue O) s (.null, s) := by
  refine Soon.of_succ fun n => ?_
  simp only [noValue, Bool.and_eq_true, decide_eq_true_eq, Bool.not_eq_true', List.mem_cons,
    List.not_mem_nil, or_false, not_or] at h
  obtain ⟨⟨⟨h₁, h₂, h₃, h₄⟩, h₅⟩, h₆⟩ := h
  simp [parseArithValue, hc, h₄, h₅, h₆]

theorem level_null (hc : s.peek = some c) (h : noValue c) (hs : c ∉ ['!', '~', '-', '+']) :
    ∀ p, Gives (level O p) s (.null, s)
  | 0 => by
      refine Soon.next (value_null (O := O) hc h) fun n hn => ?_
      simp only [List.mem_cons, List.not_mem_nil, or_false, not_or] at hs
      obtain ⟨h₁, h₂, h₃, h₄⟩ := hs
      simp [level, parseArithUnary, hc, hn, Arith.isNull]
  | p + 1 => by
      refine Soon.next (level_null hc h hs p) fun n hn => ?_
      rw [level, if_neg (Nat.succ_ne_zero p), parseArithBinary, ite_level, Nat.add_sub_cancel, hn]
      simp [Arith.isNull]

theorem assign_null (hc : s.peek = some c) (h : noValue c) (hs : c ∉ ['!', '~', '-', '+']) :
    Gives (parseArithAssign O) s (.null, s) := by
  refine Soon.next (Q := fun n => parseArithAssign O n s = some (.null, s))
    (Soon.next (Q := fun n => parseArithTernary O n s = some (.null, s))
      (level_null (O := O) hc h hs arithPrecTop) fun n hn => ?_) fun n hn => ?_
  · rw [level, if_neg (by decide)] at hn
    simp [parseArithTernary, hn, Arith.isNull]
  · simp [parseArithAssign, hn, Arith.isParam]

end Sign

/-! ## Conditionals, assignments and lists -/

section Full

variable {s s₁ s₂ s₃ : Source} {c t u : Arith ω}

theorem ternary_full (hc : Gives (level O arithPrecTop) s (c, s₁)) (hc0 : c.isNull = false)
    (h₁ : (s₁.skipspace true).peek = some '?')
    (ht : Gives (parseArithExpr O) ((s₁.skipspace true).skip.skipspace true) (t, s₂))
    (ht0 : t.isNull = false) (h₂ : (s₂.skipspace true).peek = some ':')
    (hu : Gives (parseArithTernary O) ((s₂.skipspace true).skip.skipspace true) (u, s₃))
    (hu0 : u.isNull = false) : Gives (parseArithTernary O) s (.ternary c t u, s₃) := by
  refine Soon.next (Soon.and hc (Soon.and ht hu)) fun n ⟨hn, hm, hk⟩ => ?_
  rw [level, if_neg (by decide)] at hn
  simp [parseArithTernary, hn, hc0, h₁, hm, ht0, h₂, hk, hu0]

theorem assign_none {d : Char} (ht : Gives (parseArithTernary O) s (t, s₁))
    (hd : (s₁.skipspace true).peek = some d) (h : d ∈ [')', ',', ':']) :
    Gives (parseArithAssign O) s (t, if t.isParam O then s₁.skipspace true else s₁) := by
  have ha : ∀ c₁ c₂, asgnAt d c₁ c₂ = none := by
    intro c₁ c₂
    have hd : d ∉ ['=', '*', '/', '%', '+', '-', '<', '>', '&', '^', '|'] := by
      simp only [List.mem_cons, List.not_mem_nil, or_false] at h
      rcases h with rfl | rfl | rfl <;> decide
    unfold asgnAt
    exact if_pos hd
  refine Soon.next ht fun n hn => ?_
  by_cases hp : t.isParam O
  · simp [parseArithAssign, hn, hp, hd, ha]
  · simp [parseArithAssign, hn, hp]

theorem assign_op {d : Char} {id : AsgnOp} {len : ℕ} (ht : Gives (parseArithTernary O) s (t, s₁))
    (hp : t.isParam O) (hd : (s₁.skipspace true).peek = some d)
    (ha : asgnAt d ((s₁.skipspace true).peekn 1) ((s₁.skipspace true).peekn 2) =
      some (some (id, len)))
    (hu : Gives (parseArithAssign O) ((Source.skip^[len] (s₁.skipspace true)).skipspace true)
      (u, s₂)) : Gives (parseArithAssign O) s (.assign id t u, s₂) := by
  refine Soon.next (Soon.and ht hu) fun n ⟨hn, hm⟩ => ?_
  simp [parseArithAssign, hn, hp, hd, ha, hm]

theorem list_comma (ht : Gives (parseArithExpr O) s (t, s₁)) (ht0 : t.isNull = false)
    (hc : s₁.peek = some ',') (hu : Gives (parseArithList O) s₁.skip (u, s₂))
    (hu0 : u.isNull = false) : Gives (parseArithList O) s (.comma t u, s₂) := by
  refine Soon.next (Soon.and ht hu) fun n ⟨hn, hm⟩ => ?_
  simp [parseArithList, hn, ht0, hc, hm, hu0]

end Full

end Shish
