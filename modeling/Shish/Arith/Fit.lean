import Shish.Arith.Chain

/-!
# Arith/Fit — what the parser can return

Whatever the text, every tree a function of the parser returns fits: a level reads one operator, so
a right operand was read at a level tighter than its operator.  A chain whose tree does not fit is
therefore never read as its tree.
-/

namespace Shish

variable {ω : Type} {O : Operands ω}

/-! ## Operators -/

theorem opAt_level {q : ℕ} {a b : Char} {c : Option Char} {id : BinOp} {long : Bool}
    (h : opAt q a b c = some (id, long)) : id.level = q := by
  unfold opAt at h
  split at h
  case h_12 => exact absurd h nofun
  all_goals
    split_ifs at h
    all_goals
      simp only [Option.some.injEq, Prod.mk.injEq] at h
      obtain ⟨rfl, -⟩ := h
      rfl

theorem findOp_level {p q : ℕ} {a b : Char} {c : Option Char} {id : BinOp} {long : Bool}
    (h : findOp p a b c = .op id long q) : id.level = q ∧ q ≤ p := by
  induction p with
  | zero => exact absurd h nofun
  | succ p ih =>
    rw [findOp] at h
    split_ifs at h
    split at h
    · next o l ho =>
      simp only [Found.op.injEq] at h
      obtain ⟨rfl, rfl, rfl⟩ := h
      exact ⟨opAt_level ho, le_rfl⟩
    · obtain ⟨h₁, h₂⟩ := ih h
      exact ⟨h₁, by omega⟩

theorem nextOp_level {p q : ℕ} {s : Source} {id : BinOp} {long : Bool}
    (h : nextOp p s = .op id long q) : id.level = q ∧ q ≤ p := by
  unfold nextOp at h
  split at h
  · exact findOp_level h
  · exact absurd h nofun

/-! ## Trees -/

/-- The trees a function can return fit, and one level reads them. -/
def FitAt (p : ℕ) (f : Source → Option (Arith ω × Source)) : Prop :=
  ∀ s t s', f s = some (t, s') → t.fits ∧ t.need ≤ p

/-- The same of every function of the parser. -/
structure Fit (O : Operands ω) (n : ℕ) : Prop where
  expr : FitAt arithPrecTop (parseArithExpr O n)
  assign : FitAt arithPrecTop (parseArithAssign O n)
  ternary : FitAt arithPrecTop (parseArithTernary O n)
  level : ∀ p, FitAt p (level O p n)
  value : FitAt 0 (parseArithValue O n)
  paren : FitAt 0 (parseArithParen O n)
  list : FitAt arithPrecTop (parseArithList O n)

variable {n : ℕ}

theorem fitAt_mono {p q : ℕ} {f : Source → Option (Arith ω × Source)} (h : FitAt p f)
    (hp : p ≤ q) : FitAt q f :=
  fun s t s' ht => ⟨(h s t s' ht).1, Nat.le_trans (h s t s' ht).2 hp⟩

theorem Fit.expr_succ (h : Fit O n) : FitAt arithPrecTop (parseArithExpr O (n + 1)) := by
  intro s t s' ht
  simp only [parseArithExpr, Option.bind_eq_bind, Option.pure_def] at ht
  split_ifs at ht
  · cases ht
    exact ⟨rfl, Nat.zero_le _⟩
  · simp only [Option.bind_eq_some_iff, Prod.exists] at ht
    obtain ⟨t₁, s₁, h₁, t₂, s₂, h₂, ht⟩ := ht
    split at ht
    · exact fitAt_mono h.value (Nat.zero_le _) _ _ _ ht
    · cases ht
      split at h₂
      · exact fitAt_mono (h.level 0) (Nat.zero_le _) _ _ _ h₂
      · cases h₂
        exact h.assign _ _ _ h₁

theorem Fit.assign_succ (h : Fit O n) : FitAt arithPrecTop (parseArithAssign O (n + 1)) := by
  intro s t s' ht
  simp only [parseArithAssign, Option.bind_eq_bind, Option.bind_eq_some_iff, Option.pure_def,
    Prod.exists] at ht
  obtain ⟨l, s₁, h₁, ht⟩ := ht
  have hl := h.ternary _ _ _ h₁
  split at ht
  · cases ht
    exact hl
  split at ht
  · cases ht
    exact hl
  split at ht
  · cases ht
    exact hl
  · cases ht
  · simp only [Option.bind_eq_some_iff, Prod.exists] at ht
    obtain ⟨r, s₂, h₂, ht⟩ := ht
    cases ht
    simp [Arith.fits, Arith.need, hl.1, (h.assign _ _ _ h₂).1]

theorem Fit.ternary_succ (h : Fit O n) : FitAt arithPrecTop (parseArithTernary O (n + 1)) := by
  intro s t s' ht
  have hnull : ∀ s : Source, some (Arith.null, s) = some (t, s') →
      t.fits ∧ t.need ≤ arithPrecTop := by
    rintro s h
    cases h
    exact ⟨rfl, Nat.zero_le _⟩
  simp only [parseArithTernary, Option.bind_eq_bind, Option.bind_eq_some_iff, Option.pure_def,
    Prod.exists] at ht
  obtain ⟨c, s₁, h₁, ht⟩ := ht
  have hc := h.level arithPrecTop _ _ _ h₁
  split at ht
  · exact hnull _ ht
  split at ht
  · cases ht
    exact hc
  simp only [Option.bind_eq_some_iff, Prod.exists] at ht
  obtain ⟨u, s₂, h₂, ht⟩ := ht
  split at ht
  · exact hnull _ ht
  split at ht
  · exact hnull _ ht
  simp only [Option.bind_eq_some_iff, Prod.exists] at ht
  obtain ⟨v, s₃, h₃, ht⟩ := ht
  split at ht
  · exact hnull _ ht
  cases ht
  simp [Arith.fits, Arith.need, hc.1, (h.expr _ _ _ h₂).1, (h.ternary _ _ _ h₃).1]

theorem Fit.binary_succ (h : Fit O n) (p : ℕ) :
    FitAt (p + 1) (parseArithBinary O (n + 1) (p + 1)) := by
  intro s t s' ht
  simp only [parseArithBinary, ite_level, Option.bind_eq_bind, Option.bind_eq_some_iff,
    Option.pure_def, Prod.exists] at ht
  obtain ⟨l, s₁, h₁, ht⟩ := ht
  have hl := h.level p _ _ _ h₁
  split at ht
  · cases ht
    exact ⟨rfl, Nat.zero_le _⟩
  split at ht
  · cases ht
    exact ⟨hl.1, Nat.le_succ_of_le hl.2⟩
  · cases ht
    exact ⟨rfl, Nat.zero_le _⟩
  · next id long q ho =>
    obtain ⟨rfl, hq⟩ := nextOp_level ho
    simp only [Option.bind_eq_some_iff, Prod.exists] at ht
    obtain ⟨r, s₂, h₂, r', s₃, h₃, ht⟩ := ht
    have hr' : r'.fits ∧ r'.need ≤ id.level - 1 := by
      split at h₃
      · exact fitAt_mono h.value (Nat.zero_le _) _ _ _ h₃
      · cases h₃
        exact h.level _ _ _ _ h₂
    split at ht
    · cases ht
      exact ⟨hl.1, Nat.le_succ_of_le hl.2⟩
    · cases ht
      have := id.level_pos
      simp only [Arith.fits, Arith.need, hl.1, hr'.1, decide_eq_true_eq, Bool.and_self,
        Bool.true_and]
      omega

theorem Fit.value_succ (h : Fit O n) : FitAt 0 (parseArithValue O (n + 1)) := by
  intro s t s' ht
  have hb : arithBquoted O s = some (t, s') → t.fits ∧ t.need ≤ 0 := by
    intro hb
    simp only [arithBquoted, Option.bind_eq_bind, Option.bind_eq_some_iff, Option.pure_def,
      Prod.exists] at hb
    obtain ⟨a, s₁, -, hb⟩ := hb
    cases hb
    cases a <;> exact ⟨rfl, le_rfl⟩
  have ho : ((O.subst s).bind fun x => some (Arith.operand x.1, x.2)) = some (t, s') →
      t.fits ∧ t.need ≤ 0 := by
    intro ho
    simp only [Option.bind_eq_some_iff, Prod.exists] at ho
    obtain ⟨a, s₁, -, ho⟩ := ho
    cases ho
    exact ⟨rfl, le_rfl⟩
  simp only [parseArithValue, Option.bind_eq_bind, Option.pure_def] at ht
  split at ht
  · cases ht
    exact ⟨rfl, le_rfl⟩
  · exact h.paren _ _ _ ht
  · exact hb ht
  · split at ht
    · exact ho ht
    split at ht
    · exact hb ht
    · cases ht
      exact ⟨rfl, le_rfl⟩
  · split at ht
    · simp only [Option.bind_eq_some_iff] at ht
      obtain ⟨v, -, ht⟩ := ht
      cases ht
      exact ⟨rfl, le_rfl⟩
    split at ht
    · exact ho ht
    · cases ht
      exact ⟨rfl, le_rfl⟩

theorem Fit.paren_succ (h : Fit O n) : FitAt 0 (parseArithParen O (n + 1)) := by
  intro s t s' ht
  simp only [parseArithParen, Option.bind_eq_bind, Option.pure_def] at ht
  split at ht
  · cases ht
    exact ⟨rfl, le_rfl⟩
  · simp only [Option.bind_eq_some_iff, Prod.exists] at ht
    obtain ⟨u, s₁, h₁, ht⟩ := ht
    have hu := h.list _ _ _ h₁
    split at ht
    · cases ht
      exact ⟨rfl, le_rfl⟩
    · cases ht
      simp [Arith.fits, Arith.need, hu]

theorem Fit.list_succ (h : Fit O n) : FitAt arithPrecTop (parseArithList O (n + 1)) := by
  intro s t s' ht
  simp only [parseArithList, Option.bind_eq_bind, Option.bind_eq_some_iff, Option.pure_def,
    Prod.exists] at ht
  obtain ⟨u, s₁, h₁, ht⟩ := ht
  have hu := h.expr _ _ _ h₁
  split at ht
  · cases ht
    exact ⟨rfl, Nat.zero_le _⟩
  split at ht
  · simp only [Option.bind_eq_some_iff, Prod.exists] at ht
    obtain ⟨v, s₂, h₂, ht⟩ := ht
    have hv := h.list _ _ _ h₂
    split at ht
    · cases ht
      exact ⟨rfl, Nat.zero_le _⟩
    · cases ht
      simp [Arith.fits, Arith.need, hu, hv]
  · cases ht
    exact hu
  · cases ht
    exact ⟨rfl, Nat.zero_le _⟩

theorem Fit.unary_succ (h : Fit O n) : FitAt 0 (parseArithUnary O (n + 1)) := by
  intro s t s' ht
  have hsign : ∀ (id : UnOp) (s : Source),
      ((parseArithUnary O n s).bind fun x => some (Arith.unary id x.1, x.2)) = some (t, s') →
      t.fits ∧ t.need ≤ 0 := by
    intro id s hs
    simp only [Option.bind_eq_some_iff, Prod.exists] at hs
    obtain ⟨u, s₁, h₁, hs⟩ := hs
    cases hs
    exact ⟨(h.level 0 _ _ _ h₁).1, le_rfl⟩
  have hstep : ∀ (id : UnOp) (s : Source),
      ((parseArithValue O n s).bind fun x => some (Arith.unary id x.1, x.2)) = some (t, s') →
      t.fits ∧ t.need ≤ 0 := by
    intro id s hs
    simp only [Option.bind_eq_some_iff, Prod.exists] at hs
    obtain ⟨u, s₁, h₁, hs⟩ := hs
    cases hs
    exact ⟨(h.value _ _ _ h₁).1, le_rfl⟩
  have hnull : ∀ s : Source, some (Arith.null, s) = some (t, s') → t.fits ∧ t.need ≤ 0 := by
    rintro s h
    cases h
    exact ⟨rfl, le_rfl⟩
  simp only [parseArithUnary, Option.bind_eq_bind, Option.pure_def] at ht
  split at ht
  · exact hnull _ ht
  · exact hsign _ _ ht
  · exact hsign _ _ ht
  · split at ht
    · exact hnull _ ht
    · exact hstep _ _ ht
    · exact hsign _ _ ht
  · split at ht
    · exact hnull _ ht
    · exact hstep _ _ ht
    · exact hsign _ _ ht
  · rw [Option.bind_eq_some_iff] at ht
    obtain ⟨⟨u, s₁⟩, h₁, ht⟩ := ht
    have hu := h.value _ _ _ h₁
    simp only at ht
    split at ht
    · cases ht
      exact hu
    split at ht
    · exact hsign _ _ ht
    · exact hsign _ _ ht
    · cases ht
      exact hu

/-- **Every tree the parser returns fits.** -/
theorem fit : ∀ n, Fit O n
  | 0 => by
      constructor
      case level =>
        intro p s t s' h
        simp only [level, parseArithUnary, parseArithBinary, ite_self, reduceCtorEq] at h
      all_goals
        intro s t s' h
        cases h
  | n + 1 =>
      have h := fit n
      { expr := h.expr_succ
        assign := h.assign_succ
        ternary := h.ternary_succ
        level
          | 0 => h.unary_succ
          | p + 1 => h.binary_succ p
        value := h.value_succ
        paren := h.paren_succ
        list := h.list_succ }

end Shish
