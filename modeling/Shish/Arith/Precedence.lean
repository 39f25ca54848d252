import Shish.Arith.Expand
import Shish.Arith.Fit

/-!
# Arith/Precedence — chains of operators have the value the table gives them

`parse_arith_expr` on a chain in `$(( ))`, white space and `))` behind it.  It reads the tree of the
table exactly when that tree fits; then evaluating it gives the value of the table.
-/

namespace Shish

variable {ω σ : Type}

/-- A level for every operator: the condition on a chain. -/
def Chain.fits (ω : Type) (c : Chain) : Bool :=
  (c.tree ω).fits && (c.tree ω).need ≤ arithPrecTop

/-- The text of a chain in `$(( ))`, from behind the opening to the end of the input. -/
def Chain.source (c : Chain) (b₁ b₂ : Blanks) (rest : Str) : Source :=
  .ofStr (b₁.1 ++ (c.text ++ (b₂.1 ++ ')' :: ')' :: rest)))

/-- **A chain of readable literals is read as the tree of the table exactly when it fits.** -/
theorem gives_tree_iff (O : Operands ω) (c : Chain) (hl : c.readable) (b₁ b₂ : Blanks) (rest : Str) :
    Gives (parseArithExpr O) (c.source b₁ b₂ rest) (c.tree ω, .ofStr (')' :: ')' :: rest)) ↔
      c.fits ω := by
  have hs : ∀ r : Str, (Source.ofStr (')' :: r)).skipspace true = .ofStr (')' :: r) :=
    fun r => Source.skipspace_stop (by decide) (by decide)
  simp only [Chain.fits, Bool.and_eq_true, decide_eq_true_eq]
  constructor
  · intro h
    obtain ⟨n, hn⟩ := Soon.exists_of h
    exact (fit n).expr _ _ _ hn
  · intro ⟨hf, hn⟩
    have hsp := c.spells (ω := ω) hl
    have h := hsp.gives (O := O) c.grouped hf hn (.stop b₂ (')' :: rest))
    have hb : (Source.ofStr (b₂.1 ++ ')' :: ')' :: rest)).skipspace true =
        .ofStr (')' :: ')' :: rest) := (Source.skipspace_append b₂.2).trans (hs _)
    rw [show left arithPrecTop _ = _ from if_neg (by decide)] at h
    have he := expr_of_level hsp h b₁ (by rw [hb, hs]) (by
      rw [hb, Source.peek_cons (by decide)]
      decide)
    rwa [hb] at he

/-- **A chain of readable literals that fits is read to its end, and has the value of the table;
one that does not fit is not read as the table groups it.** -/
theorem chain_value (O : Operands ω) (E : ArithEnv ω σ) (c : Chain) (b₁ b₂ : Blanks) (rest : Str) :
    (c.readable ∧ c.fits ω → ∃ t, Gives (parseArithExpr O) (c.source b₁ b₂ rest)
        (t, .ofStr (')' :: ')' :: rest)) ∧
      ∀ v, (c.tree ω).value = some v → ∀ s, expandArithExpr E t s = .ok (s, some v)) ∧
    (c.readable → (Gives (parseArithExpr O) (c.source b₁ b₂ rest)
        (c.tree ω, .ofStr (')' :: ')' :: rest)) ↔ c.fits ω)) := by
  refine ⟨fun ⟨hl, hf⟩ => ?_, fun hl => gives_tree_iff O c hl b₁ b₂ rest⟩
  exact ⟨c.tree ω, (gives_tree_iff O c hl b₁ b₂ rest).2 hf, fun v hv s => expandArithExpr_eq E hv s⟩

/-! ## Two chains -/

/-- No white space. -/
def noBlanks : Blanks := ⟨[], nofun⟩

/-- One more operator and a digit, without white space. -/
def Chain.snoc (c : Chain) (op : BinOp) (d : Char) (h : op ≠ .exp := by decide)
    (hd : (Literal.dec [d]).Valid := by decide) : Chain :=
  .more c noBlanks op h noBlanks (.lit (.dec [d]) hd)

/-- A digit. -/
def Chain.digit (d : Char) (hd : (Literal.dec [d]).Valid := by decide) : Chain :=
  .one (.lit (.dec [d]) hd)

/-- No operands but numbers. -/
def noOperands : Operands Empty := ⟨nofun, fun _ => none, fun _ => none⟩

/-- No variables. -/
def noVars : ArithEnv Empty Unit :=
  ⟨nofun, nofun, fun _ _ => [], fun _ _ _ => none, fun _ _ _ => none, fun a _ => a⟩

/-- `1*2*3+4`. -/
theorem chain_value_sum :
    let c := (((Chain.digit '1').snoc .mul '2').snoc .mul '3').snoc .add '4'
    c.readable ∧ c.fits Empty ∧ ∃ t, Gives (parseArithExpr noOperands)
      (c.source noBlanks noBlanks []) (t, .ofStr [')', ')']) ∧
      expandArithExpr noVars t () = .ok ((), some 10) := by
  intro c
  have hl : c.readable := by decide
  have hf : c.fits Empty := by decide
  obtain ⟨t, ht, hv⟩ := (chain_value noOperands noVars c noBlanks noBlanks []).1 ⟨hl, hf⟩
  exact ⟨hl, hf, t, ht, hv 10 (by decide) ()⟩

/-- `1+2*3*4` is read as `(1+2*3)*4`. -/
theorem chain_regrouped :
    let c := (((Chain.digit '1').snoc .add '2').snoc .mul '3').snoc .mul '4'
    c.text = ['1', '+', '2', '*', '3', '*', '4'] ∧ (c.tree Empty).value = some 25 ∧
      ¬∃ t, Gives (parseArithExpr noOperands) (c.source noBlanks noBlanks [])
        (t, .ofStr [')', ')']) ∧ expandArithExpr noVars t () = .ok ((), some 25) := by
  refine ⟨by decide, by decide, ?_⟩
  rintro ⟨t, ht, hv⟩
  have h : Gives (parseArithExpr noOperands)
      (.ofStr ['1', '+', '2', '*', '3', '*', '4', ')', ')'])
      (.binary .mul (.binary .add (.num 1 10) (.binary .mul (.num 2 10) (.num 3 10))) (.num 4 10),
        .ofStr [')', ')']) := by
    refine ⟨60, fun n hn => ?_⟩
    obtain ⟨m, rfl⟩ : ∃ m, n = m + 60 := ⟨n - 60, by omega⟩
    rfl
  obtain ⟨rfl, -⟩ := Prod.mk.inj (ht.unique h)
  exact absurd hv (by decide)

end Shish
