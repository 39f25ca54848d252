import Shish.Arith.Literal

/-!
# Arith/Chain — chains of binary operators

An expression of literals, parentheses and binary operators is a chain of operands; the table of
precedences, each level associating to the left, groups it into one tree (`Chain.tree`).
`parse_arith_binary` reads one operator a level on the way down to an operand, so it groups a chain
that way only when no operand on the right of an operator needs as many levels as the operator has
below it (`Arith.fits`), and otherwise regroups the rest or stops in front of it.
-/

namespace Shish

variable {ω : Type} {O : Operands ω}

/-! ## What the table says -/

/-- White space. -/
abbrev Blanks : Type := {b : Str // ∀ c ∈ b, parseIsspace c}

mutual

/-- An operand of a chain. -/
inductive Atom
  | lit (l : Literal) (h : l.Valid)
  | paren (b₁ : Blanks) (c : Chain) (b₂ : Blanks)

/-- A chain of operands and binary operators, with white space between them. -/
inductive Chain
  | one (x : Atom)
  | more (c : Chain) (b₁ : Blanks) (op : BinOp) (h : op ≠ .exp) (b₂ : Blanks) (x : Atom)

end

mutual

/-- What an operand looks like. -/
def Atom.text : Atom → Str
  | .lit l _ => l.text
  | .paren b₁ c b₂ => '(' :: (b₁.1 ++ c.text ++ b₂.1 ++ [')'])

/-- What a chain looks like. -/
def Chain.text : Chain → Str
  | .one x => x.text
  | .more c b₁ op _ b₂ x => c.text ++ b₁.1 ++ op.text ++ b₂.1 ++ x.text

end

/-- One operator more at the end of a chain: it goes below every operator that is looser than it,
and takes what is left of it otherwise. -/
def Arith.extend : Arith ω → BinOp → Arith ω → Arith ω
  | .binary o l r, op, x =>
      if op.level < o.level then .binary o l (r.extend op x) else .binary op (.binary o l r) x
  | t, op, x => .binary op t x

mutual

/-- The tree of an operand. -/
def Atom.tree (ω : Type) : Atom → Arith ω
  | .lit l _ => .num (UInt64.ofNat l.value).toInt64 l.base
  | .paren _ c _ => .paren (c.tree ω)

/-- The tree the table of precedences makes of a chain, each level associating to the left. -/
def Chain.tree (ω : Type) : Chain → Arith ω
  | .one x => x.tree ω
  | .more c _ op _ _ x => (c.tree ω).extend op (x.tree ω)

end

/-! ## What the parser can read -/

namespace Arith

/-- The loosest operator outside of parentheses. -/
def top : Arith ω → ℕ
  | binary op _ _ => op.level
  | _ => 0

/-- The level that reads a tree: one more than its left operand takes, and no tighter than its
operator. -/
def need : Arith ω → ℕ
  | binary op l _ => max (l.need + 1) op.level
  | _ => 0

/-- Every right operand can be read at a level tighter than its operator, and what is in parentheses
at the loosest level. -/
def fits : Arith ω → Bool
  | binary op l r => l.fits && r.fits && r.need < op.level
  | paren t => t.fits && t.need ≤ arithPrecTop
  | comma t u => t.fits && t.need ≤ arithPrecTop && u.fits && u.need ≤ arithPrecTop
  | unary _ t => t.fits
  | ternary c t u => c.fits && t.fits && u.fits
  | assign _ l r => l.fits && r.fits
  | _ => true

/-- The tree is grouped as the table says. -/
def Grouped : Arith ω → Prop
  | binary op l r => l.Grouped ∧ r.Grouped ∧ l.top ≤ op.level ∧ r.top < op.level
  | paren t => t.Grouped
  | _ => True

end Arith

/-! ## Text and trees -/

/-- The text `w` spells the tree, with white space between its tokens. -/
inductive Spells : Arith ω → Str → Prop
  | lit {l : Literal} : l.Valid → l.readable →
      Spells (.num (UInt64.ofNat l.value).toInt64 l.base) l.text
  | paren {t : Arith ω} {w : Str} (b₁ b₂ : Blanks) : Spells t w →
      Spells (.paren t) ('(' :: (b₁.1 ++ w ++ b₂.1 ++ [')']))
  | binary {op : BinOp} {l r : Arith ω} {w v : Str} (b₁ b₂ : Blanks) : op ≠ .exp → Spells l w →
      Spells r v → Spells (.binary op l r) (w ++ b₁.1 ++ op.text ++ b₂.1 ++ v)

mutual

/-- Every literal is readable. -/
def Atom.readable : Atom → Bool
  | .lit l _ => l.readable
  | .paren _ c _ => c.readable

/-- Every literal is readable. -/
def Chain.readable : Chain → Bool
  | .one x => x.readable
  | .more c _ _ _ _ x => c.readable && x.readable

end

theorem Spells.extend {t x : Arith ω} {w v : Str} {op : BinOp} (b₁ b₂ : Blanks) (h : op ≠ .exp)
    (ht : Spells t w) (hx : Spells x v) :
    Spells (t.extend op x) (w ++ b₁.1 ++ op.text ++ b₂.1 ++ v) := by
  induction ht with
  | lit hv hl => exact .binary b₁ b₂ h (.lit hv hl) hx
  | paren c₁ c₂ ht => exact .binary b₁ b₂ h (.paren c₁ c₂ ht) hx
  | @binary o l r w v' c₁ c₂ ho hl hr _ ihr =>
    rw [Arith.extend]
    split
    · have := Spells.binary c₁ c₂ ho hl ihr
      simpa only [List.append_assoc] using this
    · exact .binary b₁ b₂ h (.binary c₁ c₂ ho hl hr) hx

mutual

theorem Atom.spells : ∀ (x : Atom), x.readable → Spells (x.tree ω) x.text
  | .lit _ hv, h => .lit hv h
  | .paren b₁ c b₂, h => .paren b₁ b₂ (c.spells h)

theorem Chain.spells : ∀ (c : Chain), c.readable → Spells (c.tree ω) c.text
  | .one x, h => x.spells h
  | .more c b₁ op hop b₂ x, h => by
      simp only [Chain.readable, Bool.and_eq_true] at h
      exact (c.spells h.1).extend b₁ b₂ hop (x.spells h.2)

end

theorem Atom.top_tree : ∀ (x : Atom), (x.tree ω).top = 0
  | .lit _ _ => rfl
  | .paren _ _ _ => rfl

theorem BinOp.level_pos (op : BinOp) : 0 < op.level := by
  cases op <;> decide

theorem Arith.top_extend (t : Arith ω) (op : BinOp) (x : Arith ω) :
    (t.extend op x).top = max t.top op.level := by
  cases t with
  | binary o l r =>
    rw [extend]
    split
    · simp only [top]
      omega
    · simp only [top]
      omega
  | _ => simp [extend, top]

theorem Arith.grouped_extend {op : BinOp} {x : Arith ω} (hx : x.Grouped) (h0 : x.top = 0) :
    ∀ {t : Arith ω}, t.Grouped → (t.extend op x).Grouped
  | .binary o l r, ⟨hl, hr, h₁, h₂⟩ => by
      rw [Arith.extend]
      split
      · refine ⟨hl, grouped_extend hx h0 hr, h₁, ?_⟩
        rw [top_extend]
        omega
      · next h => exact ⟨⟨hl, hr, h₁, h₂⟩, hx, by simp only [top]; omega, by
          have := op.level_pos
          omega⟩
  | .null, h | .num _ _, h | .operand _, h | .paren _, h | .comma _ _, h | .unary _ _, h
  | .ternary _ _ _, h | .assign _ _ _, h =>
      ⟨h, hx, Nat.zero_le _, by rw [h0]; exact op.level_pos⟩

mutual

theorem Atom.grouped : ∀ (x : Atom), (x.tree ω).Grouped
  | .lit _ _ => trivial
  | .paren _ c _ => c.grouped

theorem Chain.grouped : ∀ (c : Chain), (c.tree ω).Grouped
  | .one x => x.grouped
  | .more c _ _ _ _ x => Arith.grouped_extend x.grouped x.top_tree c.grouped

end

/-! ## What follows -/

section Follow

/-- What follows an operand at level `p`: the end, or an operator that the table leaves to what
comes before and the level to what comes after. -/
inductive Follow (t : Arith ω) (p : ℕ) : Str → Prop
  | stop (b : Blanks) (r : Str) : Follow t p (b.1 ++ ')' :: r)
  | op (b : Blanks) {id : BinOp} {d : Char} {r : Str} : id ≠ .exp → endsOp d → d ≠ '\\' →
      (Source.ofStr r).peek ≠ none → t.top ≤ id.level → (t.need < p → p < id.level) →
      Follow t p (b.1 ++ (id.text ++ d :: r))

theorem ne_backslash_of_isspace {c : Char} (h : parseIsspace c) : c ≠ '\\' := by
  rintro rfl
  exact absurd h (by decide)

/-- The first character of white space and what follows it. -/
theorem Blanks.peek (b : Blanks) {r : Str} {P : Char → Prop} (hb : ∀ c, parseIsspace c → P c)
    (hr : ∀ c, (Source.ofStr r).peek = some c → P c) {c : Char}
    (h : (Source.ofStr (b.1 ++ r)).peek = some c) : P c := by
  obtain ⟨b, hbl⟩ := b
  cases b with
  | nil => exact hr c h
  | cons d b =>
    have hd := hbl d (.head _)
    rw [List.cons_append, Source.peek_cons (ne_backslash_of_isspace hd)] at h
    exact Option.some.inj h ▸ hb d hd

theorem BinOp.peek_text (id : BinOp) (t : Str) :
    (Source.ofStr (id.text ++ t)).peek = some (id.text.headD ' ') := by
  cases id <;> exact Source.peek_cons (by decide)

/-- Neither a digit nor a letter follows. -/
theorem Follow.endsNum {t : Arith ω} {p : ℕ} {r : Str} (h : Follow t p r) : endsNum r := by
  have hb : ∀ c, parseIsspace c → parseIsdigit c = false ∧ parseIsalpha c = false := by
    intro c hc
    simp only [parseIsspace, Bool.or_eq_true, beq_iff_eq] at hc
    rcases hc with ((rfl | rfl) | rfl) | rfl <;> decide
  cases h with
  | stop b r =>
    refine fun c hc => b.peek hb (fun c hc => ?_) hc
    rw [Source.peek_cons (by decide)] at hc
    obtain rfl := Option.some.inj hc
    decide
  | @op b id d r hid =>
    refine fun c hc => b.peek hb (fun c hc => ?_) hc
    rw [BinOp.peek_text] at hc
    obtain rfl := Option.some.inj hc
    cases id <;> decide

/-- No `++` and no `--` follows. -/
theorem Follow.noStep {t : Arith ω} {p : ℕ} {r : Str} (h : Follow t p r) :
    (Source.ofStr r).noStep := by
  have hb : ∀ c, parseIsspace c → ¬(c = '+' ∨ c = '-') := by
    rintro c hc (rfl | rfl) <;> exact absurd hc (by decide)
  cases h with
  | stop b r =>
    refine fun c hc hs => absurd hs (b.peek hb (fun c hc => ?_) hc)
    rw [Source.peek_cons (by decide)] at hc
    obtain rfl := Option.some.inj hc
    decide
  | @op b id d r hid hd hd' hr =>
    obtain ⟨b, hbl⟩ := b
    intro c hc hs
    cases b with
    | nil =>
      simp only [endsOp, List.mem_cons, List.not_mem_nil, or_false, not_or, decide_eq_true_eq] at hd
      simp only [List.nil_append, BinOp.peek_text, Option.some.injEq] at hc ⊢
      cases id <;> simp_all [BinOp.text, Source.peekn_succ, Source.peek_cons] <;>
        rcases hs with rfl | rfl <;> simp_all
    | cons e b =>
      have he := hbl e (.head _)
      rw [List.cons_append, Source.peek_cons (ne_backslash_of_isspace he)] at hc
      exact absurd hs (Option.some.inj hc ▸ hb e he)

/-- Behind the white space nothing is read that belongs elsewhere. -/
theorem Follow.behind {t : Arith ω} {p : ℕ} {r : Str} (h : Follow t p r) :
    ∃ r', (Source.ofStr r).skipspace true = Source.ofStr r' ∧
      (Source.ofStr r').skipspace true = Source.ofStr r' ∧
      ∀ q, t.need < q → q ≤ p → nextOp q (Source.ofStr r') = .left := by
  cases h with
  | stop b r =>
    have hs : (Source.ofStr (')' :: r)).skipspace true = Source.ofStr (')' :: r) :=
      Source.skipspace_stop (by decide) (by decide)
    refine ⟨_, (Source.skipspace_append b.2).trans hs, hs, fun q _ _ => ?_⟩
    exact nextOp_end (Source.peek_cons (by decide)) (by simp) q
  | @op b id d r hid hd hd' hr _ hn =>
    have hs : (Source.ofStr (id.text ++ d :: r)).skipspace true =
        Source.ofStr (id.text ++ d :: r) := by
      cases id <;> exact Source.skipspace_stop (by decide) (by decide)
    refine ⟨_, (Source.skipspace_append b.2).trans hs, hs, fun q h₁ h₂ => ?_⟩
    exact nextOp_left hid hd' hd (by have := hn (by omega); omega)

end Follow

/-! ## What the parser reads -/

section Read

/-- Levels with nothing to read pass an operand on. -/
theorem level_climb {p₀ p : ℕ} {s s₁ s₂ : Source} {t : Arith ω}
    (hb : Gives (level O p₀) s (t, s₁)) (h0 : t.isNull = false) (hs : s₁.skipspace true = s₂)
    (hs₂ : s₂.skipspace true = s₂) (hp : p₀ ≤ p)
    (hn : ∀ q, p₀ < q → q ≤ p → nextOp q s₂ = .left) :
    Gives (level O p) s (t, if p = p₀ then s₁ else s₂) := by
  induction p, hp using Nat.le_induction with
  | base => rwa [if_pos rfl]
  | succ p hp ih =>
    have h := ih fun q h₁ h₂ => hn q h₁ (by omega)
    have hs' : (if p = p₀ then s₁ else s₂).skipspace true = s₂ := by
      split
      · exact hs
      · exact hs₂
    have := level_left h h0 (by rw [hs']; exact hn (p + 1) (by omega) le_rfl)
    rwa [if_neg (show p + 1 ≠ p₀ by omega), ← hs']

/-- The first character of an operand. -/
def startsAtom (c : Char) : Bool := c = '(' || parseIsdigit c

theorem Spells.starts {t : Arith ω} {w : Str} (h : Spells t w) :
    ∃ c w', w = c :: w' ∧ startsAtom c := by
  induction h with
  | @lit l hv hl =>
    cases l with
    | dec ds =>
      obtain ⟨c, ds, rfl⟩ := List.exists_cons_of_ne_nil hv.1.1
      exact ⟨c, ds, rfl, by simp [startsAtom, hv.1.2.1 c (.head _)]⟩
    | oct ds => exact ⟨_, _, rfl, by decide⟩
    | hex upper ds => exact ⟨_, _, rfl, by decide⟩
  | paren b₁ b₂ _ _ => exact ⟨_, _, rfl, by decide⟩
  | binary b₁ b₂ _ _ _ ih _ =>
    obtain ⟨c, w', rfl, hc⟩ := ih
    exact ⟨c, _, rfl, hc⟩

theorem startsAtom_spec {c : Char} (h : startsAtom c) : c ≠ '\\' ∧ parseIsspace c = false ∧
    endsOp c ∧ c ∉ ['!', '~', '-', '+'] := by
  have hne : ∀ d, startsAtom d = false → c ≠ d := by
    rintro d hd rfl
    exact absurd h (by simp [hd])
  refine ⟨hne _ (by decide), ?_, ?_, ?_⟩
  · simp [parseIsspace, hne _ (show startsAtom ' ' = false by decide),
      hne _ (show startsAtom '\t' = false by decide), hne _ (show startsAtom '\n' = false by decide),
      hne _ (show startsAtom '\r' = false by decide)]
  · have hops : ['=', '*', '+', '-', '<', '>', '&', '|'].all (!startsAtom ·) := by decide
    rw [List.all_eq_true] at hops
    have hmem : c ∉ ['=', '*', '+', '-', '<', '>', '&', '|'] :=
      fun hm => hne c (by simpa using hops c hm) rfl
    simpa [endsOp] using hmem
  · have hsigns : ['!', '~', '-', '+'].all (!startsAtom ·) := by decide
    rw [List.all_eq_true] at hsigns
    exact fun hm => hne c (by simpa using hsigns c hm) rfl

theorem Literal.ne_backslash {l : Literal} (h : l.Written) : ∀ c ∈ l.text, c ≠ '\\' := by
  have hx : ∀ {c}, parseIsxdigit c → c ≠ '\\' := ne_backslash_of_isxdigit
  have hd : ∀ {c}, parseIsdigit c → c ≠ '\\' := fun h => hx (by simp [parseIsxdigit, h])
  cases l with
  | dec ds => exact fun c hc => hd (h.2.1 c hc)
  | oct ds =>
    refine List.forall_mem_cons.2 ⟨by decide, fun c hc => hd (isdigit_of_isodigit (h.2 c hc))⟩
  | hex upper ds =>
    refine List.forall_mem_cons.2 ⟨by decide, List.forall_mem_cons.2 ⟨?_, fun c hc => hx (h.2 c hc)⟩⟩
    cases upper <;> decide

theorem Spells.ne_backslash {t : Arith ω} {w : Str} (h : Spells t w) : ∀ c ∈ w, c ≠ '\\' := by
  have hb : ∀ (b : Blanks), ∀ c ∈ b.1, c ≠ '\\' := fun b c hc => ne_backslash_of_isspace (b.2 c hc)
  induction h with
  | lit hv _ => exact Literal.ne_backslash hv.1
  | paren b₁ b₂ _ ih =>
    intro c hc
    simp only [List.mem_cons, List.mem_append, List.not_mem_nil, or_false] at hc
    rcases hc with rfl | ((hc | hc) | hc) | rfl
    · decide
    · exact hb b₁ c hc
    · exact ih c hc
    · exact hb b₂ c hc
    · decide
  | @binary op l r w v b₁ b₂ _ _ _ ihl ihr =>
    intro c hc
    simp only [List.mem_append] at hc
    rcases hc with (((hc | hc) | hc) | hc) | hc
    · exact ihl c hc
    · exact hb b₁ c hc
    · have hop : op.text.all (· ≠ '\\') := by cases op <;> decide
      rw [List.all_eq_true] at hop
      simpa using hop c hc
    · exact hb b₂ c hc
    · exact ihr c hc

theorem Spells.isNull {t : Arith ω} {w : Str} (h : Spells t w) : t.isNull = false := by
  cases h <;> rfl

theorem Spells.isParam {t : Arith ω} {w : Str} (h : Spells t w) : t.isParam O = false := by
  cases h <;> rfl

/-- Text without a backslash in it is there to be seen. -/
theorem peek_append_ne_none {w r : Str} (hw : ∀ c ∈ w, c ≠ '\\') (hr : (Source.ofStr r).peek ≠ none) :
    (Source.ofStr (w ++ r)).peek ≠ none := by
  cases w with
  | nil => exact hr
  | cons c w =>
    rw [List.cons_append, Source.peek_cons (hw c (.head _))]
    exact nofun

theorem Follow.peek_ne_none {t : Arith ω} {p : ℕ} {r : Str} (h : Follow t p r) :
    (Source.ofStr r).peek ≠ none := by
  have hb : ∀ (b : Blanks), ∀ c ∈ b.1, c ≠ '\\' := fun b c hc => ne_backslash_of_isspace (b.2 c hc)
  cases h with
  | stop b r =>
    refine peek_append_ne_none (hb b) ?_
    rw [Source.peek_cons (by decide)]
    exact nofun
  | op b _ _ _ _ _ _ =>
    refine peek_append_ne_none (hb b) ?_
    rw [BinOp.peek_text]
    exact nofun

/-- White space and an operand end an operator in front of them. -/
theorem Spells.behind_op {u : Arith ω} {v r : Str} (b : Blanks) (hu : Spells u v)
    (hr : (Source.ofStr r).peek ≠ none) : ∃ d t, b.1 ++ (v ++ r) = d :: t ∧ endsOp d ∧ d ≠ '\\' ∧
      (Source.ofStr t).peek ≠ none := by
  obtain ⟨c, v', rfl, hc⟩ := hu.starts
  have hv := hu.ne_backslash
  obtain ⟨hb, -, he, -⟩ := startsAtom_spec hc
  obtain ⟨b, hbl⟩ := b
  cases b with
  | nil => exact ⟨c, v' ++ r, rfl, he, hb, peek_append_ne_none (fun d hd => hv d (.tail _ hd)) hr⟩
  | cons d b =>
    have hd := hbl d (.head _)
    have hde : endsOp d := by
      simp only [parseIsspace, Bool.or_eq_true, beq_iff_eq] at hd
      rcases hd with ((rfl | rfl) | rfl) | rfl <;> decide
    refine ⟨d, b ++ (c :: v' ++ r), rfl, hde, ne_backslash_of_isspace hd, ?_⟩
    refine peek_append_ne_none (fun e he => ne_backslash_of_isspace (hbl e (.tail _ he))) ?_
    exact peek_append_ne_none hv hr

/-- What follows an operation follows its right operand. -/
theorem Follow.right {op : BinOp} {l u : Arith ω} {p : ℕ} {r : Str}
    (h : Follow (.binary op l u) p r) (hu : u.top < op.level) : Follow u (op.level - 1) r := by
  cases h with
  | stop b r => exact .stop b r
  | @op b id d r h₁ h₂ h₃ h₄ h₅ h₆ =>
    have hle : op.level ≤ id.level := h₅
    exact .op b h₁ h₂ h₃ h₄ (by omega) fun _ => by omega

/-- Behind an operator. -/
theorem skip_text (op : BinOp) (t : Str) :
    (if op.text.length == 2 then (Source.ofStr (op.text ++ t)).skip
      else Source.ofStr (op.text ++ t)).skip = Source.ofStr t := by
  cases op <;> simp [BinOp.text, Source.skip_cons]

theorem Spells.skipspace {t : Arith ω} {w r : Str} (h : Spells t w) (b : Blanks) :
    (Source.ofStr (b.1 ++ (w ++ r))).skipspace true = Source.ofStr (w ++ r) := by
  obtain ⟨c, w', rfl, hc⟩ := h.starts
  obtain ⟨hb, hs, -⟩ := startsAtom_spec hc
  exact (Source.skipspace_append b.2).trans (Source.skipspace_stop hb hs)

/-- What is left behind an operand: white space is skipped at every level but the lowest. -/
def left (p : ℕ) (r : Str) : Source :=
  if p = 0 then Source.ofStr r else (Source.ofStr r).skipspace true

/-- From the level that reads an operand to the looser ones. -/
theorem Follow.climb {t : Arith ω} {p : ℕ} {r : Str} {s : Source} (hf : Follow t p r)
    (h0 : t.isNull = false) (hp : t.need ≤ p)
    (h : Gives (level O t.need) s (t, left t.need r)) : Gives (level O p) s (t, left p r) := by
  obtain ⟨r', h₁, h₂, h₃⟩ := hf.behind
  have hs : (left t.need r).skipspace true = Source.ofStr r' := by
    unfold left
    split
    · exact h₁
    · rw [h₁, h₂]
  have hc := level_climb h h0 hs h₂ hp h₃
  by_cases hpn : p = t.need
  · rwa [if_pos hpn, ← hpn] at hc
  · rwa [if_neg hpn, ← h₁, ← show left p r = _ from if_neg (by omega)] at hc

/-- A chain in parentheses. -/
theorem expr_of_level {t : Arith ω} {w r : Str} (hw : Spells t w)
    (h : Gives (level O arithPrecTop) (Source.ofStr (w ++ r)) (t, (Source.ofStr r).skipspace true))
    (b : Blanks) (hr : ((Source.ofStr r).skipspace true).skipspace true =
      (Source.ofStr r).skipspace true) (hq : ((Source.ofStr r).skipspace true).peek ≠ some '?') :
    Gives (parseArithExpr O) (Source.ofStr (b.1 ++ (w ++ r)))
      (t, (Source.ofStr r).skipspace true) := by
  have hs := hw.skipspace (r := r) b
  have ht := ternary_cond h hw.isNull (by rwa [hr])
  rw [hr] at ht
  refine expr_assign ?_ ?_ hw.isNull
  · rw [hs]
    obtain ⟨c, w', rfl, hc⟩ := hw.starts
    rw [List.cons_append, Source.peek_cons (startsAtom_spec hc).1]
    exact nofun
  · rw [hs]
    exact assign_other ht hw.isParam

/-- **A text that spells a tree which fits is read as it.** -/
theorem Spells.gives {t : Arith ω} {w : Str} (h : Spells t w) : t.Grouped → t.fits →
    ∀ {p : ℕ} {r : Str}, t.need ≤ p → Follow t p r →
    Gives (level O p) (Source.ofStr (w ++ r)) (t, left p r) := by
  induction h with
  | @lit l hv hl =>
    intro _ _ p r hp hf
    have hw : Spells (ω := ω) _ l.text := .lit hv hl
    obtain ⟨c, w', hcw, hc⟩ := hw.starts
    obtain ⟨hb, -, -, hs⟩ := startsAtom_spec hc
    refine hf.climb rfl hp ?_
    have hv' := value_literal (O := O) hv.1 hv.lt_bound hl hf.endsNum
    rw [hcw] at hv' ⊢
    exact level_value (Source.peek_cons hb) hs hv' rfl hf.noStep
  | @paren t w b₁ b₂ hw ih =>
    intro hg hfit p r hp hf
    simp only [Arith.fits, Bool.and_eq_true, decide_eq_true_eq] at hfit
    have hstop : Follow t arithPrecTop (b₂.1 ++ ')' :: r) := .stop b₂ r
    have hbr : (Source.ofStr (b₂.1 ++ ')' :: r)).skipspace true = Source.ofStr (')' :: r) :=
      (Source.skipspace_append b₂.2).trans (Source.skipspace_stop (by decide) (by decide))
    have hin := ih hg hfit.1 hfit.2 hstop
    rw [show left arithPrecTop (b₂.1 ++ ')' :: r) = _ from if_neg (by decide)] at hin
    have he := expr_of_level hw hin ⟨[], nofun⟩ (by
      rw [hbr]
      exact Source.skipspace_stop (by decide) (by decide)) (by
      rw [hbr, Source.peek_cons (by decide)]
      decide)
    rw [hbr] at he
    have hl := list_last he hw.isNull (Source.peek_cons (by decide))
    rw [Source.skip_cons (by decide)] at hl
    refine hf.climb rfl hp (level_value (c := '(') ?_ (by decide) (value_paren ?_ ?_ hw.isNull) rfl
      hf.noStep)
    · exact Source.peek_cons (by decide)
    · exact Source.peek_cons (by decide)
    · rw [List.cons_append, Source.skip_cons (by decide)]
      simp only [List.append_assoc, List.cons_append, List.nil_append]
      rwa [hw.skipspace b₁]
  | @binary op l u w v b₁ b₂ hop hl hu ihl ihu =>
    intro ⟨hgl, hgu, htl, htu⟩ hfit p r hp hf
    simp only [Arith.fits, Bool.and_eq_true, decide_eq_true_eq] at hfit
    obtain ⟨⟨hfl, hfu⟩, hneed⟩ := hfit
    refine hf.climb rfl hp ?_
    have hlev := op.level_pos
    have hq : (Arith.binary op l u).need = max (l.need + 1) op.level := rfl
    generalize (Arith.binary op l u).need = q at *
    obtain ⟨q, rfl⟩ : ∃ m, q = m + 1 := ⟨q - 1, by omega⟩
    obtain ⟨d, t, hdt, hd, hb, ht⟩ := hu.behind_op b₂ hf.peek_ne_none
    -- the left operand, with the operator behind it
    have hfl' : Follow l q (b₁.1 ++ (op.text ++ (b₂.1 ++ (v ++ r)))) := by
      rw [hdt]
      exact .op b₁ hop hd hb ht htl (by omega)
    have hleft := ihl hgl hfl (by omega) hfl'
    have hstop : (Source.ofStr (op.text ++ (b₂.1 ++ (v ++ r)))).skipspace true =
        Source.ofStr (op.text ++ (b₂.1 ++ (v ++ r))) := by
      cases op <;> exact Source.skipspace_stop (by decide) (by decide)
    have hs : (left q (b₁.1 ++ (op.text ++ (b₂.1 ++ (v ++ r))))).skipspace true =
        Source.ofStr (op.text ++ (b₂.1 ++ (v ++ r))) := by
      unfold left
      split <;> simp only [Source.skipspace_append b₁.2, hstop]
    have hnext : nextOp (q + 1) (Source.ofStr (op.text ++ (b₂.1 ++ (v ++ r)))) =
        .op op (op.text.length == 2) op.level := by
      rw [hdt]
      exact nextOp_op hop hb hd ht (by omega)
    -- the right operand, one level tighter than the operator
    have hlevel : op.level - 1 ≠ 0 := by
      cases op <;> simp_all [BinOp.level]
    have hright := ihu hgu hfu (p := op.level - 1) (r := r) (by omega) (hf.right htu)
    rw [show left (op.level - 1) r = left (q + 1) r by simp [left, hlevel]] at hright
    have h := level_op hleft hl.isNull (by rw [hs]; exact hnext)
      (by rwa [hs, skip_text, hu.skipspace]) hu.isNull
    simpa only [List.append_assoc] using h

end Read

end Shish
