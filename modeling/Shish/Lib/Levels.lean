import Mathlib.Data.List.Basic

/-!
# Lib/Levels — operators by level

Binary operators that group from the left, level by level, around operands and parentheses.  What a token is depends
on where it stands: where an operand is expected every token but the opening one is an operand.  So every list of
tokens is read from the left, in one way, though something may be missing in its tree and something left over
(`exists_reads`, `Reads.unique`), and the sentences are the lists that are read with nothing missing and nothing left
(`derives_iff`).  A tree means what its operators do, the first one that fails deciding.
-/

namespace Shish

/-- **Operators by level**: the tokens that are one, their levels, and the parentheses. -/
structure Levels (α ω : Type*) where
  op : α → Option ω
  level : ω → ℕ
  top : ℕ
  level_lt : ∀ o, level o < top
  opening : α
  closing : α
  op_closing : op closing = none

/-- What is read: a tree, in which an operand or a closing parenthesis may be missing. -/
inductive OpTree (α ω : Type*)
  | operand (a : α)
  | missing
  | group (e : OpTree α ω)
  | unclosed (e : OpTree α ω)
  | node (o : ω) (e e' : OpTree α ω)

namespace OpTree
variable {α ω : Type*}

/-- Nothing is missing. -/
def Whole : OpTree α ω → Prop
  | operand _ => True
  | missing => False
  | group e => e.Whole
  | unclosed _ => False
  | node _ e e' => e.Whole ∧ e'.Whole

/-- The operands, from the left. -/
def operands : OpTree α ω → List α
  | operand a => [a]
  | missing => []
  | group e => e.operands
  | unclosed e => e.operands
  | node _ e e' => e.operands ++ e'.operands

end OpTree

namespace Levels
variable {α ω : Type*} (G : Levels α ω)

/-! ## Sentences -/

/-- **The grammar**: a sentence of a level, with its tree. -/
inductive Derives : ℕ → OpTree α ω → List α → Prop
  | operand {l a} : l = G.top → a ≠ G.opening → Derives l (.operand a) [a]
  | group {l e ts} : l = G.top → Derives 0 e ts → Derives l (.group e) (G.opening :: ts ++ [G.closing])
  | level {l e ts} : l < G.top → Derives (l + 1) e ts → Derives l e ts
  | node {l e ts a o e' ts'} : G.op a = some o → G.level o = l → Derives l e ts → Derives (l + 1) e' ts' →
      Derives l (.node o e e') (ts ++ a :: ts')

/-- No operator of the level comes next. -/
def Ends (l : ℕ) (ts : List α) : Prop := ∀ a o, ts.head? = some a → G.op a = some o → G.level o ≠ l

/-- **A reading** of a level: the tree, and what is left.  When some of the level has been read already it is given,
and the reading goes on as long as operators of the level follow. -/
inductive Reads : ℕ → Option (OpTree α ω) → List α → OpTree α ω → List α → Prop
  | missing {l} : l = G.top → Reads l none [] .missing []
  | operand {l a ts} : l = G.top → a ≠ G.opening → Reads l none (a :: ts) (.operand a) ts
  | group {l ts e rest} : l = G.top → Reads 0 none ts e (G.closing :: rest) →
      Reads l none (G.opening :: ts) (.group e) rest
  | unclosed {l ts e rest} : l = G.top → Reads 0 none ts e rest → rest.head? ≠ some G.closing →
      Reads l none (G.opening :: ts) (.unclosed e) rest
  | level {l ts e ts' e' rest} : l < G.top → Reads (l + 1) none ts e ts' → Reads l (some e) ts' e' rest →
      Reads l none ts e' rest
  | last {l e ts} : G.Ends l ts → Reads l (some e) ts e ts
  | next {l e a o ts e₁ ts' e' rest} : G.op a = some o → G.level o = l → Reads (l + 1) none ts e₁ ts' →
      Reads l (some (.node o e e₁)) ts' e' rest → Reads l (some e) (a :: ts) e' rest

variable {G} {l : ℕ} {acc : Option (OpTree α ω)} {ts rest : List α} {e : OpTree α ω}

theorem Reads.suffix (h : G.Reads l acc ts e rest) : rest <:+ ts := by
  induction h with
  | missing => exact List.suffix_rfl
  | operand => exact List.suffix_cons _ _
  | group _ _ ih => exact (List.suffix_cons _ _).trans (ih.trans (List.suffix_cons _ _))
  | unclosed _ _ _ ih => exact ih.trans (List.suffix_cons _ _)
  | level _ _ _ ih ih' => exact ih'.trans ih
  | last => exact List.suffix_rfl
  | next _ _ _ _ ih ih' => exact ih'.trans (ih.trans (List.suffix_cons _ _))

theorem Reads.length_le (h : G.Reads l acc ts e rest) : rest.length ≤ ts.length := h.suffix.length_le

/-- The operands are among what is read. -/
theorem Reads.mem_operands (h : G.Reads l acc ts e rest) {a : α} (ha : a ∈ e.operands) :
    a ∈ ts ∨ a ∈ acc.elim [] OpTree.operands := by
  have hnone : ¬a ∈ (none : Option (OpTree α ω)).elim [] OpTree.operands := List.not_mem_nil
  induction h with
  | missing => exact .inr ha
  | operand => exact .inl (List.mem_singleton.1 ha ▸ List.mem_cons_self)
  | group _ _ ih => exact .inl (List.mem_cons_of_mem _ ((ih ha).resolve_right hnone))
  | unclosed _ _ _ ih => exact .inl (List.mem_cons_of_mem _ ((ih ha).resolve_right hnone))
  | level _ h₁ _ ih ih' =>
    obtain hts | h₀ := ih' ha
    · exact .inl (h₁.suffix.subset hts)
    · exact .inl ((ih h₀).resolve_right hnone)
  | last => exact .inr ha
  | next _ _ h₁ _ ih ih' =>
    obtain hts | h₀ := ih' ha
    · exact .inl (List.mem_cons_of_mem _ (h₁.suffix.subset hts))
    · obtain h₀ | h₀ := List.mem_append.1 h₀
      · exact .inr h₀
      · exact .inl (List.mem_cons_of_mem _ ((ih h₀).resolve_right hnone))

/-- **A list is read in one way.** -/
theorem Reads.unique (h : G.Reads l acc ts e rest) :
    ∀ {e' rest'}, G.Reads l acc ts e' rest' → e = e' ∧ rest = rest' := by
  induction h with
  | missing hl =>
    intro _ _ h'
    cases h' with
    | missing => exact ⟨rfl, rfl⟩
    | level hlt => omega
  | operand hl ha =>
    intro _ _ h'
    cases h' with
    | operand => exact ⟨rfl, rfl⟩
    | group => exact absurd rfl ha
    | unclosed => exact absurd rfl ha
    | level hlt => omega
  | group hl _ ih =>
    intro _ _ h'
    cases h' with
    | operand _ ha => exact absurd rfl ha
    | group _ h₁ =>
      obtain ⟨rfl, hrest⟩ := ih h₁
      exact ⟨rfl, List.tail_eq_of_cons_eq hrest⟩
    | unclosed _ h₁ hne =>
      obtain ⟨-, rfl⟩ := ih h₁
      exact absurd rfl hne
    | level hlt => omega
  | unclosed hl _ hne ih =>
    intro _ _ h'
    cases h' with
    | operand _ ha => exact absurd rfl ha
    | group _ h₁ =>
      obtain ⟨-, rfl⟩ := ih h₁
      exact absurd rfl hne
    | unclosed _ h₁ =>
      obtain ⟨rfl, rfl⟩ := ih h₁
      exact ⟨rfl, rfl⟩
    | level hlt => omega
  | level hlt _ _ ih ih' =>
    intro _ _ h'
    cases h' with
    | missing => omega
    | operand => omega
    | group => omega
    | unclosed => omega
    | level _ h₁ h₂ =>
      obtain ⟨rfl, rfl⟩ := ih h₁
      exact ih' h₂
  | last hends =>
    intro _ _ h'
    cases h' with
    | last => exact ⟨rfl, rfl⟩
    | next ho hl => exact absurd hl (hends _ _ rfl ho)
  | next ho hl _ _ ih ih' =>
    intro _ _ h'
    cases h' with
    | last hends => exact absurd hl (hends _ _ rfl ho)
    | next ho' _ h₁ h₂ =>
      obtain rfl := Option.some.inj (ho.symm.trans ho')
      obtain ⟨rfl, rfl⟩ := ih h₁
      exact ih' h₂

/-! ## Every list is read -/

/-- The operators of a level that follow are read, when what is behind them can be. -/
theorem exists_loop {n : ℕ} (hsub : ∀ ts : List α, ts.length < n → ∃ e rest, G.Reads (l + 1) none ts e rest) :
    ∀ (m : ℕ) (ts : List α) (e : OpTree α ω), ts.length ≤ m → m ≤ n → ∃ e' rest, G.Reads l (some e) ts e' rest
  | _, [], e, _, _ => ⟨e, [], .last nofun⟩
  | m + 1, a :: ts, e, hts, hm => by
      rw [List.length_cons] at hts
      by_cases h : ∃ o, G.op a = some o ∧ G.level o = l
      · obtain ⟨o, ho, hl⟩ := h
        obtain ⟨e₁, rest, h₁⟩ := hsub ts (by omega)
        have hle := h₁.length_le
        obtain ⟨e', rest', h'⟩ := exists_loop hsub m rest (.node o e e₁) (by omega) (by omega)
        exact ⟨e', rest', .next ho hl h₁ h'⟩
      · refine ⟨e, a :: ts, .last fun b o hb ho hl => h ⟨o, ?_, hl⟩⟩
        rwa [Option.some.inj hb]

/-- **Every list of tokens can be read.** -/
theorem exists_reads : ∀ (n k l : ℕ) (ts : List α), ts.length ≤ n → l + k = G.top →
    ∃ e rest, G.Reads l none ts e rest
  | _, 0, _, [], _, hl => ⟨.missing, [], .missing hl⟩
  | n + 1, 0, l, a :: ts, hn, hl => by
      by_cases ha : a = G.opening
      · obtain ⟨e, rest, h⟩ := exists_reads n G.top 0 ts (Nat.le_of_succ_le_succ hn) (Nat.zero_add _)
        subst ha
        by_cases hc : rest.head? = some G.closing
        · obtain ⟨rest', rfl⟩ := List.head?_eq_some_iff.1 hc
          exact ⟨.group e, rest', .group hl h⟩
        · exact ⟨.unclosed e, rest, .unclosed hl h hc⟩
      · exact ⟨.operand a, ts, .operand hl ha⟩
  | n, k + 1, l, ts, hn, hl => by
      obtain ⟨e, ts', h⟩ := exists_reads n k (l + 1) ts hn (by omega)
      have hle := h.length_le
      have hsub : ∀ ts'' : List α, ts''.length < ts'.length → ∃ e rest, G.Reads (l + 1) none ts'' e rest :=
        fun ts'' ht => exists_reads (n - 1) k (l + 1) ts'' (by omega) (by omega)
      obtain ⟨e', rest, h'⟩ := exists_loop hsub ts'.length ts' e (Nat.le_refl _) (Nat.le_refl _)
      exact ⟨e', rest, .level (by omega) h h'⟩
termination_by n k => (n, k)

/-! ## The sentences among them -/

theorem Derives.whole (h : G.Derives l e ts) : e.Whole := by
  induction h with
  | operand => trivial
  | group _ _ ih => exact ih
  | level _ _ ih => exact ih
  | node _ _ _ _ ih ih' => exact ⟨ih, ih'⟩

/-- A sentence is read, if no tighter operator follows it. -/
theorem Derives.reads (h : G.Derives l e ts) : ∀ {rest e' rest'}, (∀ l', l < l' → G.Ends l' rest) →
    G.Reads l (some e) rest e' rest' → G.Reads l none (ts ++ rest) e' rest' := by
  have htop : ∀ {e : OpTree α ω} {ts e' ts'}, G.Reads G.top (some e) ts e' ts' → e' = e ∧ ts' = ts := by
    intro e ts e' ts' h'
    cases h' with
    | last => exact ⟨rfl, rfl⟩
    | next _ hl => exact absurd hl (Nat.ne_of_lt (G.level_lt _))
  have hlast : ∀ {l : ℕ} {e : OpTree α ω} {rest}, (∀ l', l < l' → G.Ends l' rest) →
      G.Reads (l + 1) (some e) rest e rest := fun hends => .last (hends _ (Nat.lt_succ_self _))
  induction h with
  | operand hl ha =>
    intro rest e' rest' _ h'
    subst hl
    obtain ⟨rfl, rfl⟩ := htop h'
    exact .operand rfl ha
  | @group l e ts hl _ ih =>
    intro rest e' rest' _ h'
    subst hl
    obtain ⟨rfl, rfl⟩ := htop h'
    have hclosing : ∀ l', G.Ends l' (G.closing :: rest') := fun l' a o ha ho => by
      obtain rfl := Option.some.inj ha
      exact absurd (G.op_closing.symm.trans ho) nofun
    have hread := ih (fun l' _ => hclosing l') (.last (hclosing 0))
    rw [List.append_assoc, List.cons_append]
    exact .group rfl hread
  | level hlt _ ih =>
    intro rest e' rest' hends h'
    exact .level hlt (ih (fun l' hl' => hends l' (Nat.lt_of_succ_lt hl')) (hlast hends)) h'
  | @node l e ts a o e₁ ts₁ ho hl _ _ ih ih₁ =>
    intro rest e' rest' hends h'
    have h₁ := ih₁ (fun l' hl' => hends l' (Nat.lt_of_succ_lt hl')) (hlast hends)
    rw [List.append_assoc]
    refine ih (fun l' hl' b o' hb ho' => ?_) (.next ho hl h₁ h')
    obtain rfl := Option.some.inj hb
    obtain rfl := Option.some.inj (ho.symm.trans ho')
    omega

/-- What is read with nothing missing is a sentence. -/
theorem Reads.derives (h : G.Reads l acc ts e rest) (hw : e.Whole) :
    ∃ ts', ts = ts' ++ rest ∧ match acc with
      | none => G.Derives l e ts'
      | some e₀ => e₀.Whole ∧ ∀ ts₀, G.Derives l e₀ ts₀ → G.Derives l e (ts₀ ++ ts') := by
  induction h with
  | missing => exact hw.elim
  | operand hl ha => exact ⟨[_], rfl, .operand hl ha⟩
  | group hl _ ih =>
    obtain ⟨ts', rfl, hd⟩ := ih hw
    exact ⟨G.opening :: ts' ++ [G.closing], by simp, .group hl hd⟩
  | unclosed => exact hw.elim
  | level hlt _ _ ih ih' =>
    obtain ⟨ts', rfl, hw', hd'⟩ := ih' hw
    obtain ⟨ts₁, rfl, hd₁⟩ := ih hw'
    exact ⟨ts₁ ++ ts', (List.append_assoc _ _ _).symm, hd' ts₁ (.level hlt hd₁)⟩
  | last => exact ⟨[], rfl, hw, fun ts₀ hd => (List.append_nil ts₀).symm ▸ hd⟩
  | @next l e a o _ _ _ _ _ ho hl _ _ ih ih' =>
    obtain ⟨ts', rfl, hw', hd'⟩ := ih' hw
    obtain ⟨ts₁, rfl, hd₁⟩ := ih hw'.2
    refine ⟨a :: ts₁ ++ ts', by simp, hw'.1, fun ts₀ hd => ?_⟩
    have := hd' _ (.node ho hl hd hd₁)
    rwa [List.append_assoc] at this

/-- **The sentences** are the lists read with nothing missing and nothing left. -/
theorem derives_iff : G.Derives 0 e ts ↔ G.Reads 0 none ts e [] ∧ e.Whole := by
  constructor
  · intro h
    have hends : ∀ l, G.Ends l [] := fun l => nofun
    have hread := h.reads (fun l' _ => hends l') (.last (hends 0))
    rw [List.append_nil] at hread
    exact ⟨hread, h.whole⟩
  · rintro ⟨h, hw⟩
    obtain ⟨ts', rfl, hd⟩ := h.derives hw
    rwa [List.append_nil]

/-! ## What a tree means -/

/-- What operands and operators mean, and what is missing. -/
structure Meaning (α ω β ε : Type*) where
  leaf : α → β
  act : ω → β → β → Except ε β
  missing : ε
  unclosed : ε

namespace Meaning
variable {β γ ε : Type*} (M : Meaning α ω β ε)

/-- The operators do what they do as soon as their right operand is there. -/
def eval : OpTree α ω → Except ε β
  | .operand a => .ok (M.leaf a)
  | .missing => .error M.missing
  | .group e => eval e
  | .unclosed e => (eval e).bind fun _ => .error M.unclosed
  | .node o e e' => (eval e).bind fun a => (eval e').bind (M.act o a)

/-- Every operator that is met, is met with operands for which `Q` holds. -/
def Met (Q : ω → β → β → Prop) : OpTree α ω → Prop
  | .operand _ => True
  | .missing => True
  | .group e => Met Q e
  | .unclosed e => Met Q e
  | .node o e e' => Met Q e ∧ ∀ a, M.eval e = .ok a → Met Q e' ∧ ∀ b, M.eval e' = .ok b → Q o a b

variable {M} {x : ε}

example (a : α) : M.eval (.operand a : OpTree α ω) = .ok (M.leaf a) := by rw [eval]

/-- The first failure decides. -/
theorem eval_node_of_error {o : ω} {e e' : OpTree α ω} (h : M.eval e = .error x) :
    M.eval (.node o e e') = .error x := by
  rw [eval, h]
  rfl

/-- A failure of what has been read stays. -/
theorem eval_error (h : G.Reads l acc ts e rest) :
    ∀ e₀, acc = some e₀ → M.eval e₀ = .error x → M.eval e = .error x := by
  induction h with
  | missing => nofun
  | operand => nofun
  | group => nofun
  | unclosed => nofun
  | level => nofun
  | last =>
    rintro _ ⟨⟩ h₀
    exact h₀
  | next _ _ _ _ _ ih' =>
    rintro _ ⟨⟩ h₀
    exact ih' _ rfl (eval_node_of_error h₀)

/-- Where something is missing there is no value. -/
theorem eval_not_whole : ∀ {e : OpTree α ω}, ¬e.Whole → ∃ x, M.eval e = .error x
  | .operand _, hw => absurd trivial hw
  | .missing, _ => ⟨_, rfl⟩
  | .group e, hw => @eval_not_whole e hw
  | .unclosed e, _ => by
      rw [eval]
      cases M.eval e with
      | ok => exact ⟨_, rfl⟩
      | error x => exact ⟨x, rfl⟩
  | .node o e e', hw => by
      by_cases h : e.Whole
      · obtain ⟨x, hx⟩ := eval_not_whole fun h' => hw ⟨h, h'⟩
        rw [eval, hx]
        cases M.eval e with
        | ok => exact ⟨_, rfl⟩
        | error y => exact ⟨y, rfl⟩
      · obtain ⟨x, hx⟩ := eval_not_whole h
        exact ⟨x, eval_node_of_error hx⟩

/-- Where nothing is missing only an operator fails. -/
theorem act_of_eval : ∀ {e : OpTree α ω}, e.Whole → M.eval e = .error x → ∃ o a b, M.act o a b = .error x
  | .operand _, _, h => by cases h
  | .group e, hw, h => @act_of_eval e hw h
  | .node o e e', hw, h => by
      rw [eval] at h
      cases ha : M.eval e with
      | error y =>
        rw [ha] at h
        cases h
        exact act_of_eval hw.1 ha
      | ok a =>
        rw [ha] at h
        cases hb : M.eval e' with
        | error y =>
          rw [hb] at h
          cases h
          exact act_of_eval hw.2 hb
        | ok b =>
          rw [hb] at h
          exact ⟨o, a, b, h⟩

/-- **Two meanings agree** when their operators do, on the operands they are met with; `P` holds of every value. -/
theorem eval_map {M' : Meaning α ω γ ε} {f : β → γ} {P : β → Prop} {Q : ω → β → β → Prop}
    (hmissing : M'.missing = M.missing) (hunclosed : M'.unclosed = M.unclosed)
    (hact : ∀ o a b, P a → P b → Q o a b → M'.act o (f a) (f b) = (M.act o a b).map f ∧
      ∀ c, M.act o a b = .ok c → P c) :
    ∀ {e : OpTree α ω}, (∀ a ∈ e.operands, P (M.leaf a) ∧ M'.leaf a = f (M.leaf a)) → M.Met Q e →
      M'.eval e = (M.eval e).map f ∧ ∀ c, M.eval e = .ok c → P c
  | .operand a, hleaf, _ => by
      obtain ⟨hp, hf⟩ := hleaf a List.mem_cons_self
      refine ⟨congrArg Except.ok hf, ?_⟩
      rintro _ ⟨⟩
      exact hp
  | .missing, _, _ => ⟨congrArg Except.error hmissing, nofun⟩
  | .group e, hleaf, hmet => @eval_map _ _ _ _ hmissing hunclosed hact e hleaf hmet
  | .unclosed e, hleaf, hmet => by
      obtain ⟨he, -⟩ := @eval_map _ _ _ _ hmissing hunclosed hact e hleaf hmet
      rw [eval, eval, he, hunclosed]
      cases M.eval e with
      | ok => exact ⟨rfl, nofun⟩
      | error => exact ⟨rfl, nofun⟩
  | .node o e e', hleaf, hmet => by
      obtain ⟨he, hp⟩ := @eval_map _ _ _ _ hmissing hunclosed hact e
        (fun a ha => hleaf a (List.mem_append_left _ ha)) hmet.1
      rw [eval, eval, he]
      cases ha : M.eval e with
      | error => exact ⟨rfl, nofun⟩
      | ok a =>
        obtain ⟨hmet', hq⟩ := hmet.2 a ha
        obtain ⟨he', hp'⟩ := @eval_map _ _ _ _ hmissing hunclosed hact e'
          (fun a ha => hleaf a (List.mem_append_right _ ha)) hmet'
        cases hb : M.eval e' with
        | error =>
          rw [hb] at he'
          exact ⟨by rw [he']; rfl, nofun⟩
        | ok b =>
          rw [hb] at he'
          obtain ⟨heq, hpc⟩ := hact o a b (hp a ha) (hp' b hb) (hq b hb)
          refine ⟨?_, hpc⟩
          rw [he']
          exact heq

end Meaning

end Levels

end Shish
