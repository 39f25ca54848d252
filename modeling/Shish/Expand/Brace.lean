import Shish.Lib.Nested
import Shish.Word.Parse

/-!
# Expand/Brace — `{a,b}` in a word

`expand_brace_text` looks for the first group of balanced braces with a comma of its own, puts each
alternative between what is in front of the group and each expansion of what is behind it, and does
not look into the alternatives.  `refBrace` is the same with the alternatives expanded too, which
leaves nothing to expand (`refBrace_complete`).  The code does as much exactly when no alternative
of a group it comes to holds a group itself (`brace_iff`).
-/

namespace Shish

/-! ## The code -/

/-- One more character between the braces. -/
def consInside (c : Char) (q : Str × Str) : Str × Str := (c :: q.1, q.2)

/-- The loop that looks for the `}` of a `{` from behind it, `d` braces deeper: what is between the
two and what is behind. -/
def closing : ℕ → Str → Option (Str × Str)
  | _, [] => none
  | d, c :: t =>
      if c = '{' then (closing (d + 1) t).map (consInside c)
      else if c = '}' then
        if d = 0 then some ([], t) else (closing (d - 1) t).map (consInside c)
      else (closing d t).map (consInside c)

theorem closing_length : ∀ {d : ℕ} {t i a : Str}, closing d t = some (i, a) →
    a.length < t.length ∧ i.length < t.length
  | _, [], _, _, h => absurd h nofun
  | d, c :: t, i, a, h => by
      rw [closing] at h
      have step {e : ℕ} (h : (closing e t).map (consInside c) = some (i, a)) :
          a.length < (c :: t).length ∧ i.length < (c :: t).length := by
        obtain ⟨⟨i', a'⟩, hc, hq⟩ := Option.map_eq_some_iff.1 h
        obtain ⟨rfl, rfl⟩ := Prod.mk.inj hq
        obtain ⟨h₁, h₂⟩ := closing_length hc
        simp only [List.length_cons]
        exact ⟨by omega, by omega⟩
      split_ifs at h
      · exact step h
      · cases h
        simp
      · exact step h
      · exact step h

/-- The loop that looks for a comma outside the inner braces. -/
def hasComma : ℕ → Str → Bool
  | _, [] => false
  | d, c :: t =>
      if c = '{' then hasComma (d + 1) t
      else if c = '}' then hasComma (d - 1) t
      else if c = ',' ∧ d = 0 then true
      else hasComma d t

/-- A group: what is in front of its `{`, between its braces and behind its `}`. -/
structure BraceGroup where
  before : Str
  inside : Str
  after : Str
deriving DecidableEq, Repr

/-- A group found behind `t`. -/
def BraceGroup.behind (t : Str) (g : BraceGroup) : BraceGroup := { g with before := t ++ g.before }

/-- `find_valid_group`. -/
def findValidGroup : Str → Option BraceGroup
  | [] => none
  | c :: t =>
      if c = '{' then
        match _ : closing 0 t with
        | none => none -- unmatched: nothing past here can expand
        | some (inside, after) =>
            if hasComma 0 inside then some ⟨[], inside, after⟩
            else (findValidGroup after).map (.behind (c :: inside ++ ['}']))
      else (findValidGroup t).map (.behind [c])
termination_by t => t.length
decreasing_by
  · have := closing_length ‹_›
    simp only [List.length_cons]
    omega
  · simp

/-- The loop over the alternatives of a group: what its commas separate, `d` braces deeper. -/
def alternatives : ℕ → Str → List Str
  | _, [] => [[]]
  | d, c :: t =>
      if c = ',' ∧ d = 0 then [] :: alternatives d t
      else
        (alternatives (if c = '{' then d + 1 else if c = '}' then d - 1 else d) t).modifyHead (c :: ·)

example : hasComma 0 [',', 'a'] ∧ closing 0 ['a', '}'] = some (['a'], []) ∧ alternatives 0 ['a', ',', 'b'] = [['a'], ['b']] := by
  simp [hasComma, closing, consInside, alternatives]

theorem closing_text : ∀ {d : ℕ} {t i a : Str}, closing d t = some (i, a) → t = i ++ '}' :: a
  | _, [], _, _, h => absurd h nofun
  | d, c :: t, i, a, h => by
      rw [closing] at h
      have step {e : ℕ} (h : (closing e t).map (consInside c) = some (i, a)) : c :: t = i ++ '}' :: a := by
        obtain ⟨⟨i', a'⟩, hc, hq⟩ := Option.map_eq_some_iff.1 h
        obtain ⟨rfl, rfl⟩ := Prod.mk.inj hq
        rw [closing_text hc, List.cons_append]
      split_ifs at h with ho hc hd
      · exact step h
      · cases h
        rw [hc]
        rfl
      · exact step h
      · exact step h

theorem findValidGroup_text (t : Str) : ∀ {g : BraceGroup}, findValidGroup t = some g →
    t = g.before ++ '{' :: (g.inside ++ '}' :: g.after) := by
  fun_induction findValidGroup t with
  | case1 => exact fun h => absurd h nofun
  | case2 t h => exact fun h => absurd h nofun
  | case3 t inside after h hcomma =>
    intro g hg
    cases hg
    rw [closing_text h]
    rfl
  | case4 t inside after h hcomma ih =>
    intro g hg
    obtain ⟨g', hg', rfl⟩ := Option.map_eq_some_iff.1 hg
    rw [closing_text h, ih hg']
    simp [BraceGroup.behind]
  | case5 c t h ih =>
    intro g hg
    obtain ⟨g', hg', rfl⟩ := Option.map_eq_some_iff.1 hg
    rw [ih hg']
    simp [BraceGroup.behind]

theorem findValidGroup_length {t : Str} {g : BraceGroup} (h : findValidGroup t = some g) :
    g.after.length < t.length ∧ g.inside.length < t.length := by
  rw [findValidGroup_text t h]
  simp only [List.length_append, List.length_cons]
  omega

/-- `expand_brace_text`. -/
def expandBraceText (t : Str) : List Str :=
  match _ : findValidGroup t with
  | none => [t]
  | some g =>
      (alternatives 0 g.inside).flatMap fun a =>
        (expandBraceText g.after).map fun tail => g.before ++ a ++ tail
termination_by t.length
decreasing_by exact (findValidGroup_length ‹_›).1

section Words

variable {κ : Type}

/-- `expand_brace_chunk`: the one chunk of a word that may be rewritten, with its text. -/
def expandBraceChunk : List (Part κ) → Option (SFlags × Str)
  | [.str .unquoted flag s] => if '{' ∈ s then some (flag, s) else none
  | _ => none

/-- `expand_brace_word`: the words that take the place of one, or nothing. -/
def expandBraceWord (arg : List (Part κ)) : Option (List (List (Part κ))) := do
  let (flag, s) ← expandBraceChunk arg
  let result := expandBraceText s
  if result.length ≤ 1 then none
  else some (result.map fun r => [.str .unquoted { SFlags.none with glob := flag.glob } r])

end Words

/-! ## The reference -/

theorem modifyHead_mem {c : Char} : ∀ {l : List Str} {a : Str}, a ∈ l.modifyHead (c :: ·) →
    a ∈ l ∨ ∃ b ∈ l, a = c :: b
  | b :: l, a, h => by
      rcases List.mem_cons.1 h with rfl | h
      · exact .inr ⟨b, .head _, rfl⟩
      · exact .inl (.tail _ h)

theorem alternatives_length : ∀ {d : ℕ} {t a : Str}, a ∈ alternatives d t → a.length ≤ t.length
  | d, [], a, h => by
      obtain rfl : a = [] := by simpa [alternatives] using h
      exact Nat.le_refl 0
  | d, c :: t, a, h => by
      rw [alternatives] at h
      rw [List.length_cons]
      split at h
      · rcases List.mem_cons.1 h with rfl | h
        · exact Nat.zero_le _
        · exact Nat.le_succ_of_le (alternatives_length h)
      · rcases modifyHead_mem h with ha | ⟨b, hb, rfl⟩
        · exact Nat.le_succ_of_le (alternatives_length ha)
        · exact Nat.succ_le_succ (alternatives_length hb)

/-- **The reference**: every alternative is expanded too. -/
def refBrace (t : Str) : List Str :=
  match _ : findValidGroup t with
  | none => [t]
  | some g =>
      (alternatives 0 g.inside).attach.flatMap fun a =>
        (refBrace a.1).flatMap fun a' => (refBrace g.after).map fun tail => g.before ++ a' ++ tail
termination_by t.length
decreasing_by
  · exact (findValidGroup_length ‹_›).1
  · exact Nat.lt_of_le_of_lt (alternatives_length a.2) (findValidGroup_length ‹_›).2

section Equations

variable {t : Str} {g : BraceGroup}

theorem expandBraceText_none (h : findValidGroup t = none) : expandBraceText t = [t] := by
  rw [expandBraceText]
  split
  · rfl
  · next h' => exact absurd (h.symm.trans h') nofun

theorem expandBraceText_some (h : findValidGroup t = some g) :
    expandBraceText t = (alternatives 0 g.inside).flatMap fun a =>
      (expandBraceText g.after).map fun tail => g.before ++ a ++ tail := by
  rw [expandBraceText]
  split
  · next h' => exact absurd (h.symm.trans h') nofun
  · next g' h' =>
    obtain rfl := Option.some.inj (h.symm.trans h')
    rfl

theorem refBrace_none (h : findValidGroup t = none) : refBrace t = [t] := by
  rw [refBrace]
  split
  · rfl
  · next h' => exact absurd (h.symm.trans h') nofun

theorem refBrace_some (h : findValidGroup t = some g) :
    refBrace t = (alternatives 0 g.inside).flatMap fun a => (refBrace a).flatMap fun a' =>
      (refBrace g.after).map fun tail => g.before ++ a' ++ tail := by
  rw [refBrace]
  split
  · next h' => exact absurd (h.symm.trans h') nofun
  · next g' h' =>
    obtain rfl := Option.some.inj (h.symm.trans h')
    conv_rhs => rw [← List.attach_map_subtype_val (alternatives 0 g.inside), List.flatMap_map]

end Equations

/-! ## Balanced texts -/

/-- Balanced braces. -/
abbrev BracesBalanced (t : Str) : Prop := Balanced (· == '{') (· == '}') t

/-- How deep a text ends that begins at depth `k`. -/
abbrev braceDepth (k : ℕ) (t : Str) : Option ℕ := nesting (· == '{') (· == '}') k t

theorem braceDepth_cons (k : ℕ) (c : Char) (t : Str) :
    braceDepth k (c :: t) =
      if c = '{' then braceDepth (k + 1) t
      else if c = '}' then if k = 0 then none else braceDepth (k - 1) t
      else braceDepth k t := by
  simp [braceDepth, nesting]

theorem balanced_tail {c : Char} {t : Str} (hc : c ≠ '{') (h : BracesBalanced (c :: t)) :
    BracesBalanced t := by
  have h' : braceDepth 0 (c :: t) = some 0 := h
  rw [braceDepth_cons, if_neg hc] at h'
  by_cases hd : c = '}'
  · rw [if_pos hd, if_pos rfl] at h'
    exact absurd h' nofun
  · rw [if_neg hd] at h'
    exact h'

/-- What stands between braces is balanced. -/
theorem closing_balanced : ∀ {d : ℕ} {t i a : Str}, closing d t = some (i, a) → braceDepth d i = some 0
  | _, [], _, _, h => absurd h nofun
  | d, c :: t, i, a, h => by
      rw [closing] at h
      have step {e : ℕ} (h : (closing e t).map (consInside c) = some (i, a)) :
          ∃ i', i = c :: i' ∧ braceDepth e i' = some 0 := by
        obtain ⟨⟨i', a'⟩, hc, hq⟩ := Option.map_eq_some_iff.1 h
        obtain ⟨rfl, rfl⟩ := Prod.mk.inj hq
        exact ⟨i', rfl, closing_balanced hc⟩
      split_ifs at h with ho hc hd
      · obtain ⟨i', rfl, hi⟩ := step h
        rw [braceDepth_cons, if_pos ho, hi]
      · cases h
        rw [hd]
        rfl
      · obtain ⟨i', rfl, hi⟩ := step h
        rw [braceDepth_cons, if_neg ho, if_pos hc, if_neg hd, hi]
      · obtain ⟨i', rfl, hi⟩ := step h
        rw [braceDepth_cons, if_neg ho, if_neg hc, hi]

/-- A balanced text in front of a `}` is what stands between the braces. -/
theorem closing_of_balanced : ∀ {d : ℕ} {i : Str} (a : Str), braceDepth d i = some 0 →
    closing d (i ++ '}' :: a) = some (i, a)
  | d, [], a, h => by
      obtain rfl : d = 0 := Option.some.inj h
      rfl
  | d, c :: i, a, h => by
      rw [braceDepth_cons] at h
      rw [List.cons_append, closing]
      split_ifs at h ⊢
      · rw [closing_of_balanced a h]
        rfl
      · rw [closing_of_balanced a h]
        rfl
      · rw [closing_of_balanced a h]
        rfl

/-- In a text that is balanced from a depth on, the brace of that depth is closed, and what is behind
it is balanced. -/
theorem closing_some : ∀ {d : ℕ} {t : Str}, braceDepth (d + 1) t = some 0 →
    ∃ i a, closing d t = some (i, a) ∧ BracesBalanced a
  | d, [], h => absurd (Option.some.inj h) (Nat.succ_ne_zero d)
  | d, c :: t, h => by
      rw [braceDepth_cons] at h
      rw [closing]
      split_ifs at h ⊢ with ho hc hd
      · obtain ⟨i, a, hi, ha⟩ := closing_some h
        exact ⟨c :: i, a, by rw [hi]; rfl, ha⟩
      · subst hd
        exact ⟨[], t, rfl, h⟩
      · obtain ⟨e, rfl⟩ : ∃ e, d = e + 1 := ⟨d - 1, by omega⟩
        obtain ⟨i, a, hi, ha⟩ := closing_some h
        exact ⟨c :: i, a, by rw [Nat.add_sub_cancel, hi]; rfl, ha⟩
      · obtain ⟨i, a, hi, ha⟩ := closing_some h
        exact ⟨c :: i, a, by rw [hi]; rfl, ha⟩

/-- Alternatives of a balanced text are balanced. -/
theorem alternatives_balanced : ∀ {d : ℕ} {t : Str}, braceDepth d t = some 0 →
    ∃ a as, alternatives d t = a :: as ∧ braceDepth d a = some 0 ∧ ∀ b ∈ as, BracesBalanced b
  | d, [], h => ⟨[], [], rfl, h, nofun⟩
  | d, c :: t, h => by
      rw [alternatives]
      split
      · next hc =>
        obtain ⟨rfl, rfl⟩ := hc
        obtain ⟨a, as, ht, ha, has⟩ := alternatives_balanced (d := 0) (t := t) h
        refine ⟨[], a :: as, by rw [ht], rfl, ?_⟩
        intro b hb
        rcases List.mem_cons.1 hb with rfl | hb
        · exact ha
        · exact has b hb
      · rw [braceDepth_cons] at h
        have step {e : ℕ} (h : braceDepth e t = some 0)
            (hd : (if c = '{' then d + 1 else if c = '}' then d - 1 else d) = e)
            (hcons : ∀ a, braceDepth e a = some 0 → braceDepth d (c :: a) = some 0) :
            ∃ a as, (alternatives (if c = '{' then d + 1 else if c = '}' then d - 1 else d) t).modifyHead
              (c :: ·) = a :: as ∧ braceDepth d a = some 0 ∧ ∀ b ∈ as, BracesBalanced b := by
          obtain ⟨a, as, ht, ha, has⟩ := alternatives_balanced h
          exact ⟨c :: a, as, by rw [hd, ht]; rfl, hcons a ha, has⟩
        split_ifs at h with ho hc hd
        · refine step h (if_pos ho) fun a ha => ?_
          rw [braceDepth_cons, if_pos ho, ha]
        · refine step h ((if_neg ho).trans (if_pos hc)) fun a ha => ?_
          rw [braceDepth_cons, if_neg ho, if_pos hc, if_neg hd, ha]
        · refine step h ((if_neg ho).trans (if_neg hc)) fun a ha => ?_
          rw [braceDepth_cons, if_neg ho, if_neg hc, ha]

theorem alternatives_ne_nil : ∀ (d : ℕ) (t : Str), alternatives d t ≠ []
  | _, [] => List.cons_ne_nil _ _
  | d, c :: t => by
      rw [alternatives]
      split
      · exact List.cons_ne_nil _ _
      · obtain ⟨a, as, h⟩ := List.exists_cons_of_ne_nil
          (alternatives_ne_nil (if c = '{' then d + 1 else if c = '}' then d - 1 else d) t)
        rw [h]
        exact List.cons_ne_nil _ _

/-- A comma makes two alternatives. -/
theorem two_alternatives : ∀ {d : ℕ} {t : Str}, hasComma d t → ∃ a b as, alternatives d t = a :: b :: as
  | _, [], h => absurd h nofun
  | d, c :: t, h => by
      rw [alternatives]
      split
      · obtain ⟨b, as, hb⟩ := List.exists_cons_of_ne_nil (alternatives_ne_nil d t)
        exact ⟨[], b, as, by rw [hb]⟩
      · next hc =>
        rw [hasComma] at h
        have step {e : ℕ} (h : hasComma e t) :
            ∃ a b as, (alternatives e t).modifyHead (c :: ·) = a :: b :: as := by
          obtain ⟨a, b, as, ht⟩ := two_alternatives h
          exact ⟨c :: a, b, as, by rw [ht]; rfl⟩
        split_ifs at h ⊢
        · exact step h
        · exact step h
        · exact step h

/-! ## Passing by a text -/

/-- The search passes by a text, whatever follows. -/
def Passable (t : Str) : Prop := ∀ r, findValidGroup (t ++ r) = (findValidGroup r).map (.behind t)

theorem behind_append (t u : Str) (o : Option BraceGroup) :
    (o.map (BraceGroup.behind u)).map (BraceGroup.behind t) = o.map (BraceGroup.behind (t ++ u)) := by
  cases o with
  | none => rfl
  | some g => simp [BraceGroup.behind]

theorem passable_nil : Passable [] := fun r => by
  cases h : findValidGroup r <;> simp [h, BraceGroup.behind]

theorem Passable.append {t u : Str} (ht : Passable t) (hu : Passable u) : Passable (t ++ u) := fun r => by
  rw [List.append_assoc, ht, hu, behind_append]

theorem passable_plain {c : Char} (hc : c ≠ '{') : Passable [c] := fun r => by
  rw [List.singleton_append, findValidGroup, if_neg hc]

/-- A group without a comma of its own is passed by as a whole. -/
theorem passable_group {i : Str} (hi : BracesBalanced i) (hcomma : hasComma 0 i = false) :
    Passable ('{' :: i ++ ['}']) := fun r => by
  have hc := closing_of_balanced r hi
  rw [List.append_assoc, List.cons_append, List.singleton_append, findValidGroup, if_pos rfl]
  split
  · next h => exact absurd (hc.symm.trans h) nofun
  · next h =>
    obtain ⟨rfl, rfl⟩ := Prod.mk.inj (Option.some.inj (hc.symm.trans h))
    rw [if_neg (by simp [hcomma])]

/-- The search ends at a group with a comma of its own. -/
theorem findValidGroup_group {i : Str} (hi : BracesBalanced i) (hcomma : hasComma 0 i) (r : Str) :
    findValidGroup ('{' :: (i ++ '}' :: r)) = some ⟨[], i, r⟩ := by
  have hc := closing_of_balanced r hi
  rw [findValidGroup, if_pos rfl]
  split
  · next h => exact absurd (hc.symm.trans h) nofun
  · next h =>
    obtain ⟨rfl, rfl⟩ := Prod.mk.inj (Option.some.inj (hc.symm.trans h))
    rw [if_pos hcomma]

/-- What a search says of the group it finds. -/
structure FoundGroup (t : Str) (g : BraceGroup) : Prop where
  before : Passable g.before
  inside : BracesBalanced g.inside
  comma : hasComma 0 g.inside
  after : BracesBalanced t → BracesBalanced g.after

theorem findValidGroup_found (t : Str) : ∀ {g : BraceGroup}, findValidGroup t = some g →
    FoundGroup t g := by
  fun_induction findValidGroup t with
  | case1 => exact fun h => absurd h nofun
  | case2 t h => exact fun h => absurd h nofun
  | case3 t inside after h hcomma =>
    intro g hg
    cases hg
    refine ⟨passable_nil, closing_balanced h, hcomma, fun hb => ?_⟩
    obtain ⟨i, a, hi, ha⟩ := closing_some (d := 0) hb
    obtain ⟨-, rfl⟩ := Prod.mk.inj (Option.some.inj (h.symm.trans hi))
    exact ha
  | case4 t inside after h hcomma ih =>
    intro g hg
    obtain ⟨g', hg', rfl⟩ := Option.map_eq_some_iff.1 hg
    have hf := ih hg'
    refine ⟨(passable_group (closing_balanced h) (by simpa using hcomma)).append hf.before, hf.inside,
      hf.comma, fun hb => ?_⟩
    obtain ⟨i, a, hi, ha⟩ := closing_some (d := 0) hb
    obtain ⟨-, rfl⟩ := Prod.mk.inj (Option.some.inj (h.symm.trans hi))
    exact hf.after ha
  | case5 c t h ih =>
    intro g hg
    obtain ⟨g', hg', rfl⟩ := Option.map_eq_some_iff.1 hg
    have hf := ih hg'
    refine ⟨(passable_plain h).append hf.before, hf.inside, hf.comma, fun hb => ?_⟩
    exact hf.after (balanced_tail h hb)

/-- A balanced text without a group is passed by. -/
theorem passable_of_none (t : Str) : findValidGroup t = none → BracesBalanced t → Passable t := by
  fun_induction findValidGroup t with
  | case1 => exact fun _ _ => passable_nil
  | case2 t h =>
    intro _ hb
    obtain ⟨i, a, hi, -⟩ := closing_some (d := 0) hb
    exact absurd (h.symm.trans hi) nofun
  | case3 t inside after h hcomma => exact fun h => absurd h nofun
  | case4 t inside after h hcomma ih =>
    intro hn hb
    obtain ⟨i, a, hi, ha⟩ := closing_some (d := 0) hb
    obtain ⟨-, rfl⟩ := Prod.mk.inj (Option.some.inj (h.symm.trans hi))
    have hpass := (passable_group (closing_balanced h) (by simpa using hcomma)).append
      (ih (Option.map_eq_none_iff.1 hn) ha)
    rw [closing_text h]
    simpa using hpass
  | case5 c t h ih =>
    intro hn hb
    exact (passable_plain h).append (ih (Option.map_eq_none_iff.1 hn) (balanced_tail h hb))

/-- What follows a text with a group is behind that group. -/
theorem findValidGroup_append {t : Str} {g : BraceGroup} (h : findValidGroup t = some g) (u : Str) :
    findValidGroup (t ++ u) = some { g with after := g.after ++ u } := by
  have hf := findValidGroup_found t h
  have ht : t ++ u = g.before ++ '{' :: (g.inside ++ '}' :: (g.after ++ u)) := by
    rw [findValidGroup_text t h]
    simp
  rw [ht, hf.before, findValidGroup_group hf.inside hf.comma]
  simp [BraceGroup.behind]

/-! ## The reference leaves nothing to expand -/

/-- No group is left in what the reference makes, and what it makes of a balanced text is passed
by. -/
theorem refBrace_complete (t : Str) : ∀ r ∈ refBrace t, findValidGroup r = none ∧
    (BracesBalanced t → Passable r) := by
  fun_induction refBrace t with
  | case1 t hg =>
    intro r hr
    obtain rfl := List.mem_singleton.1 hr
    exact ⟨hg, passable_of_none r hg⟩
  | case2 t g hg ihafter ihalt =>
    intro r hr
    have hf := findValidGroup_found t hg
    obtain ⟨b, bs, halt, hb, hbs⟩ := alternatives_balanced hf.inside
    simp only [List.mem_flatMap, List.mem_map] at hr
    obtain ⟨⟨a, ha⟩, -, a', ha', tail, htail, rfl⟩ := hr
    have hbal : BracesBalanced a := by
      rw [halt] at ha
      rcases List.mem_cons.1 ha with rfl | ha
      · exact hb
      · exact hbs a ha
    have hpass : Passable a' := (ihalt ⟨a, ha⟩ a' ha').2 hbal
    obtain ⟨hnone, htpass⟩ := ihafter tail htail
    refine ⟨?_, fun ht => (hf.before.append hpass).append (htpass (hf.after ht))⟩
    rw [(hf.before.append hpass) tail, hnone]
    rfl

/-! ## Where the code does as much -/

/-- No alternative of a group the code comes to holds a group. -/
def braceFlat (t : Str) : Bool :=
  match _ : findValidGroup t with
  | none => true
  | some g => (alternatives 0 g.inside).all (fun a => (findValidGroup a).isNone) && braceFlat g.after
termination_by t.length
decreasing_by exact (findValidGroup_length ‹_›).1

theorem braceFlat_none {t : Str} (h : findValidGroup t = none) : braceFlat t := by
  rw [braceFlat]
  split
  · rfl
  · next h' => exact absurd (h.symm.trans h') nofun

theorem braceFlat_some {t : Str} {g : BraceGroup} (h : findValidGroup t = some g) :
    braceFlat t ↔ (∀ a ∈ alternatives 0 g.inside, findValidGroup a = none) ∧ braceFlat g.after := by
  rw [braceFlat]
  split
  · next h' => exact absurd (h.symm.trans h') nofun
  · next g' h' =>
    obtain rfl := Option.some.inj (h.symm.trans h')
    simp

theorem expandBraceText_ne_nil (t : Str) : expandBraceText t ≠ [] := by
  fun_induction expandBraceText t with
  | case1 t hg => exact List.cons_ne_nil _ _
  | case2 t g hg ih =>
    obtain ⟨a, as, ha⟩ := List.exists_cons_of_ne_nil (alternatives_ne_nil 0 g.inside)
    simp [ha, ih]

/-- A text with a group has more than one expansion. -/
theorem one_lt_length_expandBraceText {t : Str} {g : BraceGroup} (h : findValidGroup t = some g) :
    1 < (expandBraceText t).length := by
  obtain ⟨a, b, as, ha⟩ := two_alternatives (findValidGroup_found t h).comma
  have := List.length_pos_iff.2 (expandBraceText_ne_nil g.after)
  simp only [expandBraceText_some h, ha, List.flatMap_cons, List.length_append, List.length_map]
  omega

theorem expandBraceText_of_flat (t : Str) (h : braceFlat t) : expandBraceText t = refBrace t := by
  fun_induction expandBraceText t with
  | case1 t hg => rw [refBrace_none hg]
  | case2 t g hg ih =>
    obtain ⟨halt, hafter⟩ := (braceFlat_some hg).1 h
    rw [refBrace_some hg, ih hafter]
    refine List.flatMap_congr fun a ha => ?_
    rw [refBrace_none (halt a ha), List.flatMap_singleton]

/-- Where an alternative holds a group the code leaves it in a word. -/
theorem exists_group_of_not_flat (t : Str) (h : braceFlat t = false) :
    ∃ r ∈ expandBraceText t, findValidGroup r ≠ none := by
  fun_induction expandBraceText t with
  | case1 t hg => exact absurd (braceFlat_none hg) (by simp [h])
  | case2 t g hg ih =>
    have hf := findValidGroup_found t hg
    simp only [List.mem_flatMap, List.mem_map]
    by_cases halt : ∀ a ∈ alternatives 0 g.inside, findValidGroup a = none
    · -- the group is in what follows
      have hafter : braceFlat g.after = false := by
        by_contra hafter
        exact absurd ((braceFlat_some hg).2 ⟨halt, by simpa using hafter⟩) (by simp [h])
      obtain ⟨tail, htail, hne⟩ := ih hafter
      obtain ⟨a, as, heq, ha, -⟩ := alternatives_balanced hf.inside
      have hmem : a ∈ alternatives 0 g.inside := heq ▸ .head _
      refine ⟨_, ⟨a, hmem, tail, htail, rfl⟩, ?_⟩
      rw [(hf.before.append (passable_of_none a (halt a hmem) ha)) tail]
      simpa using hne
    · -- an alternative holds it
      push Not at halt
      obtain ⟨a, hmem, hne⟩ := halt
      obtain ⟨tail, htail⟩ := List.exists_mem_of_ne_nil _ (expandBraceText_ne_nil g.after)
      obtain ⟨g', hg'⟩ := Option.ne_none_iff_exists'.1 hne
      refine ⟨_, ⟨a, hmem, tail, htail, rfl⟩, ?_⟩
      rw [List.append_assoc, hf.before, findValidGroup_append hg']
      simp

/-- A word is rewritten when its text holds a group, and then into the words of the expansions. -/
theorem expandBraceWord_eq {κ : Type} (flag : SFlags) (t : Str) :
    (expandBraceWord [.str .unquoted flag t] : Option (List (List (Part κ)))) =
      if findValidGroup t = none then none
      else some ((expandBraceText t).map fun r =>
        [.str .unquoted { SFlags.none with glob := flag.glob } r]) := by
  cases hg : findValidGroup t with
  | none =>
    rw [if_pos rfl]
    by_cases hmem : '{' ∈ t
    · simp [expandBraceWord, expandBraceChunk, hmem, expandBraceText_none hg]
    · simp [expandBraceWord, expandBraceChunk, hmem]
  | some g =>
    have hmem : '{' ∈ t := by
      rw [findValidGroup_text t hg]
      simp
    have hlen := one_lt_length_expandBraceText hg
    simp only [expandBraceWord, expandBraceChunk, if_pos hmem, reduceCtorEq, if_false]
    exact if_neg (Nat.not_le.2 hlen)

/-- Brace expansion of a text is right: it is the reference's, and leaves nothing to expand. -/
def BraceRight (t : Str) : Prop :=
  expandBraceText t = refBrace t ∧ ∀ r ∈ expandBraceText t, expandBraceText r = [r]

/-- **The code expands as the reference does, and completely, exactly when no alternative of a group
it comes to holds a group.** -/
theorem brace_iff (t : Str) : BraceRight t ↔ braceFlat t := by
  constructor
  · intro h
    by_contra hflat
    obtain ⟨r, hr, hne⟩ := exists_group_of_not_flat t (by simpa using hflat)
    exact hne (refBrace_complete t r (h.1 ▸ hr)).1
  · intro h
    have heq := expandBraceText_of_flat t h
    refine ⟨heq, fun r hr => expandBraceText_none ?_⟩
    exact (refBrace_complete t r (heq ▸ hr)).1

/-- `{a,{b,c}}` becomes `a` and `{b,c}`. -/
theorem brace_nested : ¬BraceRight ['{', 'a', ',', '{', 'b', ',', 'c', '}', '}'] := by
  intro h
  have hin : findValidGroup ['{', 'b', ',', 'c', '}'] = some ⟨[], ['b', ',', 'c'], []⟩ :=
    findValidGroup_group (i := ['b', ',', 'c']) rfl rfl []
  have hout : findValidGroup ['{', 'a', ',', '{', 'b', ',', 'c', '}', '}'] =
      some ⟨[], ['a', ',', '{', 'b', ',', 'c', '}'], []⟩ :=
    findValidGroup_group (i := ['a', ',', '{', 'b', ',', 'c', '}']) rfl rfl []
  have hmem : ['{', 'b', ',', 'c', '}'] ∈
      expandBraceText ['{', 'a', ',', '{', 'b', ',', 'c', '}', '}'] := by
    have hnil : expandBraceText [] = [[]] := expandBraceText_none (by rw [findValidGroup])
    rw [expandBraceText_some hout, hnil]
    decide
  have hlen := one_lt_length_expandBraceText hin
  rw [h.2 _ hmem] at hlen
  exact absurd hlen (by decide)

end Shish
