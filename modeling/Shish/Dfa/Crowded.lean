import Mathlib.Tactic.SplitIfs
import Shish.Dfa.Parse

/-!
# Dfa/Crowded — patterns with too many branches side by side

The compiler has room for 64 jumps behind the branches of an alternation.  `crowded` looks for an
alternation with more separators than that, reading the pattern as a string: it passes over escapes
and bracket expressions and counts the separators of each group that is open.
-/

namespace Shish

/-- The length of a bracket expression behind its opening `[`. -/
def bracketLen (fl : DfaFlags) (t : Str) : ℕ :=
  match bracketCompile fl t with
  | .ok (_, rest) => t.length - rest.length
  | .error _ => 0

/-- Does a separator go over 64 from here on?  The first argument is how many characters to pass over,
and the list how many separators there were in each group that is open. -/
def skim (fl : DfaFlags) : ℕ → Str → List ℕ → Bool
  | _, [], _ => false
  | k + 1, _ :: t, st => skim fl k t st
  | 0, c :: t, st =>
      if 0 < altLen fl (c :: t) then
        decide (64 < st.headD 0 + 1) || skim fl (altLen fl (c :: t) - 1) t ((st.headD 0 + 1) :: st.tail)
      else if 0 < openLen fl (c :: t) then skim fl (openLen fl (c :: t) - 1) t (0 :: st)
      else if 0 < closeLen fl (c :: t) then skim fl (closeLen fl (c :: t) - 1) t st.tail
      else if c == '[' then skim fl (bracketLen fl t) t st
      else if c == '\\' then skim fl 1 t st
      else skim fl 0 t st

/-- **Some alternation has more than 64 separators.** -/
def crowded (fl : DfaFlags) (pat : Str) : Bool := skim fl 0 pat [0]

/-- A text that opens and closes its own groups, and whether it is crowded. -/
def Neutral (fl : DfaFlags) (u : Str) (b : Bool) : Prop :=
  ∀ rest st, skim fl 0 (u ++ rest) st = (b || skim fl 0 rest st)

/-- The same of a text with some separators. -/
def Branches (fl : DfaFlags) (u : Str) (k : ℕ) (b : Bool) : Prop :=
  ∀ rest n st, skim fl 0 (u ++ rest) (n :: st) =
    (b || decide (0 < k ∧ 64 < n + k) || skim fl 0 rest ((n + k) :: st))

variable {fl : DfaFlags} {u v rest : Str} {b b' : Bool} {k k' : ℕ} {c : Char} {st : List ℕ}

theorem neutral_nil : Neutral fl [] false := fun _ _ => rfl

theorem Neutral.append (hu : Neutral fl u b) (hv : Neutral fl v b') :
    Neutral fl (u ++ v) (b || b') := fun rest st => by
  rw [List.append_assoc, hu, hv, Bool.or_assoc]

theorem Neutral.branches (h : Neutral fl u b) : Branches fl u 0 b := fun rest n st => by
  rw [h]
  simp

theorem Branches.append (hu : Branches fl u k b) (hv : Branches fl v k' b') :
    Branches fl (u ++ v) (k + k') (b || b') := fun rest n st => by
  have hle : decide (0 < k + k' ∧ 64 < n + (k + k')) =
      (decide (0 < k ∧ 64 < n + k) || decide (0 < k' ∧ 64 < n + k + k')) := by
    rw [← Bool.decide_or, decide_eq_decide]
    omega
  rw [List.append_assoc, hu, hv, hle, Nat.add_assoc]
  cases b <;> cases b' <;> simp [Bool.or_assoc]

@[simp] theorem skim_nil (k : ℕ) (st : List ℕ) : skim fl k [] st = false := by
  cases k <;> rfl

/-- Characters are passed over. -/
theorem skim_skip : ∀ (u rest : Str) (st : List ℕ),
    skim fl u.length (u ++ rest) st = skim fl 0 rest st
  | [], _, _ => rfl
  | _ :: u, rest, st => skim_skip u rest st

/-- **A text that is a part of a neutral one in front** is crowded only if that is. -/
theorem Neutral.of_front (h : Neutral fl (u ++ v) b) (hu : Neutral fl u b') (hb : b' = true) :
    b = true := by
  have h₁ := h [] []
  have h₂ := hu v []
  rw [List.append_nil] at h₁
  rw [h₂, hb] at h₁
  simpa using h₁.symm

/-! ## Characters and escapes -/

/-- A character that is no part of a longer token, and no token of its own. -/
def isPlain (c : Char) : Bool := c != '\\' && c != '[' && c != '|' && c != '(' && c != ')'

theorem altLen_cons (hc : c ≠ '\\') : altLen fl (c :: u) = if fl.ere && c == '|' then 1 else 0 := by
  unfold altLen
  cases fl.ere <;> simp [hc]

theorem openLen_cons (hc : c ≠ '\\') : openLen fl (c :: u) = if fl.ere && c == '(' then 1 else 0 := by
  unfold openLen
  cases fl.ere <;> simp [hc]

theorem closeLen_cons (hc : c ≠ '\\') : closeLen fl (c :: u) = if fl.ere && c == ')' then 1 else 0 := by
  unfold closeLen
  cases fl.ere <;> simp [hc]

/-- A character that is no separator and no parenthesis. -/
theorem neutral_char (hc : c ≠ '\\') (hb : c ≠ '[')
    (hno : fl.ere = true → c ≠ '|' ∧ c ≠ '(' ∧ c ≠ ')') : Neutral fl [c] false := fun rest st => by
  rw [List.singleton_append, skim, altLen_cons hc, openLen_cons hc, closeLen_cons hc]
  cases hfl : fl.ere with
  | true =>
    obtain ⟨h₁, h₂, h₃⟩ := hno hfl
    simp [hc, hb, h₁, h₂, h₃]
  | false => simp [hc, hb]

theorem neutral_plain : ∀ {u : Str}, (∀ c ∈ u, isPlain c) → Neutral fl u false
  | [], _ => neutral_nil
  | c :: u, h => by
      obtain ⟨hc, hu⟩ := List.forall_mem_cons.1 h
      simp only [isPlain, Bool.and_eq_true, bne_iff_ne, ne_eq] at hc
      obtain ⟨⟨⟨⟨h₁, h₂⟩, h₃⟩, h₄⟩, h₅⟩ := hc
      exact (neutral_char h₁ h₂ fun _ => ⟨h₃, h₄, h₅⟩).append (neutral_plain hu)

/-- An escape that is no separator and no parenthesis. -/
theorem neutral_escape (e : Char) (hno : fl.ere = false → e ≠ '|' ∧ e ≠ '(' ∧ e ≠ ')') :
    Neutral fl ['\\', e] false := fun rest st => by
  have hskip : skim fl 1 (e :: rest) st = skim fl 0 rest st := skim_skip [e] rest st
  rw [List.cons_append, skim]
  unfold altLen openLen closeLen
  cases hfl : fl.ere with
  | true => simpa using hskip
  | false =>
    obtain ⟨h₁, h₂, h₃⟩ := hno hfl
    simpa [h₁, h₂, h₃] using hskip

/-! ## Bracket expressions -/

/-- A name ends at its own end, whatever is behind it. -/
theorem bracketName_eq {delim : Char} : ∀ {t : Str} {q : ℕ}, bracketName delim t = some q →
    ∃ name r, name.length = q ∧ t = name ++ delim :: ']' :: r ∧
      ∀ rest, bracketName delim (name ++ delim :: ']' :: rest) = some q
  | [], _, h => absurd h nofun
  | [_], _, h => absurd h nofun
  | a :: b :: t, q, h => by
      rw [bracketName] at h
      split_ifs at h with hab
      · obtain rfl := Option.some.inj h
        simp only [Bool.and_eq_true, beq_iff_eq] at hab
        obtain ⟨rfl, rfl⟩ := hab
        refine ⟨[], t, rfl, rfl, fun rest => ?_⟩
        simp [bracketName]
      · obtain ⟨q', hq', rfl⟩ := Option.map_eq_some_iff.1 h
        obtain ⟨name, r, rfl, ht, hloc⟩ := bracketName_eq hq'
        refine ⟨a :: name, r, rfl, congrArg (a :: ·) ht, fun rest => ?_⟩
        cases name with
        | nil =>
          obtain ⟨rfl, rfl⟩ := List.cons.inj ht
          have hloc := hloc rest
          rw [List.nil_append] at hloc
          rw [List.cons_append, List.nil_append, bracketName, if_neg hab, hloc]
          rfl
        | cons d name =>
          obtain ⟨rfl, ht⟩ := List.cons.inj ht
          rw [List.cons_append, List.cons_append, bracketName, if_neg hab]
          have hloc := hloc rest
          rw [List.cons_append] at hloc
          rw [hloc]
          rfl

theorem bracketDelim_some {p d : Char} {t : Str} (h : bracketDelim p t = some d) :
    ∃ t', t = d :: t' ∧ ∀ t'', bracketDelim p (d :: t'') = some d := by
  unfold bracketDelim at h ⊢
  split_ifs at h ⊢ with hp
  obtain ⟨hd, hmem⟩ := Option.filter_eq_some_iff.1 h
  cases t with
  | nil => exact absurd hd nofun
  | cons d' t' =>
    obtain rfl := Option.some.inj hd
    exact ⟨t', rfl, fun t'' => Option.filter_eq_some_iff.2 ⟨rfl, hmem⟩⟩

/-- What is in front of the end does not depend on what is behind it. -/
theorem head?_close (y r rest : Str) : (y ++ ']' :: r).head? = (y ++ ']' :: rest).head? := by
  cases y <;> rfl

/-- **A bracket expression** ends at a `]`, whatever is behind it. -/
theorem bracketGo_eq {esc first : Bool} {set set' : Byteset} {t r : Str}
    (h : bracketGo esc first set t = .ok (set', r)) : ∃ y, t = y ++ ']' :: r ∧
      ∀ rest, bracketGo esc first set (y ++ ']' :: rest) = .ok (set', rest) := by
  fun_induction bracketGo esc first set t with
  | case1 => exact absurd h nofun
  | case2 first set p t hp =>
    obtain ⟨rfl, rfl⟩ := Prod.mk.inj (Except.ok.inj h)
    refine ⟨[], ?_, fun rest => ?_⟩
    · simp only [Bool.and_eq_true, beq_iff_eq] at hp
      rw [hp.1]
      rfl
    · simp only [Bool.and_eq_true, beq_iff_eq, Bool.not_eq_true'] at hp
      rw [List.nil_append]
      unfold bracketGo
      simp [hp.2]
  | case3 => exact absurd h nofun
  | case4 => exact absurd h nofun
  | case5 first set p t hp delim hd q hq hcolon set₁ hset ih =>
    obtain ⟨t', rfl, hdelim⟩ := bracketDelim_some hd
    obtain ⟨name, r₀, rfl, rfl, hname⟩ := bracketName_eq hq
    rw [List.tail_cons] at ih h hset
    have hdrop : ∀ r : Str, (name ++ delim :: ']' :: r).drop (name.length + 2) = r := by simp
    rw [hdrop] at ih h
    obtain ⟨y, rfl, hloc⟩ := ih h
    refine ⟨p :: delim :: (name ++ delim :: ']' :: y), by simp, fun rest => ?_⟩
    have hset' : ∀ r : Str, set.addClass ((name ++ delim :: ']' :: r).take name.length) =
        some set₁ := fun r => by
      rw [← hset]
      simp
    simp only [List.cons_append, List.append_assoc]
    unfold bracketGo
    rw [if_neg hp, hdelim]
    simp only [List.tail_cons, hname, hcolon, if_true, hset', hdrop, hloc]
  | case6 first set p t hp delim hd q hq hcolon c hc ih =>
    obtain ⟨t', rfl, hdelim⟩ := bracketDelim_some hd
    obtain ⟨name, r₀, rfl, rfl, hname⟩ := bracketName_eq hq
    rw [List.tail_cons] at ih h hc
    have hdrop : ∀ r : Str, (name ++ delim :: ']' :: r).drop (name.length + 2) = r := by simp
    have htake : ∀ r : Str, (name ++ delim :: ']' :: r).take name.length = [c] := fun r => by
      rw [← hc]
      simp
    rw [hdrop] at ih h
    obtain ⟨y, rfl, hloc⟩ := ih h
    refine ⟨p :: delim :: (name ++ delim :: ']' :: y), by simp, fun rest => ?_⟩
    simp only [List.cons_append, List.append_assoc]
    unfold bracketGo
    rw [if_neg hp, hdelim]
    simp only [List.tail_cons, hname, hcolon, if_false, htake, hdrop, hloc, Bool.false_eq_true]
  | case7 => exact absurd h nofun
  | case8 first set p t hp hd c hesc ih =>
    obtain ⟨y, ht, hloc⟩ := ih h
    cases t with
    | nil =>
      unfold bracketEsc at hesc
      split_ifs at hesc
      exact absurd hesc nofun
    | cons e t =>
      rw [List.tail_cons] at ht
      subst ht
      refine ⟨p :: e :: y, rfl, fun rest => ?_⟩
      have hd' : bracketDelim p (e :: (y ++ ']' :: rest)) = none := hd
      have hesc' : bracketEsc esc p (e :: (y ++ ']' :: rest)) = some c := hesc
      rw [List.cons_append, List.cons_append]
      unfold bracketGo
      rw [if_neg hp, hd', hesc']
      exact hloc rest
  | case9 first set p hp hi r₀ hhi hd hesc ih =>
    obtain ⟨y, ht, hloc⟩ := ih h
    obtain rfl : hi = ']' := by simpa using hhi
    refine ⟨p :: y, congrArg (p :: ·) ht, fun rest => ?_⟩
    obtain ⟨y', rfl⟩ : ∃ y', y = '-' :: y' := by
      cases y with
      | nil => exact absurd (List.cons.inj ht).1 (by decide)
      | cons d y => exact ⟨y, by rw [(List.cons.inj ht).1]⟩
    have hhead : ∃ z, y' ++ ']' :: rest = ']' :: z := by
      cases y' with
      | nil => exact ⟨rest, rfl⟩
      | cons d y' =>
        obtain ⟨-, ht⟩ := List.cons.inj ht
        exact ⟨y' ++ ']' :: rest, by rw [List.cons_append, ← (List.cons.inj ht).1]⟩
    obtain ⟨z, hz⟩ := hhead
    have hloc := hloc rest
    rw [List.cons_append, hz] at hloc
    rw [List.cons_append, List.cons_append, hz]
    have hd' : bracketDelim p ('-' :: ']' :: z) = none := hd
    have hesc' : bracketEsc esc p ('-' :: ']' :: z) = none := hesc
    unfold bracketGo
    rw [if_neg hp, hd', hesc']
    exact hloc
  | case10 => exact absurd h nofun
  | case11 first set p hp hi r₀ hhi set₁ hset hd hesc ih =>
    obtain ⟨y, rfl, hloc⟩ := ih h
    refine ⟨p :: '-' :: hi :: y, rfl, fun rest => ?_⟩
    have hd' : bracketDelim p ('-' :: hi :: (y ++ ']' :: rest)) = none := hd
    have hesc' : bracketEsc esc p ('-' :: hi :: (y ++ ']' :: rest)) = none := hesc
    simp only [List.cons_append]
    unfold bracketGo
    rw [if_neg hp, hd', hesc']
    simp only [hhi, hset, hloc, if_false, Bool.false_eq_true]
  | case12 first set p hp t hno hd hesc ih =>
    obtain ⟨y, rfl, hloc⟩ := ih h
    refine ⟨p :: y, rfl, fun rest => ?_⟩
    have hd' : bracketDelim p (y ++ ']' :: rest) = none := by
      unfold bracketDelim at hd ⊢
      rwa [head?_close y rest r]
    have hesc' : bracketEsc esc p (y ++ ']' :: rest) = none := by
      unfold bracketEsc at hesc ⊢
      rwa [head?_close y rest r]
    rw [List.cons_append]
    unfold bracketGo
    rw [if_neg hp, hd', hesc']
    dsimp only
    split
    · next hi z hz =>
      -- no range in front of the end, and none where the end is near
      cases y with
      | nil => exact absurd (List.cons.inj hz).1 (by decide)
      | cons d y =>
        obtain ⟨rfl, hz⟩ := List.cons.inj hz
        cases y with
        | nil => exact absurd rfl (hno ']' r)
        | cons e y => exact absurd rfl (hno e (y ++ ']' :: r))
    · exact hloc rest

theorem bracketCompile_eq {set : Byteset} {t r : Str} (h : bracketCompile fl t = .ok (set, r)) :
    ∃ x, t = x ++ r ∧ ∀ rest, bracketCompile fl (x ++ rest) = .ok (set, rest) := by
  unfold bracketCompile at h
  dsimp only at h
  cases hgo : bracketGo fl.esc true 0 (if (t.head? == some '^') = true then t.tail else t) with
  | error e =>
    rw [hgo] at h
    exact absurd h nofun
  | ok res =>
    rw [hgo] at h
    obtain ⟨hset, rfl⟩ := Prod.mk.inj (Except.ok.inj h)
    obtain ⟨y, hy, hloc⟩ := bracketGo_eq hgo
    by_cases hneg : t.head? = some '^'
    · obtain ⟨t, rfl⟩ : ∃ t', t = '^' :: t' := by
        cases t with
        | nil => exact absurd hneg nofun
        | cons d t => exact ⟨t, by rw [Option.some.inj hneg]⟩
      have hy : t = y ++ ']' :: res.2 := hy
      refine ⟨'^' :: y ++ [']'], by simp [hy], fun rest => ?_⟩
      have hx : '^' :: y ++ [']'] ++ rest = '^' :: (y ++ ']' :: rest) := by simp
      rw [hx]
      unfold bracketCompile
      rw [← hset]
      exact congrArg (· >>= _) (hloc rest)
    · have hneg' : (t.head? == some '^') = false := by simpa using hneg
      rw [hneg', if_neg Bool.false_ne_true] at hy
      refine ⟨y ++ [']'], by simp [hy], fun rest => ?_⟩
      have hx : y ++ [']'] ++ rest = y ++ ']' :: rest := by simp
      have hhead : ((y ++ ']' :: rest).head? == some '^') = false := by
        rw [← head?_close y res.2 rest, ← hy, hneg']
      rw [hx, ← hset]
      unfold bracketCompile
      rw [hhead, hneg']
      exact congrArg (· >>= _) (hloc rest)

/-- A bracket expression. -/
theorem neutral_bracket {set : Byteset} {t r : Str} (h : bracketCompile fl t = .ok (set, r)) :
    ∃ x, t = x ++ r ∧ Neutral fl ('[' :: x) false := by
  obtain ⟨x, hx, hloc⟩ := bracketCompile_eq h
  refine ⟨x, hx, fun rest st => ?_⟩
  have hlen : bracketLen fl (x ++ rest) = x.length := by
    rw [bracketLen, hloc]
    simp
  have hbs : '[' ≠ '\\' := by decide
  rw [List.cons_append, skim, altLen_cons hbs, openLen_cons hbs, closeLen_cons hbs, hlen]
  simpa using skim_skip x rest st

/-! ## Groups and separators -/

/-- A separator, an opening or a closing parenthesis, in an ERE or a BRE. -/
def token (fl : DfaFlags) (c : Char) : Str := if fl.ere then [c] else ['\\', c]

/-- The three functions that look for one do the same. -/
theorem token_eq {c : Char} {t : Str}
    (h : 0 < if fl.ere then if t.head? == some c then 1 else 0
      else if t.take 2 == ['\\', c] then 2 else 0) :
    t = token fl c ++ t.drop (token fl c).length ∧
      (if fl.ere then if t.head? == some c then 1 else 0
        else if t.take 2 == ['\\', c] then 2 else 0) = (token fl c).length := by
  unfold token
  cases hfl : fl.ere with
  | true =>
    simp only [hfl, if_true] at h ⊢
    split_ifs at h ⊢ with hc
    · rw [beq_iff_eq] at hc
      cases t with
      | nil => exact absurd hc nofun
      | cons d t =>
        obtain rfl := Option.some.inj hc
        exact ⟨rfl, rfl⟩
    · exact absurd h (Nat.lt_irrefl 0)
  | false =>
    simp only [hfl, Bool.false_eq_true, if_false] at h ⊢
    split_ifs at h ⊢ with hc
    · rw [beq_iff_eq] at hc
      exact ⟨(List.take_append_drop 2 t).symm.trans (by rw [hc]; rfl), rfl⟩
    · exact absurd h (Nat.lt_irrefl 0)

theorem altLen_eq {t : Str} (h : 0 < altLen fl t) :
    t = token fl '|' ++ t.drop (altLen fl t) ∧ altLen fl t = (token fl '|').length := by
  obtain ⟨ht, hlen⟩ := token_eq h
  exact ⟨by rwa [show altLen fl t = (token fl '|').length from hlen], hlen⟩

theorem openLen_eq {t : Str} (h : 0 < openLen fl t) :
    t = token fl '(' ++ t.drop (openLen fl t) ∧ openLen fl t = (token fl '(').length := by
  obtain ⟨ht, hlen⟩ := token_eq h
  exact ⟨by rwa [show openLen fl t = (token fl '(').length from hlen], hlen⟩

theorem closeLen_eq {t : Str} (h : 0 < closeLen fl t) :
    t = token fl ')' ++ t.drop (closeLen fl t) ∧ closeLen fl t = (token fl ')').length := by
  obtain ⟨ht, hlen⟩ := token_eq h
  exact ⟨by rwa [show closeLen fl t = (token fl ')').length from hlen], hlen⟩

theorem branches_separator : Branches fl (token fl '|') 1 false := fun rest n st => by
  unfold token
  cases hfl : fl.ere with
  | true => simp [skim, altLen, hfl]
  | false => simp [skim, altLen, hfl]

theorem skim_open (rest : Str) (st : List ℕ) :
    skim fl 0 (token fl '(' ++ rest) st = skim fl 0 rest (0 :: st) := by
  unfold token
  cases hfl : fl.ere with
  | true => simp [skim, altLen, openLen, hfl]
  | false => simp [skim, altLen, openLen, hfl]

theorem skim_close (rest : Str) (st : List ℕ) :
    skim fl 0 (token fl ')' ++ rest) st = skim fl 0 rest st.tail := by
  unfold token
  cases hfl : fl.ere with
  | true => simp [skim, altLen, openLen, closeLen, hfl]
  | false => simp [skim, altLen, openLen, closeLen, hfl]

/-- **A group** counts its own separators. -/
theorem neutral_group (h : Branches fl u k b) :
    Neutral fl (token fl '(' ++ u ++ token fl ')') (b || decide (64 < k)) := fun rest st => by
  have hk : decide (0 < k ∧ 64 < 0 + k) = decide (64 < k) := by
    rw [decide_eq_decide]
    omega
  rw [List.append_assoc, List.append_assoc, skim_open, h, hk, skim_close, List.tail_cons]

end Shish
