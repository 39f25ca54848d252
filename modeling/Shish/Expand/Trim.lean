import Shish.Expand.Pattern
import Shish.Expand.Range
import Shish.Path.Language

/-!
# Expand/Trim — `${v%w}`, `${v%%w}`, `${v#w}` and `${v##w}`

Each operator is a loop over the places where the value can be cut, and `path_fnmatch` says whether
what would go is matched; the loops find the shortest and the longest part (`trimmed_trim`).  The
pattern is a text in which quoting is a backslash, and not every quoted character gets one: of literal
text the characters of `C_ESC`, of the result of an expansion only those that begin something.  Where
the text means the same as the word (`param_trimmed`), the operators do as they should.
-/

namespace Shish

variable {κ : Type}

/-! ## The four loops -/

/-- `for(i = 0; i <= n; i++)`, up to the first hit. -/
def firstUpTo (p : ℕ → Bool) (n : ℕ) : Option ℕ := (List.range (n + 1)).find? p

/-- `for(i = n; i >= 0; i--)`, down to the first hit. -/
def lastFrom (p : ℕ → Bool) : ℕ → Option ℕ
  | 0 => if p 0 then some 0 else none
  | n + 1 => if p (n + 1) then some (n + 1) else lastFrom p n

/-- `for(i = n; i > 0; i--)`. -/
def lastAbove (p : ℕ → Bool) : ℕ → ℕ
  | 0 => 0
  | n + 1 => if p (n + 1) then n + 1 else lastAbove p n

/-- What is left of a value. -/
def trim (hit : Str → Bool) (v : Str) : VarOp → Str
  | .rssfx => v.take ((lastFrom (fun i => hit (v.drop i)) v.length).getD v.length)
  | .rlsfx => v.take ((firstUpTo (fun i => hit (v.drop i)) v.length).getD v.length)
  | .rspfx => v.drop ((firstUpTo (fun i => hit (v.take i)) v.length).getD 0)
  | .rlpfx => v.drop (lastAbove (fun i => hit (v.take i)) v.length)
  | _ => v

/-- `expand_param_tilde`. -/
def expandParamTilde (tilde : List (Part κ) → List (Part κ)) (word : List (Part κ)) : List (Part κ) :=
  if expandTildeNeeded word then tilde word else word

/-- `r` is what is left without the best part in `L`; without one it is everything.  `parts r x` says
that the value falls into `r` and the part `x`. -/
def Removes (L : Str → Prop) (best : ℕ → ℕ → Prop) (parts : Str → Str → Prop) (v r : Str) : Prop :=
  (∃ x, parts r x ∧ L x ∧ ∀ r' x', parts r' x' → L x' → best x.length x'.length) ∨
    (r = v ∧ ∀ r' x', parts r' x' → ¬ L x')

/-- **What each operator leaves.** -/
def Trimmed (L : Str → Prop) (v r : Str) : VarOp → Prop
  | .rssfx => Removes L (· ≤ ·) (fun r x => v = r ++ x) v r
  | .rlsfx => Removes L (· ≥ ·) (fun r x => v = r ++ x) v r
  | .rspfx => Removes L (· ≤ ·) (fun r x => v = x ++ r) v r
  | .rlpfx => Removes L (· ≥ ·) (fun r x => v = x ++ r) v r
  | _ => True

section Loops

variable {p : ℕ → Bool} {n i : ℕ} {L : Str → Prop} {best : ℕ → ℕ → Prop} {v : Str} {hit : Str → Bool}

theorem lastFrom_some : ∀ {n : ℕ}, lastFrom p n = some i →
    i ≤ n ∧ p i = true ∧ ∀ j ≤ n, p j = true → j ≤ i
  | 0, h => by
      rw [lastFrom] at h
      split_ifs at h with hp
      obtain rfl := Option.some.inj h
      exact ⟨Nat.le_refl _, hp, fun j hj _ => hj⟩
  | n + 1, h => by
      rw [lastFrom] at h
      split_ifs at h with hp
      · obtain rfl := Option.some.inj h
        exact ⟨Nat.le_refl _, hp, fun j hj _ => hj⟩
      · obtain ⟨hle, hi, hbest⟩ := lastFrom_some h
        refine ⟨Nat.le_succ_of_le hle, hi, fun j hj hpj => ?_⟩
        rcases Nat.le_succ_iff.1 hj with hj | rfl
        · exact hbest j hj hpj
        · exact absurd hpj hp

theorem lastFrom_none : ∀ {n : ℕ}, lastFrom p n = none → ∀ j ≤ n, p j ≠ true
  | 0, h, j, hj => by
      obtain rfl := Nat.le_zero.1 hj
      rw [lastFrom] at h
      split_ifs at h with hp
      exact hp
  | n + 1, h, j, hj => by
      rw [lastFrom] at h
      split_ifs at h with hp
      rcases Nat.le_succ_iff.1 hj with hj | rfl
      · exact lastFrom_none h j hj
      · exact hp

theorem lastAbove_spec (p : ℕ → Bool) : ∀ n : ℕ, lastAbove p n ≤ n ∧
    (lastAbove p n ≠ 0 → p (lastAbove p n) = true) ∧ ∀ j ≤ n, p j = true → j ≤ lastAbove p n
  | 0 => ⟨Nat.le_refl _, fun h => absurd rfl h, fun j hj _ => hj⟩
  | n + 1 => by
      rw [lastAbove]
      split_ifs with hp
      · exact ⟨Nat.le_refl _, fun _ => hp, fun j hj _ => hj⟩
      · obtain ⟨hle, hi, hbest⟩ := lastAbove_spec p n
        refine ⟨Nat.le_succ_of_le hle, hi, fun j hj hpj => ?_⟩
        rcases Nat.le_succ_iff.1 hj with hj | rfl
        · exact hbest j hj hpj
        · exact absurd hpj hp

theorem firstUpTo_some (h : firstUpTo p n = some i) : i ≤ n ∧ p i = true ∧ ∀ j ≤ n, p j = true → i ≤ j := by
  obtain ⟨hi, hmem, hfirst⟩ := List.find?_range_eq_some.1 h
  rw [List.mem_range] at hmem
  refine ⟨Nat.le_of_lt_succ hmem, hi, fun j _ hpj => ?_⟩
  by_contra hlt
  have := hfirst j (Nat.lt_of_not_le hlt)
  rw [hpj] at this
  exact Bool.noConfusion this

theorem firstUpTo_none (h : firstUpTo p n = none) : ∀ j ≤ n, p j ≠ true := by
  intro j hj hp
  have := List.find?_range_eq_none.1 h j (Nat.lt_succ_of_le hj)
  rw [hp] at this
  exact Bool.noConfusion this

/-- A place to cut off a suffix. -/
theorem removes_suffix (hi : i ≤ v.length) (hL : L (v.drop i))
    (hbest : ∀ j ≤ v.length, L (v.drop j) → best (v.length - i) (v.length - j)) :
    Removes L best (fun r x => v = r ++ x) v (v.take i) := by
  refine .inl ⟨v.drop i, (List.take_append_drop i v).symm, hL, fun r x hv hx => ?_⟩
  subst hv
  have := hbest r.length (by rw [List.length_append]; exact Nat.le_add_right ..) (by rwa [List.drop_left])
  rwa [List.length_append, Nat.add_sub_cancel_left, ← List.length_append, ← List.length_drop] at this

theorem removes_no_suffix (h : ∀ j ≤ v.length, ¬ L (v.drop j)) : Removes L best (fun r x => v = r ++ x) v v := by
  refine .inr ⟨rfl, fun r x hv hx => ?_⟩
  subst hv
  refine h r.length (by rw [List.length_append]; exact Nat.le_add_right ..) ?_
  rwa [List.drop_left]

/-- A place to cut off a prefix. -/
theorem removes_prefix (hi : i ≤ v.length) (hL : L (v.take i))
    (hbest : ∀ j ≤ v.length, L (v.take j) → best i j) :
    Removes L best (fun r x => v = x ++ r) v (v.drop i) := by
  refine .inl ⟨v.take i, (List.take_append_drop i v).symm, hL, fun r x hv hx => ?_⟩
  subst hv
  rw [List.length_take, Nat.min_eq_left hi]
  refine hbest x.length (by rw [List.length_append]; exact Nat.le_add_right ..) ?_
  rwa [List.take_left]

theorem removes_no_prefix (h : ∀ j ≤ v.length, ¬ L (v.take j)) : Removes L best (fun r x => v = x ++ r) v v := by
  refine .inr ⟨rfl, fun r x hv hx => ?_⟩
  subst hv
  refine h x.length (by rw [List.length_append]; exact Nat.le_add_right ..) ?_
  rwa [List.take_left]

/-- **The loops find the shortest and the longest part.** -/
theorem trimmed_trim (hL : ∀ x, hit x = true ↔ L x) (v : Str) (op : VarOp) : Trimmed L v (trim hit v op) op := by
  cases op with
  | rssfx =>
    unfold Trimmed trim
    cases hlast : lastFrom (fun i => hit (v.drop i)) v.length with
    | none =>
      rw [Option.getD_none, List.take_length]
      exact removes_no_suffix fun j hj hx => lastFrom_none hlast j hj ((hL _).2 hx)
    | some i =>
      obtain ⟨hi, hp, hbest⟩ := lastFrom_some hlast
      exact removes_suffix hi ((hL _).1 hp) fun j hj hx => Nat.sub_le_sub_left (hbest j hj ((hL _).2 hx)) _
  | rlsfx =>
    unfold Trimmed trim
    cases hfirst : firstUpTo (fun i => hit (v.drop i)) v.length with
    | none =>
      rw [Option.getD_none, List.take_length]
      exact removes_no_suffix fun j hj hx => firstUpTo_none hfirst j hj ((hL _).2 hx)
    | some i =>
      obtain ⟨hi, hp, hbest⟩ := firstUpTo_some hfirst
      exact removes_suffix hi ((hL _).1 hp) fun j hj hx => Nat.sub_le_sub_left (hbest j hj ((hL _).2 hx)) _
  | rspfx =>
    unfold Trimmed trim
    cases hfirst : firstUpTo (fun i => hit (v.take i)) v.length with
    | none =>
      rw [Option.getD_none, List.drop_zero]
      exact removes_no_prefix fun j hj hx => firstUpTo_none hfirst j hj ((hL _).2 hx)
    | some i =>
      obtain ⟨hi, hp, hbest⟩ := firstUpTo_some hfirst
      exact removes_prefix hi ((hL _).1 hp) fun j hj hx => hbest j hj ((hL _).2 hx)
  | rlpfx =>
    unfold Trimmed trim
    obtain ⟨hi, hp, hbest⟩ := lastAbove_spec (fun i => hit (v.take i)) v.length
    by_cases hzero : lastAbove (fun i => hit (v.take i)) v.length = 0
    · rw [hzero] at hbest ⊢
      by_cases hnil : L (v.take 0)
      · exact removes_prefix (Nat.zero_le _) hnil fun j hj hx => hbest j hj ((hL _).2 hx)
      · rw [List.drop_zero]
        refine removes_no_prefix fun j hj hx => ?_
        obtain rfl := Nat.le_zero.1 (hbest j hj ((hL _).2 hx))
        exact hnil hx
    · exact removes_prefix hi ((hL _).1 (hp hzero)) fun j hj hx => hbest j hj ((hL _).2 hx)
  | _ => trivial

end Loops

/-! ## The characters of a pattern -/

/-- Unquoted literal text: a backslash quotes what follows it. -/
def readText : Str → List (Mark × Bool)
  | '\\' :: c :: t => ((c, true), true) :: readText t
  | c :: t => ((c, false), false) :: readText t
  | [] => []

/-- Quoted literal text: a quoted character of `C_ESC` has its backslash. -/
def readQuoted : Str → List (Mark × Bool)
  | '\\' :: c :: t =>
      if parseIsesc c then ((c, true), true) :: readQuoted t else (('\\', true), false) :: readQuoted (c :: t)
  | c :: t => ((c, true), false) :: readQuoted t
  | [] => []

/-- The result of an expansion: a quoted character that begins something gets a backslash. -/
def readResult (quoted : Bool) (x : Str) : List (Mark × Bool) :=
  x.map fun c => ((c, quoted), quoted && (c == '\\' || c == '*' || c == '?' || c == '['))

/-- **The pattern that a word is**: every quoted character escaped.  A backslash that is not quoted itself
quotes the character behind it, if that one is not. -/
def patternText : List Mark → Str
  | ('\\', false) :: (c, false) :: t => '\\' :: c :: patternText t
  | (c, q) :: t => if q || c == '\\' then '\\' :: c :: patternText t else c :: patternText t
  | [] => []

theorem write_readText (s : Str) : write (readText s) = s := by
  fun_induction readText s with
  | case1 c t ih => rw [write_cons, ih]; rfl
  | case2 c t _ ih => rw [write_cons, ih]; rfl
  | case3 => rfl

theorem write_readQuoted (s : Str) : write (readQuoted s) = s := by
  fun_induction readQuoted s with
  | case1 c t _ ih => rw [write_cons, ih]; rfl
  | case2 c t _ ih => rw [write_cons, ih]; rfl
  | case3 c t _ ih => rw [write_cons, ih]; rfl
  | case4 => rfl

theorem write_readResult (quoted : Bool) (x : Str) :
    write (readResult quoted x) = if quoted then Wordlist.escapePattern x else x := by
  induction x with
  | nil => cases quoted <;> rfl
  | cons c x ih =>
    have hcons : readResult quoted (c :: x) = _ :: readResult quoted x := rfl
    rw [hcons, write_cons, ih]
    cases quoted with
    | true => rfl
    | false => rfl

/-! ## The text of a word -/

namespace Wordlist

variable {wl : Wordlist} {flags : XFlags}

/-- A wordlist in string mode. -/
structure InString (wl : Wordlist) : Prop where
  str : wl.str = true
  open_ : wl.isOpen

/-- A chunk of a pattern is appended as it is, or escaped. -/
theorem InString.cat (h : wl.InString) (hp : flags.pattern = true) (b : Str) :
    (wl.cat b flags).InString ∧
      (wl.cat b flags).cur = wl.cur ++ if flags.quoted && !flags.literal then escapePattern b else b := by
  unfold Wordlist.cat Wordlist.catWhole
  rw [start_eq_self h.open_]
  simp only [h.str, Bool.or_true, Bool.true_or, if_true, hp, Bool.not_true, Bool.and_false, Bool.false_and,
    Bool.false_eq_true, if_false, Bool.true_and]
  split_ifs <;> exact ⟨⟨rfl, h.open_⟩, rfl⟩

end Wordlist

/-- The flags of a chunk of a pattern, where `quoted` says that the word as a whole is quoted. -/
structure XFlags.ForPattern (flags : XFlags) (quoted : Bool) : Prop where
  pattern : flags.pattern = true
  nosplit : flags.nosplit = true
  literal : flags.literal = false
  quoted : flags.quoted = quoted

/-- The result `x` of the chunk is appended. -/
def Pastes (S : Shell κ) (part : Part κ) (x : Str) : Prop :=
  ∀ globres flags (wl : Wordlist), wl.InString → flags.pattern = true → flags.nosplit = true →
    ∃ wl', expandPart S globres flags wl part = some wl' ∧ wl'.InString ∧
      wl'.cur = (wl.cat x (partFlags globres flags part)).cur

/-- **The characters of a pattern word**, with the backslashes they get: of literal text, of results,
and of a word that an operator puts in its place. -/
inductive PatternWord (S : Shell κ) : Bool → List (Part κ) → List (Mark × Bool) → Prop where
  | nil {q} : PatternWord S q [] []
  | text {flag s parts ms} : PatternWord S false parts ms →
      PatternWord S false (.str .unquoted flag s :: parts) (readText s ++ ms)
  | quoted {q quot flag s parts ms} : quot ≠ .unquoted → flag.heredoc = false → PatternWord S q parts ms →
      PatternWord S q (.str quot flag s :: parts) (readQuoted s ++ ms)
  | here {q quot flag s parts ms} : quot ≠ .unquoted → flag.heredoc = true → PatternWord S q parts ms →
      PatternWord S q (.str quot flag s :: parts) (readResult true s ++ ms)
  | param {q p w x parts ms} : Pastes S (.param p w) x → PatternWord S q parts ms →
      PatternWord S q (.param p w :: parts) (readResult (q || decide (p.quot ≠ .unquoted)) x ++ ms)
  | subst {q quot k x parts ms} : Pastes S (.subst quot k) x → PatternWord S q parts ms →
      PatternWord S q (.subst quot k :: parts) (readResult (q || decide (quot ≠ .unquoted)) x ++ ms)
  | word {q p w ms' parts ms} :
      (∀ flags wl, S.oper p (some w) flags wl = expandArg S w { flags with subword := true } wl) →
      PatternWord S (q || decide (p.quot ≠ .unquoted)) w ms' → PatternWord S q parts ms →
      PatternWord S q (.param p (some w) :: parts) (ms' ++ ms)

section Words

variable {S : Shell κ} {q : Bool} {parts word : List (Part κ)} {ms : List (Mark × Bool)} {part : Part κ} {x : Str}

theorem Pastes.append (h : Pastes S part x) {globres : Bool} {flags : XFlags} {wl : Wordlist} (hwl : wl.InString)
    (hf : flags.ForPattern q) (quoted : Bool)
    (hflags : (partFlags globres flags part).pattern = true ∧
      ((partFlags globres flags part).quoted && !(partFlags globres flags part).literal) = quoted) :
    ∃ wl', expandPart S globres flags wl part = some wl' ∧ wl'.InString ∧
      wl'.cur = wl.cur ++ write (readResult quoted x) := by
  obtain ⟨wl', hexp, hin, hcur⟩ := h globres flags wl hwl hf.pattern hf.nosplit
  refine ⟨wl', hexp, hin, ?_⟩
  rw [hcur, (hwl.cat hflags.1 x).2, hflags.2, write_readResult]

/-- **The text of a pattern word.** -/
theorem PatternWord.expand (h : PatternWord S q parts ms) : ∀ {globres : Bool} {flags : XFlags} {wl : Wordlist},
    flags.ForPattern q → wl.InString →
      ∃ wl', parts.foldlM (expandPart S globres flags) wl = some wl' ∧ wl'.InString ∧ wl'.cur = wl.cur ++ write ms := by
  have hstep : ∀ {globres : Bool} {flags : XFlags} {wl wl₁ : Wordlist} {part : Part κ} {parts : List (Part κ)}
      {ms₁ ms : List (Mark × Bool)}, expandPart S globres flags wl part = some wl₁ → wl₁.cur = wl.cur ++ write ms₁ →
      (∃ wl', parts.foldlM (expandPart S globres flags) wl₁ = some wl' ∧ wl'.InString ∧ wl'.cur = wl₁.cur ++ write ms) →
      ∃ wl', (part :: parts).foldlM (expandPart S globres flags) wl = some wl' ∧ wl'.InString ∧
        wl'.cur = wl.cur ++ write (ms₁ ++ ms) := by
    rintro globres flags wl wl₁ part parts ms₁ ms hexp hcur ⟨wl', hrest, hin, hcur'⟩
    refine ⟨wl', ?_, hin, ?_⟩
    · rw [List.foldlM_cons, hexp]
      exact hrest
    · rw [hcur', hcur, write_append, List.append_assoc]
  induction h with
  | nil => exact fun _ hwl => ⟨_, rfl, hwl, (List.append_nil _).symm⟩
  | @text flag s parts ms h ih =>
    intro globres flags wl hf hwl
    have hcat := hwl.cat (show (partFlags globres flags (.str .unquoted flag s : Part κ)).pattern = true from hf.pattern) s
    refine hstep rfl ?_ (ih hf hcat.1)
    rw [hcat.2, write_readText]
    simp [partFlags, hf.quoted]
  | @quoted q quot flag s parts ms hquot hhere h ih =>
    intro globres flags wl hf hwl
    have hcat := hwl.cat (show (partFlags globres flags (.str quot flag s : Part κ)).pattern = true from hf.pattern) s
    refine hstep rfl ?_ (ih hf hcat.1)
    rw [hcat.2, write_readQuoted]
    cases s with
    | nil => simp [Wordlist.escapePattern]
    | cons c s => simp [partFlags, hf.literal, hhere]
  | @here q quot flag s parts ms hquot hhere h ih =>
    intro globres flags wl hf hwl
    have hcat := hwl.cat (show (partFlags globres flags (.str quot flag s : Part κ)).pattern = true from hf.pattern) s
    refine hstep rfl ?_ (ih hf hcat.1)
    rw [hcat.2, write_readResult]
    simp [partFlags, hf.literal, hhere, hquot]
  | @param q p w x parts ms hp h ih =>
    intro globres flags wl hf hwl
    obtain ⟨wl', hexp, hin, hcur⟩ := hp.append hwl hf (q || decide (p.quot ≠ .unquoted))
      ⟨hf.pattern, by simp [partFlags, partFlags.result, hf.quoted, hf.literal]⟩
    exact hstep hexp hcur (ih hf hin)
  | @subst q quot k x parts ms hp h ih =>
    intro globres flags wl hf hwl
    obtain ⟨wl', hexp, hin, hcur⟩ := hp.append hwl hf (q || decide (quot ≠ .unquoted))
      ⟨hf.pattern, by simp [partFlags, partFlags.result, hf.quoted, hf.literal]⟩
    exact hstep hexp hcur (ih hf hin)
  | @word q p w ms' parts ms hoper hw h ihw ih =>
    intro globres flags wl hf hwl
    have hf' : ({ partFlags globres flags (.param p (some w) : Part κ) with subword := true } : XFlags).ForPattern
        (q || decide (p.quot ≠ .unquoted)) :=
      ⟨hf.pattern, hf.nosplit, hf.literal, by simp [partFlags, partFlags.result, hf.quoted]⟩
    obtain ⟨wl', hexp, hin, hcur⟩ := @ihw (expandGlobresOk w) _ _ hf' hwl
    refine hstep (?_ : expandPart S globres flags wl (.param p (some w)) = some wl') hcur (ih hf hin)
    rw [expandPart, expandParam, if_pos (by simp), hoper]
    exact hexp

theorem PatternWord.copysa (h : PatternWord S false word ms) :
    copysa S word { XFlags.default with pattern := true } = some (write ms) := by
  have hflags : ({ XFlags.default with pattern := true, nosplit := true } : XFlags).ForPattern false :=
    ⟨rfl, rfl, rfl, rfl⟩
  have hwl : (Wordlist.initStr [] (fun _ => none) fun _ => none).InString := ⟨rfl, rfl⟩
  obtain ⟨wl', hexp, -, hcur⟩ := @PatternWord.expand _ _ _ _ _ h (expandGlobresOk word) _ _ hflags hwl
  have hexp' : expandArg S word { XFlags.default with pattern := true, nosplit := true }
      (.initStr [] (fun _ => none) fun _ => none) = some wl' := hexp
  rw [Shish.copysa, hexp']
  exact congrArg some hcur

/-- The value of a parameter is handed on. -/
theorem pastes_param {p : Param} (hop : p.op = .default) (hlen : p.strlen = false)
    (hmany : p.special ≠ some .argvs) (hx : S.param p = some x) : Pastes S (.param p none) x := by
  intro globres flags wl hwl hpat hno
  refine ⟨_, ?_, (hwl.cat (show (partFlags globres flags (.param p none : Part κ)).pattern = true from hpat) x).1, rfl⟩
  have hno' : (partFlags globres flags (.param p none : Part κ)).nosplit = true := hno
  unfold expandPart expandParam
  simp [hop, hlen, hmany, hx, hno']

end Words

/-- The language of a pattern, without the rule for leading periods. -/
def matchedBy (toks : List Token) (x : Str) : Prop :=
  WildMatches (FnFlags.rules ⟨false, false, false⟩) (toks.map (Token.wild ⟨false, false, false⟩)) none x

/-- Outside of bracket expressions quoting is a backslash where it has to be. -/
theorem builtFrom_bare {ms : List (Mark × Bool)}
    (hms : ∀ m ∈ ms, if m.1.2 then m.2 = true ∨ m.1.1 ∉ ['*', '?', '\\', '[']
      else m.2 = false ∧ m.1.1 ∉ ['\\', '[']) :
    ∃ toks, BuiltFrom false (patternText (ms.map Prod.fst)) toks ∧ BuiltFrom false (write ms) toks := by
  induction ms with
  | nil => exact ⟨[], .nil, .nil⟩
  | cons m ms ih =>
    rw [List.forall_mem_cons] at hms
    obtain ⟨toks, hideal, hwrite⟩ := ih hms.2
    obtain ⟨⟨c, q⟩, k⟩ := m
    cases q with
    | true =>
      have htext : patternText ((c, true) :: ms.map Prod.fst) = '\\' :: c :: patternText (ms.map Prod.fst) := by
        simp [patternText]
      refine ⟨.char c :: toks, htext ▸ .escaped rfl hideal, ?_⟩
      rw [write_cons]
      cases k with
      | true => exact .escaped rfl hwrite
      | false => exact .bare (hms.1.resolve_left Bool.false_ne_true) hwrite
    | false =>
      obtain ⟨hk, hc⟩ : k = false ∧ c ∉ ['\\', '['] := hms.1
      have hesc : c ≠ '\\' := fun h => hc (h ▸ List.mem_cons_self)
      have htext : patternText ((c, false) :: ms.map Prod.fst) = c :: patternText (ms.map Prod.fst) := by
        simp [patternText, hesc]
      have hwritten : write (((c, false), k) :: ms) = c :: write ms := by
        rw [write_cons, hk]
        rfl
      rw [List.map_cons, htext, hwritten]
      by_cases hstar : c = '*'
      · subst hstar
        exact ⟨_, .star hideal, .star hwrite⟩
      · by_cases hany : c = '?'
        · subst hany
          exact ⟨_, .any hideal, .any hwrite⟩
        · have hbare : c ∉ ['*', '?', '\\', '['] := by
            simp only [List.mem_cons, List.not_mem_nil, or_false, not_or] at hc ⊢
            exact ⟨hstar, hany, hc⟩
          exact ⟨_, .bare hbare hideal, .bare hbare hwrite⟩

/-- So a word without an unquoted `[` is the pattern it is meant to be. -/
theorem trimmed_bare (z : Char) {ms : List (Mark × Bool)}
    (hms : ∀ m ∈ ms, if m.1.2 then m.2 = true ∨ m.1.1 ∉ ['*', '?', '\\', '['] else m.2 = false ∧ m.1.1 ∉ ['\\', '[']) :
    ∃ means, BuiltFrom false (patternText (ms.map Prod.fst)) means ∧
      ∀ v op, Trimmed (matchedBy means) v (trim (pathFnmatch ⟨false, false, false⟩ z (write ms)) v op) op := by
  obtain ⟨toks, hmeans, hwritten⟩ := builtFrom_bare hms
  exact ⟨toks, hmeans, fun v op => trimmed_trim (pathFnmatch_iff z hwritten) v op⟩

end Shish
