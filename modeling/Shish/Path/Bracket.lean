import Shish.Path.Fnmatch

/-!
# Path/Bracket — bracket expressions

Three loops decide where a bracket expression ends: `path_fnmatch_has_close` in advance, the scan of its
members, and the skip to its `]` after a hit.  Where its members are in step with all three (`Members`),
the scan finds out what they hold (`bracketScan_members`), the skip ends at the same `]`
(`skipMembers_members`), and so does `path_fnmatch_has_close` when the first member is no trap for it
(`hasClose_iff`).
-/

namespace Shish

/-! ## Members -/

/-- What a bracket expression lists. -/
inductive Member where
  | char (c : Char)
  | range (a b : Char)
  | cls (name : Str)
  | symbol (name : Str)
deriving DecidableEq, Repr

/-- The member has the character. -/
def Member.holds (c : Char) : Member → Bool
  | .char d => d == c
  | .range a b => charLe a c && charLe c b
  | .cls name => fnmatchClass name c
  | .symbol name => name == [c]

/-- The character is a member when it stands by itself: no `]` but the first, no escape, and no `[` that
opens a class or a symbol. -/
structure Plain (noescape first : Bool) (c : Char) (t : Str) : Prop where
  close : c = ']' → first = true
  escape : c = '\\' → noescape = true ∨ t = []
  sub : subLen c t = 0

/-- `[:name:]`, `[.name.]` and `[=name=]`, up to the first `:]`, `.]` or `=]`. -/
def IsSub (d : Char) (name t : Str) : Prop := subLen '[' (d :: (name ++ d :: ']' :: t)) = name.length + 4

/-- An end of a range: a character, or a symbol of one. -/
inductive Endpoint (noescape first : Bool) : Char → Str → Str → Prop where
  | plain {c t} : Plain noescape first c t → Endpoint noescape first c (c :: t) t
  | symbol {d c t} : d ≠ ':' → IsSub d [c] t → Endpoint noescape first c ('[' :: d :: c :: d :: ']' :: t) t

/-- **The members of a bracket expression**, and what is behind its `]` if there is one.  No range ends
in a `\` or `[` that means something else to who looks for the `]`. -/
inductive Members (noescape : Bool) : Bool → Str → List Member → Option Str → Prop where
  | stop {first} : Members noescape first [] [] none
  | close {rest} : Members noescape false (']' :: rest) [] (some rest)
  | char {first c t ms out} : Plain noescape first c t → rangeEnd t = none →
      Members noescape false t ms out → Members noescape first (c :: t) (.char c :: ms) out
  | escaped {first c t ms out} : noescape = false → Members noescape false t ms out →
      Members noescape first ('\\' :: c :: t) (.char c :: ms) out
  | range {first a b text u t ms out} : Endpoint noescape first a text ('-' :: u) → Endpoint noescape false b u t →
      rangeEnd ('-' :: u) ≠ none → Members noescape false t ms out →
      Members noescape first text (.range a b :: ms) out
  | cls {first name t ms out} : IsSub ':' name t → Members noescape false t ms out →
      Members noescape first ('[' :: ':' :: (name ++ ':' :: ']' :: t)) (.cls name :: ms) out
  | symbol {first d name t ms out} : d ≠ ':' → IsSub d name t → (name.length = 1 → rangeEnd t = none) →
      Members noescape false t ms out →
      Members noescape first ('[' :: d :: (name ++ d :: ']' :: t)) (.symbol name :: ms) out

/-- The first member, which `path_fnmatch_has_close` takes for one byte: where it is longer, its bytes
neither end the bracket expression nor hide its end. -/
def FirstSteps (noescape closed : Bool) : Str → Prop
  | [] => True
  | p :: ps =>
      if p = '\\' ∧ noescape = false ∧ ps ≠ [] then ∀ c u, ps = c :: u → Plain noescape closed c u
      else subLen p ps = 0 ∨ closed = true ∧ ∀ x ∈ ps.take (subLen p ps - 2), x ≠ '\\' ∧ x ≠ '['

/-- The scan of the members taken to its end: what is behind the `]`. -/
def scanEnd (noescape : Bool) (c : Char) (first : Bool) (pattern : Str) : Option Str :=
  match pattern with
  | [] => none
  | p :: ps =>
      if p = '\\' ∧ noescape = false ∧ ps ≠ [] then
        scanEnd noescape c false (bracketMember c true (ps.headD '\x00') (ps.drop 1)).2
      else if p = ']' ∧ first = false then some ps
      else scanEnd noescape c false (bracketMember c false p ps).2
termination_by pattern.length
decreasing_by
  · have h := length_bracketMember c true (ps.headD '\x00') (ps.drop 1)
    rw [List.length_drop] at h
    rw [List.length_cons]
    omega
  · have h := length_bracketMember c false p ps
    rw [List.length_cons]
    omega

variable {noescape first neg : Bool} {t u text rest : Str} {ms : List Member} {out : Option Str} {a b c d p z : Char}
  {name ps : Str}

/-! ## Classes and symbols -/

theorem subLen_of_ne (h : p ≠ '[') : subLen p ps = 0 := if_neg fun hp => h hp.1

theorem plain_of_ne (hclose : c ≠ ']') (hesc : c ≠ '\\') (hopen : c ≠ '[') : Plain noescape first c t :=
  ⟨fun h => absurd h hclose, fun h => absurd h hesc, subLen_of_ne hopen⟩

theorem plain_dash : Plain noescape first '-' t := plain_of_ne (by decide) (by decide) (by decide)

theorem Plain.escape_of_cons (h : Plain noescape first c (d :: t)) (hc : c = '\\') : noescape = true :=
  (h.escape hc).resolve_right (List.cons_ne_nil _ _)

theorem Plain.not_escape (h : Plain noescape first c t) : ¬ (c = '\\' ∧ noescape = false ∧ t ≠ []) := by
  rintro ⟨hc, hne, ht⟩
  exact Bool.noConfusion (((h.escape hc).resolve_right ht).symm.trans hne)

theorem IsSub.opens (h : IsSub d name t) : opensSub (d :: (name ++ d :: ']' :: t)) = true := by
  by_contra hno
  rw [IsSub, subLen, if_neg fun h => hno h.2] at h
  exact absurd h.symm (Nat.succ_ne_zero _)

theorem IsSub.drop : (d :: (name ++ d :: ']' :: t)).drop (name.length + 4 - 1) = t := by
  have : (name ++ ([d, ']'] ++ t)).drop (name.length + 2) = t := by
    rw [List.drop_append, List.drop_eq_nil_of_le (Nat.le_add_right ..), Nat.add_sub_cancel_left]
    rfl
  exact this

/-- What opens has its delimiter behind the `[`. -/
theorem subLen_eq_of_opens (h : opensSub (d :: ps) = true) : subLen '[' (d :: ps) = subexprLen ('[' :: d :: ps) d :=
  if_pos ⟨rfl, h⟩

theorem opens_symbol (hd : d = '.' ∨ d = '=') : opensSub (d :: ps) = true := by
  rcases hd with rfl | rfl <;> rfl

theorem IsSub.delim (h : IsSub d name t) (hd : d ≠ ':') : d = '.' ∨ d = '=' := by
  have := h.opens
  simp only [opensSub, List.head?_cons, Bool.or_eq_true, beq_iff_eq, Option.some.injEq] at this
  exact this.elim (fun h => h.elim (absurd · hd) .inl) .inr

/-- The second end of a range is where `path_fnmatch_range_end` finds it. -/
theorem rangeEnd_dash (h : Endpoint noescape false b u t) (hr : rangeEnd ('-' :: u) ≠ none) :
    ∃ k, rangeEnd ('-' :: u) = some (b, k + 1) ∧ u.drop k = t := by
  cases h with
  | plain hp =>
    have hclose : b ≠ ']' := fun h => Bool.noConfusion (hp.close h)
    rw [rangeEnd, if_neg (by simp [hclose])] at hr ⊢
    by_cases hsub : b = '[' ∧ (t.head? = some '.' ∨ t.head? = some '=')
    · obtain ⟨d, v, rfl, hd⟩ : ∃ d v, t = d :: v ∧ (d = '.' ∨ d = '=') := by
        cases t with
        | nil => simp at hsub
        | cons d v => exact ⟨d, v, rfl, by simpa using hsub.2⟩
      have hlen := hp.sub
      rw [hsub.1, subLen_eq_of_opens (opens_symbol hd)] at hlen
      rw [if_pos hsub, hsub.1] at hr
      exact absurd (if_pos (.inl hlen)) hr
    · rw [if_neg hsub]
      exact ⟨1, rfl, rfl⟩
  | @symbol d _ _ hd hs =>
    have hlen : subexprLen ('[' :: d :: b :: d :: ']' :: t) d = 5 := (subLen_eq_of_opens hs.opens).symm.trans hs
    refine ⟨5, ?_, rfl⟩
    rw [rangeEnd, if_neg (by decide), if_pos ⟨rfl, by simpa using hs.delim hd⟩]
    show (if subexprLen ('[' :: d :: b :: d :: ']' :: t) d = 0 ∨ subexprLen ('[' :: d :: b :: d :: ']' :: t) d - 4 ≠ 1
      then none else some (b, 1 + subexprLen ('[' :: d :: b :: d :: ']' :: t) d)) = _
    rw [hlen]
    rfl

/-! ## The skip -/

theorem skipMembers_plain (h : Plain noescape false c t) : skipMembers noescape (c :: t) = skipMembers noescape t := by
  rw [skipMembers, if_neg fun hc => Bool.noConfusion (h.close hc), if_neg, if_neg (not_not.2 h.sub)]
  exact fun hc => h.not_escape ⟨hc.1, hc.2.2, hc.2.1⟩

theorem skipMembers_escaped (h : noescape = false) :
    skipMembers noescape ('\\' :: c :: t) = skipMembers noescape t := by
  rw [skipMembers, if_neg (by decide), if_pos ⟨rfl, List.cons_ne_nil _ _, h⟩]
  rfl

theorem skipMembers_sub (h : IsSub d name t) :
    skipMembers noescape ('[' :: d :: (name ++ d :: ']' :: t)) = skipMembers noescape t := by
  rw [skipMembers, if_neg (by decide), if_neg (fun h => absurd h.1 (by decide)), h, if_pos (Nat.succ_ne_zero _),
    IsSub.drop]

theorem skipMembers_endpoint (h : Endpoint noescape false c text t) :
    skipMembers noescape text = skipMembers noescape t := by
  cases h with
  | plain hp => exact skipMembers_plain hp
  | symbol _ hs => exact skipMembers_sub hs

/-- **The skip after a hit ends at the `]`**, or at the end of the pattern. -/
theorem skipMembers_members (h : Members noescape first t ms out) (hfirst : first = false) :
    skipMembers noescape t = out.elim [] (']' :: ·) := by
  induction h with
  | stop => rw [skipMembers]; rfl
  | close => rw [skipMembers, if_pos rfl]; rfl
  | char hp _ _ ih =>
    subst hfirst
    rw [skipMembers_plain hp, ih rfl]
  | escaped hesc _ ih => rw [skipMembers_escaped hesc, ih rfl]
  | range ha hb _ _ ih =>
    subst hfirst
    rw [skipMembers_endpoint ha, skipMembers_plain plain_dash, skipMembers_endpoint hb, ih rfl]
  | cls hs _ ih => rw [skipMembers_sub hs, ih rfl]
  | symbol _ hs _ _ ih => rw [skipMembers_sub hs, ih rfl]

/-! ## In advance -/

/-- Looking for a `]` and skipping to it are the same. -/
theorem hasCloseGo_iff (l : Str) : hasCloseGo noescape l = true ↔ skipMembers noescape l ≠ [] := by
  induction hn : l.length using Nat.strong_induction_on generalizing l with
  | _ n ih =>
    subst hn
    cases l with
    | nil => simp [hasCloseGo, skipMembers]
    | cons p ps =>
      have hdrop : ∀ k, hasCloseGo noescape (ps.drop k) = true ↔ skipMembers noescape (ps.drop k) ≠ [] := fun k =>
        ih _ (by rw [List.length_drop, List.length_cons]; omega) _ rfl
      rw [hasCloseGo, skipMembers]
      by_cases hclose : p = ']'
      · subst hclose
        rw [if_neg (fun h => absurd h.1 (by decide)), if_neg (not_not.2 (subLen_of_ne (by decide))), if_pos rfl,
          if_pos rfl]
        exact iff_of_true rfl (List.cons_ne_nil _ _)
      · rw [if_neg hclose, if_neg hclose]
        by_cases hesc : p = '\\' ∧ noescape = false
        · rw [if_pos hesc, hdrop 1]
          by_cases hps : ps = []
          · subst hps
            rw [if_neg (fun h => h.2.1 rfl), if_neg (not_not.2 (subLen_of_ne (by rw [hesc.1]; decide)))]
            rfl
          · rw [if_pos ⟨hesc.1, hps, hesc.2⟩]
        · have hskip : ¬ (p = '\\' ∧ ps ≠ [] ∧ noescape = false) := fun h => hesc ⟨h.1, h.2.2⟩
          rw [if_neg hesc, if_neg hskip]
          by_cases hsub : subLen p ps ≠ 0
          · rw [if_pos hsub, if_pos hsub]
            exact hdrop _
          · rw [if_neg hsub, if_neg hsub]
            exact hdrop 0

theorem hasCloseGo_members (h : Members noescape false t ms out) : hasCloseGo noescape t = true ↔ out.isSome = true := by
  rw [hasCloseGo_iff, skipMembers_members h rfl]
  cases out with
  | none => exact iff_of_false (fun h => h rfl) Bool.false_ne_true
  | some rest => exact iff_of_true (List.cons_ne_nil _ _) rfl

/-- A byte that stands by itself is passed over. -/
theorem hasCloseGo_plain (h : Plain noescape false c t) : hasCloseGo noescape (c :: t) = hasCloseGo noescape t := by
  rw [Bool.eq_iff_iff, hasCloseGo_iff, hasCloseGo_iff, skipMembers_plain h]

/-- Nothing hides the `]` here. -/
theorem hasCloseGo_of_bare {l : Str} (hl : ∀ x ∈ l, x ≠ '\\' ∧ x ≠ '[') : hasCloseGo noescape (l ++ ']' :: t) = true := by
  have hclose : hasCloseGo noescape (']' :: t) = true := by
    rw [hasCloseGo_iff, skipMembers, if_pos rfl]
    exact List.cons_ne_nil _ _
  induction l with
  | nil => exact hclose
  | cons x l ih =>
    rw [List.forall_mem_cons] at hl
    by_cases hx : x = ']'
    · rw [hx, List.cons_append, hasCloseGo_iff, skipMembers, if_pos rfl]
      exact List.cons_ne_nil _ _
    · rw [List.cons_append, hasCloseGo_plain (plain_of_ne hx hl.1.1 hl.1.2)]
      exact ih hl.2

theorem firstSteps_of_ne {closed : Bool} (hesc : p ≠ '\\') (hopen : p ≠ '[') : FirstSteps noescape closed (p :: ps) := by
  rw [FirstSteps, if_neg fun h => hesc h.1]
  exact .inl (subLen_of_ne hopen)

/-- The first member is a class or a symbol, of a bracket expression that is closed. -/
theorem hasCloseGo_sub {closed : Bool} (hs : IsSub d name t)
    (hfirst : FirstSteps noescape closed ('[' :: d :: (name ++ d :: ']' :: t))) :
    closed = true ∧ hasCloseGo noescape (d :: (name ++ d :: ']' :: t)) = true := by
  rw [FirstSteps, if_neg (fun h => absurd h.1 (by decide)), hs] at hfirst
  obtain ⟨hclosed, hbare⟩ := hfirst.resolve_left (Nat.succ_ne_zero _)
  refine ⟨hclosed, ?_⟩
  have htake : (d :: (name ++ d :: ']' :: t)).take (name.length + 4 - 2) = d :: (name ++ [d]) := by
    have h : ((d :: (name ++ [d])) ++ ']' :: t).take (name.length + 2) = d :: (name ++ [d]) := List.take_left' (by simp)
    simpa using h
  rw [htake] at hbare
  have hgo : hasCloseGo noescape ((d :: (name ++ [d])) ++ ']' :: t) = true := hasCloseGo_of_bare hbare
  simpa using hgo

/-- **`path_fnmatch_has_close` finds the `]`** just when there is one. -/
theorem hasCloseGo_first (h : Members noescape true t ms out) (hfirst : FirstSteps noescape out.isSome t) :
    hasCloseGo noescape (t.drop 1) = true ↔ out.isSome = true := by
  cases h with
  | stop => 
    rw [List.drop_nil, hasCloseGo_iff, skipMembers]
    exact iff_of_false (fun h => h rfl) Bool.false_ne_true
  | char _ _ h => exact hasCloseGo_members h
  | @escaped _ c u ms out hesc h =>
    rw [FirstSteps, if_pos ⟨rfl, hesc, List.cons_ne_nil _ _⟩] at hfirst
    have hp := hfirst c u rfl
    rw [List.drop_one, List.tail_cons]
    by_cases hc : c = ']'
    · rw [hc, hasCloseGo_iff, skipMembers, if_pos rfl]
      exact iff_of_true (List.cons_ne_nil _ _) (hp.close hc)
    · rw [hasCloseGo_plain ⟨fun h => absurd h hc, hp.escape, hp.sub⟩]
      exact hasCloseGo_members h
  | @range _ a b _ u t ms out ha hb _ h =>
    cases ha with
    | plain =>
      rw [List.drop_one, List.tail_cons, ← hasCloseGo_members h, hasCloseGo_iff, hasCloseGo_iff, skipMembers_plain plain_dash,
        skipMembers_endpoint hb]
    | symbol _ hs =>
      obtain ⟨hclosed, hgo⟩ := hasCloseGo_sub hs hfirst
      exact iff_of_true hgo hclosed
  | cls hs h =>
    obtain ⟨hclosed, hgo⟩ := hasCloseGo_sub hs hfirst
    exact iff_of_true hgo hclosed
  | symbol _ hs _ h =>
    obtain ⟨hclosed, hgo⟩ := hasCloseGo_sub hs hfirst
    exact iff_of_true hgo hclosed

/-! ## The scan -/

theorem bracketMember_plain (hp : Plain noescape first p ps) (hr : rangeEnd ps = none) :
    bracketMember c false p ps = (p == c, ps) := by
  rw [bracketMember, hr]
  dsimp only
  rw [hp.sub, if_pos rfl, if_neg Bool.false_ne_true]
  exact ite_self _

theorem bracketMember_range (ha : Endpoint noescape first a (p :: ps) ('-' :: u)) (hb : Endpoint noescape false b u t)
    (hr : rangeEnd ('-' :: u) ≠ none) : bracketMember c false p ps = (charLe a c && charLe c b, t) := by
  obtain ⟨k, hend, hdrop⟩ := rangeEnd_dash hb hr
  cases ha with
  | plain =>
    have hsub : opensSub ('-' :: u) ≠ true := Bool.false_ne_true
    rw [bracketMember, if_neg (fun h => hsub h.2.2), if_neg Bool.false_ne_true, hend, ← hdrop]
    rfl
  | @symbol d _ _ hd hs =>
    have hdrop' : ∀ n, (d :: a :: d :: ']' :: '-' :: u).drop (4 + n) = ('-' :: u).drop n := fun n => by
      rw [Nat.add_comm]
      rfl
    rw [bracketMember, if_pos ⟨rfl, rfl, hs.opens⟩]
    dsimp only
    have hlen : subLen '[' (d :: a :: d :: ']' :: '-' :: u) = 5 := hs
    rw [hlen, if_neg (Nat.succ_ne_zero _), if_neg (by simpa using hd), if_pos rfl]
    have hdrop5 : (d :: a :: d :: ']' :: '-' :: u).drop (5 + (k + 1) - 1) = t := by
      rw [show 5 + (k + 1) - 1 = 4 + (k + 1) by omega, hdrop', List.drop_succ_cons, hdrop]
    have hend' : rangeEnd ((d :: a :: d :: ']' :: '-' :: u).drop (5 - 1)) = some (b, k + 1) := hend
    rw [hend']
    dsimp only
    rw [hdrop5]
    rfl

theorem bracketMember_cls (hs : IsSub ':' name t) :
    bracketMember c false '[' (':' :: (name ++ ':' :: ']' :: t)) = (fnmatchClass name c, t) := by
  rw [bracketMember, if_pos ⟨rfl, rfl, hs.opens⟩]
  dsimp only
  rw [hs, if_neg (Nat.succ_ne_zero _), IsSub.drop]
  have : (name ++ ':' :: ']' :: t).take name.length = name := List.take_left' rfl
  exact (if_pos rfl).trans (congrArg (fun n => (fnmatchClass n c, t)) this)

theorem bracketMember_symbol (hd : d ≠ ':') (hs : IsSub d name t) (hr : name.length = 1 → rangeEnd t = none) :
    bracketMember c false '[' (d :: (name ++ d :: ']' :: t)) = (name == [c], t) := by
  rw [bracketMember, if_pos ⟨rfl, rfl, hs.opens⟩]
  dsimp only
  rw [hs, if_neg (Nat.succ_ne_zero _), IsSub.drop, if_neg (by simpa using hd), Nat.add_sub_cancel]
  split_ifs with hlen
  · obtain ⟨x, rfl⟩ := List.length_eq_one_iff.1 hlen
    rw [hr hlen]
    simp
  · have : (name == [c]) = false := by
      rw [beq_eq_false_iff_ne]
      rintro rfl
      exact hlen rfl
    rw [this]

/-- What the scan does with a member. -/
def scanStep (noescape neg : Bool) (z c : Char) (m : Bool × Str) : Option Str :=
  if (m.1 && !neg) || (!m.1 && neg && m.2.headD z == ']') then some ((skipMembers noescape m.2).drop 1)
  else if m.1 && neg then none
  else bracketScan noescape neg z c false m.2

theorem bracketScan_close : bracketScan noescape neg z c false (']' :: rest) = none := by
  rw [bracketScan, if_neg (fun h => absurd h.1 (by decide)), if_pos ⟨rfl, rfl⟩]

theorem bracketScan_member (hesc : ¬ (p = '\\' ∧ noescape = false ∧ ps ≠ [])) (hclose : p = ']' → first = true) :
    bracketScan noescape neg z c first (p :: ps) = scanStep noescape neg z c (bracketMember c false p ps) := by
  rw [bracketScan, if_neg, if_neg]
  · rfl
  · rintro ⟨hp, hf⟩
    exact Bool.noConfusion ((hclose hp).symm.trans hf)
  · exact hesc

/-- A class, a symbol or a range that begins with one. -/
theorem head_of_endpoint (h : Endpoint noescape first a text t) :
    ∃ p ps, text = p :: ps ∧ (p = '\\' → noescape = true ∨ t = []) ∧ (p = ']' → first = true) := by
  cases h with
  | plain hp => exact ⟨_, _, rfl, hp.escape, hp.close⟩
  | symbol => exact ⟨_, _, rfl, (absurd · (by decide)), (absurd · (by decide))⟩

/-- The first character behind a member closes the bracket expression just when there is no other. -/
theorem Members.nil_iff (h : Members noescape false t ms (some rest)) : ms = [] ↔ t.headD z = ']' := by
  generalize hf : false = first at h
  generalize ho : some rest = out at h
  cases h with
  | stop => exact nomatch ho
  | close => exact iff_of_true rfl rfl
  | char hp =>
    refine iff_of_false (List.cons_ne_nil _ _) fun hc => ?_
    exact Bool.noConfusion (hf.trans (hp.close hc))
  | range ha =>
    obtain ⟨p, ps, rfl, -, hclose⟩ := head_of_endpoint ha
    refine iff_of_false (List.cons_ne_nil _ _) fun hc => ?_
    exact Bool.noConfusion (hf.trans (hclose hc))
  | escaped => exact iff_of_false (List.cons_ne_nil _ _) (show '\\' ≠ ']' by decide)
  | cls => exact iff_of_false (List.cons_ne_nil _ _) (show '[' ≠ ']' by decide)
  | symbol => exact iff_of_false (List.cons_ne_nil _ _) (show '[' ≠ ']' by decide)

/-- There is a first member. -/
theorem Members.ne_nil (h : Members noescape true t ms (some rest)) : ms ≠ [] := by
  cases h <;> exact List.cons_ne_nil _ _

/-- A member and those behind it. -/
theorem scanStep_members {held : Bool} (h : Members noescape false t ms (some rest))
    (ih : ms ≠ [] → bracketScan noescape neg z c false t = if ms.any (·.holds c) = neg then none else some rest) :
    scanStep noescape neg z c (held, t) = if (held || ms.any (·.holds c)) = neg then none else some rest := by
  have hskip : (skipMembers noescape t).drop 1 = rest := by
    rw [skipMembers_members h rfl]
    rfl
  rw [scanStep, hskip]
  by_cases hms : ms = []
  · have hclose := h.nil_iff (z := z).1 hms
    subst hms
    cases h
    rw [bracketScan_close]
    cases held <;> cases neg <;> simp
  · have hclose : (t.headD z == ']') = false := by
      rw [beq_eq_false_iff_ne]
      exact fun h' => hms (h.nil_iff.2 h')
    rw [hclose, ih hms]
    cases held <;> cases neg <;> simp

/-- **The scan finds out whether the bracket expression has the character**, and where it ends. -/
theorem bracketScan_members (h : Members noescape first t ms out) (hout : out = some rest) (hms : ms ≠ []) :
    bracketScan noescape neg z c first t = if ms.any (·.holds c) = neg then none else some rest := by
  induction h with
  | stop => exact absurd rfl hms
  | close => exact absurd rfl hms
  | char hp hr h ih =>
    subst hout
    rw [bracketScan_member hp.not_escape hp.close, bracketMember_plain hp hr]
    exact scanStep_members h (ih rfl)
  | escaped hesc h ih =>
    subst hout
    rw [bracketScan, if_pos ⟨rfl, hesc, List.cons_ne_nil _ _⟩]
    exact scanStep_members h (ih rfl)
  | range ha hb hr h ih =>
    subst hout
    obtain ⟨p, ps, rfl, hescape, hclose⟩ := head_of_endpoint ha
    rw [bracketScan_member _ hclose, bracketMember_range ha hb hr]
    · exact scanStep_members h (ih rfl)
    · rintro ⟨hp, hne, -⟩
      exact Bool.noConfusion (((hescape hp).resolve_right (List.cons_ne_nil _ _)).symm.trans hne)
  | cls hs h ih =>
    subst hout
    rw [bracketScan_member (fun h => absurd h.1 (by decide)) (absurd · (by decide)), bracketMember_cls hs]
    exact scanStep_members h (ih rfl)
  | symbol hd hs hr h ih =>
    subst hout
    rw [bracketScan_member (fun h => absurd h.1 (by decide)) (absurd · (by decide)), bracketMember_symbol hd hs hr]
    exact scanStep_members h (ih rfl)

theorem scanEnd_member (hesc : ¬ (p = '\\' ∧ noescape = false ∧ ps ≠ [])) (hclose : p = ']' → first = true) :
    scanEnd noescape c first (p :: ps) = scanEnd noescape c false (bracketMember c false p ps).2 := by
  rw [scanEnd, if_neg hesc, if_neg]
  rintro ⟨hp, hf⟩
  exact Bool.noConfusion ((hclose hp).symm.trans hf)

/-- The scan ends where the members do. -/
theorem scanEnd_members (h : Members noescape first t ms out) : scanEnd noescape c first t = out := by
  induction h with
  | stop => rw [scanEnd]
  | close => rw [scanEnd, if_neg (fun h => absurd h.1 (by decide)), if_pos ⟨rfl, rfl⟩]
  | char hp hr _ ih => rw [scanEnd_member hp.not_escape hp.close, bracketMember_plain hp hr, ih]
  | escaped hesc _ ih =>
    rw [scanEnd, if_pos ⟨rfl, hesc, List.cons_ne_nil _ _⟩]
    exact ih
  | range ha hb hr _ ih =>
    obtain ⟨p, ps, rfl, hescape, hclose⟩ := head_of_endpoint ha
    rw [scanEnd_member _ hclose, bracketMember_range ha hb hr, ih]
    rintro ⟨hp, hne, -⟩
    exact Bool.noConfusion (((hescape hp).resolve_right (List.cons_ne_nil _ _)).symm.trans hne)
  | cls hs _ ih =>
    rw [scanEnd_member (fun h => absurd h.1 (by decide)) (absurd · (by decide)), bracketMember_cls hs, ih]
  | symbol hd hs hr _ ih =>
    rw [scanEnd_member (fun h => absurd h.1 (by decide)) (absurd · (by decide)), bracketMember_symbol hd hs hr, ih]

end Shish
