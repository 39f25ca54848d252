import Mathlib.Data.List.DropRight
import Shish.Path.Language

/-!
# Path/Starless — the shortest strings that a pattern matches

Where the stars of a pattern take nothing the matcher never goes back, whatever its bracket expressions are
(`match_of_starless`), and if it matches any string it matches one in this way (`starless_of_match`).  Such
a string is as long as the pattern has characters that are no star, and shorter if a `[` begins a bracket
expression (`Starless.length_lt`).  So a pattern is literal text and stars only where none does, and there it
is (`pathFnmatch_unbracketed`).
-/

namespace Shish

/-- The flags of `case` and of the operators: a pathname is nothing special, and neither is a period. -/
abbrev FnFlags.plain : FnFlags := ⟨false, false, false⟩

/-! ## Stars that take nothing -/

/-- What is behind the bracket expression, if it holds the character. -/
def bracketRest (z c : Char) (ps : Str) : Option Str :=
  bracketScan false (ps.head? == some '!') z c true (if ps.head? == some '!' then ps.drop 1 else ps)

/-- The pattern matches the string, and no star takes anything. -/
inductive Starless (z : Char) : Str → Str → Prop where
  | nil : Starless z [] []
  | char {p ps t} : p ∉ ['\\', '*', '?'] → (p = '[' → hasClose false ps = false) → Starless z ps t →
      Starless z (p :: ps) (p :: t)
  | escaped {c ps t} : Starless z ps t → Starless z ('\\' :: c :: ps) (c :: t)
  | any {c ps t} : Starless z ps t → Starless z ('?' :: ps) (c :: t)
  | star {ps t} : Starless z (ps.dropWhile (· == '*')) t → Starless z ('*' :: ps) t
  | bracket {c ps rest t} : hasClose false ps = true → bracketRest z c ps = some rest → Starless z rest t →
      Starless z ('[' :: ps) (c :: t)

/-- Somewhere a `[` begins a bracket expression. -/
def bracketed : Str → Bool
  | [] => false
  | [_] => false
  | p :: c :: t =>
      if p == '\\' then bracketed t else p == '[' && hasClose false (c :: t) || bracketed (c :: t)

/-- How many characters a pattern has, an escaped one with its backslash and a star none. -/
def literals : Str → ℕ
  | [] => 0
  | [p] => if p == '*' then 0 else 1
  | p :: c :: t => if p == '\\' then literals t + 1 else literals (c :: t) + if p == '*' then 0 else 1

variable {z c p : Char} {ps t rest pattern x : Str} {s s' : FnState}

theorem hasClose_nil : hasClose false [] = false := by
  rw [hasClose, if_neg (by decide), List.drop_nil, hasCloseGo]

theorem bracketed_cons (hp : p ≠ '\\') :
    bracketed (p :: ps) = (p == '[' && hasClose false ps || bracketed ps) := by
  cases ps with
  | nil => simp [bracketed, hasClose_nil]
  | cons c t => simp [bracketed, hp]

theorem bracketed_escaped : bracketed ('\\' :: c :: ps) = bracketed ps := rfl

theorem literals_cons (hp : p ≠ '\\') : literals (p :: ps) = literals ps + if p = '*' then 0 else 1 := by
  cases ps with
  | nil => simp [literals]
  | cons c t => simp [literals, hp]

theorem literals_escaped : literals ('\\' :: c :: ps) = literals ps + 1 := rfl

theorem bracketed_stars (ps : Str) : bracketed (ps.dropWhile (· == '*')) = bracketed ps := by
  induction ps with
  | nil => rfl
  | cons p ps ih =>
    by_cases hp : p = '*'
    · subst hp
      rw [List.dropWhile_cons_of_pos rfl, ih, bracketed_cons (by decide)]
      rfl
    · rw [List.dropWhile_cons_of_neg (by simpa using hp)]

theorem literals_stars (ps : Str) : literals (ps.dropWhile (· == '*')) = literals ps := by
  induction ps with
  | nil => rfl
  | cons p ps ih =>
    by_cases hp : p = '*'
    · subst hp
      rw [List.dropWhile_cons_of_pos rfl, ih, literals_cons (by decide)]
      rfl
    · rw [List.dropWhile_cons_of_neg (by simpa using hp)]

/-- Less text has not more characters, even where a backslash is cut from its character. -/
theorem literals_le_cons : ∀ (ps : Str) (p : Char), literals ps ≤ literals (p :: ps)
  | [], _ => Nat.zero_le _
  | c :: t, p => by
      by_cases hp : p = '\\'
      · subst hp
        rw [literals_escaped]
        by_cases hc : c = '\\'
        · subst hc
          cases t with
          | nil => exact Nat.le_refl 1
          | cons d u =>
            rw [literals_escaped]
            exact Nat.succ_le_succ (literals_le_cons u d)
        · rw [literals_cons hc]
          split_ifs <;> omega
      · rw [literals_cons hp]
        omega

theorem literals_le_of_suffix {u : Str} (h : u <:+ t) : literals u ≤ literals t := by
  obtain ⟨v, rfl⟩ := h
  induction v with
  | nil => exact Nat.le_refl _
  | cons p v ih => exact Nat.le_trans ih (literals_le_cons _ _)

/-! ## What a bracket expression takes from the pattern -/

theorem skipMembers_suffix (l : Str) : skipMembers false l <:+ l := by
  induction hn : l.length using Nat.strong_induction_on generalizing l with
  | _ n ih =>
    subst hn
    cases l with
    | nil =>
      have hnil : skipMembers false [] = [] := by rw [skipMembers]
      exact hnil.symm ▸ List.suffix_refl []
    | cons p ps =>
      have hrest : ∀ k, skipMembers false (ps.drop k) <:+ p :: ps := fun k => by
        have hlen : (ps.drop k).length < (p :: ps).length := by
          rw [List.length_drop, List.length_cons]
          omega
        exact ((ih _ hlen _ rfl).trans (List.drop_suffix k ps)).trans (List.suffix_cons p ps)
      rw [skipMembers]
      split_ifs
      · exact List.suffix_refl _
      · exact hrest 1
      · exact hrest _
      · exact hrest 0

/-- The skip ends at a `]`, or with the pattern. -/
theorem skipMembers_head (l : Str) : skipMembers false l = [] ∨ ∃ rest, skipMembers false l = ']' :: rest := by
  induction hn : l.length using Nat.strong_induction_on generalizing l with
  | _ n ih =>
    subst hn
    cases l with
    | nil =>
      rw [skipMembers]
      exact .inl rfl
    | cons p ps =>
      have hrest : ∀ k, skipMembers false (ps.drop k) = [] ∨ ∃ rest, skipMembers false (ps.drop k) = ']' :: rest :=
        fun k => by
          refine ih _ ?_ _ rfl
          rw [List.length_drop, List.length_cons]
          omega
      rw [skipMembers]
      split_ifs with hp
      · exact .inr ⟨ps, by rw [hp]⟩
      · exact hrest 1
      · exact hrest _
      · exact hrest 0

theorem bracketMember_suffix (c : Char) (escaped : Bool) (p : Char) (ps : Str) :
    (bracketMember c escaped p ps).2 <:+ ps := by
  unfold bracketMember
  dsimp only
  split_ifs
  · exact List.suffix_refl _
  · exact List.drop_suffix _ _
  · split <;> exact List.drop_suffix _ _
  · exact List.drop_suffix _ _
  · exact List.suffix_refl _
  · split
    · exact List.drop_suffix _ _
    · exact List.suffix_refl _

/-- **Behind a hit** the pattern goes on behind a `]`, or is at its end. -/
theorem bracketScan_rest {neg first : Bool} (h : bracketScan false neg z c first pattern = some rest) :
    rest = [] ∨ ']' :: rest <:+ pattern := by
  induction hn : pattern.length using Nat.strong_induction_on generalizing pattern first with
  | _ n ih =>
    subst hn
    cases pattern with
    | nil =>
      rw [bracketScan] at h
      cases h
    | cons p ps =>
      have hmember : ∀ m : Bool × Str, m.2 <:+ ps →
          (if (m.1 && !neg) || (!m.1 && neg && m.2.headD z == ']') then some ((skipMembers false m.2).drop 1)
            else if m.1 && neg then none else bracketScan false neg z c false m.2) = some rest →
          rest = [] ∨ ']' :: rest <:+ p :: ps := by
        intro m hm h
        have hm' : m.2 <:+ p :: ps := hm.trans (List.suffix_cons p ps)
        split_ifs at h
        · obtain rfl := Option.some.inj h
          rcases skipMembers_head m.2 with hnil | ⟨r, hr⟩
          · exact .inl (by rw [hnil]; rfl)
          · refine .inr ?_
            have hsuffix := skipMembers_suffix m.2
            rw [hr] at hsuffix ⊢
            exact hsuffix.trans hm'
        · exact (ih _ (Nat.lt_succ_of_le hm.length_le) h rfl).imp_right fun hs => hs.trans hm'
      rw [bracketScan] at h
      split_ifs at h
      · exact hmember _ ((bracketMember_suffix _ _ _ _).trans (List.drop_suffix 1 ps)) h
      · exact hmember _ (bracketMember_suffix _ _ _ _) h

/-- What is closed has a `]`. -/
theorem hasCloseGo_mem {l : Str} (h : hasCloseGo false l = true) : ∃ rest, ']' :: rest <:+ l := by
  induction hn : l.length using Nat.strong_induction_on generalizing l with
  | _ n ih =>
    subst hn
    cases l with
    | nil =>
      rw [hasCloseGo] at h
      cases h
    | cons p ps =>
      have hrest : ∀ k, hasCloseGo false (ps.drop k) = true → ∃ rest, ']' :: rest <:+ p :: ps := by
        intro k hk
        have hlen : (ps.drop k).length < (p :: ps).length := by
          rw [List.length_drop, List.length_cons]
          omega
        obtain ⟨rest, hs⟩ := ih _ hlen hk rfl
        exact ⟨rest, (hs.trans (List.drop_suffix k ps)).trans (List.suffix_cons p ps)⟩
      rw [hasCloseGo] at h
      split_ifs at h with hesc hsub hp
      · exact hrest 1 h
      · exact hrest _ h
      · exact ⟨ps, hp ▸ List.suffix_refl _⟩
      · exact hrest 0 h

/-- **A bracket expression takes more than its `[`** from the pattern. -/
theorem literals_rest (hclose : hasClose false ps = true) (h : bracketRest z c ps = some rest) :
    literals rest < literals ps := by
  have hpos : ∀ {r : Str}, ']' :: r <:+ ps → literals r < literals ps := by
    intro r hr
    have hle := literals_le_of_suffix hr
    rw [literals_cons (by decide), if_neg (by decide)] at hle
    omega
  rcases bracketScan_rest h with rfl | hs
  · obtain ⟨r, hr⟩ := hasCloseGo_mem hclose
    refine Nat.lt_of_le_of_lt (Nat.zero_le (literals r)) (hpos (hr.trans ((List.drop_suffix _ _).trans ?_)))
    split_ifs
    · exact List.drop_suffix _ _
    · exact List.suffix_refl _
  · refine hpos (hs.trans ?_)
    split_ifs
    · exact List.drop_suffix _ _
    · exact List.suffix_refl _

namespace Starless

theorem length_le (h : Starless z pattern x) : x.length ≤ literals pattern := by
  induction h with
  | nil => exact Nat.le_refl 0
  | @char p ps t hp _ _ ih =>
    simp only [List.mem_cons, List.not_mem_nil, or_false, not_or] at hp
    rw [literals_cons hp.1, if_neg hp.2.1, List.length_cons]
    omega
  | escaped _ ih =>
    rw [literals_escaped, List.length_cons]
    omega
  | any _ ih =>
    rw [literals_cons (by decide), if_neg (by decide), List.length_cons]
    omega
  | star _ ih =>
    rw [literals_cons (by decide), if_pos rfl]
    rwa [literals_stars] at ih
  | bracket hclose hscan _ ih =>
    have := literals_rest hclose hscan
    rw [literals_cons (by decide), if_neg (by decide), List.length_cons]
    omega

/-- **A bracket expression makes the string shorter.** -/
theorem length_lt (h : Starless z pattern x) (hb : bracketed pattern = true) : x.length < literals pattern := by
  induction h with
  | nil => exact absurd hb (by decide)
  | @char p ps t hp hopen _ ih =>
    simp only [List.mem_cons, List.not_mem_nil, or_false, not_or] at hp
    have hps : bracketed ps = true := by
      rw [bracketed_cons hp.1] at hb
      by_cases hbracket : p = '['
      · simpa [hopen hbracket] using hb
      · simpa [hbracket] using hb
    have := ih hps
    rw [literals_cons hp.1, if_neg hp.2.1, List.length_cons]
    omega
  | escaped _ ih =>
    have := ih hb
    rw [literals_escaped, List.length_cons]
    omega
  | any _ ih =>
    rw [bracketed_cons (by decide)] at hb
    have := ih hb
    rw [literals_cons (by decide), if_neg (by decide), List.length_cons]
    omega
  | star _ ih =>
    rw [bracketed_cons (by decide)] at hb
    rw [literals_cons (by decide), if_pos rfl]
    have := ih ((bracketed_stars _).trans hb)
    rwa [literals_stars] at this
  | bracket hclose hscan h _ =>
    have hle := h.length_le
    have := literals_rest hclose hscan
    rw [literals_cons (by decide), if_neg (by decide), List.length_cons]
    omega

/-- The empty string is matched by stars. -/
theorem stars (h : Starless z pattern []) : pattern.dropWhile (· == '*') = [] := by
  generalize hx : ([] : Str) = x at h
  induction h with
  | nil => rfl
  | star _ ih =>
    rw [List.dropWhile_cons_of_pos rfl]
    have hnil := ih hx
    rwa [List.dropWhile_idempotent (p := (· == '*'))] at hnil
  | _ => exact nomatch hx

end Starless

/-! ## The matcher -/

/-- A turn with something left. -/
theorem turn_plain (hstring : s.string = c :: t) (hpattern : s.pattern = p :: ps) :
    s.turn .plain z =
      if p = '[' then
        if hasClose false ps = false then { s with notfirst := true }.literal .plain c t (p :: ps)
        else
          match bracketRest z c ps with
          | some rest => { s with notfirst := true }.take c t rest
          | none => { s with notfirst := true }.fail .plain
      else if p = '\\' then { s with notfirst := true }.literal .plain c t ps
      else if p = '*' then
        .on { s with pattern := ps.dropWhile (· == '*'), notfirst := true,
                     star := some (ps.dropWhile (· == '*'), s.prev, c :: t) }
      else if p = '?' then { s with notfirst := true }.take c t ps
      else { s with notfirst := true }.literal .plain c t (p :: ps) := by
  have hslash : ¬(c = '/' ∧ FnFlags.plain.pathname = true) := fun h => Bool.false_ne_true h.2
  rw [FnState.turn, hstring, hpattern]
  dsimp only
  rw [if_neg (by simp [FnState.hidden]), if_neg hslash, if_neg hslash]
  rfl

/-- **The matcher goes straight on** where the stars take nothing. -/
theorem match_of_starless (h : Starless z pattern x) : pathFnmatch .plain z pattern x = true := by
  suffices ∀ s : FnState, s.pattern = pattern → s.string = x → fnmatchFrom .plain z s = true from this _ rfl rfl
  induction h with
  | nil =>
    intro s hpattern hstring
    refine fnmatchFrom_done ?_
    rw [FnState.turn, hstring]
    dsimp only
    rw [hpattern]
    rfl
  | @char p ps t hp hopen _ ih =>
    intro s hpattern hstring
    simp only [List.mem_cons, List.not_mem_nil, or_false, not_or] at hp
    have hturn : s.turn .plain z = { s with notfirst := true }.literal .plain p t (p :: ps) := by
      rw [turn_plain hstring hpattern]
      by_cases hbracket : p = '['
      · rw [if_pos hbracket, if_pos (hopen hbracket)]
      · rw [if_neg hbracket, if_neg hp.1, if_neg hp.2.1, if_neg hp.2.2]
    exact (fnmatchFrom_on (hturn.trans (if_pos rfl))).trans (ih _ rfl rfl)
  | @escaped c ps t _ ih =>
    intro s hpattern hstring
    have hturn : s.turn .plain z = { s with notfirst := true }.literal .plain c t (c :: ps) := by
      rw [turn_plain hstring hpattern, if_neg (by decide), if_pos rfl]
    exact (fnmatchFrom_on (hturn.trans (if_pos rfl))).trans (ih _ rfl rfl)
  | @any c ps t _ ih =>
    intro s hpattern hstring
    have hturn : s.turn .plain z = { s with notfirst := true }.take c t ps := by
      rw [turn_plain hstring hpattern, if_neg (by decide), if_neg (by decide), if_neg (by decide), if_pos rfl]
    exact (fnmatchFrom_on hturn).trans (ih _ rfl rfl)
  | @star ps t h ih =>
    intro s hpattern hstring
    cases t with
    | nil =>
      refine fnmatchFrom_done ?_
      rw [FnState.turn, hstring]
      dsimp only
      rw [hpattern, (Starless.star h).stars]
      rfl
    | cons c t =>
      have hturn := turn_plain (z := z) hstring hpattern
      rw [if_neg (by decide), if_neg (by decide), if_pos rfl] at hturn
      exact (fnmatchFrom_on hturn).trans (ih _ rfl hstring)
  | @bracket c ps rest t hclose hscan _ ih =>
    intro s hpattern hstring
    have hturn : s.turn .plain z = { s with notfirst := true }.take c t rest := by
      rw [turn_plain hstring hpattern, if_pos rfl, if_neg (by simp [hclose]), hscan]
    exact (fnmatchFrom_on hturn).trans (ih _ rfl rfl)

/-- The rest of the pattern, or the bookmark's, matches something in this way. -/
def Hopeful (z : Char) (s : FnState) : Prop :=
  (∃ x, Starless z s.pattern x) ∨ ∃ b ∈ s.star, ∃ x, Starless z b.1 x

/-- `fail` is no match, and goes on with the bookmark's pattern. -/
theorem fail_cases (s : FnState) : s.fail .plain = .done false ∨
    ∃ pattern pb c t, s.star = some (pattern, pb, c :: t) ∧
      s.fail .plain = .on { s with pattern, string := t, prev := some c, star := some (pattern, some c, t) } := by
  unfold FnState.fail
  split
  · next pattern pb c t hstar =>
    rw [if_neg fun h => Bool.false_ne_true h.2]
    exact .inr ⟨pattern, pb, c, t, hstar, rfl⟩
  · exact .inl rfl

theorem Hopeful.of_fail (h : s.fail .plain = .on s') (h' : Hopeful z s') : Hopeful z s := by
  rcases fail_cases s with hno | ⟨pattern, pb, c, t, hstar, hon⟩
  · exact nomatch hno.symm.trans h
  · obtain rfl := FnTurn.on.inj (hon.symm.trans h)
    rcases h' with hp | ⟨b, hb, hp⟩
    · exact .inr ⟨_, hstar, hp⟩
    · obtain rfl := Option.some.inj hb
      exact .inr ⟨_, hstar, hp⟩

theorem Hopeful.of_take (h : s.take c t rest = .on s') (hp : ∀ x, Starless z rest x → ∃ y, Starless z s.pattern y)
    (h' : Hopeful z s') : Hopeful z s := by
  obtain rfl := FnTurn.on.inj h
  exact h'.imp_left fun ⟨x, hx⟩ => hp x hx

theorem Hopeful.of_literal {r : Str} (h : s.literal .plain c t r = .on s')
    (hp : ∀ rest, r = c :: rest → ∀ x, Starless z rest x → ∃ y, Starless z s.pattern y) (h' : Hopeful z s') :
    Hopeful z s := by
  unfold FnState.literal at h
  split at h
  · exact .of_fail h h'
  · next q qs =>
    split_ifs at h with hq
    · exact .of_take h (hp qs (by rw [hq])) h'
    · exact .of_fail h h'

/-- **A turn makes no hope.** -/
theorem Hopeful.of_turn (h : s.turn .plain z = .on s') (h' : Hopeful z s') : Hopeful z s := by
  cases hstring : s.string with
  | nil =>
    rw [FnState.turn, hstring] at h
    dsimp only at h
    split_ifs at h
    exact .of_fail h h'
  | cons c t =>
    cases hpattern : s.pattern with
    | nil =>
      rw [FnState.turn, hstring] at h
      dsimp only at h
      rw [hpattern] at h
      exact .of_fail h h'
    | cons p ps =>
      rw [turn_plain hstring hpattern] at h
      refine (?_ : Hopeful z { s with notfirst := true })
      split_ifs at h with hbracket hclose hbs hstar hany
      · refine .of_literal h (fun rest hr x hx => ?_) h'
        obtain ⟨rfl, rfl⟩ := List.cons.inj hr
        exact ⟨_, by rw [hpattern]; exact .char (by rw [hbracket]; decide) (fun _ => hclose) hx⟩
      · subst hbracket
        split at h
        · next rest hscan =>
          exact .of_take h (fun x hx => ⟨c :: x, hpattern ▸ .bracket (by simpa using hclose) hscan hx⟩) h'
        · exact .of_fail h h'
      · subst hbs
        refine .of_literal h (fun rest hr x hx => ?_) h'
        exact ⟨_, by rw [hpattern, hr]; exact .escaped hx⟩
      · subst hstar
        obtain rfl := FnTurn.on.inj h
        rcases h' with ⟨x, hx⟩ | ⟨b, hb, x, hx⟩
        · exact .inl ⟨x, hpattern ▸ .star hx⟩
        · obtain rfl := Option.some.inj hb
          exact .inl ⟨x, hpattern ▸ .star hx⟩
      · subst hany
        exact .of_take h (fun x hx => ⟨c :: x, hpattern ▸ .any hx⟩) h'
      · refine .of_literal h (fun rest hr x hx => ?_) h'
        obtain ⟨rfl, rfl⟩ := List.cons.inj hr
        exact ⟨_, by rw [hpattern]; exact .char (by simp [hbs, hstar, hany]) (fun hb => absurd hb hbracket) hx⟩

theorem starless_stars : ∀ {pattern : Str}, pattern.dropWhile (· == '*') = [] → ∃ x, Starless z pattern x
  | [], _ => ⟨[], .nil⟩
  | p :: ps, h => by
      by_cases hp : p = '*'
      · subst hp
        rw [List.dropWhile_cons_of_pos rfl] at h
        exact ⟨[], .star (by rw [h]; exact .nil)⟩
      · rw [List.dropWhile_cons_of_neg (by simpa using hp)] at h
        exact nomatch h

/-- The last turn of a match. -/
theorem turn_done (h : s.turn .plain z = .done true) : s.pattern.dropWhile (· == '*') = [] := by
  have hfail : ∀ {r : FnState}, r.fail .plain ≠ .done true := by
    intro r hr
    rcases fail_cases r with hno | ⟨pattern, pb, c, t, -, hon⟩
    · cases hno.symm.trans hr
    · cases hon.symm.trans hr
  have hliteral : ∀ {r : FnState} {c : Char} {t u : Str}, r.literal .plain c t u ≠ .done true := by
    intro r c t u hr
    unfold FnState.literal at hr
    split at hr
    · exact hfail hr
    · split_ifs at hr
      · cases hr
      · exact hfail hr
  cases hstring : s.string with
  | nil =>
    rw [FnState.turn, hstring] at h
    dsimp only at h
    split_ifs at h with hstars
    · exact hstars
    · exact absurd h hfail
  | cons c t =>
    exfalso
    cases hpattern : s.pattern with
    | nil =>
      rw [FnState.turn, hstring] at h
      dsimp only at h
      rw [hpattern] at h
      exact hfail h
    | cons p ps =>
      rw [turn_plain hstring hpattern] at h
      split_ifs at h
      · exact hliteral h
      · split at h
        · cases h
        · exact hfail h
      · exact hliteral h
      · cases h
      · exact hliteral h

theorem fnmatchFrom_hopeful (h : fnmatchFrom .plain z s = true) : Hopeful z s := by
  induction s using FnState.lighter_wf.induction with
  | _ s ih =>
    cases hturn : s.turn .plain z with
    | on s' =>
      rw [fnmatchFrom_on hturn] at h
      exact .of_turn hturn (ih s' (FnState.lighter_turn hturn) h)
    | done result =>
      rw [fnmatchFrom_done hturn] at h
      subst h
      exact .inl (starless_stars (turn_done hturn))

/-- **What matches something matches something without its stars.** -/
theorem starless_of_match (h : pathFnmatch .plain z pattern x = true) : ∃ y, Starless z pattern y := by
  rcases fnmatchFrom_hopeful h with hp | ⟨b, hb, -⟩
  · exact hp
  · exact nomatch hb

/-! ## Patterns without bracket expressions -/

/-- Every `[` gets a backslash. -/
def escapeOpen : Str → Str
  | '\\' :: c :: t => '\\' :: c :: escapeOpen t
  | c :: t => if c = '[' then '\\' :: c :: escapeOpen t else c :: escapeOpen t
  | [] => []

theorem escapeOpen_cons (hp : p ≠ '\\') :
    escapeOpen (p :: ps) = if p = '[' then '\\' :: p :: escapeOpen ps else p :: escapeOpen ps := by
  rw [escapeOpen]
  rintro _ _ rfl
  exact absurd rfl hp

theorem escapeOpen_stars (ps : Str) :
    (escapeOpen ps).dropWhile (· == '*') = escapeOpen (ps.dropWhile (· == '*')) := by
  induction ps with
  | nil => rfl
  | cons p ps ih =>
    by_cases hp : p = '*'
    · subst hp
      rw [escapeOpen_cons (by decide), if_neg (by decide), List.dropWhile_cons_of_pos rfl,
        List.dropWhile_cons_of_pos rfl, ih]
    · rw [List.dropWhile_cons_of_neg (p := (· == '*')) (l := ps) (by simpa using hp)]
      by_cases hbs : p = '\\'
      · subst hbs
        cases ps <;> rfl
      · rw [escapeOpen_cons hbs]
        split_ifs
        · rfl
        · exact List.dropWhile_cons_of_neg (by simpa using hp)

theorem escapeOpen_eq_nil : escapeOpen ps = [] ↔ ps = [] := by
  cases ps with
  | nil => exact iff_of_true rfl rfl
  | cons p ps =>
    refine iff_of_false (fun h => ?_) (List.cons_ne_nil p ps)
    by_cases hbs : p = '\\'
    · subst hbs
      cases ps <;> exact nomatch h
    · rw [escapeOpen_cons hbs] at h
      split_ifs at h

/-- The bookmark, with its pattern escaped. -/
def FnState.escaped (s : FnState) : FnState :=
  { s with pattern := escapeOpen s.pattern, star := s.star.map fun b => (escapeOpen b.1, b.2) }

def FnTurn.escaped : FnTurn → FnTurn
  | .on s => .on s.escaped
  | .done result => .done result

/-- Neither the pattern nor the bookmark's has a bracket expression. -/
def Unbracketed (s : FnState) : Prop := bracketed s.pattern = false ∧ ∀ b ∈ s.star, bracketed b.1 = false

theorem fail_escaped (h : ∀ b ∈ s.star, bracketed b.1 = false) :
    s.escaped.fail .plain = (s.fail .plain).escaped ∧ ∀ s', s.fail .plain = .on s' → Unbracketed s' := by
  obtain ⟨pattern, string, prev, notfirst, star⟩ := s
  rcases star with _ | ⟨pat, pb, _ | ⟨c, t⟩⟩
  · exact ⟨rfl, fun _ hs' => nomatch hs'⟩
  · exact ⟨rfl, fun _ hs' => nomatch hs'⟩
  · have hpat : bracketed pat = false := h _ rfl
    have hslash : ¬(c = '/' ∧ FnFlags.plain.pathname = true) := fun h => Bool.false_ne_true h.2
    have hon : ∀ n p' str pv, FnState.fail .plain ⟨p', str, pv, n, some (pat, pb, c :: t)⟩ =
        .on ⟨pat, t, some c, n, some (pat, some c, t)⟩ := fun _ _ _ _ => if_neg hslash
    refine ⟨?_, fun s' hs' => ?_⟩
    · rw [hon]
      exact if_neg hslash
    · obtain rfl := FnTurn.on.inj ((hon _ _ _ _).symm.trans hs')
      refine ⟨hpat, fun b hb => ?_⟩
      obtain rfl := Option.some.inj hb
      exact hpat

theorem take_escaped (h : ∀ b ∈ s.star, bracketed b.1 = false) (hrest : bracketed rest = false) :
    s.escaped.take c t (escapeOpen rest) = (s.take c t rest).escaped ∧
      ∀ s', s.take c t rest = .on s' → Unbracketed s' := by
  refine ⟨rfl, fun s' hs' => ?_⟩
  obtain rfl := FnTurn.on.inj hs'
  exact ⟨hrest, h⟩

theorem literal_escaped (h : ∀ b ∈ s.star, bracketed b.1 = false) (hrest : bracketed rest = false) :
    s.escaped.literal .plain c t (p :: escapeOpen rest) = (s.literal .plain c t (p :: rest)).escaped ∧
      ∀ s', s.literal .plain c t (p :: rest) = .on s' → Unbracketed s' := by
  unfold FnState.literal
  dsimp only
  split_ifs
  · exact take_escaped h hrest
  · exact fail_escaped h

/-- **A turn does not see the backslashes.** -/
theorem turn_escaped (h : Unbracketed s) :
    s.escaped.turn .plain z = (s.turn .plain z).escaped ∧ ∀ s', s.turn .plain z = .on s' → Unbracketed s' := by
  obtain ⟨pattern, string, prev, notfirst, star⟩ := s
  obtain ⟨hpat, hstar⟩ := h
  have hpat : bracketed pattern = false := hpat
  have hfail := fun n => fail_escaped (s := ⟨pattern, string, prev, n, star⟩) hstar
  have hlit := fun {p c : Char} {t rest : Str} =>
    @literal_escaped c p t rest ⟨pattern, string, prev, true, star⟩ hstar
  cases string with
  | nil =>
    unfold FnState.turn FnState.escaped
    dsimp only
    rw [escapeOpen_stars, if_congr escapeOpen_eq_nil rfl rfl]
    split_ifs
    · exact ⟨rfl, fun _ hs' => nomatch hs'⟩
    · exact hfail notfirst
  | cons c t =>
    cases pattern with
    | nil => exact hfail notfirst
    | cons p ps =>
      have hturn := turn_plain (z := z) (s := ⟨p :: ps, c :: t, prev, notfirst, star⟩) rfl rfl
      rw [hturn]
      by_cases hbs : p = '\\'
      · subst hbs
        rw [if_neg (by decide), if_pos rfl]
        cases ps with
        | nil =>
          rw [@turn_plain _ _ '\\' [] _ _ rfl rfl, if_neg (by decide), if_pos rfl]
          exact hfail true
        | cons q qs =>
          rw [@turn_plain _ _ '\\' (q :: escapeOpen qs) _ _ rfl rfl, if_neg (by decide), if_pos rfl]
          exact hlit hpat
      · rw [bracketed_cons hbs, Bool.or_eq_false_iff] at hpat
        obtain ⟨hopen, hps⟩ := hpat
        by_cases hbracket : p = '['
        · subst hbracket
          rw [@turn_plain _ _ '\\' ('[' :: escapeOpen ps) _ _ rfl rfl, if_neg (by decide), if_pos rfl, if_pos rfl,
            if_pos (by simpa using hopen)]
          exact hlit hps
        · have hesc : escapeOpen (p :: ps) = p :: escapeOpen ps := by rw [escapeOpen_cons hbs, if_neg hbracket]
          rw [@turn_plain _ _ p (escapeOpen ps) _ _ rfl hesc, if_neg hbracket, if_neg hbracket, if_neg hbs, if_neg hbs]
          split_ifs with hs hany
          · refine ⟨?_, fun s' hs' => ?_⟩
            · rw [escapeOpen_stars]
              rfl
            · obtain rfl := FnTurn.on.inj hs'
              have hrest := (bracketed_stars ps).trans hps
              refine ⟨hrest, fun b hb => ?_⟩
              obtain rfl := Option.some.inj hb
              exact hrest
          · exact take_escaped (s := ⟨p :: ps, c :: t, prev, true, star⟩) hstar hps
          · exact hlit hps

theorem fnmatchFrom_escaped (h : Unbracketed s) : fnmatchFrom .plain z s.escaped = fnmatchFrom .plain z s := by
  induction s using FnState.lighter_wf.induction with
  | _ s ih =>
    obtain ⟨hturn, hnext⟩ := turn_escaped (z := z) h
    cases hs : s.turn .plain z with
    | on s' =>
      rw [hs] at hturn
      rw [fnmatchFrom_on hs, fnmatchFrom_on hturn]
      exact ih s' (FnState.lighter_turn hs) (hnext s' hs)
    | done result =>
      rw [hs] at hturn
      rw [fnmatchFrom_done hs, fnmatchFrom_done hturn]

/-- **Without bracket expressions a `[` may as well be escaped.** -/
theorem pathFnmatch_unbracketed (h : bracketed pattern = false) :
    pathFnmatch .plain z (escapeOpen pattern) x = pathFnmatch .plain z pattern x :=
  fnmatchFrom_escaped (s := { pattern, string := x }) ⟨h, fun _ hb => nomatch hb⟩

end Shish
