import Shish.Path.Bracket

/-!
# Path/Language — what a pattern matches

A pattern is built from characters, `?`, `*` and bracket expressions (`BuiltFrom`), and what it matches
is said by `WildMatches`.  `path_fnmatch` decides it with its one bookmark: the matches it can still find
stay the same from turn to turn (`turn_keeps`), and at the last turn there is one or there is none.

Where a leading period has to be matched by a period, a `*` in front of it does not match even the
empty string.
-/

namespace Shish

/-! ## Tokens -/

/-- A pattern's tokens. -/
inductive Token where
  | char (c : Char)
  | any
  | star
  | bracket (neg : Bool) (ms : List Member)
deriving DecidableEq, Repr

/-- Nothing closes the `[` in front: neither a bracket expression begins here nor is its end looked for. -/
def Unclosed (noescape : Bool) (t : Str) : Prop :=
  hasClose noescape t = false ∧
    ∀ ms rest, ¬ Members noescape true (if t.head? = some '!' then t.drop 1 else t) ms (some rest)

/-- **The pattern is built from these tokens.**  A `[` is a character where nothing closes it. -/
inductive BuiltFrom (noescape : Bool) : Str → List Token → Prop where
  | nil : BuiltFrom noescape [] []
  | char {c t ts} : c ≠ '*' → c ≠ '?' → (c = '\\' → noescape = true) →
      (c = '[' → Unclosed noescape t) → BuiltFrom noescape t ts →
      BuiltFrom noescape (c :: t) (.char c :: ts)
  | escaped {c t ts} : noescape = false → BuiltFrom noescape t ts →
      BuiltFrom noescape ('\\' :: c :: t) (.char c :: ts)
  | any {t ts} : BuiltFrom noescape t ts → BuiltFrom noescape ('?' :: t) (.any :: ts)
  | star {t ts} : BuiltFrom noescape t ts → BuiltFrom noescape ('*' :: t) (.star :: ts)
  | bracket {neg text t ms rest ts} : text = (if neg then '!' :: t else t) →
      (neg = false → t.head? ≠ some '!') → FirstSteps noescape true t → Members noescape true t ms (some rest) →
      BuiltFrom noescape rest ts → BuiltFrom noescape ('[' :: text) (.bracket neg ms :: ts)

/-! ## What they match -/

/-- A `/` that separates the components of a pathname. -/
def FnFlags.wall (fl : FnFlags) (c : Char) : Prop := fl.pathname = true ∧ c = '/'

/-- A leading period, behind `prev`. -/
def FnFlags.leading (fl : FnFlags) (prev : Option Char) (c : Char) : Prop :=
  fl.period = true ∧ c = '.' ∧ (prev = none ∨ fl.pathname = true ∧ prev = some '/')

/-- What matches any character matches no separator and no leading period. -/
def FnFlags.free (fl : FnFlags) (prev : Option Char) (c : Char) : Prop := ¬ fl.wall c ∧ ¬ fl.leading prev c

/-- A `*` does not stand in front of a leading period. -/
def FnFlags.rules (fl : FnFlags) : StarRules Char where
  stand prev s := ∀ c ∈ s.head?, ¬ fl.leading prev c
  takes := fl.free

/-- What the token takes. -/
def Token.wild (fl : FnFlags) : Token → Wild Char
  | .char d => .one fun _ c => c = d
  | .any => .one fl.free
  | .star => .star
  | .bracket neg ms => .one fun prev c => fl.free prev c ∧ ms.any (·.holds c) ≠ neg

variable {fl : FnFlags}

theorem walled_rules : fl.rules.Walled fl.wall where
  takes_wall h := h.1
  takes_behind hd hc := ⟨hc, fun hl => by
    rcases hl.2.2 with h | ⟨hpath, h⟩
    · exact nomatch h
    · exact hd ⟨hpath, Option.some.inj h⟩⟩
  takes_stand h hc := ⟨hc, h _ rfl⟩
  stand_behind hd _ _ hl := by
    rcases hl.2.2 with h | ⟨hpath, h⟩
    · exact nomatch h
    · exact hd ⟨hpath, Option.some.inj h⟩
  stand_nil _ h := nomatch h

theorem Token.uniform_wild (tok : Token) : (tok.wild fl).Uniform fl.wall := by
  cases tok with
  | char d =>
    rintro prev prev' c c' rfl rfl
    exact Iff.rfl
  | any => exact fun _ _ _ _ h h' => iff_of_false h.1 h'.1
  | star => trivial
  | bracket neg ms => exact fun _ _ _ _ h h' => iff_of_false h.1.1 h'.1.1

/-! ## The run -/

/-- The bookmark is a place where a star stands. -/
inductive Marks (fl : FnFlags) : Option (Str × Option Char × Str) → Bookmark Char → Prop where
  | none : Marks fl none none
  | some {pattern toks prev string} : BuiltFrom fl.noescape pattern toks → fl.rules.stand prev string →
      Marks fl (some (pattern, prev, string)) (some (toks.map (Token.wild fl), prev, string))

/-- **What holds from turn to turn**: the bookmark leads here, and `NOTFIRST` is set from the first
character on; where it is set before one is taken, no leading period is there. -/
structure FnState.Follows (fl : FnFlags) (s : FnState) (toks : List Token) (bm : Bookmark Char) : Prop where
  built : BuiltFrom fl.noescape s.pattern toks
  marks : Marks fl s.star bm
  leads : bm.LeadsTo fl.wall (toks.map (Token.wild fl)) s.prev s.string
  started : s.star ≠ none ∨ s.prev ≠ none → s.notfirst = true
  still : s.prev = none → s.notfirst = true → fl.rules.stand none s.string

/-- The turn goes on with the same matches to be found, or says whether there is one. -/
def FnTurn.Keeps (fl : FnFlags) (live : Prop) : FnTurn → Prop
  | .on s => ∃ toks bm, s.Follows fl toks bm ∧ (Live fl.rules (toks.map (Token.wild fl)) s.prev s.string bm ↔ live)
  | .done result => result = true ↔ live

namespace FnState

variable {s : FnState} {toks : List Token} {bm : Bookmark Char} {ts : List (Wild Char)} {z c p : Char} {t ps rest : Str}

theorem fail_keeps (hm : Marks fl s.star bm) (hstarted : s.star ≠ none → s.notfirst = true)
    (hdead : ¬ WildMatches fl.rules ts s.prev s.string) :
    (s.fail fl).Keeps fl (Live fl.rules ts s.prev s.string bm) := by
  unfold fail
  generalize hstar : s.star = star at hm hstarted
  cases hm with
  | none => exact iff_of_false Bool.false_ne_true fun h => h.elim hdead id
  | @some pattern toks pb string hbuilt hstand =>
    have hstop : (∀ c ∈ string.head?, ¬ fl.rules.takes pb c) →
        (FnTurn.done false).Keeps fl (Live fl.rules ts s.prev s.string (some (toks.map (Token.wild fl), pb, string))) :=
      fun h => iff_of_false Bool.false_ne_true fun hl => hl.elim hdead (not_more_of_head h)
    cases string with
    | nil => exact hstop fun _ h => nomatch h
    | cons c t =>
      dsimp only
      split_ifs with hwall
      · refine hstop fun d hd => ?_
        obtain rfl := Option.some.inj hd
        exact fun h => h.1 ⟨hwall.2, hwall.1⟩
      · have hc : ¬ fl.wall c := fun h => hwall ⟨h.2, h.1⟩
        have htakes : fl.rules.takes pb c := walled_rules.takes_stand hstand hc
        refine ⟨toks, some (toks.map (Token.wild fl), some c, t), ⟨hbuilt, ?_, Bookmark.leadsTo_self, ?_, ?_⟩, ?_⟩
        · exact .some hbuilt (walled_rules.stand_behind hc)
        · exact fun _ => hstarted (Option.some_ne_none _)
        · exact fun h => nomatch h
        · exact (live_retry hdead htakes).symm

/-- One character against one token. -/
theorem one_keeps {q : Option Char → Char → Prop} (hm : Marks fl s.star bm) (hstarted : s.star ≠ none → s.notfirst = true)
    (hstring : s.string = c :: t) (hleads : bm.LeadsTo fl.wall (.one q :: toks.map (Token.wild fl)) s.prev s.string)
    (huniform : (Wild.one q).Uniform fl.wall) (hbuilt : BuiltFrom fl.noescape rest toks) {turn : FnTurn}
    (hhit : q s.prev c → turn = s.take c t rest) (hmiss : ¬ q s.prev c → turn = s.fail fl) :
    turn.Keeps fl (Live fl.rules (.one q :: toks.map (Token.wild fl)) s.prev s.string bm) := by
  by_cases hq : q s.prev c
  · rw [hhit hq]
    rw [hstring] at hleads ⊢
    refine ⟨toks, bm, ⟨hbuilt, hm, hleads.one hq huniform, fun _ => rfl, fun h => nomatch h⟩, ?_⟩
    refine or_congr ⟨.one hq, fun h => ?_⟩ Iff.rfl
    cases h with
    | one _ h => exact h
  · rw [hmiss hq]
    refine fail_keeps hm hstarted fun h => ?_
    rw [hstring] at h
    cases h with
    | one h _ => exact hq h

theorem literal_keeps {d : Char} (hm : Marks fl s.star bm) (hstarted : s.star ≠ none → s.notfirst = true)
    (hstring : s.string = c :: t)
    (hleads : bm.LeadsTo fl.wall ((Token.char d :: toks).map (Token.wild fl)) s.prev s.string)
    (hbuilt : BuiltFrom fl.noescape rest toks) :
    (s.literal fl c t (d :: rest)).Keeps fl (Live fl.rules ((Token.char d :: toks).map (Token.wild fl)) s.prev s.string bm) :=
  one_keeps hm hstarted hstring hleads (Token.uniform_wild (.char d)) hbuilt (fun hq => if_pos hq.symm)
    fun hq => if_neg fun h => hq h.symm

/-- A leading period that the pattern has no period for. -/
theorem hidden_iff (h : s.Follows fl toks bm) (hstring : s.string = c :: t) :
    s.hidden fl c p ps = true ↔
      fl.leading s.prev c ∧ p ≠ '.' ∧ ¬ (p = '\\' ∧ fl.noescape = false ∧ ps.head? = some '.') := by
  have hfirst : c = '.' → fl.period = true → (s.notfirst = false ↔ s.prev = none) := by
    rintro rfl hperiod
    constructor
    · intro hn
      by_contra hprev
      exact Bool.noConfusion (hn.symm.trans (h.started (.inr hprev)))
    · intro hprev
      by_contra hn
      have hstill := h.still hprev (Bool.eq_true_of_not_eq_false hn)
      rw [hstring] at hstill
      exact hstill _ rfl ⟨hperiod, rfl, .inl rfl⟩
  by_cases hdot : c = '.' ∧ fl.period = true
  · obtain ⟨rfl, hperiod⟩ := hdot
    have := hfirst rfl hperiod
    simp only [hidden, FnFlags.leading, hperiod, ← this, Bool.and_eq_true, Bool.or_eq_true, Bool.not_eq_true',
      Bool.and_eq_false_iff, beq_iff_eq, bne_iff_ne, beq_eq_false_iff_ne, Bool.not_eq_false', true_and, and_true,
      not_and_or, Bool.not_eq_false]
    rw [and_comm, or_assoc]
  · refine iff_of_false (fun h => hdot ?_) fun h => hdot ⟨h.1.2.1, h.1.1⟩
    simp only [hidden, Bool.and_eq_true, beq_iff_eq] at h
    exact ⟨h.1.1.1.1, h.1.1.2⟩

/-- A `!` in front negates. -/
theorem bracket_opens {neg : Bool} {text : Str} (htext : text = if neg then '!' :: t else t) (hneg : neg = false → t.head? ≠ some '!') :
    (text.head? == some '!') = neg ∧ (if neg = true then text.drop 1 else text) = t ∧
      (if text.head? = some '!' then text.drop 1 else text) = t := by
  subst htext
  cases neg with
  | true => exact ⟨rfl, rfl, rfl⟩
  | false => exact ⟨beq_eq_false_iff_ne.2 (hneg rfl), rfl, if_neg (hneg rfl)⟩

/-- An empty string is matched by stars. -/
theorem stars_iff {pattern : Str} {prev : Option Char} (h : BuiltFrom fl.noescape pattern toks) :
    pattern.dropWhile (· == '*') = [] ↔ WildMatches fl.rules (toks.map (Token.wild fl)) prev [] := by
  have hone : ∀ {q : Option Char → Char → Prop} {ts : List (Wild Char)},
      ¬ WildMatches fl.rules (.one q :: ts) prev [] := fun h => nomatch h
  induction h with
  | nil => exact iff_of_true rfl .nil
  | char hstar => 
    rw [List.dropWhile_cons_of_neg (by simpa using hstar)]
    exact iff_of_false (List.cons_ne_nil _ _) hone
  | escaped => exact iff_of_false (List.cons_ne_nil _ _) hone
  | any => exact iff_of_false (List.cons_ne_nil _ _) hone
  | bracket => exact iff_of_false (List.cons_ne_nil _ _) hone
  | star _ ih =>
    refine Iff.trans (by rw [List.dropWhile_cons_of_pos rfl]) (ih.trans ⟨?_, fun h => ?_⟩)
    · exact fun h => .star [] (fun _ h => nomatch h) trivial h
    · generalize hs : ([] : Str) = string at h
      cases h with
      | star u _ _ h =>
        obtain ⟨rfl, rfl⟩ := List.append_eq_nil_iff.1 hs.symm
        exact h

/-- Several stars are one. -/
theorem star_run {prev : Option Char} {string : Str} (h : BuiltFrom fl.noescape ps toks)
    (hstand : fl.rules.stand prev string) :
    ∃ toks', BuiltFrom fl.noescape (ps.dropWhile (· == '*')) toks' ∧
      (WildMatches fl.rules (.star :: toks.map (Token.wild fl)) prev string ↔
        WildMatches fl.rules (.star :: toks'.map (Token.wild fl)) prev string) := by
  induction h with
  | star h ih =>
    obtain ⟨toks', hbuilt, hiff⟩ := ih
    exact ⟨toks', hbuilt, (wildMatches_star_star hstand).trans hiff⟩
  | nil => exact ⟨_, .nil, Iff.rfl⟩
  | char hstar hany hesc hopen h =>
    rw [List.dropWhile_cons_of_neg (by simpa using hstar)]
    exact ⟨_, .char hstar hany hesc hopen h, Iff.rfl⟩
  | escaped hesc h => exact ⟨_, .escaped hesc h, Iff.rfl⟩
  | any h => exact ⟨_, .any h, Iff.rfl⟩
  | bracket htext hneg hfirst hms h => exact ⟨_, .bracket htext hneg hfirst hms h, Iff.rfl⟩

/-- Only a period matches a leading period. -/
theorem dead_of_leading (hbuilt : BuiltFrom fl.noescape (p :: ps) toks) {prev : Option Char}
    (hlead : fl.leading prev c) (hp : p ≠ '.')
    (hesc : ¬ (p = '\\' ∧ fl.noescape = false ∧ ps.head? = some '.')) :
    ¬ WildMatches fl.rules (toks.map (Token.wild fl)) prev (c :: t) := by
  have hfree : ¬ fl.free prev c := fun h => h.2 hlead
  obtain rfl := hlead.2.1
  intro hw
  cases hbuilt with
  | char =>
    cases hw with
    | one h _ => exact hp h.symm
  | escaped hnoescape =>
    cases hw with
    | one h _ => exact hesc ⟨rfl, hnoescape, congrArg some h.symm⟩
  | any =>
    cases hw with
    | one h _ => exact hfree h
  | bracket =>
    cases hw with
    | one h _ => exact hfree h.1
  | star =>
    generalize hs : '.' :: t = string at hw
    cases hw with
    | star u h _ _ =>
      rw [← hs] at h
      exact h _ rfl hlead

/-- **A turn keeps the matches to be found.** -/
theorem turn_keeps (z : Char) (h : s.Follows fl toks bm) :
    (s.turn fl z).Keeps fl (Live fl.rules (toks.map (Token.wild fl)) s.prev s.string bm) := by
  have hstarted : s.star ≠ none → s.notfirst = true := fun hstar => h.started (.inl hstar)
  unfold turn
  split
  · next hstring =>
    split_ifs with hpattern
    · refine iff_of_true rfl (.inl ?_)
      rw [hstring]
      exact (stars_iff h.built).1 hpattern
    · refine fail_keeps h.marks hstarted fun hw => hpattern ?_
      rw [hstring] at hw
      exact (stars_iff h.built).2 hw
  · next c t hstring =>
    split
    · next hpattern =>
      have hbuilt := h.built
      rw [hpattern] at hbuilt
      cases hbuilt
      refine fail_keeps h.marks hstarted fun hw => ?_
      rw [hstring] at hw
      cases hw
    · next p ps hpattern =>
      have hbuilt := h.built
      have hiff : s.hidden fl c p ps = true ↔ _ := hidden_iff h hstring
      rw [hpattern] at hbuilt
      by_cases hhidden : s.hidden fl c p ps = true
      · rw [if_pos hhidden]
        obtain ⟨hlead, hp, hesc⟩ := hiff.1 hhidden
        refine fail_keeps h.marks hstarted ?_
        rw [hstring]
        exact dead_of_leading hbuilt hlead hp hesc
      · rw [if_neg hhidden]
        have hshown : p ≠ '.' → p ≠ '\\' → ¬ fl.leading s.prev c := fun hp hesc hlead =>
          hhidden (hiff.2 ⟨hlead, hp, fun h => hesc h.1⟩)
        have hleads := h.leads
        cases hbuilt with
        | char hstar hany hesc hopen hbuilt =>
          have hkeeps := literal_keeps (s := { s with notfirst := true }) h.marks (fun _ => rfl) hstring hleads hbuilt
          dsimp only
          by_cases hbracket : p = '['
          · rw [if_pos hbracket, if_pos (hopen hbracket).1]
            exact hkeeps
          · rw [if_neg hbracket]
            by_cases hescape : p = '\\'
            · rw [if_pos hescape, if_pos (hesc hescape)]
              exact hkeeps
            · rw [if_neg hescape, if_neg hstar, if_neg hany]
              exact hkeeps
        | escaped hesc hbuilt =>
          have hkeeps := literal_keeps (s := { s with notfirst := true }) h.marks (fun _ => rfl) hstring hleads hbuilt
          dsimp only
          rw [if_neg (by decide), if_pos rfl, if_neg (hesc ▸ Bool.false_ne_true)]
          exact hkeeps
        | any hbuilt =>
          have hlead := hshown (by decide) (by decide)
          refine one_keeps (s := { s with notfirst := true }) h.marks (fun _ => rfl) hstring hleads
            (Token.uniform_wild .any) hbuilt (fun hq => ?_) fun hq => ?_
          all_goals dsimp only
          all_goals rw [if_neg (by decide), if_neg (by decide), if_neg (by decide), if_pos rfl]
          · exact if_neg fun hc => hq.1 ⟨hc.2, hc.1⟩
          · exact if_pos (by_contra fun hc => hq ⟨fun hw => hc ⟨hw.2, hw.1⟩, hlead⟩)
        | star hbuilt =>
          have hlead : fl.rules.stand s.prev s.string := by
            rw [hstring]
            intro d hd
            obtain rfl := Option.some.inj hd
            exact hshown (by decide) (by decide)
          obtain ⟨toks', hbuilt', hrun⟩ := star_run hbuilt hlead
          dsimp only
          rw [if_neg (by decide), if_neg (by decide), if_pos rfl]
          refine ⟨toks', some (toks'.map (Token.wild fl), s.prev, s.string), ⟨hbuilt', .some hbuilt' hlead,
            Bookmark.leadsTo_self, fun _ => rfl, fun hprev _ => hprev ▸ hlead⟩, ?_⟩
          exact (more_self hlead).trans (hrun.symm.trans ((more_self hlead).symm.trans
            (live_star walled_rules hleads hlead).symm))
        | @bracket neg _ t' ms rest _ htext hneg hfirst hms hbuilt =>
          have hlead := hshown (by decide) (by decide)
          obtain ⟨hhead, hmembers, hdrop⟩ := bracket_opens htext hneg
          have hscan : bracketScan fl.noescape neg z c true t' = _ := bracketScan_members hms rfl hms.ne_nil
          have hclose : hasClose fl.noescape ps ≠ false := by
            rw [hasClose, hdrop, (hasCloseGo_first hms hfirst).2 rfl]
            exact Bool.noConfusion
          refine one_keeps (s := { s with notfirst := true }) h.marks (fun _ => rfl) hstring hleads
            (Token.uniform_wild (.bracket neg ms)) hbuilt (fun hq => ?_) fun hq => ?_
          all_goals dsimp only
          all_goals rw [if_pos rfl, if_neg hclose]
          · rw [if_neg fun hc => hq.1.1 ⟨hc.2, hc.1⟩, hhead, hmembers, hscan, if_neg hq.2]
          · by_cases hslash : c = '/' ∧ fl.pathname = true
            · exact if_pos hslash
            · have hmiss : ms.any (·.holds c) = neg :=
                by_contra fun hne => hq ⟨⟨fun hw => hslash ⟨hw.2, hw.1⟩, hlead⟩, hne⟩
              rw [if_neg hslash, hhead, hmembers, hscan, if_pos hmiss]

end FnState

theorem fnmatchFrom_iff {s : FnState} {toks : List Token} {bm : Bookmark Char} (z : Char) (h : s.Follows fl toks bm) :
    fnmatchFrom fl z s = true ↔ Live fl.rules (toks.map (Token.wild fl)) s.prev s.string bm := by
  induction s using FnState.lighter_wf.induction generalizing toks bm with
  | _ s ih =>
    have hkeeps := FnState.turn_keeps z h
    cases hturn : s.turn fl z with
    | on s' =>
      rw [hturn] at hkeeps
      obtain ⟨toks', bm', h', hiff⟩ := hkeeps
      rw [fnmatchFrom_on hturn, ih s' (FnState.lighter_turn hturn) h', hiff]
    | done result =>
      rw [hturn] at hkeeps
      rw [fnmatchFrom_done hturn]
      exact hkeeps

theorem pathFnmatch_iff (z : Char) {pattern : Str} {toks : List Token} (hbuilt : BuiltFrom fl.noescape pattern toks)
    (string : Str) :
    pathFnmatch fl z pattern string = true ↔ WildMatches fl.rules (toks.map (Token.wild fl)) none string := by
  have hfollows : ({ pattern, string } : FnState).Follows fl toks none :=
    ⟨hbuilt, .none, trivial, fun h => h.elim (absurd rfl) (absurd rfl), fun _ h => Bool.noConfusion h⟩
  rw [pathFnmatch, fnmatchFrom_iff z hfollows, Live]
  exact or_iff_left id

/-- **`path_fnmatch` decides the language of a pattern**, and there is no endless run of turns. -/
theorem path_fnmatch_language (fl : FnFlags) (z : Char) :
    WellFounded (fun s' s : FnState => s.turn fl z = .on s') ∧
      ∀ {pattern : Str} {toks : List Token}, BuiltFrom fl.noescape pattern toks → ∀ string : Str,
        (pathFnmatch fl z pattern string = true ↔
          WildMatches fl.rules (toks.map (Token.wild fl)) none string) :=
  ⟨Subrelation.wf FnState.lighter_turn FnState.lighter_wf, pathFnmatch_iff z⟩

/-- A character that means nothing else. -/
theorem BuiltFrom.bare {noescape : Bool} {c : Char} {t : Str} {ts : List Token} (hc : c ∉ ['*', '?', '\\', '['])
    (h : BuiltFrom noescape t ts) : BuiltFrom noescape (c :: t) (.char c :: ts) := by
  simp only [List.mem_cons, List.not_mem_nil, or_false, not_or] at hc
  exact .char hc.1 hc.2.1 (absurd · hc.2.2.1) (absurd · hc.2.2.2) h

theorem path_fnmatch_language_range :
    pathFnmatch ⟨true, false, true⟩ '\x00' ['a', '*', '[', '!', 'x', '-', 'z', ']'] ['a', 'b', 'c'] = true ↔
      WildMatches (FnFlags.rules ⟨true, false, true⟩)
        ([.char 'a', .star, .bracket true [.range 'x' 'z']].map (Token.wild ⟨true, false, true⟩)) none ['a', 'b', 'c'] := by
  have hplain : ∀ {first t} {c : Char}, c ∉ [']', '\\', '['] → Plain false first c t := fun hc => by
    simp only [List.mem_cons, List.not_mem_nil, or_false, not_or] at hc
    exact plain_of_ne hc.1 hc.2.1 hc.2.2
  have hms : Members false true ['x', '-', 'z', ']'] [.range 'x' 'z'] (some []) :=
    .range (.plain (hplain (by decide))) (.plain (hplain (by decide))) (Option.some_ne_none _) .close
  exact (path_fnmatch_language _ _).2 (.bare (by decide) (.star (@BuiltFrom.bracket
    _ true _ _ _ _ _ rfl Bool.noConfusion (firstSteps_of_ne (by decide) (by decide)) hms .nil))) _

/-- The rules by which a `*` stands anywhere. -/
def FnFlags.freely (fl : FnFlags) : StarRules Char := { fl.rules with stand := fun _ _ => True }

/-- In front of a leading period `*` does not match the empty string, and the `]` of a bracket expression
is not found behind an escaped backslash that comes first. -/
theorem star_before_period :
    (BuiltFrom false "*.x".toList [.star, .char '.', .char 'x'] ∧
      WildMatches (FnFlags.freely ⟨false, false, true⟩)
        ([.star, .char '.', .char 'x'].map (Token.wild ⟨false, false, true⟩)) none ".x".toList ∧
      pathFnmatch ⟨false, false, true⟩ '\x00' "*.x".toList ".x".toList = false) ∧
    Members false true ['\\', '\\', ']'] [.char '\\'] (some []) ∧
      pathFnmatch ⟨false, false, false⟩ '\x00' ['[', '\\', '\\', ']'] ['\\'] = false := by
  refine ⟨⟨.star (.bare (by decide) (.bare (by decide) .nil)), .star [] trivial trivial (.one rfl (.one rfl .nil)),
    fnmatchFrom_done rfl⟩, .escaped rfl .close, fnmatchFrom_done ?_⟩
  have hclose : hasClose false ['\\', '\\', ']'] = false := by
    simp [hasClose, hasCloseGo]
  exact (if_pos hclose).trans rfl

end Shish
