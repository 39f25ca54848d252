import Shish.Expand.Glob
import Shish.Expand.Trim
import Shish.Path.Starless

/-!
# Eval/Case — quoted text in the patterns of `case`

`eval_case` expands its word and then one pattern after the other, each to a text in which quoting is a
backslash, and takes the first branch whose pattern `path_fnmatch` matches.  Of a quoted result the
characters that begin something get a backslash, but not the `]` that ends something.  So literal text is
literal text just where no `[` finds an end for a bracket expression (`case_literal_iff`), and a value
matches itself (`case_self`).
-/

namespace Shish

variable {κ ι : Type}

/-! ## The case conditional -/

section Case
variable (S : Shell κ) (tilde : List (Part κ) → List (Part κ)) (x : Str)

/-- One pattern: does it match? -/
def casePattern (pat : List (Part κ)) : Option Bool :=
  (copysa S (expandParamTilde tilde pat) { XFlags.default with pattern := true }).map fun sa =>
    pathFnmatch .plain '\x00' sa x

/-- The patterns of a branch, up to the first that matches. -/
def casePatterns : List (List (Part κ)) → Option Bool
  | [] => some false
  | pat :: pats => (casePattern S tilde x pat).bind fun hit => if hit then some true else casePatterns pats

/-- The branches, up to the first with a pattern that matches. -/
def caseBranches : List (List (List (Part κ)) × ι) → Option (Option ι)
  | [] => some none
  | (pats, cmds) :: list =>
      (casePatterns S tilde x pats).bind fun hit => if hit then some (some cmds) else caseBranches list

/-- `eval_case`: the commands of the branch that is taken, if one is. -/
def evalCase (word : List (Part κ)) (list : List (List (List (Part κ)) × ι)) : Option (Option ι) :=
  (copysa S (expandParamTilde tilde word) .default).bind fun x => caseBranches S tilde x list

end Case

/-! ## Pieces of a pattern -/

/-- **The characters of a pattern** and which of them get a backslash: of unquoted text, of quoted text, and
of the quoted value of a parameter. -/
inductive CasePieces (S : Shell κ) : List Chunk → List (Mark × Bool) → Prop where
  | nil : CasePieces S [] []
  | lit {t flag chunks ms} : (∀ m ∈ t, m.1 = '\\' → m.2 = true) → CasePieces S chunks ms →
      CasePieces S (.lit t flag :: chunks) ((t.map fun m => (m, m.2 && parseIsesc m.1)) ++ ms)
  | quo {quot flag x chunks ms} : quot ≠ .unquoted → flag.heredoc = false → CasePieces S chunks ms →
      CasePieces S (.quo quot flag x :: chunks) ((x.map fun c => ((c, true), parseIsesc c)) ++ ms)
  | param {p x chunks ms} : p.quot ≠ .unquoted → p.op = .default → p.strlen = false →
      p.special ≠ some .argvs → S.param p = some x → CasePieces S chunks ms →
      CasePieces S (.param p :: chunks) (readResult true x ++ ms)

/-- What a character is to match: unquoted, `*` and `?` are what they are in a pattern, and all else is literal. -/
def literalToken (m : Mark) : Token :=
  if m.2 then .char m.1 else if m.1 = '*' then .star else if m.1 = '?' then .any else .char m.1

variable {S : Shell κ} {chunks : List Chunk} {ms : List (Mark × Bool)} {z : Char} {x : Str}

/-- What begins something has a backslash just where it is quoted. -/
def Guarded (m : Mark × Bool) : Prop :=
  if m.2 then m.1.2 = true else m.1.1 ≠ '\\' ∧ (m.1.2 = true → m.1.1 ∉ ['*', '?', '['])

theorem CasePieces.guarded (h : CasePieces S chunks ms) : ∀ m ∈ ms, Guarded m := by
  induction h with
  | nil => exact fun _ hm => absurd hm List.not_mem_nil
  | lit ht _ ih =>
    refine List.forall_mem_append.2 ⟨fun m hm => ?_, ih⟩
    obtain ⟨⟨c, q⟩, hmem, rfl⟩ := List.mem_map.1 hm
    unfold Guarded
    dsimp only
    split_ifs with hk
    · simp only [Bool.and_eq_true] at hk
      exact hk.1
    · have hesc : q = true → parseIsesc c = false := fun hq => by simpa [hq] using hk
      refine ⟨fun hc => ?_, fun hq hc => ?_⟩
      · have := hesc (ht _ hmem hc)
        rw [hc] at this
        exact absurd this (by decide)
      · have := hesc hq
        simp only [List.mem_cons, List.not_mem_nil, or_false] at hc
        rcases hc with rfl | rfl | rfl <;> exact absurd this (by decide)
  | quo _ _ _ ih =>
    refine List.forall_mem_append.2 ⟨fun m hm => ?_, ih⟩
    obtain ⟨c, -, rfl⟩ := List.mem_map.1 hm
    unfold Guarded
    dsimp only
    split_ifs with hk
    · rfl
    · refine ⟨?_, fun _ hc => ?_⟩
      · rintro rfl
        exact hk rfl
      · simp only [List.mem_cons, List.not_mem_nil, or_false] at hc
        rcases hc with rfl | rfl | rfl <;> exact hk rfl
  | param _ _ _ _ _ _ ih =>
    refine List.forall_mem_append.2 ⟨fun m hm => ?_, ih⟩
    obtain ⟨c, -, rfl⟩ := List.mem_map.1 hm
    unfold Guarded
    dsimp only
    split_ifs with hk
    · rfl
    · simp only [Bool.true_and, Bool.or_eq_true, beq_iff_eq, not_or] at hk
      refine ⟨hk.1.1.1, fun _ hc => ?_⟩
      simp only [List.mem_cons, List.not_mem_nil, or_false] at hc
      rcases hc with rfl | rfl | rfl
      · exact hk.1.1.2 rfl
      · exact hk.1.2 rfl
      · exact hk.2 rfl

/-- **The text that the pattern becomes.** -/
theorem CasePieces.copysa (h : CasePieces S chunks ms) :
    copysa S (chunks.map Chunk.part) { XFlags.default with pattern := true } = some (write ms) := by
  suffices ∃ ns, PatternWord S false (chunks.map Chunk.part) ns ∧ write ns = write ms by
    obtain ⟨ns, hns, heq⟩ := this
    rw [hns.copysa, heq]
  induction h with
  | nil => exact ⟨[], .nil, rfl⟩
  | lit _ _ ih =>
    obtain ⟨ns, hns, heq⟩ := ih
    refine ⟨_, .text hns, ?_⟩
    rw [write_append, write_append, write_readText, write_store, heq]
  | @quo _ _ x _ _ hquot hhere _ ih =>
    obtain ⟨ns, hns, heq⟩ := ih
    refine ⟨_, .quoted hquot hhere hns, ?_⟩
    have hescape : write (x.map fun c => ((c, true), parseIsesc c)) = escape x := by
      simp [write, escape, List.flatMap_map]
    rw [write_append, write_append, write_readQuoted, hescape, heq]
  | @param p x _ _ hquot hop hlen hmany hx _ ih =>
    obtain ⟨ns, hns, heq⟩ := ih
    refine ⟨_, .param (pastes_param hop hlen hmany hx) hns, ?_⟩
    rw [write_append, write_append, heq]
    simp [hquot]

/-! ## Literal text -/

/-- With every `[` escaped the text is what it is to match. -/
theorem builtFrom_literal (h : ∀ m ∈ ms, Guarded m) :
    BuiltFrom false (escapeOpen (write ms)) (ms.map fun m => literalToken m.1) := by
  induction ms with
  | nil => exact .nil
  | cons m ms ih =>
    rw [List.forall_mem_cons] at h
    have hrest := ih h.2
    obtain ⟨⟨c, q⟩, k⟩ := m
    have hm := h.1
    unfold Guarded at hm
    dsimp only at hm
    rw [List.map_cons, write_cons]
    cases k with
    | true =>
      obtain rfl : q = true := by simpa using hm
      exact .escaped rfl hrest
    | false =>
      obtain ⟨hbs, hq⟩ : c ≠ '\\' ∧ (q = true → c ∉ ['*', '?', '[']) := by simpa using hm
      have htext : escapeOpen (c :: write ms) = if c = '[' then '\\' :: c :: escapeOpen (write ms)
          else c :: escapeOpen (write ms) := escapeOpen_cons hbs
      change BuiltFrom false (escapeOpen (c :: write ms)) (literalToken (c, q) :: _)
      rw [htext]
      by_cases hopen : c = '['
      · obtain rfl : q = false := by
          by_contra hne
          exact hq (by simpa using hne) (by simp [hopen])
        subst hopen
        exact .escaped rfl hrest
      · rw [if_neg hopen]
        have hbare : c ≠ '*' → c ≠ '?' → BuiltFrom false (c :: escapeOpen (write ms))
            (.char c :: ms.map fun m => literalToken m.1) := fun h1 h2 =>
          .char h1 h2 (absurd · hbs) (absurd · hopen) hrest
        cases q with
        | true =>
          have hno := hq rfl
          simp only [List.mem_cons, List.not_mem_nil, or_false, not_or] at hno
          exact hbare hno.1 hno.2.1
        | false =>
          by_cases hstar : c = '*'
          · subst hstar
            exact .star hrest
          by_cases hany : c = '?'
          · subst hany
            exact .any hrest
          have htok : literalToken (c, false) = .char c := by simp [literalToken, hstar, hany]
          rw [htok]
          exact hbare hstar hany

/-- The text has a character for each that is not a star. -/
theorem literals_write (h : ∀ m ∈ ms, Guarded m) :
    literals (write ms) = ((ms.map fun m => literalToken m.1).filter (· ≠ .star)).length := by
  induction ms with
  | nil => rfl
  | cons m ms ih =>
    rw [List.forall_mem_cons] at h
    have hrest := ih h.2
    obtain ⟨⟨c, q⟩, k⟩ := m
    have hm := h.1
    unfold Guarded at hm
    dsimp only at hm
    rw [List.map_cons, write_cons]
    cases k with
    | true =>
      obtain rfl : q = true := by simpa using hm
      change literals ('\\' :: c :: write ms) = _
      rw [literals_escaped, hrest]
      simp [literalToken]
    | false =>
      obtain ⟨hbs, hq⟩ : c ≠ '\\' ∧ (q = true → c ∉ ['*', '?', '[']) := by simpa using hm
      change literals (c :: write ms) = _
      rw [literals_cons hbs, hrest]
      by_cases hstar : c = '*'
      · obtain rfl : q = false := by
          by_contra hne
          exact hq (by simpa using hne) (by simp [hstar])
        simp [literalToken, hstar]
      · have hne : literalToken (c, q) ≠ .star := by
          unfold literalToken
          split_ifs
          all_goals exact Token.noConfusion
        rw [if_neg hstar, List.filter_cons_of_pos (by simpa using hne)]
        rfl

/-- A string that is matched has a character for each. -/
theorem length_of_matchedBy : ∀ {toks : List Token} {prev : Option Char} {x : Str},
    WildMatches (FnFlags.rules .plain) (toks.map (Token.wild .plain)) prev x →
      (toks.filter (· ≠ .star)).length ≤ x.length
  | [], _, _, _ => Nat.zero_le _
  | tok :: toks, prev, x, h => by
      rw [List.map_cons] at h
      by_cases htok : tok = .star
      · subst htok
        rw [List.filter_cons_of_neg (by simp)]
        generalize hts : Token.wild .plain .star :: toks.map (Token.wild .plain) = ts at h
        cases h with
        | nil => exact nomatch hts
        | one _ _ => exact nomatch hts
        | star u _ _ h =>
          obtain ⟨-, rfl⟩ := List.cons.inj hts
          have := length_of_matchedBy h
          rw [List.length_append]
          omega
      · rw [List.filter_cons_of_pos (by simpa using htok)]
        obtain ⟨q, hq⟩ : ∃ q, Token.wild .plain tok = .one q := by
          cases tok with
          | star => exact absurd rfl htok
          | _ => exact ⟨_, rfl⟩
        rw [hq] at h
        cases h with
        | one _ h => exact Nat.succ_le_succ (length_of_matchedBy h)

/-- Literal text matches something. -/
theorem exists_matchedBy : ∀ (marks : List Mark) (prev : Option Char),
    ∃ x, WildMatches (FnFlags.rules .plain) ((marks.map literalToken).map (Token.wild .plain)) prev x
  | [], _ => ⟨[], .nil⟩
  | m :: marks, prev => by
      have hfree : ∀ prev c, FnFlags.plain.free prev c := fun prev c =>
        ⟨fun h => Bool.false_ne_true h.1, fun h => Bool.false_ne_true h.1⟩
      rw [List.map_cons, List.map_cons]
      unfold literalToken
      split_ifs
      · obtain ⟨x, hx⟩ := exists_matchedBy marks (some m.1)
        exact ⟨m.1 :: x, .one rfl hx⟩
      · obtain ⟨x, hx⟩ := exists_matchedBy marks prev
        exact ⟨x, .star [] (fun _ _ h => Bool.false_ne_true h.1) trivial hx⟩
      · obtain ⟨x, hx⟩ := exists_matchedBy marks (some m.1)
        exact ⟨m.1 :: x, .one (hfree _ _) hx⟩
      · obtain ⟨x, hx⟩ := exists_matchedBy marks (some m.1)
        exact ⟨m.1 :: x, .one rfl hx⟩

/-- **The text matches what it is to match just where no `[` begins a bracket expression.** -/
theorem match_literal_iff (h : ∀ m ∈ ms, Guarded m) :
    (∀ x, pathFnmatch .plain z (write ms) x = true ↔ matchedBy (ms.map fun m => literalToken m.1) x) ↔
      bracketed (write ms) = false := by
  constructor
  · intro hall
    by_contra hb
    have hb : bracketed (write ms) = true := by simpa using hb
    -- a string that is too short is matched
    obtain ⟨x, hx⟩ := exists_matchedBy (ms.map Prod.fst) none
    have hmarks : (ms.map Prod.fst).map literalToken = ms.map fun m => literalToken m.1 := List.map_map
    rw [hmarks] at hx
    obtain ⟨y, hy⟩ := starless_of_match ((hall x).2 hx)
    have hlt := hy.length_lt hb
    have hle := length_of_matchedBy ((hall y).1 (match_of_starless hy))
    rw [literals_write h] at hlt
    exact absurd hle (Nat.not_le.2 hlt)
  · intro hb x
    rw [← pathFnmatch_unbracketed hb]
    exact pathFnmatch_iff z (builtFrom_literal h) x

/-! ## The branch that is taken -/

/-- One branch with one pattern. -/
theorem evalCase_one (tilde : List (Part κ) → List (Part κ)) {word pat : List (Part κ)} {sa : Str}
    (hword : copysa S (expandParamTilde tilde word) .default = some x)
    (hpat : copysa S (expandParamTilde tilde pat) { XFlags.default with pattern := true } = some sa) (cmds : ι) :
    evalCase S tilde word [([pat], cmds)] = some (if pathFnmatch .plain '\x00' sa x then some cmds else none) := by
  have hcase : casePattern S tilde x pat = some (pathFnmatch .plain '\x00' sa x) := by
    rw [casePattern, hpat]
    rfl
  rw [evalCase, hword, Option.bind_some, caseBranches, casePatterns, hcase, Option.bind_some]
  cases pathFnmatch .plain '\x00' sa x <;> rfl

/-- The value of a parameter. -/
def valueOf (quot : Quoting) (name : Str) : Param := ⟨quot, none, false, false, .default, name, 0⟩

/-- A quoted word is its text. -/
theorem copysa_quoted (S : Shell κ) (x : Str) : copysa S [.str .dquoted .none (escape x)] .default = some x := by
  cases hx : escape x with
  | nil =>
    rw [← unescape_escape x, hx]
    rfl
  | cons c t =>
    have hcat : copysa S [.str .dquoted .none (c :: t)] .default = some ([] ++ unescape parseIsesc (c :: t)) := rfl
    rw [hcat, ← hx, unescape_escape, List.nil_append]

theorem copysa_value (quot : Quoting) {name : Str} (hx : S.var name = some x) :
    copysa S [.param (valueOf quot name) none] .default = some x := by
  have hparam : S.param (valueOf quot name) = some x := hx
  unfold copysa expandArg
  rw [List.foldlM_cons, expandPart, expandParam, if_neg (by simp [valueOf]), if_neg (by simp [valueOf]),
    if_neg (by simp [valueOf]), hparam]
  cases quot <;> rfl

/-- A quoted value alone has no bracket expression. -/
theorem bracketed_readResult (x : Str) : bracketed (write (readResult true x)) = false := by
  induction x with
  | nil => rfl
  | cons c x ih =>
    have hcons : readResult true (c :: x) = ((c, true), c == '\\' || c == '*' || c == '?' || c == '[') :: readResult true x :=
      rfl
    rw [hcons, write_cons]
    split_ifs with hk
    · exact ih
    · simp only [Bool.or_eq_true, beq_iff_eq, not_or] at hk
      change bracketed (c :: write (readResult true x)) = false
      rw [bracketed_cons hk.1.1.1, ih, Bool.or_false]
      simp [hk.2]

/-- Quoted text matches itself. -/
theorem matches_readResult : ∀ (x : Str) (prev : Option Char), WildMatches (FnFlags.rules .plain)
    (((readResult true x).map fun m => literalToken m.1).map (Token.wild .plain)) prev x
  | [], _ => .nil
  | c :: x, _ => .one rfl (matches_readResult x (some c))

/-- **A value matches itself**: `case $s in "$s")`. -/
theorem case_self (S : Shell κ) (tilde : List (Part κ) → List (Part κ)) (cmds : ι) (quot : Quoting) {name s : Str}
    (hs : S.var name = some s) :
    evalCase S tilde [.param (valueOf quot name) none] [([[.param (valueOf .dquoted name) none]], cmds)] =
      some (some cmds) := by
  have hpieces : CasePieces S [.param (valueOf .dquoted name)] (readResult true s ++ []) :=
    .param (by simp [valueOf]) rfl rfl nofun hs .nil
  rw [List.append_nil] at hpieces
  have hword : copysa S (expandParamTilde tilde [.param (valueOf quot name) none]) .default = some s :=
    copysa_value quot hs
  have hpat : copysa S (expandParamTilde tilde [.param (valueOf .dquoted name) none])
      { XFlags.default with pattern := true } = some (write (readResult true s)) := hpieces.copysa
  have hmatch : pathFnmatch .plain '\x00' (write (readResult true s)) s = true :=
    ((match_literal_iff hpieces.guarded).2 (bracketed_readResult s) s).2 (matches_readResult s none)
  rw [evalCase_one tilde hword hpat, if_pos hmatch]

/-- **Quoted text in a pattern.**  The branch is taken for just the strings that the pattern matches with all
quoted text taken literally, and unquoted text but for `*` and `?`, if and only if no `[` begins a bracket
expression in the text that it becomes.  A quoted value alone always matches itself. -/
theorem case_literal_iff (S : Shell κ) (tilde : List (Part κ) → List (Part κ)) (cmds : ι) (chunks : List Chunk)
    (ms : List (Mark × Bool)) (hpieces : CasePieces S chunks ms)
    (htilde : expandTildeNeeded (chunks.map Chunk.part : List (Part κ)) = false) :
    ((∀ word x, copysa S (expandParamTilde tilde word) .default = some x →
        (evalCase S tilde word [([chunks.map Chunk.part], cmds)] = some (some cmds) ↔
          matchedBy (ms.map fun m => literalToken m.1) x)) ↔ bracketed (write ms) = false) ∧
    ∀ quot name s, S.var name = some s →
      evalCase S tilde [.param (valueOf quot name) none] [([[.param (valueOf .dquoted name) none]], cmds)] =
        some (some cmds) := by
  have hpat : copysa S (expandParamTilde tilde (chunks.map Chunk.part)) { XFlags.default with pattern := true } =
      some (write ms) := by
    rw [expandParamTilde, if_neg (by simp [htilde]), hpieces.copysa]
  have htaken : ∀ {word x}, copysa S (expandParamTilde tilde word) .default = some x →
      (evalCase S tilde word [([chunks.map Chunk.part], cmds)] = some (some cmds) ↔
        pathFnmatch .plain '\x00' (write ms) x = true) := by
    intro word x hx
    rw [evalCase_one tilde hx hpat]
    cases pathFnmatch .plain '\x00' (write ms) x <;> simp
  refine ⟨?_, fun quot _ _ hs => case_self S tilde cmds quot hs⟩
  rw [← match_literal_iff (z := '\x00') hpieces.guarded]
  constructor
  · intro hall x
    have hword : copysa S (expandParamTilde tilde [.str .dquoted .none (escape x)]) .default = some x :=
      copysa_quoted S x
    exact (htaken hword).symm.trans (hall _ x hword)
  · exact fun hall word x hx => (htaken hx).trans (hall x)

/-- A shell whose variables all have one value. -/
def Shell.constant (v : Str) : Shell Empty := { Shell.bare with var := fun _ => some v }

/-- `a"$s"*` with `[*` in `s`. -/
theorem case_literal_star :
    ((∀ word x, copysa (Shell.constant ['[', '*']) (expandParamTilde id word) .default = some x →
        (evalCase (Shell.constant ['[', '*']) id word
            [([[.lit [('a', false)] .none, .param (valueOf .dquoted ['s']), .lit [('*', false)] .none].map Chunk.part],
              ())] = some (some ()) ↔
          matchedBy [.char 'a', .char '[', .char '*', .star] x)) ↔
        bracketed ['a', '\\', '[', '\\', '*', '*'] = false) ∧
    ∀ quot name s, (Shell.constant ['[', '*']).var name = some s →
      evalCase (Shell.constant ['[', '*']) id [.param (valueOf quot name) none]
        [([[.param (valueOf .dquoted name) none]], ())] = some (some ()) :=
  case_literal_iff (Shell.constant ['[', '*']) id () _
    [(('a', false), false), (('[', true), true), (('*', true), true), (('*', false), false)]
    (.lit (t := [('a', false)]) (by decide) (.param (x := ['[', '*']) (by decide) rfl rfl nofun rfl
      (.lit (t := [('*', false)]) (by decide) .nil))) (by decide)

/-- `["$s"` with `a]` in `s` is a bracket expression: it matches `a`, and should match `[a]` alone. -/
theorem case_quoted_closes : ¬∀ (S : Shell Empty) (tilde : List (Part Empty) → List (Part Empty))
    (chunks : List Chunk) (ms : List (Mark × Bool)), CasePieces S chunks ms →
      expandTildeNeeded (chunks.map Chunk.part : List (Part Empty)) = false →
        ∀ word x, copysa S (expandParamTilde tilde word) .default = some x →
          (evalCase S tilde word [([chunks.map Chunk.part], ())] = some (some ()) ↔
            matchedBy (ms.map fun m => literalToken m.1) x) := by
  intro hall
  have hpieces : CasePieces (Shell.constant ['a', ']'])
      [.lit [('[', false)] .none, .param (valueOf .dquoted ['s'])]
      [(('[', false), false), (('a', true), false), ((']', true), false)] :=
    .lit (t := [('[', false)]) (by decide) (.param (x := ['a', ']']) (by decide) rfl rfl nofun rfl .nil)
  have hplain : ∀ {first t}, Plain false first 'a' t := plain_of_ne (by decide) (by decide) (by decide)
  have hbuilt : BuiltFrom false ['[', 'a', ']'] [.bracket false [.char 'a']] :=
    @BuiltFrom.bracket _ false _ _ _ _ _ rfl (fun _ => by decide) (firstSteps_of_ne (by decide) (by decide))
      (.char hplain rfl .close) .nil
  have hmatch : pathFnmatch .plain '\x00' ['[', 'a', ']'] ['a'] = true :=
    (pathFnmatch_iff '\x00' hbuilt ['a']).2
      (.one ⟨⟨fun h => Bool.false_ne_true h.1, fun h => Bool.false_ne_true h.1⟩, by decide⟩ .nil)
  have hword : copysa (Shell.constant ['a', ']']) (expandParamTilde id [.str .dquoted .none (escape ['a'])]) .default =
      some ['a'] := copysa_quoted _ ['a']
  have hpat : copysa (Shell.constant ['a', ']']) (expandParamTilde id ([.lit [('[', false)] .none,
      .param (valueOf .dquoted ['s'])].map Chunk.part)) { XFlags.default with pattern := true } = some ['[', 'a', ']'] :=
    hpieces.copysa
  have htaken := evalCase_one id hword hpat ()
  rw [if_pos hmatch] at htaken
  have hmatched := (hall _ id _ _ hpieces rfl _ ['a'] hword).1 htaken
  exact absurd (length_of_matchedBy hmatched) (by decide)

end Shish
