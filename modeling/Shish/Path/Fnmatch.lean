import Shish.Chartable
import Shish.Lib.Wildcard

/-!
# Path/Fnmatch — matching a string against a pattern

`path_fnmatch` goes over pattern and string once, and back to the last `*` when it is stuck.  One turn
of its loop is `FnState.turn`; every turn but the last takes a character off the pattern, or makes the
bookmark shorter (`turn_lt`), so the loop ends.  A byte that a bracket reads behind the end of the
pattern is whatever it is (`z`).
-/

namespace Shish

/-- The `PATH_FNM_*` bits. -/
structure FnFlags where
  pathname : Bool
  noescape : Bool
  period : Bool
deriving DecidableEq, Repr

/-! ## Brackets -/

/-- The value of a `char`, which is signed. -/
def charVal (c : Char) : ℤ := if c.toNat < 128 then c.toNat else c.toNat - 256

/-- `<=` of two characters. -/
def charLe (a b : Char) : Bool := decide (charVal a ≤ charVal b)

/-- `isgraph`. -/
def isgraph (c : Char) : Bool := 33 ≤ c.toNat && c.toNat ≤ 126

/-- `isalnum`. -/
def isalnum (c : Char) : Bool := parseIsalpha c || parseIsdigit c

/-- `path_fnmatch_class`. -/
def fnmatchClass (name : Str) (c : Char) : Bool :=
  if name = "upper".toList then parseIsupper c
  else if name = "lower".toList then parseIslower c
  else if name = "alpha".toList then parseIsalpha c
  else if name = "digit".toList then parseIsdigit c
  else if name = "alnum".toList then isalnum c
  else if name = "punct".toList then isgraph c && !isalnum c
  else if name = "graph".toList then isgraph c
  else if name = "print".toList then isgraph c || c == ' '
  else if name = "cntrl".toList then decide (c.toNat < 32) || c.toNat == 127
  else if name = "blank".toList then c == ' ' || c == '\t'
  else if name = "space".toList then c == ' ' || (decide (9 ≤ c.toNat) && decide (c.toNat ≤ 13))
  else if name = "xdigit".toList then parseIsxdigit c
  else false

/-- The loop of `path_fnmatch_subexpr_len`, at byte `i`. -/
def subexprGo (delim : Char) (i : ℕ) : Str → ℕ
  | a :: b :: t => if a = delim ∧ b = ']' then i + 2 else subexprGo delim (i + 1) (b :: t)
  | _ => 0

/-- `path_fnmatch_subexpr_len`. -/
def subexprLen (pattern : Str) (delim : Char) : ℕ := subexprGo delim 2 (pattern.drop 2)

/-- `[:`, `[.` or `[=` goes on here. -/
def opensSub (ps : Str) : Bool := ps.head? == some ':' || ps.head? == some '.' || ps.head? == some '='

/-- `path_fnmatch_range_end`: the endpoint and how many bytes it takes. -/
def rangeEnd (pattern : Str) : Option (Char × ℕ) :=
  match pattern with
  | m :: b :: t =>
      if m ≠ '-' ∨ b = ']' then none
      else if b = '[' ∧ (t.head? = some '.' ∨ t.head? = some '=') then
        let sublen := subexprLen (b :: t) (t.headD '.')
        if sublen = 0 ∨ sublen - 4 ≠ 1 then none else some (pattern.getD 3 '\x00', 1 + sublen)
      else some (b, 2)
  | _ => none

/-- How long the sub-expression is that begins here; 0 if none does. -/
def subLen (p : Char) (ps : Str) : ℕ :=
  if p = '[' ∧ opensSub ps = true then subexprLen (p :: ps) (ps.headD ':') else 0

/-- The loop of `path_fnmatch_has_close`. -/
def hasCloseGo (noescape : Bool) : Str → Bool
  | [] => false
  | p :: ps =>
      if p = '\\' ∧ noescape = false then hasCloseGo noescape (ps.drop 1)
      else if subLen p ps ≠ 0 then hasCloseGo noescape (ps.drop (subLen p ps - 1))
      else if p = ']' then true
      else hasCloseGo noescape ps
termination_by l => l.length
decreasing_by all_goals simp; try omega

/-- `path_fnmatch_has_close`, of what is behind the `[`: the first member is passed over. -/
def hasClose (noescape : Bool) (ps : Str) : Bool :=
  hasCloseGo noescape ((if ps.head? = some '!' then ps.drop 1 else ps).drop 1)

/-- A member: does it hold the character, and what is behind it? -/
def bracketMember (c : Char) (escaped : Bool) (p : Char) (ps : Str) : Bool × Str :=
  if escaped = false ∧ p = '[' ∧ opensSub ps = true then
    let sublen := subLen p ps
    if sublen = 0 then (p == c, ps)
    else if ps.head? = some ':' then (fnmatchClass ((ps.drop 1).take (sublen - 4)) c, ps.drop (sublen - 1))
    else if sublen - 4 = 1 then
      match rangeEnd (ps.drop (sublen - 1)) with
      | some (e, k) => (charLe (ps.getD 1 '\x00') c && charLe c e, ps.drop (sublen + k - 1))
      | none => (ps.getD 1 '\x00' == c, ps.drop (sublen - 1))
    else (false, ps.drop (sublen - 1))
  else
    match if escaped then none else rangeEnd ps with
    | some (e, k) => (charLe p c && charLe c e, ps.drop k)
    | none => (p == c, ps)

/-- The rest of a bracket after a hit, from its `]` on. -/
def skipMembers (noescape : Bool) : Str → Str
  | [] => []
  | p :: ps =>
      if p = ']' then p :: ps
      else if p = '\\' ∧ ps ≠ [] ∧ noescape = false then skipMembers noescape (ps.drop 1)
      else if subLen p ps ≠ 0 then skipMembers noescape (ps.drop (subLen p ps - 1))
      else skipMembers noescape ps
termination_by l => l.length
decreasing_by all_goals simp; try omega

theorem length_bracketMember (c : Char) (escaped : Bool) (p : Char) (ps : Str) :
    (bracketMember c escaped p ps).2.length ≤ ps.length := by
  unfold bracketMember
  dsimp only
  split_ifs
  · exact Nat.le_refl _
  · simp
  · split <;> simp
  · simp
  · exact Nat.le_refl _
  · split <;> simp

/-- The scan of the members: what is behind the bracket if it holds the character. -/
def bracketScan (noescape neg : Bool) (z c : Char) (first : Bool) (pattern : Str) : Option Str :=
  match pattern with
  | [] => none
  | p :: ps =>
      if p = '\\' ∧ noescape = false ∧ ps ≠ [] then
        let m := bracketMember c true (ps.headD z) (ps.drop 1)
        if (m.1 && !neg) || (!m.1 && neg && m.2.headD z == ']') then some ((skipMembers noescape m.2).drop 1)
        else if m.1 && neg then none
        else bracketScan noescape neg z c false m.2
      else if p = ']' ∧ first = false then none
      else
        let m := bracketMember c false p ps
        if (m.1 && !neg) || (!m.1 && neg && m.2.headD z == ']') then some ((skipMembers noescape m.2).drop 1)
        else if m.1 && neg then none
        else bracketScan noescape neg z c false m.2
termination_by pattern.length
decreasing_by
  · have h := length_bracketMember c true (ps.headD z) (ps.drop 1)
    rw [List.length_drop] at h
    rw [List.length_cons]
    omega
  · have h := length_bracketMember c false p ps
    rw [List.length_cons]
    omega

/-! ## The loop -/

/-- Where the matcher is: the rest of pattern and string, the character in front, `NOTFIRST`, and the
bookmark of the last star with the character in front of its string. -/
structure FnState where
  pattern : Str
  string : Str
  prev : Option Char := none
  notfirst : Bool := false
  star : Option (Str × Option Char × Str) := none

/-- A turn goes on, or is the last. -/
inductive FnTurn where
  | on (s : FnState)
  | done (result : Bool)

namespace FnState

/-- `fail`: back to the bookmark, whose star takes one more character. -/
def fail (fl : FnFlags) (s : FnState) : FnTurn :=
  match s.star with
  | some (pattern, _, c :: t) =>
      if c = '/' ∧ fl.pathname = true then .done false
      else .on { s with pattern, string := t, prev := some c, star := some (pattern, some c, t) }
  | _ => .done false

/-- A character of the string is taken, and the pattern goes on with `rest`. -/
def take (s : FnState) (c : Char) (t rest : Str) : FnTurn :=
  .on { s with pattern := rest, string := t, prev := some c, notfirst := true }

/-- `match`: the pattern's character itself. -/
def literal (fl : FnFlags) (s : FnState) (c : Char) (t : Str) : Str → FnTurn
  | [] => s.fail fl
  | q :: qs => if q = c then s.take c t qs else s.fail fl

/-- A leading period that the pattern has no period for. -/
def hidden (fl : FnFlags) (s : FnState) (c p : Char) (ps : Str) : Bool :=
  c == '.' && p != '.' && fl.period && !(p == '\\' && !fl.noescape && ps.head? == some '.') &&
    (!s.notfirst || (fl.pathname && s.prev == some '/'))

/-- One turn, from `start` on. -/
def turn (fl : FnFlags) (z : Char) (s : FnState) : FnTurn :=
  match s.string with
  | [] => if s.pattern.dropWhile (· == '*') = [] then .done true else s.fail fl
  | c :: t =>
      match s.pattern with
      | [] => s.fail fl
      | p :: ps =>
          if s.hidden fl c p ps = true then s.fail fl
          else
            let s := { s with notfirst := true }
            if p = '[' then
              if hasClose fl.noescape ps = false then s.literal fl c t (p :: ps)
              else if c = '/' ∧ fl.pathname = true then s.fail fl
              else
                let neg := ps.head? == some '!'
                match bracketScan fl.noescape neg z c true (if neg then ps.drop 1 else ps) with
                | some rest => s.take c t rest
                | none => s.fail fl
            else if p = '\\' then s.literal fl c t (if fl.noescape then p :: ps else ps)
            else if p = '*' then
              let rest := ps.dropWhile (· == '*')
              .on { s with pattern := rest, star := some (rest, s.prev, s.string) }
            else if p = '?' then if c = '/' ∧ fl.pathname = true then s.fail fl else s.take c t ps
            else s.literal fl c t (p :: ps)

/-! ## Every turn makes progress -/

theorem length_skipMembers (noescape : Bool) (l : Str) : (skipMembers noescape l).length ≤ l.length := by
  induction hn : l.length using Nat.strong_induction_on generalizing l with
  | _ n ih =>
    subst hn
    cases l with
    | nil => rw [skipMembers]
    | cons p ps =>
      have hrest : ∀ k, (skipMembers noescape (ps.drop k)).length ≤ (p :: ps).length := fun k => by
        have hlen : (ps.drop k).length ≤ ps.length := by
          rw [List.length_drop]
          exact Nat.sub_le ..
        have := ih _ (Nat.lt_succ_of_le hlen) (ps.drop k) rfl
        rw [List.length_cons]
        omega
      rw [skipMembers]
      split_ifs
      · exact Nat.le_refl _
      · exact hrest 1
      · exact hrest _
      · exact hrest 0

theorem length_bracketScan {noescape neg : Bool} {z c : Char} {first : Bool} {pattern rest : Str}
    (h : bracketScan noescape neg z c first pattern = some rest) : rest.length ≤ pattern.length := by
  induction hn : pattern.length using Nat.strong_induction_on generalizing pattern first with
  | _ n ih =>
    subst hn
    cases pattern with
    | nil =>
      rw [bracketScan] at h
      exact nomatch h
    | cons p ps =>
      have hmember : ∀ (m : Bool × Str), m.2.length ≤ ps.length →
          (if (m.1 && !neg) || (!m.1 && neg && m.2.headD z == ']') then some ((skipMembers noescape m.2).drop 1)
            else if m.1 && neg then none else bracketScan noescape neg z c false m.2) = some rest →
          rest.length ≤ (p :: ps).length := by
        intro m hm h
        rw [List.length_cons]
        split_ifs at h
        · obtain rfl := Option.some.inj h
          have := length_skipMembers noescape m.2
          rw [List.length_drop]
          omega
        · have := ih _ (Nat.lt_succ_of_le hm) h rfl
          omega
      rw [bracketScan] at h
      split_ifs at h with hesc hclose
      · refine hmember _ ?_ h
        have := length_bracketMember c true (ps.headD z) (ps.drop 1)
        rw [List.length_drop] at this
        omega
      · exact hmember _ (length_bracketMember c false p ps) h

/-- The bookmark's pattern, what its star has not taken, and the pattern. -/
def weight (s : FnState) : ℕ × ℕ × ℕ :=
  match s.star with
  | none => (s.pattern.length + 1, 0, s.pattern.length)
  | some (pattern, _, string) => (max s.pattern.length pattern.length, string.length, s.pattern.length)

/-- The order of the weights. -/
def Lighter (s' s : FnState) : Prop :=
  Prod.Lex (· < ·) (Prod.Lex (· < ·) (· < ·)) s'.weight s.weight

theorem lighter_wf : WellFounded Lighter :=
  InvImage.wf weight (Prod.lex ⟨_, Nat.lt_wfRel.wf⟩ (Prod.lex ⟨_, Nat.lt_wfRel.wf⟩ ⟨_, Nat.lt_wfRel.wf⟩)).wf

variable {fl : FnFlags} {z c : Char} {s s' : FnState} {t rest : Str}

theorem lighter_take (h : rest.length < s.pattern.length) :
    Lighter { s with pattern := rest, string := t, prev := some c, notfirst := true } s := by
  unfold Lighter weight
  cases s.star with
  | none => exact .left _ _ (Nat.succ_lt_succ h)
  | some b =>
    dsimp only
    rcases (max_le_max_right b.1.length h.le).lt_or_eq with hlt | heq
    · exact .left _ _ hlt
    · rw [heq]
      exact .right _ (.right _ h)

theorem lighter_star (h : rest.length < s.pattern.length) {prev : Option Char} {string : Str} :
    Lighter { s with pattern := rest, notfirst := true, star := some (rest, prev, string) } s := by
  unfold Lighter weight
  dsimp only
  rw [max_self]
  cases s.star with
  | none => exact .left _ _ (Nat.lt_succ_of_lt h)
  | some b => exact .left _ _ (lt_of_lt_of_le h (le_max_left ..))

theorem lighter_fail (h : s.fail fl = .on s') : Lighter s' s := by
  unfold fail at h
  split at h
  · next pattern pb d string hstar =>
    split_ifs at h
    obtain rfl := FnTurn.on.inj h
    unfold Lighter weight
    rw [hstar]
    dsimp only
    rw [max_self]
    rcases (le_max_right s.pattern.length pattern.length).lt_or_eq with hlt | heq
    · exact .left _ _ hlt
    · rw [← heq]
      exact .right _ (.left _ _ (Nat.lt_succ_self _))
  · exact nomatch h

/-- What `match` comes to: the character is taken, or `fail`. -/
theorem literal_cases {r : Str} (h : s.literal fl c t r = .on s') :
    s.fail fl = .on s' ∨ ∃ rest, rest.length < r.length ∧
      s' = { s with pattern := rest, string := t, prev := some c, notfirst := true } := by
  unfold literal at h
  split at h
  · exact .inl h
  · split_ifs at h
    · exact .inr ⟨_, Nat.lt_succ_self _, (FnTurn.on.inj h).symm⟩
    · exact .inl h

/-- **What a turn that goes on does**: `fail`, a character taken, or a star. -/
theorem turn_cases (h : s.turn fl z = .on s') :
    (∃ n, (n = s.notfirst ∨ n = true) ∧ { s with notfirst := n }.fail fl = .on s') ∨
      (∃ c t rest, s.string = c :: t ∧ rest.length < s.pattern.length ∧
        s' = { s with pattern := rest, string := t, prev := some c, notfirst := true }) ∨
      ∃ c t ps, s.string = c :: t ∧ s.pattern = '*' :: ps ∧ s.hidden fl c '*' ps ≠ true ∧
        s' = { s with pattern := ps.dropWhile (· == '*'), notfirst := true,
                      star := some (ps.dropWhile (· == '*'), s.prev, s.string) } := by
  have hfail : s.fail fl = .on s' → ∃ n, (n = s.notfirst ∨ n = true) ∧ { s with notfirst := n }.fail fl = .on s' :=
    fun h => ⟨_, .inl rfl, h⟩
  have hfail' : { s with notfirst := true }.fail fl = .on s' →
      ∃ n, (n = s.notfirst ∨ n = true) ∧ { s with notfirst := n }.fail fl = .on s' := fun h => ⟨_, .inr rfl, h⟩
  unfold turn at h
  split at h
  · split_ifs at h
    exact .inl (hfail h)
  next c t hstring =>
  split at h
  · exact .inl (hfail h)
  next p ps hpattern =>
  have hlen : s.pattern.length = ps.length + 1 := congrArg List.length hpattern
  have hliteral : ∀ {r : Str}, r.length ≤ s.pattern.length → { s with notfirst := true }.literal fl c t r = .on s' →
      (∃ n, (n = s.notfirst ∨ n = true) ∧ { s with notfirst := n }.fail fl = .on s') ∨
        ∃ c t rest, s.string = c :: t ∧ rest.length < s.pattern.length ∧
          s' = { s with pattern := rest, string := t, prev := some c, notfirst := true } := by
    intro r hr h
    rcases literal_cases h with h | ⟨rest, hrest, h⟩
    · exact .inl (hfail' h)
    · exact .inr ⟨c, t, rest, hstring, lt_of_lt_of_le hrest hr, h⟩
  split_ifs at h with hhidden hbracket hclose hslash
  · exact .inl (hfail h)
  · exact (hliteral (congrArg List.length hpattern).ge h).imp_right .inl
  · exact .inl (hfail' h)
  · dsimp only at h
    generalize hfrom : (if (ps.head? == some '!') = true then ps.drop 1 else ps) = ms at h
    split at h
    · next rest hscan =>
      have hms : ms.length ≤ ps.length := by
        rw [← hfrom]
        split_ifs <;> simp
      refine .inr (.inl ⟨c, t, rest, hstring, lt_of_le_of_lt (length_bracketScan hscan) ?_, (FnTurn.on.inj h).symm⟩)
      exact lt_of_le_of_lt hms (hlen ▸ Nat.lt_succ_self _)
    · exact .inl (hfail' h)
  all_goals dsimp only at h
  · exact (hliteral (congrArg List.length hpattern).ge h).imp_right .inl
  · exact (hliteral (hlen ▸ Nat.le_succ _) h).imp_right .inl
  · next hstar =>
    subst hstar
    exact .inr (.inr ⟨c, t, ps, hstring, hpattern, hhidden, (FnTurn.on.inj h).symm⟩)
  · exact .inl (hfail' h)
  · exact .inr (.inl ⟨c, t, ps, hstring, hlen ▸ Nat.lt_succ_self _, (FnTurn.on.inj h).symm⟩)
  · exact (hliteral (congrArg List.length hpattern).ge h).imp_right .inl

/-- **Every turn that goes on is lighter.** -/
theorem lighter_turn (h : s.turn fl z = .on s') : Lighter s' s := by
  rcases turn_cases h with ⟨n, -, h⟩ | ⟨c, t, rest, -, hrest, rfl⟩ | ⟨c, t, ps, -, hpattern, -, rfl⟩
  · exact lighter_fail (s := { s with notfirst := n }) h
  · exact lighter_take hrest
  · refine lighter_star ?_
    rw [hpattern]
    exact Nat.lt_succ_of_le (List.dropWhile_sublist _).length_le

end FnState

/-- The loop. -/
def fnmatchFrom (fl : FnFlags) (z : Char) (s : FnState) : Bool :=
  match _h : s.turn fl z with
  | .on s' => fnmatchFrom fl z s'
  | .done result => result
termination_by FnState.lighter_wf.wrap s
decreasing_by exact FnState.lighter_turn _h

/-- `path_fnmatch` returns 0. -/
def pathFnmatch (fl : FnFlags) (z : Char) (pattern string : Str) : Bool :=
  fnmatchFrom fl z { pattern, string }

theorem fnmatchFrom_on {fl : FnFlags} {z : Char} {s s' : FnState} (h : s.turn fl z = .on s') :
    fnmatchFrom fl z s = fnmatchFrom fl z s' := by
  rw [fnmatchFrom]
  split
  · next heq =>
    rw [h] at heq
    rw [FnTurn.on.inj heq]
  · next heq =>
    rw [h] at heq
    exact nomatch heq

theorem fnmatchFrom_done {fl : FnFlags} {z : Char} {s : FnState} {result : Bool}
    (h : s.turn fl z = .done result) : fnmatchFrom fl z s = result := by
  rw [fnmatchFrom]
  split
  · next heq =>
    rw [h] at heq
    exact nomatch heq
  · next heq =>
    rw [h] at heq
    rw [FnTurn.done.inj heq]

end Shish
