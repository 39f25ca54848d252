import Mathlib.Logic.Relation
import Shish.Path.Bracket

/-!
# Path/Inside — what `path_fnmatch` reads, and what it takes for a bracket expression

A `[` is one of a bracket expression when `path_fnmatch_has_close` finds a `]` for it; the scan of the
members then has to find one too, or it runs to the end of the pattern, and in a negated bracket
expression looks at the byte behind it.  Along a run all of whose bracket expressions are `Regular`,
no turn depends on that byte (`path_fnmatch_inside`).  The byte in front of the string is only looked
at when a character has been taken, in any run.
-/

namespace Shish

/-! ## The pattern -/

/-- What is behind the `[` and the `!`. -/
def behindOpen (ps : Str) : Str := if ps.head? = some '!' then ps.drop 1 else ps

/-- **What has the three loops agree**: the members are in step, and the first one is no trap. -/
def Regular (noescape : Bool) (ps : Str) : Prop :=
  ∃ ms out, Members noescape true (behindOpen ps) ms out ∧ FirstSteps noescape out.isSome (behindOpen ps)

variable {noescape : Bool} {ps t : Str} {c p z : Char} {fl : FnFlags} {s s' : FnState}

theorem Regular.hasClose_iff (h : Regular noescape ps) (c : Char) :
    hasClose noescape ps = true ↔ (scanEnd noescape c true (behindOpen ps)).isSome = true := by
  obtain ⟨ms, out, hms, hfirst⟩ := h
  rw [scanEnd_members hms]
  exact hasCloseGo_first hms hfirst

theorem subexprGo_le (delim : Char) (l : Str) (i : ℕ) : subexprGo delim i l ≤ i + l.length := by
  induction l generalizing i with
  | nil => exact Nat.zero_le _
  | cons a l ih =>
    cases l with
    | nil => exact Nat.zero_le _
    | cons b t =>
      rw [subexprGo]
      have := ih (i + 1)
      simp only [List.length_cons] at this ⊢
      split_ifs <;> omega

/-- A class or symbol lies inside the pattern. -/
theorem subexprLen_le (l : Str) (delim : Char) : subexprLen l delim ≤ l.length := by
  match l with
  | [] => exact Nat.le_refl _
  | [_] => exact Nat.zero_le _
  | _ :: _ :: l =>
    have h := subexprGo_le delim l 2
    rw [List.length_cons, List.length_cons]
    exact h.trans_eq (Nat.add_comm ..)

/-- The second end of a range is a byte of the pattern. -/
theorem rangeEnd_inside {l : Str} {e : Char} {k : ℕ} (h : rangeEnd l = some (e, k)) : e ∈ l ∧ k ≤ l.length := by
  match l with
  | [] => exact nomatch h
  | [_] => exact nomatch h
  | m :: b :: t =>
    rw [rangeEnd] at h
    dsimp only at h
    split_ifs at h with hdash hsub hlen
    · have hle := subexprLen_le (b :: t) (t.headD '.')
      obtain ⟨rfl, rfl⟩ := Prod.mk.inj (Option.some.inj h)
      rw [not_or, not_not] at hlen
      have hlt : 3 < (m :: b :: t).length := by
        rw [List.length_cons]
        omega
      refine ⟨?_, by rw [List.length_cons]; omega⟩
      rw [List.getD_eq_getElem?_getD, List.getElem?_eq_getElem hlt]
      exact List.getElem_mem hlt
    · obtain ⟨rfl, rfl⟩ := Prod.mk.inj (Option.some.inj h)
      exact ⟨List.mem_cons_of_mem _ List.mem_cons_self, Nat.succ_le_succ (Nat.succ_le_succ (Nat.zero_le _))⟩

/-! ## Turns -/

namespace FnState

/-- The byte in front of the string is read. -/
def looksBack (fl : FnFlags) (s : FnState) (c p : Char) (ps : Str) : Bool :=
  c == '.' && p != '.' && fl.period && !(p == '\\' && !fl.noescape && ps.head? == some '.') &&
    s.notfirst && fl.pathname

/-- **What a turn keeps to**: it does not depend on what is behind the pattern, it reads in front of the
string only what it has taken, and takes for a bracket expression what is closed. -/
structure Inside (fl : FnFlags) (z : Char) (s : FnState) : Prop where
  behind : ∀ z', s.turn fl z' = s.turn fl z
  before : ∀ c t p ps, s.string = c :: t → s.pattern = p :: ps → s.looksBack fl c p ps = true → s.prev ≠ none
  close : ∀ c ps, s.pattern = '[' :: ps →
    (hasClose fl.noescape ps = true ↔ (scanEnd fl.noescape c true (behindOpen ps)).isSome = true)
  literal : ∀ c t ps, s.string = c :: t → s.pattern = '[' :: ps → s.hidden fl c '[' ps = false →
    scanEnd fl.noescape c true (behindOpen ps) = none →
    s.turn fl z = { s with notfirst := true }.literal fl c t ('[' :: ps)

/-- Where `NOTFIRST` is set before a character is taken, no leading period is there. -/
structure Quiet (fl : FnFlags) (s : FnState) : Prop where
  started : s.star ≠ none → s.notfirst = true
  still : s.prev = none → s.notfirst = true → ∀ c ∈ s.string.head?, ¬ (c = '.' ∧ fl.period = true)

theorem turn_behind (h : ∀ ps, s.pattern = '[' :: ps → Regular fl.noescape ps) (z z' : Char) :
    s.turn fl z' = s.turn fl z := by
  have hscan : ∀ {neg c ps}, s.pattern = '[' :: ps → hasClose fl.noescape ps ≠ false →
      bracketScan fl.noescape neg z' c true (behindOpen ps) = bracketScan fl.noescape neg z c true (behindOpen ps) := by
    intro neg c ps hpattern hclose
    obtain ⟨ms, out, hms, hfirst⟩ := h ps hpattern
    have hout := (hasCloseGo_first hms hfirst).1 (Bool.eq_true_of_not_eq_false hclose)
    obtain ⟨rest, rfl⟩ := Option.isSome_iff_exists.1 hout
    rw [bracketScan_members hms rfl hms.ne_nil, bracketScan_members hms rfl hms.ne_nil]
  unfold turn
  split
  · rfl
  next c t hstring =>
  split
  · rfl
  next p ps hpattern =>
  by_cases hbracket : p = '[' ∧ hasClose fl.noescape ps ≠ false
  · obtain ⟨rfl, hclose⟩ := hbracket
    have hmembers : (if (ps.head? == some '!') = true then ps.drop 1 else ps) = behindOpen ps := by
      simp only [beq_iff_eq]
      rfl
    dsimp only
    rw [hmembers, hscan hpattern hclose]
  · split_ifs with hhidden hopen hclose hslash
    all_goals try rfl
    exact absurd ⟨hopen, hclose⟩ hbracket

theorem Quiet.turn (h : s.Quiet fl) (hon : s.turn fl z = .on s') : s'.Quiet fl := by
  rcases turn_cases hon with ⟨n, hn, hon⟩ | ⟨c, t, rest, -, -, rfl⟩ | ⟨c, t, ps, hstring, -, hhidden, rfl⟩
  · unfold FnState.fail at hon
    split at hon
    · next hstar =>
      split_ifs at hon
      obtain rfl := FnTurn.on.inj hon
      refine ⟨fun _ => ?_, fun h => nomatch h⟩
      have := h.started (by rw [show s.star = _ from hstar]; exact Option.some_ne_none _)
      exact hn.elim (·.trans this) id
    · exact nomatch hon
  · exact ⟨fun _ => rfl, fun h => nomatch h⟩
  · refine ⟨fun _ => rfl, fun hprev _ d hd hdot => hhidden ?_⟩
    rw [hstring] at hd
    obtain rfl := Option.some.inj hd
    have hfirst : s.notfirst = false := by
      by_contra hn
      refine h.still hprev (Bool.eq_true_of_not_eq_false hn) c ?_ hdot
      rw [hstring]
      rfl
    obtain ⟨rfl, hperiod⟩ := hdot
    simp [hidden, hperiod, hfirst]

theorem before_of_quiet (h : s.Quiet fl) : ∀ c t p ps, s.string = c :: t → s.pattern = p :: ps →
    s.looksBack fl c p ps = true → s.prev ≠ none := by
  intro c t p ps hstring _ hlooks hprev
  simp only [looksBack, Bool.and_eq_true, beq_iff_eq] at hlooks
  refine h.still hprev hlooks.1.2 c ?_ ⟨hlooks.1.1.1.1.1, hlooks.1.1.1.2⟩
  rw [hstring]
  rfl

/-- A `[` that nothing closes stands for itself. -/
theorem turn_unclosed {c : Char} (hstring : s.string = c :: t) (hpattern : s.pattern = '[' :: ps)
    (hhidden : s.hidden fl c '[' ps = false) (hclose : hasClose fl.noescape ps = false) :
    s.turn fl z = { s with notfirst := true }.literal fl c t ('[' :: ps) := by
  unfold turn
  split
  · next hnil => cases hnil.symm.trans hstring
  next d u hstring' =>
  obtain ⟨rfl, rfl⟩ := List.cons.inj (hstring'.symm.trans hstring)
  split
  · next hnil => cases hnil.symm.trans hpattern
  next p qs hpattern' =>
  obtain ⟨rfl, rfl⟩ := List.cons.inj (hpattern'.symm.trans hpattern)
  rw [if_neg (hhidden ▸ Bool.false_ne_true)]
  dsimp only
  rw [if_pos rfl, if_pos hclose]

end FnState

/-- The turns from the beginning lead here. -/
def Reached (fl : FnFlags) (z : Char) (pattern string : Str) : FnState → Prop :=
  Relation.ReflTransGen (fun s s' => s.turn fl z = .on s') { pattern, string }

theorem Reached.quiet {pattern string : Str} (h : Reached fl z pattern string s) : s.Quiet fl := by
  induction h with
  | refl => exact ⟨fun h => absurd rfl h, fun _ h => Bool.noConfusion h⟩
  | tail _ hturn ih => exact ih.turn hturn

/-- **Along a run whose bracket expressions are regular `path_fnmatch` reads what it is given**, and
matches a `[` that nothing closes as itself. -/
theorem path_fnmatch_inside (fl : FnFlags) (z : Char) (pattern string : Str) :
    (∀ l delim, subexprLen l delim ≤ l.length) ∧
      (∀ l e k, rangeEnd l = some (e, k) → e ∈ l ∧ k ≤ l.length) ∧
      (∀ noescape ps c, Regular noescape ps →
        (hasClose noescape ps = true ↔ (scanEnd noescape c true (behindOpen ps)).isSome = true)) ∧
      ((∀ s, Reached fl z pattern string s → ∀ ps, s.pattern = '[' :: ps → Regular fl.noescape ps) →
        ∀ s, Reached fl z pattern string s → s.Inside fl z) := by
  refine ⟨subexprLen_le, fun _ _ _ => rangeEnd_inside, fun _ _ c h => h.hasClose_iff c, fun hregular s hs => ?_⟩
  refine ⟨fun z' => FnState.turn_behind (hregular s hs) z z', FnState.before_of_quiet hs.quiet,
    fun c ps hpattern => (hregular s hs ps hpattern).hasClose_iff c, fun c t ps hstring hpattern hhidden hopen => ?_⟩
  refine FnState.turn_unclosed hstring hpattern hhidden ?_
  rw [← Bool.not_eq_true, (hregular s hs ps hpattern).hasClose_iff c, hopen]
  exact Bool.false_ne_true

theorem path_fnmatch_inside_member :
    FnState.Inside ⟨false, false, false⟩ '\x00' { pattern := ['[', 'a', ']'], string := ['b'] } := by
  refine (path_fnmatch_inside ⟨false, false, false⟩ '\x00' ['[', 'a', ']'] ['b']).2.2.2 (fun s hs ps hpattern => ?_) _ .refl
  have hplain : Plain false true 'a' [']'] := plain_of_ne (by decide) (by decide) (by decide)
  have hregular : Regular false ['a', ']'] :=
    ⟨_, _, .char hplain rfl .close, firstSteps_of_ne (by decide) (by decide)⟩
  have hclose : hasClose false ['a', ']'] = true := by
    simp [hasClose, hasCloseGo, subLen]
  have hscan : bracketScan false false '\x00' 'b' true ['a', ']'] = none := by
    simp [bracketScan, bracketMember, rangeEnd]
  have hturn : FnState.turn ⟨false, false, false⟩ '\x00' { pattern := ['[', 'a', ']'], string := ['b'] } = .done false := by
    simp [FnState.turn, FnState.hidden, FnState.fail, hclose, hscan]
  rcases Relation.ReflTransGen.cases_head hs with rfl | ⟨s', hon, -⟩
  · obtain rfl := (List.cons.inj hpattern).2
    exact hregular
  · cases hturn.symm.trans hon

/-- In `[!\]` the escaped `]` counts as the end, and the byte behind the pattern is read; in `[[:alpha:]` the
class's does, and `[` does not match itself. -/
theorem has_close_first_member :
    (hasClose false ['!', '\\', ']'] = true ∧ scanEnd false 'a' true (behindOpen ['!', '\\', ']']) = none ∧
      pathFnmatch ⟨false, false, false⟩ ']' ['[', '!', '\\', ']'] ['a'] = true ∧
      pathFnmatch ⟨false, false, false⟩ 'x' ['[', '!', '\\', ']'] ['a'] = false) ∧
    hasClose false "[:alpha:]".toList = true ∧ scanEnd false 'a' true (behindOpen "[:alpha:]".toList) = none := by
  have hclose : hasClose false ['!', '\\', ']'] = true := by
    simp [hasClose, hasCloseGo, subLen]
  have hclose' : hasClose false "[:alpha:]".toList = true := by
    simp [hasClose, hasCloseGo, subLen]
  have hhit : bracketScan false true ']' 'a' true ['\\', ']'] = some [] := by
    simp [bracketScan, bracketMember, skipMembers]
  have hmiss : bracketScan false true 'x' 'a' true ['\\', ']'] = none := by
    simp [bracketScan, bracketMember]
  refine ⟨⟨hclose, by simp [scanEnd, behindOpen, bracketMember], ?_, ?_⟩, hclose', ?_⟩
  · have hturn : FnState.turn ⟨false, false, false⟩ ']' ⟨['[', '!', '\\', ']'], ['a'], none, false, none⟩ =
        .on ⟨[], [], some 'a', true, none⟩ := by
      simp [FnState.turn, FnState.hidden, FnState.take, hclose, hhit]
    exact (fnmatchFrom_on hturn).trans (fnmatchFrom_done rfl)
  · refine fnmatchFrom_done ?_
    simp [FnState.turn, FnState.hidden, FnState.fail, hclose, hmiss]
  · simp [scanEnd, behindOpen, bracketMember, subLen, opensSub, subexprLen, subexprGo]

end Shish
