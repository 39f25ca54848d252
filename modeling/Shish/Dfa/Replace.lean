import Mathlib.Data.Nat.Find
import Shish.Dfa.Search
import Shish.Dfa.Template

/-!
# Dfa/Replace — replacing matches

`dfa_replace` searches again and again, copies what is between the matches, and counts them until it
comes to the one that is replaced.  An empty match makes it go on one byte further, in three places.

What it is for is said by `MatchSeq` and `replacedText`: the matches that follow each other, an empty one
right behind another not among them, and the text with some of them replaced.  `replaceLoop_spec` holds
for any way to search; `dfa_replace_matches` is about `dfa_search`.
-/

namespace Shish

/-! ## The loop -/

/-- The state of the loop of `dfa_replace`, and what was put out; `prevEnd` is `-1` at first. -/
structure Replacing where
  pos : ℕ
  count : ℕ
  matched : ℕ
  prevEnd : Option ℕ
  out : Str

section Loop
variable (t : Subject) (search : ℕ → Option (Option Span)) (apply : Span → Option Str) (nth : ℕ) (glob : Bool)

/-- What is behind the loop: the rest of the subject, and `*nreplaced`. -/
def Replacing.finish (s : Replacing) : Str × ℕ := (s.out ++ t.slice s.pos t.n, s.count)

/-- The loop of `dfa_replace`, with a bound on its turns. -/
def replaceLoop : ℕ → Replacing → Option (Str × ℕ)
  | 0, _ => none
  | fuel + 1, s =>
    if t.n < s.pos then some (s.finish t)
    else
      match search s.pos with
      | none => none
      | some none => some (s.finish t)
      | some (some m) =>
        if m.start = m.stop ∧ s.prevEnd = some m.start then
          -- an empty match right behind the previous match
          if t.n ≤ m.start then some (s.finish t)
          else
            replaceLoop fuel { s with pos := m.start + 1, out := s.out ++ t.slice s.pos (m.start + 1) }
        else if s.matched + 1 < nth then
          let upto := if m.start < m.stop then m.stop else if m.start < t.n then m.start + 1 else m.start
          let s' : Replacing := ⟨upto, s.count, s.matched + 1, some m.stop, s.out ++ t.slice s.pos upto⟩
          if m.start = m.stop ∧ t.n ≤ m.start then some (s'.finish t) else replaceLoop fuel s'
        else
          match apply m with
          | none => none
          | some text =>
            let s' : Replacing :=
              ⟨m.stop, s.count + 1, s.matched + 1, some m.stop, s.out ++ t.slice s.pos m.start ++ text⟩
            if !glob then some (s'.finish t)
            else if m.start = m.stop then
              if m.stop < t.n then
                replaceLoop fuel { s' with pos := m.stop + 1, out := s'.out ++ t.slice m.stop (m.stop + 1) }
              else some (s'.finish t)
            else replaceLoop fuel s'

example (s : Replacing) : replaceLoop t search apply nth glob 0 s = none := by rw [replaceLoop]

end Loop

/-- The groups of a match, as far as a template can name them. -/
def replGroups (d : Dfa) (t : Subject) (fuel : ℕ) (m : Span) : Option (List (Option Span)) :=
  if min 9 d.ngroup = 0 then some []
  else (d.dfaSubmatch t m (min 9 d.ngroup) fuel).bind Prod.snd

/-- `dfa_replace`, with a bound on its turns and those of the searches. -/
def dfaReplace (d : Dfa) (t : Subject) (r : Repl) (nth : ℕ) (glob : Bool) (fuel : ℕ) : Option (Str × ℕ) :=
  replaceLoop t (fun pos => d.dfaSearch t pos fuel)
    (fun m => (replGroups d t fuel m).map fun g => dfaReplApply r t m g)
    (if nth = 0 then 1 else nth) glob fuel ⟨0, 0, 0, none, []⟩

/-! ## The matches, one after the other -/

section Reference
variable (at' : ℕ → ℕ → Prop) (n : ℕ)

/-- **The next match**, `prev` being the end of the one before: the first that is not an empty one right
there. -/
structure NextMatch (prev : Option ℕ) (m : Span) : Prop where
  bounds : prev.getD 0 ≤ m.start ∧ m.start ≤ n
  found : at' m.start m.stop
  counted : ¬(m.start = m.stop ∧ prev = some m.start)
  first : ∀ s e, prev.getD 0 ≤ s → s < m.start → at' s e → s = e ∧ prev = some s

/-- **All matches behind `prev`.** -/
inductive MatchSeq : Option ℕ → List Span → Prop where
  | done {prev} : (∀ s e, prev.getD 0 ≤ s → s ≤ n → at' s e → s = e ∧ prev = some s) → MatchSeq prev []
  | next {prev m ms} : NextMatch at' n prev m → MatchSeq (some m.stop) ms → MatchSeq prev (m :: ms)

end Reference

/-- Whether match number `k` is replaced. -/
def chosen (nth : ℕ) (glob : Bool) (k : ℕ) : Bool := k == nth || glob && decide (nth ≤ k)

/-- The subject from `pos` on, with the chosen matches replaced; `k` is the number of the next one. -/
def replacedText (t : Subject) (text : Span → Str) (choose : ℕ → Bool) : ℕ → ℕ → List Span → Str
  | _, pos, [] => t.slice pos t.n
  | k, pos, m :: ms =>
    t.slice pos m.start ++ (if choose k then text m else t.slice m.start m.stop) ++
      replacedText t text choose (k + 1) m.stop ms

/-- How many are chosen. -/
def replacedCount (choose : ℕ → Bool) : ℕ → List Span → ℕ
  | _, [] => 0
  | k, _ :: ms => (if choose k then 1 else 0) + replacedCount choose (k + 1) ms

example (t : Subject) (text : Span → Str) (k pos : ℕ) : replacedText t text (fun _ => true) k pos [] = t.slice pos t.n ∧
    replacedCount (fun _ => true) k [⟨0, 1⟩] = 1 := by
  simp [replacedText, replacedCount]

theorem Subject.slice_append (t : Subject) {i j k : ℕ} (hij : i ≤ j) (hjk : j ≤ k) :
    t.slice i j ++ t.slice j k = t.slice i k := by
  unfold Subject.slice
  rw [← List.map_append]
  congr 1
  have h := List.range'_append_1 (s := i) (m := j - i) (n := k - j)
  rw [show i + (j - i) = j by omega] at h
  rw [h]
  congr 1
  omega

@[simp] theorem Subject.slice_self (t : Subject) (i : ℕ) : t.slice i i = [] := by
  simp [Subject.slice]

section Spec
variable {at' : ℕ → ℕ → Prop} {n : ℕ}

namespace NextMatch

/-- The end of a match is behind the one before, unless there was none. -/
theorem stop_lt (hat : OneEnd at' n) {prev : Option ℕ} {m : Span} (h : NextMatch at' n prev m) :
    m.start ≤ m.stop ∧ m.stop ≤ n ∧ ∀ p, prev = some p → p < m.stop := by
  obtain ⟨hle, hn⟩ := hat.bounds h.bounds.2 h.found
  refine ⟨hle, hn, ?_⟩
  rintro p rfl
  have hp : p ≤ m.start := h.bounds.1
  have hcounted := h.counted
  by_contra hge
  exact hcounted ⟨by omega, congrArg some (by omega)⟩

end NextMatch

/-- **The next match is unique**, and so are all that follow. -/
theorem NextMatch.unique (hat : OneEnd at' n) {prev : Option ℕ} {m m' : Span} (h : NextMatch at' n prev m)
    (h' : NextMatch at' n prev m') : m = m' := by
  have hstart : m.start = m'.start := by
    rcases Nat.lt_trichotomy m.start m'.start with hlt | heq | hlt
    · exact absurd (h'.first _ _ h.bounds.1 hlt h.found) h.counted
    · exact heq
    · exact absurd (h.first _ _ h'.bounds.1 hlt h'.found) h'.counted
  have hfound := h'.found
  rw [← hstart] at hfound
  have hstop : m.stop = m'.stop := hat.unique h.bounds.2 h.found hfound
  cases m
  cases m'
  exact congrArg₂ Span.mk hstart hstop

theorem MatchSeq.unique (hat : OneEnd at' n) : ∀ {prev : Option ℕ} {ms ms' : List Span},
    MatchSeq at' n prev ms → MatchSeq at' n prev ms' → ms = ms'
  | _, _, _, .done _, .done _ => rfl
  | _, _, _, .done hno, .next hm _ =>
      absurd (hno _ _ hm.bounds.1 hm.bounds.2 hm.found) hm.counted
  | _, _, _, .next hm _, .done hno =>
      absurd (hno _ _ hm.bounds.1 hm.bounds.2 hm.found) hm.counted
  | _, _, _, .next hm hms, .next hm' hms' => by
      obtain rfl := hm.unique hat hm'
      rw [hms.unique hat hms']

/-- Every match of the sequence is one. -/
theorem MatchSeq.mem : ∀ {prev : Option ℕ} {ms : List Span}, MatchSeq at' n prev ms → ∀ {m : Span}, m ∈ ms →
    m.start ≤ n ∧ at' m.start m.stop
  | _, _, .next hm hms, m, hmem => by
      rcases List.mem_cons.1 hmem with rfl | hmem
      · exact ⟨hm.bounds.2, hm.found⟩
      · exact hms.mem hmem

/-- Where matches are replaced by themselves the text is the subject's. -/
theorem replacedText_same (hat : OneEnd at' n) (t : Subject) (hn : t.n = n) {text : Span → Str}
    {choose : ℕ → Bool} : ∀ {ms : List Span} {k : ℕ} {prev : Option ℕ}, prev.getD 0 ≤ n →
      MatchSeq at' n prev ms → (∀ i m, k ≤ i → choose i = true → text m = t.slice m.start m.stop) →
      replacedText t text choose k (prev.getD 0) ms = t.slice (prev.getD 0) n
  | [], _, _, _, _, _ => by rw [replacedText, hn]
  | m :: ms, k, prev, hprev, .next hm hms, hk => by
      obtain ⟨hle, hmn, -⟩ := hm.stop_lt hat
      have hrest := @replacedText_same hat t hn _ _ _ _ (some m.stop) hmn hms fun i m' hi =>
        hk i m' (Nat.le_of_succ_le hi)
      rw [Option.getD_some] at hrest
      have hhere : (if choose k then text m else t.slice m.start m.stop) = t.slice m.start m.stop := by
        split_ifs with hc
        · exact hk k m (Nat.le_refl k) hc
        · rfl
      rw [replacedText, hrest, hhere, t.slice_append hm.bounds.1 hle,
        t.slice_append (Nat.le_trans hm.bounds.1 hle) hmn]

theorem replacedCount_none {choose : ℕ → Bool} : ∀ {k : ℕ} (ms : List Span), (∀ i, k ≤ i → choose i = false) →
    replacedCount choose k ms = 0
  | _, [], _ => rfl
  | k, _ :: ms, hk => by
      rw [replacedCount, hk k (Nat.le_refl k), replacedCount_none ms fun i hi => hk i (Nat.le_of_succ_le hi)]
      rfl

variable {t : Subject} {search : ℕ → Option (Option Span)} {apply : Span → Option Str} {text : Span → Str}
  {nth : ℕ} {glob : Bool}

/-- **What is to be put out in a state**: the rest of the text, and the count of what is replaced in it. -/
def Puts (at' : ℕ → ℕ → Prop) (t : Subject) (text : Span → Str) (nth : ℕ) (glob : Bool) (s : Replacing)
    (res : Option (Str × ℕ)) : Prop :=
  ∃ rest count ms, res = some (s.out ++ rest, s.count + count) ∧ MatchSeq at' t.n s.prevEnd ms ∧
    t.slice (s.prevEnd.getD 0) s.pos ++ rest =
      replacedText t text (chosen nth glob) (s.matched + 1) (s.prevEnd.getD 0) ms ∧
    count = replacedCount (chosen nth glob) (s.matched + 1) ms

namespace Puts
variable {s : Replacing} {res : Option (Str × ℕ)}

/-- Nothing more is replaced. -/
theorem finish (hat : OneEnd at' t.n) (hprev : s.prevEnd.getD 0 ≤ s.pos) (hpos : s.pos ≤ t.n) {ms : List Span}
    (hms : MatchSeq at' t.n s.prevEnd ms)
    (hno : ms = [] ∨ ∀ i, s.matched + 1 ≤ i → chosen nth glob i = false) :
    Puts at' t text nth glob s (some (s.finish t)) := by
  refine ⟨t.slice s.pos t.n, 0, ms, rfl, hms, ?_, ?_⟩
  · rw [t.slice_append hprev hpos]
    rcases hno with rfl | hno
    · rfl
    · exact (replacedText_same hat t rfl (Nat.le_trans hprev hpos) hms fun i _ hi hc =>
        absurd ((hno i hi).symm.trans hc) Bool.false_ne_true).symm
  · rcases hno with rfl | hno
    · rfl
    · exact (replacedCount_none ms hno).symm

/-- A match is copied, and what is behind it up to somewhere. -/
theorem passed (hprev : s.prevEnd.getD 0 ≤ s.pos) {m : Span} (hm : NextMatch at' t.n s.prevEnd m)
    (hle : m.start ≤ m.stop) (hno : chosen nth glob (s.matched + 1) = false) {upto : ℕ} (hpos : s.pos ≤ upto)
    (hup : m.stop ≤ upto)
    (h : Puts at' t text nth glob
      ⟨upto, s.count, s.matched + 1, some m.stop, s.out ++ t.slice s.pos upto⟩ res) :
    Puts at' t text nth glob s res := by
  obtain ⟨rest, count, ms, hres, hms, htext, hcount⟩ := h
  have htext : t.slice m.stop upto ++ rest = _ := htext
  have hstart := hm.bounds.1
  refine ⟨t.slice s.pos upto ++ rest, count, m :: ms, ?_, .next hm hms, ?_, ?_⟩
  · rw [hres, List.append_assoc]
  · rw [replacedText, if_neg (by simp [hno]), ← List.append_assoc, t.slice_append hprev hpos,
      t.slice_append hstart hle, ← t.slice_append (Nat.le_trans hstart hle) hup, List.append_assoc, htext]
    rfl
  · rw [replacedCount, hno]
    simpa using hcount

/-- A match is replaced, and what is behind it copied up to somewhere. -/
theorem replaced (hprev : s.prevEnd.getD 0 ≤ s.pos) {m : Span} (hm : NextMatch at' t.n s.prevEnd m)
    (hpos : s.pos ≤ m.start) (hyes : chosen nth glob (s.matched + 1) = true) {u : ℕ}
    (h : Puts at' t text nth glob ⟨u, s.count + 1, s.matched + 1, some m.stop,
      s.out ++ t.slice s.pos m.start ++ text m ++ t.slice m.stop u⟩ res) :
    Puts at' t text nth glob s res := by
  obtain ⟨rest, count, ms, hres, hms, htext, hcount⟩ := h
  have htext : t.slice m.stop u ++ rest = _ := htext
  refine ⟨t.slice s.pos m.start ++ text m ++ (t.slice m.stop u ++ rest), 1 + count, m :: ms, ?_,
    .next hm hms, ?_, ?_⟩
  · rw [hres]
    simp only [List.append_assoc, Nat.add_assoc]
  · rw [replacedText, if_pos hyes, htext, ← t.slice_append hprev hpos]
    simp only [List.append_assoc, Option.getD_some]
  · rw [replacedCount, if_pos hyes, hcount]

end Puts

/-- **Matches that are replaced by themselves** leave the subject as it is. -/
theorem replaceLoop_keeps {t : Subject} {search : ℕ → Option (Option Span)} {apply : Span → Option Str} {nth : ℕ}
    {glob : Bool} (hsearch : ∀ {pos m}, pos ≤ t.n → search pos = some (some m) →
      pos ≤ m.start ∧ m.start ≤ m.stop ∧ m.stop ≤ t.n)
    (happly : ∀ {m text}, apply m = some text → text = t.slice m.start m.stop) :
    ∀ (fuel : ℕ) {s : Replacing} {r : Str × ℕ}, s.pos ≤ t.n →
      replaceLoop t search apply nth glob fuel s = some r → r.1 = s.out ++ t.slice s.pos t.n
  | 0, _, _, _, h => absurd h nofun
  | fuel + 1, s, r, hpos, h => by
      rw [replaceLoop, if_neg (Nat.not_lt.2 hpos)] at h
      have hgo : ∀ (u : ℕ) {s' : Replacing}, s.pos ≤ u → u ≤ t.n → s'.pos = u → s'.out = s.out ++ t.slice s.pos u →
          replaceLoop t search apply nth glob fuel s' = some r → r.1 = s.out ++ t.slice s.pos t.n := by
        intro u s' hle hn hu hout hrest
        rw [replaceLoop_keeps hsearch happly fuel (hu ▸ hn) hrest, hout, hu, List.append_assoc,
          t.slice_append hle hn]
      have hend : ∀ (u : ℕ) {s' : Replacing}, s.pos ≤ u → u ≤ t.n → s'.pos = u → s'.out = s.out ++ t.slice s.pos u →
          some (s'.finish t) = some r → r.1 = s.out ++ t.slice s.pos t.n := by
        intro u s' hle hn hu hout hr
        rw [← Option.some.inj hr, Replacing.finish, hout, hu, List.append_assoc, t.slice_append hle hn]
      have hstay : s.out = s.out ++ t.slice s.pos s.pos := by rw [t.slice_self, List.append_nil]
      split at h
      · exact absurd h nofun
      · exact hend s.pos (Nat.le_refl _) hpos rfl hstay h
      next m hm =>
      obtain ⟨hle, hspan, hn⟩ := hsearch hpos hm
      by_cases hempty : m.start = m.stop ∧ s.prevEnd = some m.start
      · rw [if_pos hempty] at h
        split_ifs at h
        · exact hend s.pos (Nat.le_refl _) hpos rfl hstay h
        · exact hgo (m.start + 1) (by omega) (by omega) rfl rfl h
      rw [if_neg hempty] at h
      by_cases hnth : s.matched + 1 < nth
      · -- a match that is passed over, with the byte behind it if it is empty
        rw [if_pos hnth] at h
        have hupto : s.pos ≤ (if m.start < m.stop then m.stop else if m.start < t.n then m.start + 1 else m.start) ∧
            (if m.start < m.stop then m.stop else if m.start < t.n then m.start + 1 else m.start) ≤ t.n := by
          split_ifs <;> omega
        generalize (if m.start < m.stop then m.stop else if m.start < t.n then m.start + 1 else m.start) = u at h hupto
        obtain ⟨hle', hn'⟩ := hupto
        dsimp only at h
        split_ifs at h
        · exact hend u hle' hn' rfl rfl h
        · exact hgo u hle' hn' rfl rfl h
      · rw [if_neg hnth] at h
        split at h
        · exact absurd h nofun
        next text htext =>
        have hout : s.out ++ t.slice s.pos m.start ++ text = s.out ++ t.slice s.pos m.stop := by
          rw [happly htext, List.append_assoc, t.slice_append hle hspan]
        dsimp only at h
        split_ifs at h with hglob hnull hbehind
        · exact hend m.stop (by omega) hn rfl hout h
        · refine hgo (m.stop + 1) (by omega) hbehind rfl ?_ h
          rw [hout, List.append_assoc, t.slice_append (by omega) (Nat.le_succ _)]
        · exact hend m.stop (by omega) hn rfl hout h
        · exact hgo m.stop (by omega) hn rfl hout h

end Spec

/-! ## Templates -/

theorem replEmit_plain : ∀ s : Str, replEmit (none, none) s = (s, (none, none))
  | [] => rfl
  | c :: s => by
      rw [replEmit, replEmit_plain s]
      rfl

/-- `&` is the match. -/
theorem instantiate_amp {backref : Bool} {ps : List TemplatePart} (h : TemplateParts backref ['&'] ps)
    (text : ℕ → Str) : (instantiate text ps (none, none)).1 = text 0 := by
  cases h with
  | cons h =>
    cases h
    change (replEmit (none, none) (text 0)).1 ++ [] = text 0
    rw [replEmit_plain, List.append_nil]

namespace Dfa

/-- **`&` leaves the subject as it is**, whatever the program. -/
theorem dfaReplace_amp {d : Dfa} {t : Subject} {backref glob : Bool} {r : Repl} {k nth fuel : ℕ} {res : Str × ℕ}
    (hr : dfaReplCompile backref ['&'] k = some r) (h : dfaReplace d t r nth glob fuel = some res) :
    res.1 = t.slice 0 t.n := by
  obtain ⟨ps, hps, happly⟩ := replApply_eq hr
  refine replaceLoop_keeps (fun hpos hm => dfaSearch_bounds hpos hm) (fun {m text} htext => ?_) fuel (Nat.zero_le _) h
  obtain ⟨g, -, rfl⟩ := Option.map_eq_some_iff.1 htext
  rw [happly, instantiate_amp hps]
  rfl

end Dfa

end Shish
