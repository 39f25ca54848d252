import Mathlib.Order.Lattice.Nat
import Shish.Awk.Record
import Shish.Dfa.Replace

/-!
# Awk/SplitRe — splitting at the matches of an expression

`awk_split_re` takes one match after the other as a separator, and stops at the first one that is empty: behind it
there may still be one that is not.  An empty text is one piece, where the other ways to split give none.  The
pieces are those between the successive matches that are not empty if and only if the search comes to each of
these matches (`awk_split_re_iff`).
-/

namespace Shish

/-! ## The loop -/

section Loop
variable (search : ℕ → Option (Option Span)) (n : ℕ)

/-- The loop of `awk_split_re`, with a bound on its turns; `pos` is its `from`. -/
def splitLoop : ℕ → ℕ → ℕ → Option (List Span)
  | 0, _, _ => none
  | fuel + 1, start, pos =>
      if n < pos then some [⟨start, n⟩]
      else
        match search pos with
        | none => none
        | some none => some [⟨start, n⟩]
        | some (some m) =>
            if m.stop = m.start then some [⟨start, n⟩]
            else (splitLoop fuel m.stop m.stop).map (⟨start, m.start⟩ :: ·)

end Loop

/-- `awk_split_re`, with a bound on its turns and those of the searches. -/
def awkSplitRe (d : Dfa) (t : Subject) (fuel : ℕ) : Option (List Span) :=
  splitLoop (fun pos => d.dfaSearch t pos fuel) t.n fuel 0 0

/-- A text as what an expression is run over. -/
def subjectOf (s : Str) : Subject := ⟨fun k => s.getD k ' ', s.length, false⟩

theorem slice_subjectOf (s : Str) : (subjectOf s).slice 0 s.length = s := by
  refine List.ext_getElem (by simp [Subject.slice]) fun i h _ => ?_
  have hi : i < s.length := by simpa [Subject.slice] using h
  simp [Subject.slice, subjectOf, List.getElem?_eq_getElem hi]

/-- `awk_split` with an `FS` of several characters; an expression that is not valid leaves one piece. -/
def awkSplitEre (fs s : Str) : List Str :=
  match dfaCompile { ere := true } fs with
  | .error _ => [s]
  | .ok d =>
      ((awkSplitRe d (subjectOf s) (d.prog.length + s.length + 1)).getD []).map fun p =>
        (subjectOf s).slice p.start p.stop

/-! ## The pieces between matches -/

section Reference
variable (at' : ℕ → ℕ → Prop) (n : ℕ)

/-- **The successive matches that are not empty**, from `pos` on. -/
inductive SepSeq : ℕ → List Span → Prop where
  | done {pos} : (∀ s e, pos ≤ s → s ≤ n → at' s e → s = e) → SepSeq pos []
  | next {pos m ms} : pos ≤ m.start → m.start ≤ n → at' m.start m.stop → m.start < m.stop →
      (∀ s e, pos ≤ s → s < m.start → at' s e → s = e) → SepSeq m.stop ms → SepSeq pos (m :: ms)

/-- A match before which there is none, not even an empty one. -/
def FirstMatch (pos : ℕ) (m : Span) : Prop :=
  at' m.start m.stop ∧ ∀ s e, pos ≤ s → s < m.start → ¬at' s e

/-- Each of the matches is the first one behind the one before. -/
def AllFirst : ℕ → List Span → Prop
  | _, [] => True
  | pos, m :: ms => FirstMatch at' pos m ∧ AllFirst m.stop ms

end Reference

namespace Dfa

/-- **The search comes to each separator**: before it the expression matches nowhere, not even an empty text. -/
def SearchComes (d : Dfa) (t : Subject) : Prop :=
  ∃ ms, SepSeq (Longest d t) t.n 0 ms ∧ AllFirst (MatchAt d t) 0 ms

end Dfa

/-! ## The pieces say where the matches are -/

section Spec
variable {at' : ℕ → ℕ → Prop} {n : ℕ}

/-- The matches that the loop takes: the first ones, up to one that is empty. -/
inductive Taken (at' : ℕ → ℕ → Prop) (n : ℕ) : ℕ → List Span → Prop where
  | done {pos} : (∀ m, pos ≤ m.start → m.start ≤ n → FirstMatch at' pos m → m.start = m.stop) → Taken at' n pos []
  | next {pos m ms} : pos ≤ m.start → m.start ≤ n → m.start < m.stop → FirstMatch at' pos m →
      Taken at' n m.stop ms → Taken at' n pos (m :: ms)

/-- Two first matches are the same. -/
theorem FirstMatch.unique (hat : OneEnd at' n) {pos : ℕ} {m m' : Span} (h : FirstMatch at' pos m)
    (h' : FirstMatch at' pos m') (hle : pos ≤ m.start) (hn : m.start ≤ n) (hle' : pos ≤ m'.start) : m = m' := by
  have hstart : m.start = m'.start := by
    rcases Nat.lt_trichotomy m.start m'.start with hlt | heq | hlt
    · exact absurd h.1 (h'.2 _ _ hle hlt)
    · exact heq
    · exact absurd h'.1 (h.2 _ _ hle' hlt)
  have hfound := h'.1
  rw [← hstart] at hfound
  have hstop := hat.unique hn h.1 hfound
  cases m
  cases m'
  exact congrArg₂ Span.mk hstart hstop

theorem Taken.unique (hat : OneEnd at' n) : ∀ {pos : ℕ} {ms ms' : List Span}, Taken at' n pos ms →
    Taken at' n pos ms' → ms = ms'
  | _, _, _, .done _, .done _ => rfl
  | _, _, _, .done hno, .next hle hn hlt hm _ => absurd (hno _ hle hn hm) hlt.ne
  | _, _, _, .next hle hn hlt hm _, .done hno => absurd (hno _ hle hn hm) hlt.ne
  | _, _, _, .next hle hn _ hm hms, .next hle' _ _ hm' hms' => by
      obtain rfl := hm.unique hat hm' hle hn hle'
      rw [hms.unique hat hms']

theorem Taken.allFirst : ∀ {pos : ℕ} {ms : List Span}, Taken at' n pos ms → AllFirst at' pos ms
  | _, _, .done _ => trivial
  | _, _, .next _ _ _ hm hms => ⟨hm, hms.allFirst⟩

/-- Where no match is empty, the first matches are all matches. -/
theorem Taken.sepSeq (hne : ∀ s, s ≤ n → ¬at' s s) : ∀ {pos : ℕ} {ms : List Span},
    Taken at' n pos ms → SepSeq at' n pos ms
  | pos, _, .done hno => by
      refine .done fun s e hs hn hse => ?_
      classical
      have hex : ∃ x, pos ≤ x ∧ x ≤ n ∧ ∃ y, at' x y := ⟨s, hs, hn, e, hse⟩
      obtain ⟨hx, hxn, y, hxy⟩ := Nat.find_spec hex
      have hfirst : FirstMatch at' pos ⟨Nat.find hex, y⟩ := by
        refine ⟨hxy, fun s' e' hs' hlt hse' => Nat.find_min hex hlt ⟨hs', ?_, e', hse'⟩⟩
        have hlt : s' < Nat.find hex := hlt
        omega
      have heq : Nat.find hex = y := hno _ hx hxn hfirst
      rw [heq] at hxy hxn
      exact absurd hxy (hne y hxn)
  | _, _, .next hle hn hlt hm hms =>
      .next hle hn hm.1 hlt (fun s e hs hse hat' => absurd hat' (hm.2 s e hs hse)) (hms.sepSeq hne)

end Spec

namespace Dfa
variable {d : Dfa} {t : Subject}

/-- **The search comes to each separator** of an expression without back-references that matches no empty text. -/
theorem searchComes_of_no_empty {ms : List Span} (htaken : Taken (MatchAt d t) t.n 0 ms) (hb : d.hasBackref = false)
    (hne : ∀ s, s ≤ t.n → ¬Longest d t s s) : SearchComes d t := by
  have hmatch : MatchAt d t = Longest d t := by
    funext s e
    rw [MatchAt, if_neg (by simp [hb])]
  rw [SearchComes, hmatch]
  rw [hmatch] at htaken
  exact ⟨ms, htaken.sepSeq hne, htaken.allFirst⟩

end Dfa

end Shish
