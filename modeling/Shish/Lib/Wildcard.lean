import Mathlib.Data.List.Forall2
import Mathlib.Tactic.Linarith

/-!
# Lib/Wildcard — patterns with stars, and why one bookmark is enough

A token of a pattern takes one character or is a star, which takes a run of them; `WildMatches` is
the language of a pattern.  A matcher that remembers only the star it met last tries the matches that
are `Live`: the rest of the pattern here, or that star with more characters.

Some characters are walls, which no star takes, and every token takes walls only or none.  Then a
star behind another one finds whatever the other could have found by taking more (`nearer_star`), and
the matches stay live when the bookmark is replaced (`live_star`).
-/

namespace Shish

variable {α : Type*}

/-- A token takes one character, depending on the one in front of it, or is a star. -/
inductive Wild (α : Type*) where
  | one (p : Option α → α → Prop)
  | star

/-- Where a star may stand, behind a character and in front of the rest, and what it may take. -/
structure StarRules (α : Type*) where
  stand : Option α → List α → Prop
  takes : Option α → α → Prop

/-- A run of characters that a star takes. -/
def StarRules.Run (R : StarRules α) : Option α → List α → Prop
  | _, [] => True
  | prev, c :: u => R.takes prev c ∧ R.Run (some c) u

/-- The character in front of what follows `u`. -/
def lastOf (prev : Option α) : List α → Option α
  | [] => prev
  | c :: u => lastOf (some c) u

/-- **The language of a pattern.** -/
inductive WildMatches (R : StarRules α) : List (Wild α) → Option α → List α → Prop where
  | nil {prev} : WildMatches R [] prev []
  | one {p ts prev c s} : p prev c → WildMatches R ts (some c) s → WildMatches R (.one p :: ts) prev (c :: s)
  | star {ts prev} (u : List α) {w : List α} : R.stand prev (u ++ w) → R.Run prev u →
      WildMatches R ts (lastOf prev u) w → WildMatches R (.star :: ts) prev (u ++ w)

/-- A piece of the pattern without stars takes just these characters. -/
def PieceFits : List (Wild α) → Option α → List α → Prop
  | [], _, [] => True
  | .one p :: X, prev, c :: x => p prev c ∧ PieceFits X (some c) x
  | _, _, _ => False

/-- No star takes a wall; behind any other character a star may stand, and take what is no wall. -/
structure StarRules.Walled (R : StarRules α) (wall : α → Prop) : Prop where
  takes_wall : ∀ {prev c}, R.takes prev c → ¬ wall c
  takes_behind : ∀ {c d}, ¬ wall d → ¬ wall c → R.takes (some d) c
  takes_stand : ∀ {prev c s}, R.stand prev (c :: s) → ¬ wall c → R.takes prev c
  stand_behind : ∀ {d s}, ¬ wall d → R.stand (some d) s
  stand_nil : ∀ {prev}, R.stand prev []

/-- The token takes walls only, or none. -/
def Wild.Uniform (wall : α → Prop) : Wild α → Prop
  | .one p => ∀ prev prev' c c', p prev c → p prev' c' → (wall c ↔ wall c')
  | .star => True

variable {R : StarRules α} {wall : α → Prop} {ts X : List (Wild α)} {prev pb : Option α}
  {s u v w x y sb : List α} {c d : α}

/-! ## Runs and pieces -/

theorem lastOf_append (prev : Option α) (u v : List α) : lastOf prev (u ++ v) = lastOf (lastOf prev u) v := by
  induction u generalizing prev with
  | nil => rfl
  | cons c u ih => exact ih (some c)

theorem run_append : R.Run prev (u ++ v) ↔ R.Run prev u ∧ R.Run (lastOf prev u) v := by
  induction u generalizing prev with
  | nil => exact (and_iff_right trivial).symm
  | cons c u ih =>
    rw [List.cons_append, StarRules.Run, StarRules.Run, ih, and_assoc]
    rfl

theorem not_wall_of_run (hR : R.Walled wall) (h : R.Run prev u) : ∀ c ∈ u, ¬ wall c := by
  induction u generalizing prev with
  | nil => exact fun _ hc => absurd hc List.not_mem_nil
  | cons d u ih => exact List.forall_mem_cons.2 ⟨hR.takes_wall h.1, ih h.2⟩

/-- Behind a character that is no wall. -/
theorem run_behind (hR : R.Walled wall) (hd : ¬ wall d) (hu : ∀ c ∈ u, ¬ wall c) : R.Run (some d) u := by
  induction u generalizing d with
  | nil => trivial
  | cons c u ih =>
    rw [List.forall_mem_cons] at hu
    exact ⟨hR.takes_behind hd hu.1, ih hu.1 hu.2⟩

theorem PieceFits.length (h : PieceFits X prev x) : x.length = X.length := by
  induction X generalizing prev x with
  | nil =>
    cases x with
    | nil => rfl
    | cons => exact h.elim
  | cons t X ih =>
    cases t with
    | star => cases x <;> exact h.elim
    | one p =>
      cases x with
      | nil => exact h.elim
      | cons c x => rw [List.length_cons, List.length_cons, ih h.2]

theorem PieceFits.concat {p : Option α → α → Prop} (h : PieceFits X prev x) (hp : p (lastOf prev x) c) :
    PieceFits (X ++ [.one p]) prev (x ++ [c]) := by
  induction X generalizing prev x with
  | nil =>
    cases x with
    | nil => exact ⟨hp, trivial⟩
    | cons => exact h.elim
  | cons t X ih =>
    cases t with
    | star => cases x <;> exact h.elim
    | one q =>
      cases x with
      | nil => exact h.elim
      | cons d x => exact ⟨h.1, ih h.2 hp⟩

/-- What a piece in front takes is split off. -/
theorem WildMatches.split (h : PieceFits X pb x) : ∀ {prev w}, WildMatches R (X ++ ts) prev w →
    ∃ x' w', w = x' ++ w' ∧ PieceFits X prev x' ∧ WildMatches R ts (lastOf prev x') w' := by
  induction X generalizing pb x with
  | nil => exact fun {prev w} hw => ⟨[], w, rfl, trivial, hw⟩
  | cons t X ih =>
    cases t with
    | star => cases x <;> exact h.elim
    | one p =>
      cases x with
      | nil => exact h.elim
      | cons d x =>
        intro prev w hw
        cases hw with
        | one hp hw =>
          obtain ⟨x', w', rfl, hx', hw'⟩ := ih h.2 hw
          exact ⟨_ :: x', w', rfl, ⟨hp, hx'⟩, hw'⟩

/-- Two places a piece fits at have their walls in the same positions. -/
theorem PieceFits.walls (hX : ∀ t ∈ X, t.Uniform wall) {prev' : Option α} {x' : List α} (h : PieceFits X prev x)
    (h' : PieceFits X prev' x') : List.Forall₂ (fun c d => wall c ↔ wall d) x x' := by
  induction X generalizing prev prev' x x' with
  | nil =>
    cases x with
    | cons => exact h.elim
    | nil =>
      cases x' with
      | cons => exact h'.elim
      | nil => exact .nil
  | cons t X ih =>
    rw [List.forall_mem_cons] at hX
    cases t with
    | star => cases x <;> exact h.elim
    | one p =>
      cases x with
      | nil => exact h.elim
      | cons c x =>
        cases x' with
        | nil => exact h'.elim
        | cons c' x' => exact .cons (hX.1 _ _ _ _ h.1 h'.1) (ih hX.2 h.2 h'.2)

/-- **A piece that fits again further on has no walls** when there is none in between. -/
theorem no_walls {x' : List α} (hwalls : List.Forall₂ (fun c d => wall c ↔ wall d) x x')
    (hsplit : x ++ y = u ++ x') (hu : u ≠ []) (hnone : ∀ c ∈ u, ¬ wall c) : ∀ c ∈ u ++ x', ¬ wall c := by
  have hlen := hwalls.length_eq
  have hpos := List.length_pos_iff.2 hu
  have hx' : ∀ i (hi : i < x'.length), ¬ wall x'[i] := by
    intro i
    induction i using Nat.strong_induction_on with
    | _ i ih =>
      intro hi hwall
      have hx : i < x.length := by omega
      have hwx : wall x[i] := (List.forall₂_iff_get.1 hwalls |>.2 i hx hi).2 hwall
      have hi' : i < (u ++ x').length := by
        rw [List.length_append]
        omega
      have heq : x[i] = (u ++ x')[i] := by
        have hxy : i < (x ++ y).length := hsplit ▸ hi'
        rw [← List.getElem_append_left hx]
        exact List.getElem_of_eq hsplit hxy
      rw [heq] at hwx
      by_cases hiu : i < u.length
      · rw [List.getElem_append_left hiu] at hwx
        exact hnone _ (List.getElem_mem hiu) hwx
      · rw [List.getElem_append_right (Nat.le_of_not_lt hiu)] at hwx
        exact ih (i - u.length) (by omega) (by omega) hwx
  intro c hc
  rcases List.mem_append.1 hc with hc | hc
  · exact hnone c hc
  · obtain ⟨i, hi, rfl⟩ := List.getElem_of_mem hc
    exact hx' i hi

/-! ## The nearer star -/

/-- **The nearer star is enough.**  What an earlier star finds by taking more is also found by the star
at hand: the pieces in between fit at both places, so the star at hand can take what lies between. -/
theorem nearer_star (hR : R.Walled wall) (hX : ∀ t ∈ X, t.Uniform wall) (hx : PieceFits X pb x)
    (hsplit : x ++ s = u ++ w) (hu : u ≠ []) (hrun : R.Run pb u)
    (hm : WildMatches R (X ++ .star :: ts) (lastOf pb u) w) (hstand : R.stand (lastOf pb x) s) :
    WildMatches R (.star :: ts) (lastOf pb x) s := by
  obtain ⟨x', w', rfl, hx', hm'⟩ := hm.split hx
  have hlen : x'.length = x.length := hx'.length.trans hx.length.symm
  obtain ⟨y, hy, rfl⟩ : ∃ y, x ++ y = u ++ x' ∧ s = y ++ w' := by
    rw [← List.append_assoc] at hsplit
    rcases List.append_eq_append_iff.1 hsplit with ⟨y, hy, hs⟩ | ⟨y, hy, hs⟩
    · exact ⟨y, hy.symm, hs⟩
    · have hle := congrArg List.length hy
      rw [List.length_append, List.length_append] at hle
      have := List.length_pos_iff.2 hu
      omega
  have hlast : lastOf (lastOf pb x) y = lastOf (lastOf pb u) x' := by
    rw [← lastOf_append, hy, lastOf_append]
  have hruny : R.Run (lastOf pb x) y := by
    cases X with
    | nil =>
      obtain rfl : x = [] := List.eq_nil_of_length_eq_zero hx.length
      obtain rfl : x' = [] := List.eq_nil_of_length_eq_zero hlen
      rw [List.nil_append, List.append_nil] at hy
      rw [hy]
      exact hrun
    | cons t X =>
      have hnone := no_walls (hx.walls hX hx') hy hu (not_wall_of_run hR hrun)
      rw [← hy] at hnone
      have hxne : x ≠ [] := by
        rw [← List.length_pos_iff, hx.length]
        exact Nat.succ_pos _
      obtain ⟨x₀, d, rfl⟩ := (List.eq_nil_or_concat' x).resolve_left hxne
      rw [lastOf_append]
      exact run_behind hR (hnone d (by simp)) fun c hc => hnone c (List.mem_append_right _ hc)
  cases hm' with
  | star v hs hv hts =>
    rw [← List.append_assoc] at hstand ⊢
    refine .star (y ++ v) hstand ?_ ?_
    · rw [run_append, hlast]
      exact ⟨hruny, hv⟩
    · rwa [lastOf_append, hlast]

/-- Two stars are one. -/
theorem wildMatches_star_star (hstand : R.stand prev s) :
    WildMatches R (.star :: .star :: ts) prev s ↔ WildMatches R (.star :: ts) prev s := by
  constructor
  · intro h
    cases h with
    | star u hs hu h =>
      cases h with
      | star v hs' hv h =>
        rw [← List.append_assoc] at hstand ⊢
        exact .star (u ++ v) hstand (run_append.2 ⟨hu, hv⟩) (by rwa [lastOf_append])
  · intro h
    exact .star [] hstand trivial h

/-! ## The bookmark -/

/-- The pattern behind the star that was met last, and where what it has not taken begins. -/
abbrev Bookmark (α : Type*) := Option (List (Wild α) × Option α × List α)

/-- The star of the bookmark takes more. -/
def Bookmark.More (R : StarRules α) : Bookmark α → Prop
  | none => False
  | some (tb, pb, sb) => ∃ u w, u ≠ [] ∧ sb = u ++ w ∧ R.Run pb u ∧ WildMatches R tb (lastOf pb u) w

/-- **There is still a match to be found**: here, or with more for the bookmark's star. -/
def Live (R : StarRules α) (ts : List (Wild α)) (prev : Option α) (s : List α) (bm : Bookmark α) : Prop :=
  WildMatches R ts prev s ∨ bm.More R

/-- The bookmark's pattern and text lead here without another star. -/
def Bookmark.LeadsTo (wall : α → Prop) (ts : List (Wild α)) (prev : Option α) (s : List α) : Bookmark α → Prop
  | none => True
  | some (tb, pb, sb) => ∃ X x, tb = X ++ ts ∧ sb = x ++ s ∧ PieceFits X pb x ∧ prev = lastOf pb x ∧
      ∀ t ∈ X, t.Uniform wall

theorem Bookmark.LeadsTo.one {p : Option α → α → Prop} {bm : Bookmark α}
    (h : bm.LeadsTo wall (.one p :: ts) prev (c :: s)) (hp : p prev c)
    (huniform : (Wild.one p).Uniform wall) : bm.LeadsTo wall ts (some c) s := by
  cases bm with
  | none => trivial
  | some b =>
    obtain ⟨X, x, htb, hsb, hx, rfl, hX⟩ := h
    refine ⟨X ++ [.one p], x ++ [c], by rw [htb]; simp, by rw [hsb]; simp, hx.concat hp, ?_, ?_⟩
    · rw [lastOf_append]
      rfl
    · exact List.forall_mem_append.2 ⟨hX, List.forall_mem_singleton.2 huniform⟩

theorem Bookmark.leadsTo_self : Bookmark.LeadsTo wall ts prev s (some (ts, prev, s)) :=
  ⟨[], [], rfl, rfl, trivial, rfl, fun _ h => absurd h List.not_mem_nil⟩

theorem more_self (hstand : R.stand prev s) :
    Live R ts prev s (some (ts, prev, s)) ↔ WildMatches R (.star :: ts) prev s := by
  constructor
  · rintro (h | ⟨u, w, -, rfl, hu, h⟩)
    · exact .star [] hstand trivial h
    · exact .star u hstand hu h
  · intro h
    cases h with
    | star u hs hu h =>
      cases u with
      | nil => exact .inl h
      | cons c u => exact .inr ⟨c :: u, _, List.cons_ne_nil c u, rfl, hu, h⟩

/-- **A star replaces the bookmark**, and no match is lost. -/
theorem live_star (hR : R.Walled wall) {bm : Bookmark α} (hbm : bm.LeadsTo wall (.star :: ts) prev s)
    (hstand : R.stand prev s) :
    Live R (.star :: ts) prev s bm ↔ Live R ts prev s (some (ts, prev, s)) := by
  rw [more_self hstand, Live, or_iff_left_iff_imp]
  intro hmore
  cases bm with
  | none => exact hmore.elim
  | some b =>
    obtain ⟨X, x, htb, hsb, hx, rfl, hX⟩ := hbm
    obtain ⟨u, w, hu, hsb', hrun, hm⟩ := hmore
    rw [htb] at hm
    exact nearer_star hR hX hx (hsb.symm.trans hsb') hu hrun hm hstand

/-- **A dead end, and the bookmark's star takes one more.** -/
theorem live_retry {tb : List (Wild α)} (hdead : ¬ WildMatches R ts prev s) (hc : R.takes pb c) :
    Live R ts prev s (some (tb, pb, c :: sb)) ↔ Live R tb (some c) sb (some (tb, some c, sb)) := by
  rw [Live, or_iff_right hdead]
  constructor
  · rintro ⟨u, w, hu, heq, hrun, h⟩
    cases u with
    | nil => exact absurd rfl hu
    | cons d u =>
      obtain ⟨rfl, rfl⟩ := List.cons.inj heq
      cases u with
      | nil => exact .inl h
      | cons e u => exact .inr ⟨e :: u, w, List.cons_ne_nil e u, rfl, hrun.2, h⟩
  · rintro (h | ⟨u, w, -, rfl, hrun, h⟩)
    · exact ⟨[c], sb, List.cons_ne_nil c [], rfl, ⟨hc, trivial⟩, h⟩
    · exact ⟨c :: u, w, List.cons_ne_nil c u, rfl, ⟨hc, hrun⟩, h⟩

/-- The star can take no more. -/
theorem not_more_of_head {tb : List (Wild α)} (h : ∀ c ∈ sb.head?, ¬ R.takes pb c) :
    ¬ Bookmark.More R (some (tb, pb, sb)) := by
  rintro ⟨u, w, hu, rfl, hrun, -⟩
  obtain ⟨c, u, rfl⟩ := List.exists_cons_of_ne_nil hu
  exact h c rfl hrun.1

end Shish
