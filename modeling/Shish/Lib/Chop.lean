import Mathlib.Data.List.Basic
import Mathlib.Tactic.Linarith

/-!
# Lib/Chop — a list cut behind every `k`-th marked element

`chop p k l` cuts `l` behind each `k`-th element with the mark `p`.  Two marks are compared: the pieces of `e` are
`k` pieces of `t` each if and only if the two marks agree in all pieces but the last (`chop_groups`).
-/

namespace Shish

variable {α : Type} (p : α → Bool) (k : ℕ)

/-- What stands before and behind the cut. -/
def splitAfter : ℕ → List α → List α × List α
  | _, [] => ([], [])
  | n, a :: l =>
      if p a ∧ n ≤ 1 then ([a], l)
      else
        let r := splitAfter (if p a then n - 1 else n) l
        (a :: r.1, r.2)

variable {p} in
theorem length_splitAfter (n : ℕ) (a : α) (l : List α) : (splitAfter p n (a :: l)).2.length < (a :: l).length := by
  induction l generalizing n a with
  | nil =>
    rw [splitAfter]
    split_ifs <;> simp [splitAfter]
  | cons b l ih =>
    rw [splitAfter]
    split_ifs
    · simp
    · exact Nat.lt_succ_of_lt (ih _ b)
    · exact Nat.lt_succ_of_lt (ih _ b)

/-- **The pieces.** -/
def chop : List α → List (List α)
  | [] => []
  | a :: l => (splitAfter p k (a :: l)).1 :: chop (splitAfter p k (a :: l)).2
termination_by l => l.length
decreasing_by exact length_splitAfter k a l

/-- `a` in front of the first piece. -/
def consHead (a : α) : List (List α) → List (List α)
  | [] => [[a]]
  | g :: gs => (a :: g) :: gs

variable {p k}

/-! ## One cut -/

theorem splitAfter_append (n : ℕ) (l : List α) : (splitAfter p n l).1 ++ (splitAfter p n l).2 = l := by
  induction l generalizing n with
  | nil => rfl
  | cons a l ih =>
    rw [splitAfter]
    split_ifs
    · rfl
    · exact congrArg (a :: ·) (ih _)
    · exact congrArg (a :: ·) (ih _)

theorem splitAfter_ne_nil (n : ℕ) (a : α) (l : List α) : (splitAfter p n (a :: l)).1 ≠ [] := by
  rw [splitAfter]
  split_ifs <;> exact List.cons_ne_nil _ _

/-- A cut with something behind it is behind the `n`-th marked element. -/
theorem splitAfter_full {n : ℕ} (hn : 0 < n) {l : List α} (h : (splitAfter p n l).2 ≠ []) :
    (splitAfter p n l).1.countP p = n ∧ ∃ q x, (splitAfter p n l).1 = q ++ [x] ∧ p x = true := by
  induction l generalizing n with
  | nil => exact absurd rfl h
  | cons a l ih =>
    by_cases hcut : p a ∧ n ≤ 1
    · rw [splitAfter, if_pos hcut]
      refine ⟨?_, [], a, rfl, hcut.1⟩
      rw [List.countP_singleton, if_pos hcut.1]
      omega
    · rw [splitAfter, if_neg hcut] at h ⊢
      by_cases hp : p a = true
      · rw [if_pos hp] at h ⊢
        have hn1 : ¬ n ≤ 1 := fun hle => hcut ⟨hp, hle⟩
        obtain ⟨hcount, q, x, hq, hx⟩ := ih (by omega) h
        refine ⟨?_, a :: q, x, congrArg (a :: ·) hq, hx⟩
        rw [List.countP_cons_of_pos hp, hcount]
        omega
      · rw [if_neg hp] at h ⊢
        obtain ⟨hcount, q, x, hq, hx⟩ := ih hn h
        refine ⟨?_, a :: q, x, congrArg (a :: ·) hq, hx⟩
        rw [List.countP_cons_of_neg hp, hcount]

/-- The cut is not behind a later marked element. -/
theorem countP_dropLast_splitAfter {n : ℕ} (hn : 0 < n) (l : List α) :
    (splitAfter p n l).1.dropLast.countP p < n := by
  induction l generalizing n with
  | nil => exact hn
  | cons a l ih =>
    by_cases hcut : p a ∧ n ≤ 1
    · rw [splitAfter, if_pos hcut]
      exact hn
    · rw [splitAfter, if_neg hcut]
      cases l with
      | nil => exact hn
      | cons b l =>
        by_cases hp : p a = true
        · have hn1 : ¬ n ≤ 1 := fun hle => hcut ⟨hp, hle⟩
          have := ih (n := n - 1) (by omega)
          rw [if_pos hp, List.dropLast_cons_of_ne_nil (splitAfter_ne_nil _ b l), List.countP_cons_of_pos hp]
          omega
        · have := ih hn
          rw [if_neg hp, List.dropLast_cons_of_ne_nil (splitAfter_ne_nil _ b l), List.countP_cons_of_neg hp]
          exact this

/-! ## All pieces -/

theorem chop_eq {l : List α} (h : l ≠ []) :
    chop p k l = (splitAfter p k l).1 :: chop p k (splitAfter p k l).2 := by
  cases l with
  | nil => exact absurd rfl h
  | cons a l => rw [chop]

@[simp] theorem chop_nil : chop p k [] = [] := by rw [chop]

theorem flatten_chop (l : List α) : (chop p k l).flatten = l := by
  induction hn : l.length using Nat.strong_induction_on generalizing l with
  | _ n ih =>
    cases l with
    | nil => rw [chop_nil, List.flatten_nil]
    | cons a l =>
      rw [chop_eq (List.cons_ne_nil _ _), List.flatten_cons, ih _ (hn ▸ length_splitAfter k a l) _ rfl,
        splitAfter_append]

theorem chop_ne_nil {l : List α} (h : l ≠ []) : chop p k l ≠ [] := by
  rw [chop_eq h]
  exact List.cons_ne_nil _ _

theorem chop_mem_ne_nil {l g : List α} (h : g ∈ chop p k l) : g ≠ [] := by
  induction hn : l.length using Nat.strong_induction_on generalizing l with
  | _ n ih =>
    cases l with
    | nil => rw [chop_nil] at h; exact absurd h List.not_mem_nil
    | cons a l =>
      rw [chop_eq (List.cons_ne_nil _ _)] at h
      rcases List.mem_cons.1 h with rfl | h
      · exact splitAfter_ne_nil k a l
      · exact ih _ (hn ▸ length_splitAfter k a l) h rfl

/-- Every piece but the last has `k` marked elements. -/
theorem countP_chop (hk : 0 < k) (l : List α) : ∀ g ∈ (chop p k l).dropLast, g.countP p = k := by
  induction hn : l.length using Nat.strong_induction_on generalizing l with
  | _ n ih =>
    intro g hg
    cases l with
    | nil => rw [chop_nil] at hg; exact absurd hg List.not_mem_nil
    | cons a l =>
      rw [chop_eq (List.cons_ne_nil _ _)] at hg
      by_cases hrest : (splitAfter p k (a :: l)).2 = []
      · rw [hrest, chop_nil] at hg
        exact absurd hg List.not_mem_nil
      · rw [List.dropLast_cons_of_ne_nil (chop_ne_nil hrest)] at hg
        rcases List.mem_cons.1 hg with rfl | hg
        · exact (splitAfter_full hk hrest).1
        · exact ih _ (hn ▸ length_splitAfter k a l) _ rfl g hg

/-! ## A cut behind every marked element -/

theorem chop_one_cons (a : α) (l : List α) :
    chop p 1 (a :: l) = if p a then [a] :: chop p 1 l else consHead a (chop p 1 l) := by
  rw [chop_eq (List.cons_ne_nil _ _), splitAfter]
  by_cases hp : p a = true
  · rw [if_pos ⟨hp, Nat.le_refl 1⟩, if_pos hp]
  · rw [if_neg (fun h => hp h.1), if_neg hp, if_neg hp]
    cases l with
    | nil => simp [splitAfter, consHead]
    | cons b l => rw [chop_eq (List.cons_ne_nil b l), consHead]

theorem consHead_append (a : α) {gs : List (List α)} (h : gs ≠ []) (gs' : List (List α)) :
    consHead a (gs ++ gs') = consHead a gs ++ gs' := by
  cases gs with
  | nil => exact absurd rfl h
  | cons g gs => rfl

theorem chop_one_append {x : α} (hx : p x = true) (q r : List α) :
    chop p 1 (q ++ [x] ++ r) = chop p 1 (q ++ [x]) ++ chop p 1 r := by
  induction q with
  | nil => simp [chop_one_cons, hx]
  | cons a q ih =>
    have hne : chop p 1 (q ++ [x]) ≠ [] := chop_ne_nil (by simp)
    rw [List.cons_append, List.cons_append, chop_one_cons, chop_one_cons, ih]
    split_ifs
    · rfl
    · exact consHead_append a hne _

theorem length_chop_one {x : α} (hx : p x = true) (q : List α) :
    (chop p 1 (q ++ [x])).length = (q ++ [x]).countP p := by
  induction q with
  | nil => simp [chop_one_cons, hx]
  | cons a q ih =>
    obtain ⟨g, gs, hgs⟩ := List.exists_cons_of_ne_nil (chop_ne_nil (p := p) (k := 1) (l := q ++ [x]) (by simp))
    rw [List.cons_append, chop_one_cons]
    by_cases hp : p a = true
    · rw [if_pos hp, List.length_cons, ih, List.countP_cons_of_pos hp]
    · rw [if_neg hp, List.countP_cons_of_neg hp, ← ih, hgs]
      rfl

/-! ## Two marks -/

theorem countP_flatten_of_one {gs : List (List α)} (h : ∀ g ∈ gs, g.countP p = 1) : gs.flatten.countP p = gs.length := by
  induction gs with
  | nil => rfl
  | cons g gs ih =>
    obtain ⟨hg, hgs⟩ := List.forall_mem_cons.1 h
    rw [List.flatten_cons, List.countP_append, hg, ih hgs, List.length_cons, Nat.add_comm]

/-- Of two marks one of which implies the other, with as many elements, each has what the other one has. -/
theorem marks_agree {e t : α → Bool} {l : List α} (hte : ∀ x ∈ l, t x = true → e x = true)
    (h : l.countP t = l.countP e) : ∀ x ∈ l, e x = true → t x = true := by
  have hsub : (l.filter t).Sublist (l.filter e) := by
    have heq : l.filter t = (l.filter e).filter t := by
      rw [List.filter_filter]
      refine List.filter_congr fun x hx => ?_
      by_cases htx : t x = true
      · rw [htx, hte x hx htx]
        rfl
      · rw [Bool.not_eq_true] at htx
        rw [htx]
        rfl
    rw [heq]
    exact List.filter_sublist
  have hfilter : l.filter t = l.filter e :=
    hsub.eq_of_length (by rw [← List.countP_eq_length_filter, ← List.countP_eq_length_filter, h])
  intro x hx hex
  have hmem : x ∈ l.filter t := hfilter ▸ List.mem_filter.2 ⟨hx, hex⟩
  exact (List.mem_filter.1 hmem).2

/-- The marked elements in front of the last cut, with one piece in front. -/
theorem take_filter_append {g r : List α} (hk : 0 < k) (hg : g.countP p = k) (hr : r ≠ []) :
    ((g ++ r).filter p).take (k * ((g ++ r).dropLast.countP p / k)) =
      g.filter p ++ (r.filter p).take (k * (r.dropLast.countP p / k)) := by
  have hlen : (g.filter p).length = k := by rw [← List.countP_eq_length_filter, hg]
  rw [List.dropLast_append_of_ne_nil hr, List.countP_append, hg, Nat.add_div_left _ hk, Nat.mul_succ, Nat.add_comm,
    List.filter_append, List.take_append, hlen, Nat.add_sub_cancel_left, List.take_of_length_le]
  omega

section Cut
variable {e t : α → Bool} {l : List α}

/-- **Marks that agree in the first piece**: the pieces of `t` are cut behind it. -/
theorem chop_one_cut (hk : 0 < k) (hte : ∀ x ∈ l, t x = true → e x = true) (hrest : (splitAfter e k l).2 ≠ [])
    (hagree : ∀ y ∈ (splitAfter e k l).1, e y = true → t y = true) :
    chop t 1 l = chop t 1 (splitAfter e k l).1 ++ chop t 1 (splitAfter e k l).2 ∧
      (chop t 1 (splitAfter e k l).1).length = k := by
  have hsplit := splitAfter_append (p := e) k l
  obtain ⟨hcount, q, x, hq, hx⟩ := splitAfter_full hk hrest
  have htx : t x = true := hagree x (by rw [hq]; simp) hx
  have hsame : (splitAfter e k l).1.countP t = (splitAfter e k l).1.countP e := List.countP_congr fun y hy =>
    ⟨hte y (hsplit ▸ List.mem_append_left _ hy), hagree y hy⟩
  constructor
  · conv_lhs => rw [← hsplit, hq]
    rw [hq]
    exact chop_one_append htx q _
  · have hlen : (chop t 1 (splitAfter e k l).1).length = (splitAfter e k l).1.countP t := by
      rw [hq]
      exact length_chop_one htx q
    rw [hlen, hsame, hcount]

/-- A first piece that is `k` pieces of `t` has the same marks. -/
theorem agree_of_group (hk : 0 < k) (hte : ∀ x ∈ l, t x = true → e x = true) (hrest : (splitAfter e k l).2 ≠ [])
    {h : List (List α)} (hh : h.flatten = (splitAfter e k l).1) (hlen : h.length = k) {gs : List (List α)}
    (hgs : gs ≠ []) (hflat : h ++ gs = chop t 1 l) : ∀ y ∈ (splitAfter e k l).1, e y = true → t y = true := by
  have hsplit := splitAfter_append (p := e) k l
  have hone : ∀ y ∈ h, y.countP t = 1 := by
    intro y hy
    refine countP_chop Nat.one_pos l y ?_
    rw [← hflat, List.dropLast_append_of_ne_nil hgs]
    exact List.mem_append_left _ hy
  refine marks_agree (fun y hy => hte y (hsplit ▸ List.mem_append_left _ hy)) ?_
  rw [← hh, countP_flatten_of_one hone, hlen, hh, (splitAfter_full hk hrest).1]

end Cut

/-- **The pieces of `e` are `k` pieces of `t` each**, but for the last, if and only if the marks agree in all pieces
but the last. -/
theorem chop_groups {e t : α → Bool} (hk : 0 < k) (l : List α) (hte : ∀ x ∈ l, t x = true → e x = true) :
    (∃ gs : List (List (List α)), gs.flatten = chop t 1 l ∧ gs.map List.flatten = chop e k l ∧
      ∀ g ∈ gs.dropLast, g.length = k) ↔
    ∀ x ∈ (l.filter e).take (k * (l.dropLast.countP e / k)), t x = true := by
  induction hn : l.length using Nat.strong_induction_on generalizing l with
  | _ n ih =>
    by_cases hl : l = []
    · subst hl
      exact ⟨fun _ x hx => by simp at hx, fun _ => ⟨[], by simp⟩⟩
    · have hsplit := splitAfter_append (p := e) k l
      by_cases hrest : (splitAfter e k l).2 = []
      · have hwhole : (splitAfter e k l).1 = l := by
          rw [hrest, List.append_nil] at hsplit
          exact hsplit
        have hcount := countP_dropLast_splitAfter (p := e) hk l
        rw [hwhole] at hcount
        have hchop : chop e k l = [l] := by rw [chop_eq hl, hrest, hwhole, chop_nil]
        refine ⟨fun _ x hx => ?_, fun _ => ⟨[chop t 1 l], ?_⟩⟩
        · rw [Nat.div_eq_of_lt hcount] at hx
          exact absurd hx (by simp)
        · rw [hchop]
          simp [flatten_chop]
      · have hcut := chop_one_cut hk hte hrest
        have hgroup := fun h => @agree_of_group _ k e t l hk hte hrest h
        have hcount := (splitAfter_full hk hrest).1
        have hchop : chop e k l = (splitAfter e k l).1 :: chop e k (splitAfter e k l).2 := chop_eq hl
        have hlt : (splitAfter e k l).2.length < n := by
          obtain ⟨a, l', rfl⟩ := List.exists_cons_of_ne_nil hl
          exact hn ▸ length_splitAfter k a l'
        generalize (splitAfter e k l).1 = g at *
        generalize (splitAfter e k l).2 = r at *
        have hter : ∀ y ∈ r, t y = true → e y = true := fun y hy => hte y (hsplit ▸ List.mem_append_right _ hy)
        have hright : (∀ y ∈ (l.filter e).take (k * (l.dropLast.countP e / k)), t y = true) ↔
            (∀ y ∈ g, e y = true → t y = true) ∧
              ∀ y ∈ (r.filter e).take (k * (r.dropLast.countP e / k)), t y = true := by
          rw [← hsplit, take_filter_append hk hcount hrest, List.forall_mem_append]
          simp [List.mem_filter]
        rw [hright, ← ih _ hlt r hter rfl, hchop]
        constructor
        · rintro ⟨gs, hflat, hmap, hlen⟩
          obtain ⟨h, gs', rfl, hh, hmap'⟩ := List.map_eq_cons_iff.1 hmap
          have hflat' : gs'.flatten ≠ [] := by
            intro hnil
            have : (gs'.map List.flatten).flatten = r := by rw [hmap', flatten_chop]
            rw [← List.flatten_flatten, hnil] at this
            exact hrest this.symm
          have hgs' : gs' ≠ [] := fun hnil => hflat' (by rw [hnil, List.flatten_nil])
          rw [List.dropLast_cons_of_ne_nil hgs', List.forall_mem_cons] at hlen
          rw [List.flatten_cons] at hflat
          have hagree := hgroup h hh hlen.1 hflat' hflat
          obtain ⟨hch, hchlen⟩ := hcut hagree
          rw [hch] at hflat
          obtain ⟨-, hflat2⟩ := List.append_inj hflat (by rw [hlen.1, hchlen])
          exact ⟨hagree, gs', hflat2, hmap', hlen.2⟩
        · rintro ⟨hagree, gs', hflat, hmap, hlen⟩
          obtain ⟨hch, hchlen⟩ := hcut hagree
          refine ⟨chop t 1 g :: gs', ?_, ?_, ?_⟩
          · rw [List.flatten_cons, hflat, hch]
          · rw [List.map_cons, flatten_chop, hmap]
          · intro y hy
            cases gs' with
            | nil => exact absurd hy List.not_mem_nil
            | cons z gs' =>
              rw [List.dropLast_cons_of_ne_nil (List.cons_ne_nil _ _)] at hy
              rcases List.mem_cons.1 hy with rfl | hy
              · exact hchlen
              · exact hlen y hy

/-- There is one piece if fewer than `k` marked elements stand before the last one. -/
theorem chop_single (hk : 0 < k) {l : List α} : (splitAfter p k l).2 = [] ↔ l.dropLast.countP p < k := by
  have hsplit := splitAfter_append (p := p) k l
  constructor
  · intro hrest
    rw [hrest, List.append_nil] at hsplit
    have hcount := countP_dropLast_splitAfter (p := p) hk l
    rwa [hsplit] at hcount
  · intro hlt
    by_contra hrest
    have hcount := (splitAfter_full hk hrest).1
    rw [← hsplit, List.dropLast_append_of_ne_nil hrest, List.countP_append, hcount] at hlt
    omega

/-! ## Groups of images -/

variable {β : Type}

/-- Groups of images are images of groups. -/
theorem exists_groups (f : α → β) (l : List α) (gs : List (List β)) (h : gs.flatten = l.map f) :
    ∃ hs : List (List α), hs.flatten = l ∧ hs.map (List.map f) = gs := by
  induction gs generalizing l with
  | nil =>
    refine ⟨[], ?_, rfl⟩
    rw [List.flatten_nil] at h
    exact (List.map_eq_nil_iff.1 h.symm).symm
  | cons g gs ih =>
    rw [List.flatten_cons] at h
    obtain ⟨l₁, l₂, rfl, hg, hgs⟩ := List.map_eq_append_iff.1 h.symm
    obtain ⟨hs, hflat, hmap⟩ := ih l₂ hgs.symm
    exact ⟨l₁ :: hs, by rw [List.flatten_cons, hflat], by rw [List.map_cons, hg, hmap]⟩

/-- Pieces that are groups of other pieces stay so when the elements are mapped. -/
theorem groups_map (f : α → β) {cs ds : List (List α)} (hflat : cs.flatten = ds.flatten) (n : ℕ) :
    (∃ gs : List (List (List β)), gs.flatten = cs.map (List.map f) ∧ gs.map List.flatten = ds.map (List.map f) ∧
      ∀ g ∈ gs.dropLast, g.length = n) ↔
    ∃ gs : List (List (List α)), gs.flatten = cs ∧ gs.map List.flatten = ds ∧ ∀ g ∈ gs.dropLast, g.length = n := by
  have hmapmap : ∀ hs : List (List (List α)),
      (hs.map (List.map (List.map f))).map List.flatten = (hs.map List.flatten).map (List.map f) := by
    intro hs
    rw [List.map_map, List.map_map]
    refine List.map_congr_left fun h _ => ?_
    exact (List.map_flatten).symm
  constructor
  · rintro ⟨gs, hgs, hds, hlen⟩
    obtain ⟨hs, hcs, rfl⟩ := exists_groups (List.map f) cs gs hgs
    rw [hmapmap] at hds
    refine ⟨hs, hcs, ?_, fun g hg => ?_⟩
    · refine List.eq_iff_flatten_eq.2 ⟨?_, ?_⟩
      · rw [← hflat, ← hcs, List.flatten_flatten]
      · have := congrArg (List.map List.length) hds
        simpa [Function.comp_def] using this
    · rw [← List.map_dropLast] at hlen
      have := hlen _ (List.mem_map_of_mem hg)
      rwa [List.length_map] at this
  · rintro ⟨hs, rfl, rfl, hlen⟩
    refine ⟨hs.map (List.map (List.map f)), by rw [List.map_flatten], hmapmap hs, fun g hg => ?_⟩
    rw [← List.map_dropLast] at hg
    obtain ⟨h, hh, rfl⟩ := List.mem_map.1 hg
    rw [List.length_map]
    exact hlen h hh

end Shish
