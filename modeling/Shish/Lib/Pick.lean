import Mathlib.Data.List.Infix
import Mathlib.Data.List.Basic

/-!
# Lib/Pick — the elements at chosen positions, and the fields of a list

`pick` keeps the elements of a list whose position is in a set.  A reader that goes through the set stretch by
stretch leaves out a stretch of positions that are not in it (`pick_skip`) and takes one that is (`pick_take`).

`delimited` cuts a list at every place where a delimiter of any length stands, from the left; `Delimited` says
what these fields are.
-/

namespace Shish

variable {α : Type*}

/-! ## Positions -/

section Pick

variable (p : ℕ → Prop) [DecidablePred p] {k m : ℕ} {l : List α}

/-- The elements whose position, counted from `k`, is in `p`. -/
def pick (k : ℕ) (l : List α) : List α := ((l.zipIdx k).filter (p ·.2)).map Prod.fst

@[simp] theorem pick_nil (k : ℕ) : pick p k ([] : List α) = [] := rfl

theorem pick_cons (k : ℕ) (x : α) (l : List α) :
    pick p k (x :: l) = if p k then x :: pick p (k + 1) l else pick p (k + 1) l := by
  unfold pick
  rw [List.zipIdx_cons, List.filter_cons]
  split_ifs with h h' h'
  · rfl
  · exact absurd (of_decide_eq_true h) h'
  · exact absurd (decide_eq_true h') h
  · rfl

variable {p}

theorem pick_congr {q : ℕ → Prop} [DecidablePred q] (h : ∀ i, k ≤ i → (p i ↔ q i)) : pick p k l = pick q k l := by
  induction l generalizing k with
  | nil => rfl
  | cons x l ih =>
    rw [pick_cons, pick_cons, ih fun i hi => h i (Nat.le_of_succ_le hi)]
    simp only [h k (Nat.le_refl k)]

/-- **A stretch that is not chosen.** -/
theorem pick_skip (m : ℕ) (h : ∀ i, k ≤ i → i < k + m → ¬ p i) : pick p k l = pick p (k + m) (l.drop m) := by
  induction m generalizing k l with
  | zero => rfl
  | succ m ih =>
    cases l with
    | nil => simp
    | cons x l =>
      rw [pick_cons, if_neg (h k (Nat.le_refl k) (by omega)), ih fun i hi hi' => h i (by omega) (by omega)]
      rw [List.drop_succ_cons, Nat.add_right_comm, Nat.add_assoc]

/-- **A stretch that is chosen.** -/
theorem pick_take (m : ℕ) (h : ∀ i, k ≤ i → i < k + m → p i) :
    pick p k l = l.take m ++ pick p (k + m) (l.drop m) := by
  induction m generalizing k l with
  | zero => rfl
  | succ m ih =>
    cases l with
    | nil => simp
    | cons x l =>
      rw [pick_cons, if_pos (h k (Nat.le_refl k) (by omega)), ih fun i hi hi' => h i (by omega) (by omega)]
      rw [List.drop_succ_cons, List.take_succ_cons, Nat.add_right_comm, Nat.add_assoc, List.cons_append]

theorem pick_all (h : ∀ i, k ≤ i → p i) : pick p k l = l := by
  rw [pick_take l.length fun i hi _ => h i hi]
  simp

theorem pick_none (h : ∀ i, k ≤ i → ¬ p i) : pick p k l = [] := by
  rw [pick_skip l.length fun i hi _ => h i hi]
  simp

theorem pick_map {β : Type*} (f : α → β) : pick p k (l.map f) = (pick p k l).map f := by
  induction l generalizing k with
  | nil => rfl
  | cons x l ih =>
    rw [List.map_cons, pick_cons, pick_cons, ih]
    split_ifs <;> rfl

end Pick

/-! ## Fields -/

section Fields

/-- A list is its first field, in which and across whose end no delimiter starts, the delimiter and the fields
of the rest; or it is one field without a delimiter. -/
inductive Delimited (d : List α) : List α → List (List α) → Prop
  | last {w} : ¬ d <:+: w → Delimited d w [w]
  | more {w b ws} : (∀ i < w.length, ¬ d <+: (w ++ (d ++ b)).drop i) → Delimited d b ws →
      Delimited d (w ++ (d ++ b)) (w :: ws)

theorem intercalate_cons_flatMap (d w : List α) (ws : List (List α)) :
    d.intercalate (w :: ws) = w ++ ws.flatMap (d ++ ·) := by
  induction ws generalizing w with
  | nil => simp
  | cons v ws ih => rw [List.intercalate_cons_cons, ih, List.flatMap_cons, List.append_assoc, List.append_assoc]

/-- **The fields joined by the delimiter are the list.** -/
theorem Delimited.join {d b : List α} {ws : List (List α)} (h : Delimited d b ws) : d.intercalate ws = b := by
  induction h with
  | last => simp
  | more hw hws ih =>
    rw [List.intercalate_cons_of_ne_nil, ih, List.append_assoc]
    cases hws <;> exact List.cons_ne_nil _ _

variable [DecidableEq α] {d b : List α}

/-- A list cut at the delimiter, wherever it stands from the left on; `skip` elements belong to one that has
been found. -/
def delimitedFrom (d : List α) : ℕ → List α → List (List α)
  | _, [] => [[]]
  | skip + 1, _ :: t => delimitedFrom d skip t
  | 0, c :: t =>
      if d <+: c :: t then [] :: delimitedFrom d (d.length - 1) t
      else (delimitedFrom d 0 t).modifyHead (c :: ·)

/-- **The fields of a list.** -/
def delimited (d b : List α) : List (List α) := delimitedFrom d 0 b

theorem delimitedFrom_skip (x : List α) (b : List α) :
    delimitedFrom d x.length (x ++ b) = delimited d b := by
  induction x with
  | nil => rfl
  | cons c x ih => exact ih

/-- The delimiter at the front. -/
theorem delimited_delim (hd : d ≠ []) (b : List α) : delimited d (d ++ b) = [] :: delimited d b := by
  obtain ⟨c, d', rfl⟩ := List.exists_cons_of_ne_nil hd
  refine (if_pos (List.prefix_append (c :: d') b)).trans ?_
  congr 1
  exact delimitedFrom_skip d' b

theorem delimited_cons {c : α} (h : ¬ d <+: c :: b) :
    delimited d (c :: b) = (delimited d b).modifyHead (c :: ·) := if_neg h

/-- **Fields are what they should be.** -/
theorem delimited_spec (hd : d ≠ []) (b : List α) : Delimited d b (delimited d b) := by
  induction hn : b.length using Nat.strongRecOn generalizing b with
  | ind n ih =>
    cases b with
    | nil => exact .last fun h => hd (List.infix_nil.1 h)
    | cons c t =>
      by_cases hp : d <+: c :: t
      · obtain ⟨b, hb⟩ := hp
        have hlt : b.length < n := by
          have := List.length_pos_iff.2 hd
          rw [← hn, ← hb, List.length_append]
          omega
        rw [← hb, delimited_delim hd]
        exact @Delimited.more α d [] b _ nofun (ih _ hlt b rfl)
      · have hlt : t.length < n := by
          rw [← hn]
          exact Nat.lt_succ_self _
        have hrest := ih _ hlt t rfl
        rw [delimited_cons hp]
        generalize delimited d t = ws at hrest
        cases hrest with
        | last hw => exact .last fun h => (List.infix_cons_iff.1 h).elim hp hw
        | @more w b ws hw hws =>
          refine @Delimited.more α d (c :: w) b _ (fun i hi => ?_) hws
          cases i with
          | zero => exact hp
          | succ i => exact hw i (Nat.lt_of_succ_lt_succ hi)

end Fields

end Shish
