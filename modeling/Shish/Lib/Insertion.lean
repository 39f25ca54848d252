import Mathlib.Data.List.Infix
import Mathlib.Data.List.Perm.Basic

/-!
# Lib/Insertion — insertion sort and shell sort

An insertion sort moves each element in front of those that are greater; a shell sort does so first over gaps.
The elements in front are a list from the last one on, so `sink` passes `gap - 1` of them before the one it
compares with.  No pass loses an element (`perm_shell`), and the last one, whose gap is 1, sorts (`sorted_shell`).
-/

namespace Shish

variable {α : Type*} (gt : α → α → Bool)

/-- An element goes in front of those that stand a multiple of `gap` before it and are greater; `k` elements
are passed before the next one it is compared with. -/
def sinkFrom (gap : ℕ) (e : α) : ℕ → List α → List α → List α
  | _, passed, [] => e :: passed.reverse
  | k + 1, passed, x :: rest => sinkFrom gap e k (x :: passed) rest
  | 0, passed, x :: rest =>
      if gt x e then x :: (passed.reverse ++ sinkFrom gap e (gap - 1) [] rest)
      else e :: (passed.reverse ++ x :: rest)

/-- An element goes to its place in front. -/
def sink (gap : ℕ) (e : α) (front : List α) : List α := sinkFrom gt gap e (gap - 1) [] front

/-- A pass over a list. -/
def pass (gap : ℕ) (l : List α) : List α := (l.foldl (fun front e => sink gt gap e front) []).reverse

/-- The insertion sort. -/
def insertionSort (l : List α) : List α := pass gt 1 l

/-- The shell sort whose gaps are halved, from the one given on. -/
def shellFrom (gap : ℕ) (l : List α) : List α :=
  if gap = 0 then l else shellFrom (gap / 2) (pass gt gap l)
termination_by gap

/-- **The shell sort.** -/
def shell (l : List α) : List α := shellFrom gt (l.length / 2) l

variable {gt} {gap : ℕ} {e : α} {l front : List α}

theorem perm_sinkFrom (gap : ℕ) (e : α) (k : ℕ) (passed front : List α) :
    (sinkFrom gt gap e k passed front).Perm (e :: (passed.reverse ++ front)) := by
  fun_induction sinkFrom gt gap e k passed front with
  | case1 => rw [List.append_nil]
  | case2 passed k x rest ih => simpa using ih
  | case3 passed x rest hgt ih =>
    calc (x :: (passed.reverse ++ sinkFrom gt gap e (gap - 1) [] rest)).Perm (x :: (passed.reverse ++ e :: rest)) :=
          (ih.append_left _).cons x
      List.Perm _ (x :: e :: (passed.reverse ++ rest)) := List.perm_middle.cons x
      List.Perm _ (e :: x :: (passed.reverse ++ rest)) := .swap e x _
      List.Perm _ (e :: (passed.reverse ++ x :: rest)) := List.perm_middle.symm.cons e
  | case4 => rfl

theorem perm_sink (gap : ℕ) (e : α) (front : List α) : (sink gt gap e front).Perm (e :: front) :=
  perm_sinkFrom gap e (gap - 1) [] front

theorem foldl_sink (gap : ℕ) (l : List α) : ∀ front : List α,
    (l.foldl (fun front e => sink gt gap e front) front).Perm (l ++ front) := by
  induction l with
  | nil => exact fun _ => .rfl
  | cons e l ih => exact fun front => (ih _).trans (((perm_sink gap e front).append_left l).trans List.perm_middle)

theorem perm_pass (gap : ℕ) (l : List α) : (pass gt gap l).Perm l := by
  refine (List.reverse_perm _).trans ?_
  simpa using @foldl_sink _ gt gap l []

/-- **No element is lost.** -/
theorem perm_shellFrom (gap : ℕ) (l : List α) : (shellFrom gt gap l).Perm l := by
  fun_induction shellFrom gt gap l with
  | case1 => rfl
  | case2 gap l hgap ih => exact ih.trans (perm_pass gap l)

theorem perm_shell (l : List α) : (shell gt l).Perm l := perm_shellFrom _ l

section Sorted

variable {le : α → α → Prop} (total : ∀ x y, gt x y = true → le y x) (not_gt : ∀ x y, gt x y = false → le x y)
  (trans : ∀ x y z, le x y → le y z → le x z)

include total not_gt trans

theorem sorted_sink (e : α) (h : front.Pairwise fun x y => le y x) :
    (sink gt 1 e front).Pairwise fun x y => le y x := by
  induction front with
  | nil => exact List.pairwise_singleton _ e
  | cons x rest ih =>
    obtain ⟨hx, hrest⟩ := List.pairwise_cons.1 h
    have hstep : sink gt 1 e (x :: rest) = if gt x e then x :: sink gt 1 e rest else e :: x :: rest := rfl
    rw [hstep]
    split_ifs with hgt
    · refine List.pairwise_cons.2 ⟨fun y hy => ?_, ih hrest⟩
      rcases List.mem_cons.1 ((perm_sink 1 e rest).mem_iff.1 hy) with rfl | hy
      · exact total x y hgt
      · exact hx y hy
    · have hxe := not_gt x e (by simpa using hgt)
      exact List.pairwise_cons.2 ⟨List.forall_mem_cons.2 ⟨hxe, fun y hy => trans y x e (hx y hy) hxe⟩, h⟩

/-- **The pass whose gap is 1 sorts.** -/
theorem sorted_insertionSort (l : List α) : (insertionSort gt l).Pairwise le := by
  have h : ∀ (l : List α) {front : List α}, front.Pairwise (fun x y => le y x) →
      (l.foldl (fun front e => sink gt 1 e front) front).Pairwise fun x y => le y x := by
    intro l
    induction l with
    | nil => exact fun h => h
    | cons e l ih => exact fun h => ih (sorted_sink total not_gt trans e h)
  exact List.pairwise_reverse.2 (h l .nil)

theorem sorted_shellFrom (hgap : gap ≠ 0) (l : List α) : (shellFrom gt gap l).Pairwise le := by
  fun_induction shellFrom gt gap l with
  | case1 => exact absurd rfl hgap
  | case2 gap l _ ih =>
    rcases Nat.eq_zero_or_pos (gap / 2) with h | h
    · rw [h, shellFrom, if_pos rfl]
      obtain rfl : gap = 1 := by omega
      exact sorted_insertionSort total not_gt trans l
    · exact ih (Nat.ne_of_gt h)

/-- **The shell sort sorts.** -/
theorem sorted_shell (l : List α) : (shell gt l).Pairwise le := by
  rcases lt_or_ge l.length 2 with h | h
  · have hgap : l.length / 2 = 0 := by omega
    rw [shell, hgap, shellFrom, if_pos rfl]
    match l, h with
    | [], _ => exact .nil
    | [x], _ => exact List.pairwise_singleton _ x
  · exact sorted_shellFrom total not_gt trans (by omega) l

end Sorted

end Shish
