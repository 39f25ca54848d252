import Mathlib.Order.Lattice
import Mathlib.Order.Defs.LinearOrder
import Mathlib.Order.Basic
import Mathlib.Data.Int.Order.Basic
import Mathlib.Data.Nat.Basic
import Mathlib.Data.List.Perm.Basic

/-!
# Lib/Compare — comparisons that return a number, and merging

A comparison says by the sign of a number which of two values comes first.  It is a total preorder
(`TotalCmp`) when it is one on what it looks at (`of_key`, `comap`), when it is turned round (`neg`) and when
others decide where it does not (`lex`).

`mergeSort` cuts a list in halves and merges them, and takes from the left unless the right is smaller: it
sorts, and leaves equal values in their order (`filter_mergeSort`).
-/

namespace Shish

variable {α β : Type*}

/-! ## Comparisons -/

/-- **A comparison that orders**: it is antisymmetric in sign and transitive. -/
structure TotalCmp (cmp : α → α → ℤ) : Prop where
  anti : ∀ a b, (cmp b a).sign = -(cmp a b).sign
  trans : ∀ {a b c}, cmp a b ≤ 0 → cmp b c ≤ 0 → cmp a c ≤ 0

namespace TotalCmp

variable {cmp cmp' : α → α → ℤ} {a b c : α}

theorem refl (h : TotalCmp cmp) (a : α) : cmp a a = 0 := by
  have := h.anti a a
  rw [← Int.sign_eq_zero_iff_zero]
  omega

theorem neg_iff (h : TotalCmp cmp) : cmp b a < 0 ↔ 0 < cmp a b := by
  rw [← Int.sign_neg_iff, ← Int.sign_pos_iff, h.anti a b]
  omega

theorem zero_iff (h : TotalCmp cmp) : cmp b a = 0 ↔ cmp a b = 0 := by
  rw [← Int.sign_eq_zero_iff_zero, ← @Int.sign_eq_zero_iff_zero (cmp a b), h.anti a b]
  omega

theorem le_iff (h : TotalCmp cmp) : cmp a b ≤ 0 ↔ ¬ cmp b a < 0 := by
  rw [h.neg_iff]
  omega

/-- Of two values one is not greater. -/
theorem total (h : TotalCmp cmp) (a b : α) : cmp a b ≤ 0 ∨ cmp b a ≤ 0 := by
  rw [h.le_iff]
  omega

/-- Values that are equal compare alike. -/
theorem eq_trans (h : TotalCmp cmp) (hab : cmp a b = 0) (hbc : cmp b c = 0) : cmp a c = 0 := by
  have h₁ := h.trans hab.le hbc.le
  have h₂ := h.trans (h.zero_iff.2 hbc).le (h.zero_iff.2 hab).le
  rw [h.le_iff] at h₂
  omega

theorem lt_of_lt_of_le (h : TotalCmp cmp) (hab : cmp a b < 0) (hbc : cmp b c ≤ 0) : cmp a c < 0 := by
  by_contra hac
  have hca : cmp c a ≤ 0 := h.le_iff.2 hac
  have := h.trans hbc hca
  rw [h.le_iff] at this
  exact this hab

theorem lt_of_le_of_lt (h : TotalCmp cmp) (hab : cmp a b ≤ 0) (hbc : cmp b c < 0) : cmp a c < 0 := by
  by_contra hac
  have hca : cmp c a ≤ 0 := h.le_iff.2 hac
  have := h.trans hca hab
  rw [h.le_iff] at this
  exact this hbc

/-- **A comparison of keys.** -/
theorem of_key [LinearOrder β] (f : α → β) (hlt : ∀ a b, cmp a b < 0 ↔ f a < f b)
    (hgt : ∀ a b, 0 < cmp a b ↔ f b < f a) : TotalCmp cmp := by
  have hle : ∀ a b, cmp a b ≤ 0 ↔ f a ≤ f b := fun a b => by
    rw [← not_lt, ← not_lt, hgt]
  refine ⟨fun a b => ?_, fun h₁ h₂ => (hle _ _).2 (((hle _ _).1 h₁).trans ((hle _ _).1 h₂))⟩
  rcases lt_trichotomy (f a) (f b) with h | h | h
  · rw [Int.sign_eq_neg_one_of_neg ((hlt a b).2 h), Int.sign_eq_one_of_pos ((hgt b a).2 h)]
    rfl
  · have hz : ∀ a b, f a = f b → cmp a b = 0 := fun a b h => by
      have h₁ := (hlt a b).not.2 h.not_lt
      have h₂ := (hgt a b).not.2 h.not_gt
      omega
    rw [hz a b h, hz b a h.symm]
    rfl
  · rw [Int.sign_eq_one_of_pos ((hgt a b).2 h), Int.sign_eq_neg_one_of_neg ((hlt b a).2 h)]

theorem comap (h : TotalCmp cmp) (f : β → α) : TotalCmp fun a b => cmp (f a) (f b) :=
  ⟨fun a b => h.anti (f a) (f b), h.trans⟩

/-- **Turned round.** -/
theorem neg (h : TotalCmp cmp) : TotalCmp fun a b => -cmp a b := by
  refine ⟨fun a b => ?_, fun {a b c} h₁ h₂ => ?_⟩
  · rw [Int.sign_neg, Int.sign_neg, h.anti a b]
  · have hba : cmp b a ≤ 0 := h.le_iff.2 (by omega)
    have hcb : cmp c b ≤ 0 := h.le_iff.2 (by omega)
    have := h.le_iff.1 (h.trans hcb hba)
    omega

/-- **Another comparison decides between equals.** -/
theorem lex (h : TotalCmp cmp) (h' : TotalCmp cmp') :
    TotalCmp fun a b => if cmp a b ≠ 0 then cmp a b else cmp' a b := by
  refine ⟨fun a b => ?_, fun {a b c} h₁ h₂ => ?_⟩
  · by_cases hz : cmp a b = 0
    · rw [if_neg (not_not.2 hz), if_neg (not_not.2 (h.zero_iff.2 hz)), h'.anti]
    · rw [if_pos hz, if_pos (h.zero_iff.not.2 hz), h.anti]
  · have hle : ∀ {a b}, (if cmp a b ≠ 0 then cmp a b else cmp' a b) ≤ 0 → cmp a b ≤ 0 := fun {a b} h => by
      split_ifs at h with hz <;> omega
    have hac := h.trans (hle h₁) (hle h₂)
    split_ifs with hz
    · exact hac
    · have hz : cmp a c = 0 := not_not.1 hz
      have hab : cmp a b = 0 := by
        have := h.trans (hle h₂) (h.zero_iff.2 hz).le
        rw [h.le_iff] at this
        have := hle h₁
        omega
      have hbc : cmp b c = 0 := h.eq_trans (h.zero_iff.2 hab) hz
      rw [if_neg (not_not.2 hab)] at h₁
      rw [if_neg (not_not.2 hbc)] at h₂
      exact h'.trans h₁ h₂

theorem zero : TotalCmp fun _ _ : α => 0 := ⟨fun _ _ => rfl, fun _ _ => le_rfl⟩

end TotalCmp

/-! ## First differences -/

/-- The first difference of two lists, as long as both go on. -/
def cmpPrefix : List ℕ → List ℕ → ℤ
  | a :: x, b :: y => if (a : ℤ) - b ≠ 0 then (a : ℤ) - b else cmpPrefix x y
  | _, _ => 0

/-- **The first difference, and then the length.** -/
def cmpLex : List ℕ → List ℕ → ℤ
  | [], [] => 0
  | [], _ :: _ => -1
  | _ :: _, [] => 1
  | a :: x, b :: y => if (a : ℤ) - b ≠ 0 then (a : ℤ) - b else cmpLex x y

theorem cmpLex_eq (x y : List ℕ) : cmpLex x y =
    if cmpPrefix x y = 0 ∧ x.length ≠ y.length then (if x.length < y.length then -1 else 1)
    else cmpPrefix x y := by
  fun_induction cmpLex x y with
  | case1 => rfl
  | case2 => simp [cmpPrefix]
  | case3 => simp [cmpPrefix]
  | case4 a x b y h => rw [cmpPrefix, if_pos h, if_neg fun h' => h h'.1]
  | case5 a x b y h ih =>
    rw [ih, cmpPrefix, if_neg h]
    simp

theorem cmpLex_cons (a b : ℕ) (x y : List ℕ) :
    cmpLex (a :: x) (b :: y) = if (a : ℤ) - b ≠ 0 then (a : ℤ) - b else cmpLex x y := rfl

theorem totalCmp_lex : TotalCmp cmpLex where
  anti x := by
    induction x with
    | nil => intro y; cases y <;> rfl
    | cons a x ih =>
      intro y
      cases y with
      | nil => rfl
      | cons b y =>
        rw [cmpLex_cons, cmpLex_cons]
        rcases lt_trichotomy a b with h | rfl | h
        · rw [if_pos (by omega), if_pos (by omega), Int.sign_eq_one_of_pos (by omega),
            Int.sign_eq_neg_one_of_neg (by omega)]
          rfl
        · rw [if_neg (by omega), if_neg (by omega)]
          exact ih y
        · rw [if_pos (by omega), if_pos (by omega), Int.sign_eq_one_of_pos (by omega : (0 : ℤ) < a - b),
            Int.sign_eq_neg_one_of_neg (by omega)]
  trans {x} := by
    induction x with
    | nil =>
      intro y z _ _
      cases z <;> simp [cmpLex]
    | cons a x ih =>
      intro y z hxy hyz
      cases y with
      | nil => simp [cmpLex] at hxy
      | cons b y =>
        cases z with
        | nil => simp [cmpLex] at hyz
        | cons c z =>
          rw [cmpLex_cons] at hxy hyz ⊢
          split_ifs at hxy hyz ⊢ with h₁ h₂ h₃ h₄ <;> first | omega | exact ih hxy hyz

/-- A comparison with the same signs. -/
theorem TotalCmp.of_sign {cmp : α → α → ℤ} {cmp' : β → β → ℤ} (h : TotalCmp cmp') (f : α → β)
    (hsign : ∀ a b, (cmp a b).sign = (cmp' (f a) (f b)).sign) : TotalCmp cmp := by
  have hle : ∀ a b, cmp a b ≤ 0 ↔ cmp' (f a) (f b) ≤ 0 := fun a b => by
    rw [← Int.sign_nonpos_iff, hsign, Int.sign_nonpos_iff]
  refine ⟨fun a b => ?_, fun {a b c} h₁ h₂ => ?_⟩
  · rw [hsign, hsign, h.anti]
  · rw [hle] at h₁ h₂ ⊢
    exact h.trans h₁ h₂

/-! ## Merge sort -/

/-- A merge sort that takes from the left unless the right is smaller. -/
def mergeSort (cmp : α → α → ℤ) (l : List α) : List α :=
  if l.length < 2 then l
  else
    (mergeSort cmp (l.take (l.length / 2))).merge (mergeSort cmp (l.drop (l.length / 2)))
      fun x y => !decide (cmp y x < 0)
termination_by l.length
decreasing_by
  · rw [List.length_take]
    omega
  · rw [List.length_drop]
    omega

section MergeSort

variable {cmp : α → α → ℤ} {l : List α}

/-- **Nothing is lost.** -/
theorem perm_mergeSort (cmp : α → α → ℤ) (l : List α) : (mergeSort cmp l).Perm l := by
  fun_induction mergeSort cmp l with
  | case1 => rfl
  | case2 l h ih₁ ih₂ =>
    refine (List.merge_perm_append _).trans ((ih₁.append ih₂).trans ?_)
    rw [List.take_append_drop]

/-- **It sorts.** -/
theorem pairwise_mergeSort (h : TotalCmp cmp) (l : List α) : (mergeSort cmp l).Pairwise fun a b => cmp a b ≤ 0 := by
  fun_induction mergeSort cmp l with
  | case1 l hl =>
    match l, hl with
    | [], _ => exact .nil
    | [x], _ => exact List.pairwise_singleton _ x
  | case2 l hl ih₁ ih₂ =>
    have hle : ∀ {l : List α}, l.Pairwise (fun a b => cmp a b ≤ 0) ↔
        l.Pairwise fun a b => (!decide (cmp b a < 0)) = true := by
      intro l
      simp only [h.le_iff, Bool.not_eq_true', decide_eq_false_iff_not]
    rw [hle] at ih₁ ih₂ ⊢
    refine List.pairwise_merge ?_ ?_ _ _ ih₁ ih₂
    · simp only [Bool.not_eq_true', decide_eq_false_iff_not, ← h.le_iff]
      exact fun a b c => h.trans
    · simp only [Bool.or_eq_true, Bool.not_eq_true', decide_eq_false_iff_not, ← h.le_iff]
      exact h.total

/-- Values of one class keep their order when two sorted lists are merged. -/
theorem filter_merge (h : TotalCmp cmp) (a : α) : ∀ {xs ys : List α},
    xs.Pairwise (fun a b => cmp a b ≤ 0) → ys.Pairwise (fun a b => cmp a b ≤ 0) →
    (xs.merge ys fun x y => !decide (cmp y x < 0)).filter (cmp a · = 0) =
      xs.filter (cmp a · = 0) ++ ys.filter (cmp a · = 0)
  | [], ys, _, _ => by simp
  | x :: xs, [], _, _ => by simp
  | x :: xs, y :: ys, hx, hy => by
      obtain ⟨hx₁, hx₂⟩ := List.pairwise_cons.1 hx
      obtain ⟨hy₁, hy₂⟩ := List.pairwise_cons.1 hy
      rw [List.cons_merge_cons]
      split_ifs with hle
      · rw [List.filter_cons, List.filter_cons, filter_merge h a hx₂ hy]
        split_ifs <;> rfl
      · have hlt : cmp y x < 0 := by simpa using hle
        have hrest := filter_merge h a hx hy₂
        rw [List.filter_cons, hrest, @List.filter_cons α y]
        split_ifs with hay
        · -- no value on the left is equal to one that is smaller than all of them
          have hay : cmp a y = 0 := of_decide_eq_true hay
          have hno : (x :: xs).filter (cmp a · = 0) = [] := by
            refine List.filter_eq_nil_iff.2 fun z hz haz => ?_
            have hyz : cmp y z < 0 := by
              rcases List.mem_cons.1 hz with rfl | hz
              · exact hlt
              · exact h.lt_of_lt_of_le hlt (hx₁ z hz)
            have := h.eq_trans (h.zero_iff.2 hay) (of_decide_eq_true haz)
            omega
          rw [hno]
          rfl
        · rfl

/-- **Equal values keep their order.** -/
theorem filter_mergeSort (h : TotalCmp cmp) (a : α) (l : List α) :
    (mergeSort cmp l).filter (cmp a · = 0) = l.filter (cmp a · = 0) := by
  fun_induction mergeSort cmp l with
  | case1 => rfl
  | case2 l hl ih₁ ih₂ =>
    rw [filter_merge h a (pairwise_mergeSort h _) (pairwise_mergeSort h _), ih₁, ih₂, ← List.filter_append,
      List.take_append_drop]

end MergeSort

end Shish
