import Shish.Filter.SortKey

/-!
# Filter/Sort — the lines in order

`sort_load` sorts the lines by merging, and `sort_batch` hands them on; with `-u` it leaves out a line that is
equal to the one before it, whether that one was printed or not.  The sort is stable and equal lines stand
together, so what is printed is the first line of the input of each class (`sort_lines`).
-/

namespace Shish.Sorter

variable (s : Sorter)

/-- `sort_merge`. -/
def sortMerge (lines : List Bytes) : List Bytes := mergeSort s.cmp lines

/-- How much `sort_batch` hands on at a time. -/
def block : ℕ := 65536

/-- Whether `-u` leaves a line out, which stands behind another one. -/
def dropped (prev : Option Bytes) (l : Bytes) : Bool := s.u && prev.any fun p => s.cmpKeys p l == 0

/-- The loop of `sort_batch`: what it hands on, and the lines before and behind its end. -/
def batch : Option Bytes → ℕ → List Bytes → Bytes × Option Bytes × List Bytes
  | prev, _, [] => ([], prev, [])
  | prev, len, l :: ls =>
      if block ≤ len then ([], prev, l :: ls)
      else if s.dropped prev l then batch (some l) len ls
      else
        let r := batch (some l) (len + l.length + 1) ls
        (l ++ newline :: r.1, r.2)

variable {s} in
theorem batch_length {prev : Option Bytes} {len : ℕ} {ls : List Bytes} (h : (s.batch prev len ls).1 ≠ []) :
    (s.batch prev len ls).2.2.length < ls.length := by
  have hle : ∀ (prev : Option Bytes) (len : ℕ) (ls : List Bytes), (s.batch prev len ls).2.2.length ≤ ls.length := by
    intro prev len ls
    fun_induction s.batch prev len ls with
    | case1 => exact Nat.le_refl _
    | case2 => exact Nat.le_refl _
    | case3 prev len l ls _ _ ih => exact Nat.le_succ_of_le ih
    | case4 prev len l ls _ _ r ih => exact Nat.le_succ_of_le ih
  fun_induction s.batch prev len ls with
  | case1 => exact absurd rfl h
  | case2 => exact absurd rfl h
  | case3 prev len l ls _ _ ih => exact Nat.lt_succ_of_lt (ih h)
  | case4 prev len l ls _ _ r ih => exact Nat.lt_succ_of_le (hle (some l) _ ls)

/-- The units of `sort_step`: one batch after the other, until one is empty. -/
def batches (prev : Option Bytes) (ls : List Bytes) : List Bytes :=
  if _h : (s.batch prev 0 ls).1 = [] then []
  else (s.batch prev 0 ls).1 :: batches (s.batch prev 0 ls).2.1 (s.batch prev 0 ls).2.2
termination_by ls.length
decreasing_by exact batch_length _h

/-- `sort`'s output for the lines of its input. -/
def output (lines : List Bytes) : Bytes := (s.batches none (s.sortMerge lines)).flatten

/-! ## What is printed -/

/-- The lines that are not left out. -/
def printed : Option Bytes → List Bytes → List Bytes
  | _, [] => []
  | prev, l :: ls => (if s.dropped prev l then [] else [l]) ++ printed (some l) ls

/-- Lines, each with its newline. -/
def text (ls : List Bytes) : Bytes := ls.flatMap (· ++ [newline])

variable {s}

/-- A batch and what is behind it. -/
theorem text_batch (prev : Option Bytes) (len : ℕ) (ls : List Bytes) :
    text (s.printed prev ls) = (s.batch prev len ls).1 ++ text (s.printed (s.batch prev len ls).2.1 (s.batch prev len ls).2.2) := by
  fun_induction s.batch prev len ls with
  | case1 => rfl
  | case2 => rfl
  | case3 prev len l ls _ hd ih =>
    rw [printed, if_pos hd, List.nil_append]
    exact ih
  | case4 prev len l ls _ hd r ih =>
    rw [printed, if_neg hd]
    have hcons : text ([l] ++ s.printed (some l) ls) = l ++ newline :: text (s.printed (some l) ls) := by
      simp [text]
    rw [hcons, ih]
    simp [r]

/-- An empty batch is the last one. -/
theorem printed_of_batch {prev : Option Bytes} {ls : List Bytes} (h : (s.batch prev 0 ls).1 = []) :
    s.printed prev ls = [] := by
  induction ls generalizing prev with
  | nil => rfl
  | cons l ls ih =>
    have hblock : ¬ block ≤ 0 := by decide
    rw [batch, if_neg hblock] at h
    rw [printed]
    split_ifs at h ⊢ with hd
    · exact ih h
    · simp at h

/-- **The batches are what is printed.** -/
theorem flatten_batches (prev : Option Bytes) (ls : List Bytes) :
    (s.batches prev ls).flatten = text (s.printed prev ls) := by
  fun_induction s.batches prev ls with
  | case1 prev ls h =>
    rw [printed_of_batch h]
    rfl
  | case2 prev ls h ih => rw [List.flatten_cons, ih, ← text_batch]

/-! ## The first line of each class -/

variable (s) in
/-- The lines that are equal to none before them. -/
def firstsFrom (seen : List Bytes) : List Bytes → List Bytes
  | [] => []
  | l :: ls => (if seen.any fun p => s.cmpKeys p l == 0 then [] else [l]) ++ firstsFrom (l :: seen) ls

variable (s) in
/-- **The first line of each class of lines with equal keys.** -/
def firsts (lines : List Bytes) : List Bytes := s.firstsFrom [] lines

/-- Lines that are equal to one line are equal to each other. -/
theorem keys_eq_iff {a p l : Bytes} (h : s.cmpKeys a l = 0) : s.cmpKeys p l = 0 ↔ s.cmpKeys a p = 0 := by
  have ht := totalCmp_keys s
  exact ⟨fun h' => ht.eq_trans h (ht.zero_iff.2 h'), fun h' => ht.eq_trans (ht.zero_iff.2 h') h⟩

theorem filter_firstsFrom (a : Bytes) (ls : List Bytes) : ∀ seen : List Bytes,
    (s.firstsFrom seen ls).filter (s.cmpKeys a · = 0) =
      if ∃ p ∈ seen, s.cmpKeys a p = 0 then [] else (ls.filter (s.cmpKeys a · = 0)).take 1 := by
  induction ls with
  | nil =>
    intro seen
    simp [firstsFrom]
  | cons l ls ih =>
    intro seen
    rw [firstsFrom, List.filter_append, ih, List.filter_cons]
    by_cases hal : s.cmpKeys a l = 0
    · have hany : (seen.any fun p => s.cmpKeys p l == 0) = true ↔ ∃ p ∈ seen, s.cmpKeys a p = 0 := by
        simp [keys_eq_iff hal]
      have hin : ∃ p ∈ l :: seen, s.cmpKeys a p = 0 := ⟨l, .head _, hal⟩
      rw [if_pos hin]
      by_cases hseen : ∃ p ∈ seen, s.cmpKeys a p = 0
      · rw [if_pos (hany.2 hseen), if_pos hseen]
        rfl
      · rw [if_neg (hany.not.2 hseen), if_neg hseen]
        simp [hal]
    · have hnone : (if (seen.any fun p => s.cmpKeys p l == 0) = true then [] else [l]).filter
          (s.cmpKeys a · = 0) = [] := by
        split_ifs <;> simp [hal]
      have hseen : (∃ p ∈ l :: seen, s.cmpKeys a p = 0) ↔ ∃ p ∈ seen, s.cmpKeys a p = 0 := by
        simp [hal]
      rw [hnone, List.nil_append]
      simp only [hseen, hal, decide_false, Bool.false_eq_true, if_false]

theorem filter_printed (hu : s.u = true) (a : Bytes) (ls : List Bytes) : ∀ {p : Bytes},
    (p :: ls).Pairwise (fun x y => s.cmpKeys x y ≤ 0) →
    (s.printed (some p) ls).filter (s.cmpKeys a · = 0) =
      if s.cmpKeys a p = 0 then [] else (ls.filter (s.cmpKeys a · = 0)).take 1 := by
  have h := totalCmp_keys s
  induction ls with
  | nil => intro p _; simp [printed]
  | cons l ls ih =>
    intro p hsorted
    obtain ⟨hp, hl⟩ := List.pairwise_cons.1 hsorted
    have hdrop : s.dropped (some p) l = true ↔ s.cmpKeys p l = 0 := by simp [dropped, hu]
    rw [printed, List.filter_append, ih hl]
    by_cases hal : s.cmpKeys a l = 0
    · have hcons : (l :: ls).filter (s.cmpKeys a · = 0) = l :: ls.filter (s.cmpKeys a · = 0) :=
        List.filter_cons_of_pos (by simpa using hal)
      have hpa : s.cmpKeys p l = 0 ↔ s.cmpKeys a p = 0 := keys_eq_iff hal
      rw [if_pos hal, hcons]
      by_cases hap : s.cmpKeys a p = 0
      · rw [if_pos (hdrop.2 (hpa.2 hap)), if_pos hap]
        rfl
      · rw [if_neg (hdrop.not.2 (hpa.not.2 hap)), if_neg hap]
        simp [hal]
    · have hcons : (l :: ls).filter (s.cmpKeys a · = 0) = ls.filter (s.cmpKeys a · = 0) :=
        List.filter_cons_of_neg (by simpa using hal)
      have hnone : (if s.dropped (some p) l = true then [] else [l]).filter (s.cmpKeys a · = 0) = [] := by
        split_ifs <;> simp [hal]
      rw [if_neg hal, hnone, hcons, List.nil_append]
      by_cases hap : s.cmpKeys a p = 0
      · -- `l` is greater than `p`, and so is what follows
        have hpl : s.cmpKeys p l ≠ 0 := fun h' => hal (h.eq_trans hap h')
        have hlt : s.cmpKeys p l < 0 := lt_of_le_of_ne (hp l (.head _)) hpl
        have hempty : ls.filter (s.cmpKeys a · = 0) = [] := by
          refine List.filter_eq_nil_iff.2 fun x hx hax => ?_
          have hpx := h.lt_of_lt_of_le hlt ((List.pairwise_cons.1 hl).1 x hx)
          have := h.eq_trans (h.zero_iff.2 hap) (of_decide_eq_true hax)
          omega
        rw [if_pos hap, hempty]
        rfl
      · rw [if_neg hap]

/-- Behind `none`, the first line is always printed. -/
theorem filter_printed_none (hu : s.u = true) (a : Bytes) {ls : List Bytes}
    (h : ls.Pairwise fun x y => s.cmpKeys x y ≤ 0) :
    (s.printed none ls).filter (s.cmpKeys a · = 0) = (ls.filter (s.cmpKeys a · = 0)).take 1 := by
  cases ls with
  | nil => rfl
  | cons l ls =>
    have hno : s.dropped none l = false := by simp [dropped]
    rw [printed, hno, List.filter_append, filter_printed hu a ls h, List.filter_cons]
    by_cases hal : s.cmpKeys a l = 0
    · simp [hal]
    · simp [hal]

/-- **Lists with the same lines of each class are the same but for the order.** -/
theorem perm_of_filter {ls ls' : List Bytes}
    (h : ∀ a, ls.filter (s.cmpKeys a · = 0) = ls'.filter (s.cmpKeys a · = 0)) : ls.Perm ls' := by
  have hcount : ∀ (a : Bytes) (l : List Bytes), (l.filter (s.cmpKeys a · = 0)).count a = l.count a := by
    intro a l
    exact List.count_filter (by simpa using (totalCmp_keys s).refl a)
  rw [List.perm_iff_count]
  intro a
  rw [← hcount a ls, h a, hcount]

theorem printed_sublist (prev : Option Bytes) (ls : List Bytes) : (s.printed prev ls).Sublist ls := by
  induction ls generalizing prev with
  | nil => exact .slnil
  | cons l ls ih =>
    rw [printed]
    split_ifs
    · exact (ih (some l)).cons l
    · exact (ih (some l)).cons_cons l

/-- What is printed behind a line is greater. -/
theorem pairwise_printed (hu : s.u = true) (ls : List Bytes) : ∀ {prev : Option Bytes},
    ls.Pairwise (fun x y => s.cmpKeys x y ≤ 0) → (s.printed prev ls).Pairwise fun x y => s.cmpKeys x y < 0 := by
  induction ls with
  | nil => exact fun _ => .nil
  | cons l ls ih =>
    intro prev h
    obtain ⟨hl, hls⟩ := List.pairwise_cons.1 h
    rw [printed]
    split_ifs
    · exact ih hls
    · refine List.pairwise_cons.2 ⟨fun x hx => ?_, ih hls⟩
      have hne : s.cmpKeys l x ≠ 0 := by
        intro h'
        have hin : x ∈ (s.printed (some l) ls).filter (s.cmpKeys l · = 0) := List.mem_filter.2 ⟨hx, by simpa using h'⟩
        rw [filter_printed hu l ls h, if_pos ((totalCmp_keys s).refl l)] at hin
        exact absurd hin List.not_mem_nil
      exact lt_of_le_of_ne (hl x ((printed_sublist _ _).subset hx)) hne

/-- **`sort`.**  The comparison is a total preorder; `-n` compares the values of the numeric prefixes; the lines
come out sorted, and equal ones in the order of the input; with `-u` the first of each class is printed. -/
theorem sort_lines (s : Sorter) :
    ((∀ a, s.cmp a a = 0) ∧ (∀ a b, (s.cmp b a).sign = -(s.cmp a b).sign) ∧
      ∀ a b c, s.cmp a b ≤ 0 → s.cmp b c ≤ 0 → s.cmp a c ≤ 0) ∧
    (∀ a b, (cmpNum a b < 0 ↔ numVal a < numVal b) ∧ (0 < cmpNum a b ↔ numVal b < numVal a)) ∧
    ∀ lines, (s.sortMerge lines).Perm lines ∧
      (s.sortMerge lines).Pairwise (fun a b => s.cmp a b ≤ 0) ∧
      (∀ a, (s.sortMerge lines).filter (s.cmp a · = 0) = lines.filter (s.cmp a · = 0)) ∧
      (s.u = false → s.output lines = text (s.sortMerge lines)) ∧
      (s.u = true → ∃ ls, s.output lines = text ls ∧ ls.Perm (s.firsts lines) ∧
        ls.Pairwise fun a b => s.cmpKeys a b < 0) := by
  have h := totalCmp s
  refine ⟨⟨h.refl, h.anti, fun a b c => h.trans⟩, cmpNum_val, fun lines => ?_⟩
  refine ⟨perm_mergeSort _ lines, pairwise_mergeSort h lines, fun a => filter_mergeSort h a lines, fun hu => ?_,
    fun hu => ?_⟩
  · have hall : ∀ (prev : Option Bytes) (ls : List Bytes), s.printed prev ls = ls := by
      intro prev ls
      induction ls generalizing prev with
      | nil => rfl
      | cons l ls ih => simp [printed, dropped, hu, ih]
    rw [output, flatten_batches, hall]
  · have hcmp : s.cmp = s.cmpKeys := by
      funext a b
      exact if_pos (.inr (.inl hu))
    have hsorted : (s.sortMerge lines).Pairwise fun a b => s.cmpKeys a b ≤ 0 := hcmp ▸ pairwise_mergeSort h lines
    refine ⟨_, flatten_batches none _, perm_of_filter (s := s) fun a => ?_, pairwise_printed hu _ hsorted⟩
    rw [filter_printed_none hu a hsorted, firsts, filter_firstsFrom, if_neg (by simp)]
    have := filter_mergeSort h a lines
    rw [hcmp] at this
    rw [sortMerge, hcmp, this]

end Shish.Sorter
