import Mathlib.Data.List.Basic

/-!
# Lib/Lines — the lines of a text, from both ends

An element `nl` ends a line, and what stands behind the last one is a line when it is not empty.
`lines_line` takes a line off the front and `lines_unlines` puts lines together again.  Read from
the end, a text falls apart at the last `nl` (`back_line`); a reader that stops as soon as nothing
is left in front of it misses an empty line at the very start (`back_eq_reverse_iff`).

`walk` collects what an iterator delivers until its end.
-/

namespace Shish

variable {α : Type*} [DecidableEq α] {nl : α} {b w : List α}

/-! ## From the front -/

/-- A text without the one `nl` at its end. -/
def chomp (nl : α) (b : List α) : List α := if b.getLast? = some nl then b.dropLast else b

/-- **The lines of a text.** -/
def lines (nl : α) (b : List α) : List (List α) := if b = [] then [] else (chomp nl b).splitOn nl

/-- How many lines a text has. -/
def lineCount (nl : α) (b : List α) : ℕ :=
  b.count nl + if b.getLast?.all (· == nl) then 0 else 1

/-- Lines put together, each with its `nl`. -/
def unlines (nl : α) (ls : List (List α)) : List α := ls.flatMap (· ++ [nl])

theorem splitOn_text (h : nl ∉ w) : w.splitOn nl = [w] := by
  rw [List.splitOn_eq_splitOnP]
  refine List.splitOnP_eq_singleton fun x hx => ?_
  rw [beq_eq_false_iff_ne]
  rintro rfl
  exact h hx

theorem splitOn_append (w b : List α) : (w ++ nl :: b).splitOn nl = w.splitOn nl ++ b.splitOn nl := by
  simp only [List.splitOn_eq_splitOnP]
  exact List.splitOnP_append_cons w b (beq_self_eq_true nl)

theorem splitOn_ne_nil (b : List α) : b.splitOn nl ≠ [] := by
  rw [List.splitOn_eq_splitOnP]
  exact List.splitOnP_ne_nil _ b

/-- A text ends at its first `nl`, or has none. -/
theorem line_cases (nl : α) (b : List α) : nl ∉ b ∨ ∃ w b', b = w ++ nl :: b' ∧ nl ∉ w := by
  by_cases h : nl ∈ b
  · obtain ⟨w, b', rfl, hw⟩ := List.append_of_mem h |>.elim fun _ _ => List.eq_append_cons_of_mem h
    exact .inr ⟨w, b', rfl, hw⟩
  · exact .inl h

/-- Read from the other end. -/
theorem last_cases (nl : α) (b : List α) : nl ∉ b ∨ ∃ b' w, b = b' ++ nl :: w ∧ nl ∉ w := by
  rcases line_cases nl b.reverse with h | ⟨w, b', hb, hw⟩
  · exact .inl (by simpa using h)
  · refine .inr ⟨b'.reverse, w.reverse, ?_, by simpa using hw⟩
    rw [← List.reverse_reverse b, hb]
    simp

@[simp] theorem chomp_append (w b : List α) : chomp nl (w ++ nl :: b) =
    if b = [] then w else w ++ nl :: chomp nl b := by
  cases b with
  | nil => simp [chomp]
  | cons c b =>
    rw [if_neg (List.cons_ne_nil c b)]
    unfold chomp
    rw [List.getLast?_append_of_ne_nil _ (List.cons_ne_nil _ _), List.getLast?_cons_cons]
    split_ifs
    · rw [List.dropLast_append_of_ne_nil (List.cons_ne_nil _ _), List.dropLast_cons_cons]
    · rfl

theorem chomp_text (h : nl ∉ w) : chomp nl w = w :=
  if_neg fun h' => h (List.mem_of_getLast? h')

@[simp] theorem lines_nil : lines nl ([] : List α) = [] := rfl

/-- **A line at the front.** -/
theorem lines_line (hw : nl ∉ w) (b : List α) : lines nl (w ++ nl :: b) = w :: lines nl b := by
  unfold lines
  rw [if_neg (by simp), chomp_append]
  split_ifs with hb
  · exact splitOn_text hw
  · rw [splitOn_append, splitOn_text hw]
    rfl

theorem lines_text (hw : nl ∉ w) (hne : w ≠ []) : lines nl w = [w] := by
  rw [lines, if_neg hne, chomp_text hw, splitOn_text hw]

/-- **Lines put together are read again.** -/
theorem lines_unlines {ls : List (List α)} (h : ∀ l ∈ ls, nl ∉ l) (b : List α) :
    lines nl (unlines nl ls ++ b) = ls ++ lines nl b := by
  induction ls with
  | nil => rfl
  | cons l ls ih =>
    have hl : unlines nl (l :: ls) ++ b = l ++ nl :: (unlines nl ls ++ b) := by simp [unlines]
    rw [hl, lines_line (h l (.head _)), ih fun l' hl' => h l' (.tail _ hl')]
    rfl

/-- A text that is empty or ends with `nl` is made of its lines. -/
theorem unlines_lines (h : b = [] ∨ b.getLast? = some nl) : unlines nl (lines nl b) = b := by
  induction hn : b.length using Nat.strongRecOn generalizing b with
  | ind n ih =>
    rcases line_cases nl b with hb | ⟨w, b', rfl, hw⟩
    · obtain rfl : b = [] := h.resolve_right fun h' => hb (List.mem_of_getLast? h')
      rfl
    · have hb' : b' = [] ∨ b'.getLast? = some nl := by
        rcases eq_or_ne b' [] with h' | h'
        · exact .inl h'
        · obtain ⟨c, t, rfl⟩ := List.exists_cons_of_ne_nil h'
          right
          rw [List.getLast?_append_of_ne_nil _ (List.cons_ne_nil _ _), List.getLast?_cons_cons] at h
          exact h.resolve_left (by simp)
      have hlt : b'.length < n := by
        rw [← hn]
        simp
        omega
      rw [lines_line hw, unlines, List.flatMap_cons, ← unlines, ih _ hlt hb' rfl]
      simp

theorem newline_notMem_lines (b : List α) : ∀ l ∈ lines nl b, nl ∉ l := by
  induction hn : b.length using Nat.strongRecOn generalizing b with
  | ind n ih =>
    rcases eq_or_ne b [] with rfl | hne
    · exact nofun
    rcases line_cases nl b with hb | ⟨w, b', rfl, hw⟩
    · rw [lines_text hb hne]
      simpa using hb
    · have hlt : b'.length < n := by
        rw [← hn]
        simp
        omega
      rw [lines_line hw]
      exact List.forall_mem_cons.2 ⟨hw, ih _ hlt b' rfl⟩

/-- A text is cut once at each `nl`. -/
theorem length_splitOn (b : List α) : (b.splitOn nl).length = b.count nl + 1 := by
  induction hn : b.length using Nat.strongRecOn generalizing b with
  | ind n ih =>
    rcases line_cases nl b with hb | ⟨w, b', rfl, hw⟩
    · rw [splitOn_text hb, List.count_eq_zero_of_not_mem hb]
      rfl
    · have hlt : b'.length < n := by
        rw [← hn]
        simp
        omega
      rw [splitOn_append, splitOn_text hw, List.length_append, ih _ hlt b' rfl, List.count_append,
        List.count_eq_zero_of_not_mem hw, List.count_cons_self]
      simp
      omega

theorem length_lines (b : List α) : (lines nl b).length = lineCount nl b := by
  rcases eq_or_ne b [] with rfl | hb
  · rfl
  obtain ⟨t, c, rfl⟩ := List.eq_nil_or_concat' b |>.resolve_left hb
  rw [lines, if_neg hb, length_splitOn, lineCount, chomp]
  by_cases hc : c = nl
  · subst hc
    simp
  · simp [hc]

/-! ## Lines with their ends -/

/-- The lines of a text, each with its `nl`; the last one may have none. -/
def endedLines (nl : α) : List α → List (List α)
  | [] => []
  | c :: t =>
      if c = nl then [c] :: endedLines nl t
      else
        match endedLines nl t with
        | [] => [[c]]
        | l :: ls => (c :: l) :: ls

@[simp] theorem endedLines_nil : endedLines nl ([] : List α) = [] := rfl

/-- A line at the front. -/
theorem endedLines_line (hw : nl ∉ w) (b : List α) :
    endedLines nl (w ++ nl :: b) = (w ++ [nl]) :: endedLines nl b := by
  induction w with
  | nil => simp [endedLines]
  | cons c w ih =>
    obtain ⟨hc, hw⟩ := not_or.1 (mt List.mem_cons.2 hw)
    rw [List.cons_append, endedLines, if_neg (Ne.symm hc), ih hw]
    rfl

theorem endedLines_text (hw : nl ∉ w) (hne : w ≠ []) : endedLines nl w = [w] := by
  induction w with
  | nil => exact absurd rfl hne
  | cons c w ih =>
    obtain ⟨hc, hw⟩ := not_or.1 (mt List.mem_cons.2 hw)
    rw [endedLines, if_neg (Ne.symm hc)]
    rcases eq_or_ne w [] with rfl | hne
    · rfl
    · rw [ih hw hne]

/-- **The lines make up the text.** -/
theorem flatten_endedLines (b : List α) : (endedLines nl b).flatten = b := by
  fun_induction endedLines nl b with
  | case1 => rfl
  | case2 t ih => simp [ih]
  | case3 c t hc heq ih =>
    rw [heq] at ih
    simp [← ih]
  | case4 c t hc l ls heq ih =>
    rw [heq] at ih
    simp [← ih]

theorem length_endedLines (b : List α) : (endedLines nl b).length = lineCount nl b := by
  induction hn : b.length using Nat.strongRecOn generalizing b with
  | ind n ih =>
    rcases line_cases nl b with hb | ⟨w, b', rfl, hw⟩
    · rcases eq_or_ne b [] with rfl | hne
      · rfl
      · obtain ⟨t, c, rfl⟩ := List.eq_nil_or_concat' b |>.resolve_left hne
        have hc : c ≠ nl := fun h => hb (by simp [h])
        rw [endedLines_text hb hne, lineCount, List.count_eq_zero_of_not_mem hb]
        simp [hc]
    · have hlt : b'.length < n := by
        rw [← hn]
        simp
        omega
      rw [endedLines_line hw, List.length_cons, ih _ hlt b' rfl, lineCount, lineCount, List.count_append,
        List.count_eq_zero_of_not_mem hw, List.count_cons_self]
      cases b' with
      | nil => simp
      | cons c t =>
        rw [List.getLast?_append_of_ne_nil _ (List.cons_ne_nil _ _), List.getLast?_cons_cons]
        omega

/-- **Behind a text that ends with `nl` a new line starts.** -/
theorem endedLines_append {d : List α} (h : d = [] ∨ d.getLast? = some nl) (b : List α) :
    endedLines nl (d ++ b) = endedLines nl d ++ endedLines nl b := by
  rw [← unlines_lines h]
  have hmem : ∀ l ∈ lines nl d, nl ∉ l := newline_notMem_lines d
  generalize lines nl d = ls at hmem
  induction ls with
  | nil => rfl
  | cons l ls ih =>
    have hl : ∀ t : List α, unlines nl (l :: ls) ++ t = l ++ nl :: (unlines nl ls ++ t) := fun t => by simp [unlines]
    have hnl := hmem l (.head _)
    rw [hl, endedLines_line hnl, ih fun l' hl' => hmem l' (.tail _ hl')]
    have := hl []
    rw [List.append_nil, List.append_nil] at this
    rw [this, endedLines_line hnl]
    rfl

/-- The first lines, where there is one more, end with `nl`. -/
theorem take_endedLines_end {b : List α} : ∀ {k : ℕ}, k ≤ b.count nl →
    ((endedLines nl b).take k).flatten = [] ∨ ((endedLines nl b).take k).flatten.getLast? = some nl := by
  induction hn : b.length using Nat.strongRecOn generalizing b with
  | ind n ih =>
    intro k hk
    rcases line_cases nl b with hb | ⟨w, b', rfl, hw⟩
    · rw [List.count_eq_zero_of_not_mem hb] at hk
      obtain rfl := Nat.le_zero.1 hk
      exact .inl rfl
    · cases k with
      | zero => exact .inl rfl
      | succ k =>
        have hlt : b'.length < n := by
          rw [← hn]
          simp
          omega
        have hk' : k ≤ b'.count nl := by
          rw [List.count_append, List.count_eq_zero_of_not_mem hw, List.count_cons_self] at hk
          omega
        right
        rw [endedLines_line hw, List.take_succ_cons, List.flatten_cons]
        rcases ih _ hlt rfl hk' with h | h
        · rw [h]
          simp
        · rw [List.getLast?_append, h]
          rfl

/-- Each line that goes takes one `nl` along. -/
theorem count_drop_endedLines {b : List α} : ∀ {k : ℕ}, k ≤ b.count nl →
    ((endedLines nl b).drop k).flatten.count nl = b.count nl - k := by
  induction hn : b.length using Nat.strongRecOn generalizing b with
  | ind n ih =>
    intro k hk
    rcases line_cases nl b with hb | ⟨w, b', rfl, hw⟩
    · rw [List.count_eq_zero_of_not_mem hb] at hk
      obtain rfl := Nat.le_zero.1 hk
      rw [List.drop_zero, flatten_endedLines]
      rfl
    · cases k with
      | zero => rw [List.drop_zero, flatten_endedLines, Nat.sub_zero]
      | succ k =>
        have hlt : b'.length < n := by
          rw [← hn]
          simp
          omega
        have hcount : (w ++ nl :: b').count nl = b'.count nl + 1 := by
          rw [List.count_append, List.count_eq_zero_of_not_mem hw, List.count_cons_self, Nat.zero_add]
        rw [hcount] at hk ⊢
        rw [endedLines_line hw, List.drop_succ_cons, ih _ hlt rfl (Nat.le_of_succ_le_succ hk)]
        omega

/-- The last `n` lines. -/
def lastLines (nl : α) (n : ℕ) (b : List α) : List α :=
  ((endedLines nl b).drop ((endedLines nl b).length - n)).flatten

/-- **What stands in front of the last lines may go**, when it ends where a line does. -/
theorem lastLines_append {d : List α} (h : d = [] ∨ d.getLast? = some nl) {n : ℕ}
    (hn : d = [] ∨ n ≤ lineCount nl b) : lastLines nl n (d ++ b) = lastLines nl n b := by
  rcases hn with rfl | hn
  · rfl
  rw [lastLines, lastLines, endedLines_append h, List.length_append, List.drop_append,
    List.drop_eq_nil_of_le (by rw [length_endedLines b]; omega), List.nil_append]
  congr 2
  rw [length_endedLines b]
  omega

/-! ## From the end -/

/-- The lines in front of a point, from the last to the first, by a reader that is at its end when
nothing is left: an empty line at the very start is not seen. -/
def back (nl : α) : List α → List (List α)
  | [] => []
  | c :: t => if c = nl then (t.splitOn nl).reverse else ((c :: t).splitOn nl).reverse

@[simp] theorem back_nil : back nl ([] : List α) = [] := rfl

/-- **The line behind the last `nl`.** -/
theorem back_line (hw : nl ∉ w) (b : List α) : back nl (b ++ nl :: w) = w :: back nl b := by
  cases b with
  | nil => simp [back, splitOn_text hw]
  | cons c t =>
    simp only [back, List.cons_append]
    split_ifs
    · rw [splitOn_append, splitOn_text hw, List.reverse_append]
      rfl
    · rw [← List.cons_append, splitOn_append, splitOn_text hw, List.reverse_append]
      rfl

theorem back_text (hw : nl ∉ w) (hne : w ≠ []) : back nl w = [w] := by
  obtain ⟨c, t, rfl⟩ := List.exists_cons_of_ne_nil hne
  have hc : c ≠ nl := fun h => hw (h ▸ .head _)
  rw [back, if_neg hc, splitOn_text hw]
  rfl

/-- **Only an empty first line is missed.** -/
theorem back_eq_reverse_iff (b : List α) :
    back nl (chomp nl b) = (lines nl b).reverse ↔ b.head? ≠ some nl := by
  cases b with
  | nil => simp [chomp]
  | cons c t =>
    have hl : lines nl (c :: t) = (chomp nl (c :: t)).splitOn nl := if_neg (List.cons_ne_nil c t)
    by_cases hc : c = nl
    · subst hc
      refine iff_of_false (fun h => ?_) (by simp)
      have hlen := congrArg List.length h
      rw [hl] at hlen
      have hch : chomp c ([] ++ c :: t) = _ := chomp_append [] t
      rw [List.nil_append] at hch
      rw [hch] at hlen
      split_ifs at hlen
      · simp at hlen
      · simp [back, length_splitOn] at hlen
    · refine iff_of_true ?_ (by simpa using hc)
      rw [hl]
      cases t with
      | nil => simp [chomp, hc, back]
      | cons d t =>
        have hch : ∃ t', chomp nl (c :: d :: t) = c :: t' := by
          unfold chomp
          split_ifs
          · exact ⟨_, rfl⟩
          · exact ⟨_, rfl⟩
        obtain ⟨t', ht⟩ := hch
        rw [ht, back, if_neg hc]

/-! ## Iterators -/

variable {σ β : Type*}

/-- All that an iterator delivers, one element a call until it says that there is no other; `none`
when a call goes wrong or the bound on the calls is too small. -/
def walk (next : σ → Option (Option β × σ)) : ℕ → σ → Option (List β)
  | 0, _ => none
  | n + 1, s =>
      match next s with
      | some (some b, s') => (walk next n s').map (b :: ·)
      | some (none, _) => some []
      | none => none

end Shish
