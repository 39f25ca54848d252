import Mathlib.Data.List.DropRight

/-!
# Lib/Split — fields between delimiters

A list is cut at the elements of a class `d`; some of these, the class `w`, are blank.  A maximal
run of delimiters counts as many times as it has elements that are not blank, and once if it has
none.  `pieces` are the pieces between the delimiters, and `split` what is left of them once blanks
at both ends, an empty piece at the end and a lone empty piece are gone.
-/

namespace Shish

variable {α : Type*} (d w : α → Bool)

/-- The pieces between the delimiters; there is always one. -/
def pieces (b : List α) : List (List α) :=
  match hb : b.dropWhile (!d ·) with
  | [] => [b]
  | c :: t =>
      b.takeWhile (!d ·) ::
        (List.replicate (((c :: t).takeWhile d).countP (!w ·) - 1) [] ++ pieces (t.dropWhile d))
termination_by b.length
decreasing_by
  have h₁ : (c :: t).length ≤ b.length := hb ▸ (List.dropWhile_sublist _).length_le
  have h₂ : (t.dropWhile d).length ≤ t.length := (List.dropWhile_sublist _).length_le
  simp only [List.length_cons] at h₁
  omega

/-- A delimiter at the end adds no piece. -/
def dropEnd (fs : List (List α)) : List (List α) :=
  if fs.getLast?.all List.isEmpty then fs.dropLast else fs

/-- One empty piece alone is none. -/
def dropLone (fs : List (List α)) : List (List α) :=
  if fs.all List.isEmpty && fs.length == 1 then [] else fs

/-- **The fields of a list**: blanks at both ends are ignored. -/
def split (b : List α) : List (List α) :=
  dropLone (dropEnd (pieces d w ((b.dropWhile w).rdropWhile w)))

section Pieces

variable {d w} {b x y : List α} {c : α}

/-- The head of what `dropWhile` leaves. -/
theorem not_of_dropWhile_eq {p : α → Bool} {t : List α} (h : b.dropWhile p = c :: t) :
    p c = false := by
  have := List.head?_dropWhile_not p b
  simpa [h] using this

theorem takeWhile_append_of {p : α → Bool} (hx : ∀ a ∈ x, p a) (hy : ∀ a ∈ y.head?, p a = false) :
    (x ++ y).takeWhile p = x := by
  rw [List.takeWhile_append_of_pos hx]
  cases y with
  | nil => simp
  | cons a t => simp [hy a rfl]

theorem dropWhile_append_of {p : α → Bool} (hx : ∀ a ∈ x, p a) (hy : ∀ a ∈ y.head?, p a = false) :
    (x ++ y).dropWhile p = y := by
  rw [List.dropWhile_append_of_pos hx]
  cases y with
  | nil => simp
  | cons a t => simp [hy a rfl]

/-- Text alone is one piece. -/
theorem pieces_text (h : ∀ a ∈ b, d a = false) : pieces d w b = [b] := by
  have hb : b.dropWhile (!d ·) = [] := by
    rw [List.dropWhile_eq_nil_iff]
    simpa using h
  rw [pieces]
  split
  · rfl
  · rename_i h'
    rw [hb] at h'
    exact absurd h' nofun

/-- **Text, a run of delimiters and the rest.** -/
theorem pieces_run {r : List α} (hx : ∀ a ∈ x, d a = false) (hr : ∀ a ∈ r, d a) (hr' : r ≠ [])
    (hy : ∀ a ∈ y.head?, d a = false) :
    pieces d w (x ++ (r ++ y)) =
      x :: (List.replicate (r.countP (!w ·) - 1) [] ++ pieces d w y) := by
  obtain ⟨c, t, rfl⟩ := List.exists_cons_of_ne_nil hr'
  have hx' : ∀ a ∈ x, (!d a) = true := by simpa using hx
  have hhead : ∀ a ∈ ((c :: t) ++ y).head?, (!d a) = false := by simpa using hr c List.mem_cons_self
  have hdrop : (x ++ ((c :: t) ++ y)).dropWhile (!d ·) = c :: (t ++ y) :=
    dropWhile_append_of hx' hhead
  have htake : (x ++ ((c :: t) ++ y)).takeWhile (!d ·) = x := takeWhile_append_of hx' hhead
  rw [pieces]
  split
  · rename_i h
    rw [hdrop] at h
    exact absurd h nofun
  · rename_i c' t' h
    rw [hdrop] at h
    obtain ⟨rfl, rfl⟩ := List.cons.inj h
    have hrun : (c :: (t ++ y)).takeWhile d = c :: t := takeWhile_append_of (x := c :: t) hr hy
    rw [htake, hrun, dropWhile_append_of (fun a ha => hr a (List.mem_cons_of_mem _ ha)) hy]

theorem pieces_ne_nil (b : List α) : pieces d w b ≠ [] := by
  rw [pieces]
  split <;> exact List.cons_ne_nil _ _

/-- Only the empty list is one empty piece. -/
theorem eq_nil_of_pieces (h : pieces d w b = [[]]) : b = [] := by
  rw [pieces] at h
  split at h
  · exact (List.cons.inj h).1
  · rename_i c t _
    have := (List.append_eq_nil_iff.1 (List.cons.inj h).2).2
    exact absurd this (pieces_ne_nil _)

/-- Every list is text, or text, a run of delimiters and a rest that does not start with one. -/
theorem cut_cases (d : α → Bool) (b : List α) :
    (∀ a ∈ b, d a = false) ∨ ∃ x r y, b = x ++ (r ++ y) ∧ (∀ a ∈ x, d a = false) ∧ (∀ a ∈ r, d a) ∧
      r ≠ [] ∧ (∀ a ∈ y.head?, d a = false) ∧ y.length < b.length := by
  by_cases h : ∀ a ∈ b, d a = false
  · exact .inl h
  right
  have hb : b.dropWhile (!d ·) ≠ [] := by
    rw [Ne, List.dropWhile_eq_nil_iff]
    simpa using h
  obtain ⟨c, t, hct⟩ := List.exists_cons_of_ne_nil hb
  have hc : d c = true := by simpa using not_of_dropWhile_eq hct
  refine ⟨b.takeWhile (!d ·), (c :: t).takeWhile d, (c :: t).dropWhile d, ?_, ?_, ?_, ?_, ?_, ?_⟩
  · rw [List.takeWhile_append_dropWhile, ← hct, List.takeWhile_append_dropWhile]
  · intro a ha
    simpa using List.mem_takeWhile_imp ha
  · exact fun a ha => List.mem_takeWhile_imp ha
  · simp [hc]
  · intro a ha
    have := List.head?_dropWhile_not d (c :: t)
    rw [Option.mem_def.1 ha] at this
    simpa using this
  · have h₁ : (c :: t).length ≤ b.length := hct ▸ (List.dropWhile_sublist _).length_le
    have h₂ : (t.dropWhile d).length ≤ t.length := (List.dropWhile_sublist _).length_le
    rw [List.dropWhile_cons, if_pos hc]
    simp only [List.length_cons] at h₁
    omega

/-- **Induction over the runs of delimiters.** -/
theorem cut_induction (d : α → Bool) {P : List α → Prop} (text : ∀ b, (∀ a ∈ b, d a = false) → P b)
    (run : ∀ x r y, (∀ a ∈ x, d a = false) → (∀ a ∈ r, d a) → r ≠ [] →
      (∀ a ∈ y.head?, d a = false) → P y → P (x ++ (r ++ y))) (b : List α) : P b := by
  induction hn : b.length using Nat.strong_induction_on generalizing b with
  | _ n ih =>
    rcases cut_cases d b with hb | ⟨x, r, y, rfl, hx, hr, hr', hy, hlt⟩
    · exact text b hb
    · exact run x r y hx hr hr' hy (ih _ (hn ▸ hlt) y rfl)

/-- **More text goes on with the last piece.** -/
theorem pieces_append (hx : ∀ a ∈ x.getLast?, d a = false) (hx' : x ≠ []) :
    ∃ fs z, z ≠ [] ∧ pieces d w x = fs ++ [z] ∧ pieces d w (x ++ y) = fs ++ pieces d w (z ++ y) := by
  induction x using cut_induction d with
  | text x h => exact ⟨[], x, hx', by rw [pieces_text h]; rfl, rfl⟩
  | run x r z h hr hr' hz ih =>
    rcases eq_or_ne z [] with rfl | hz'
    · obtain ⟨r, c, rfl⟩ := List.eq_nil_or_concat' r |>.resolve_left hr'
      have hc : d c = false := hx c (by simp)
      exact absurd (hr c (by simp)) (by simp [hc])
    · have hlast : (x ++ (r ++ z)).getLast? = z.getLast? := by
        rw [← List.append_assoc, List.getLast?_append_of_ne_nil _ hz']
      obtain ⟨fs, u, hu, hfs, hfs'⟩ := ih (hlast ▸ hx) hz'
      have hzy : ∀ a ∈ (z ++ y).head?, d a = false := by
        rwa [List.head?_append_of_ne_nil _ hz']
      refine ⟨x :: (List.replicate (r.countP (!w ·) - 1) [] ++ fs), u, hu, ?_, ?_⟩
      · rw [pieces_run h hr hr' hz, hfs]
        simp
      · rw [List.append_assoc, List.append_assoc, pieces_run h hr hr' hzy, hfs']
        simp

theorem countP_dropWhile (p : α → Bool) (r : List α) :
    (r.dropWhile p).countP (!p ·) = r.countP (!p ·) := by
  conv_rhs => rw [← List.takeWhile_append_dropWhile (p := p) (l := r), List.countP_append]
  have : (r.takeWhile p).countP (!p ·) = 0 := by
    rw [List.countP_eq_zero]
    intro a ha
    simp [List.mem_takeWhile_imp ha]
  omega

/-- A run in front, behind the blanks it starts with: an empty piece for each delimiter. -/
theorem pieces_front {r : List α} (hw : ∀ a, w a → d a) (hr : ∀ a ∈ r, d a)
    (hy : ∀ a ∈ y.head?, d a = false) :
    pieces d w ((r ++ y).dropWhile w) =
      List.replicate (r.countP (!w ·)) [] ++ pieces d w y := by
  have hyw : ∀ a ∈ y.head?, w a = false := fun a ha => by
    by_contra hne
    exact absurd (hw a (by simpa using hne)) (by simp [hy a ha])
  rw [← countP_dropWhile w r]
  rcases eq_or_ne (r.dropWhile w) [] with hnil | hne
  · rw [hnil, dropWhile_append_of (List.dropWhile_eq_nil_iff.1 hnil) hyw]
    rfl
  · have hrun : ∀ a ∈ r.dropWhile w, d a := fun a ha => hr a ((List.dropWhile_sublist _).subset ha)
    have hcount : (r.dropWhile w).countP (!w ·) ≠ 0 := by
      obtain ⟨c, t, hct⟩ := List.exists_cons_of_ne_nil hne
      rw [hct, List.countP_cons, not_of_dropWhile_eq hct]
      simp
    have := pieces_run (w := w) (x := []) nofun hrun hne hy
    rw [List.nil_append] at this
    rw [List.dropWhile_append, if_neg (by simpa using hne), this, ← List.cons_append,
      ← List.replicate_succ, Nat.sub_add_cancel (Nat.pos_of_ne_zero hcount)]

/-- Splitting looks at the classes only. -/
theorem pieces_map {β : Type*} (f : β → α) (b : List β) :
    pieces d w (b.map f) = (pieces (d ∘ f) (w ∘ f) b).map (List.map f) := by
  induction b using cut_induction (d ∘ f) with
  | text b hb =>
    rw [pieces_text hb, pieces_text]
    · rfl
    · simpa using hb
  | run x r y hx hr hr' hy ih =>
    have h₁ : ∀ a ∈ x.map f, d a = false := by simpa using hx
    have h₂ : ∀ a ∈ r.map f, d a := by simpa using hr
    have h₃ : ∀ a ∈ (y.map f).head?, d a = false := by
      intro a ha
      rw [List.head?_map] at ha
      obtain ⟨c, hc, rfl⟩ := Option.map_eq_some_iff.1 ha
      exact hy c hc
    rw [List.map_append, List.map_append, pieces_run h₁ h₂ (by simpa using hr') h₃,
      pieces_run hx hr hr' hy, ih]
    simp [List.countP_map, Function.comp_def]

theorem dropLone_of_ne {fs : List (List α)} (h : fs ≠ [[]]) : dropLone fs = fs := by
  unfold dropLone
  split_ifs with h'
  · simp only [Bool.and_eq_true, beq_iff_eq] at h'
    obtain ⟨f, rfl⟩ := List.length_eq_one_iff.1 h'.2
    simp_all
  · rfl

theorem dropEnd_append {fs gs : List (List α)} (h : gs ≠ []) :
    dropEnd (fs ++ gs) = fs ++ dropEnd gs := by
  unfold dropEnd
  rw [List.getLast?_append_of_ne_nil _ h, List.dropLast_append_of_ne_nil h]
  split_ifs <;> rfl

theorem dropEnd_map {β : Type*} (f : β → α) (fs : List (List β)) :
    dropEnd (fs.map (List.map f)) = (dropEnd fs).map (List.map f) := by
  have h : (fs.map (List.map f)).getLast?.all List.isEmpty = fs.getLast?.all List.isEmpty := by
    rw [List.getLast?_map]
    cases fs.getLast? with
    | none => rfl
    | some g => cases g <;> rfl
  unfold dropEnd
  rw [h, ← List.map_dropLast]
  split_ifs <;> rfl

theorem dropLone_map {β : Type*} (f : β → α) (fs : List (List β)) :
    dropLone (fs.map (List.map f)) = (dropLone fs).map (List.map f) := by
  unfold dropLone
  have h : (fs.map (List.map f)).all List.isEmpty = fs.all List.isEmpty := by
    rw [List.all_map]
    congr 1
    funext g
    cases g <;> rfl
  rw [h, List.length_map]
  split_ifs <;> rfl

/-- **Blanks at the end make no difference.** -/
theorem dropEnd_pieces_blank (hw : ∀ a, w a → d a) (hx : x ≠ []) (hy : ∀ a ∈ y, w a) :
    dropEnd (pieces d w (x ++ y)) = dropEnd (pieces d w x) := by
  rcases eq_or_ne y [] with rfl | hy'
  · rw [List.append_nil]
  have hyd : ∀ a ∈ y, d a := fun a ha => hw a (hy a ha)
  have hcount : y.countP (!w ·) = 0 := by
    rw [List.countP_eq_zero]
    simpa using hy
  induction x using cut_induction d with
  | text x h =>
    have hnil : ∀ a ∈ ([] : List α).head?, d a = false := nofun
    have := pieces_run (w := w) h hyd hy' hnil
    rw [List.append_nil] at this
    rw [this, pieces_text h, hcount, pieces_text nofun]
    simp [dropEnd, hx]
  | run x r z h hr hr' hz ih =>
    rcases eq_or_ne z [] with rfl | hz'
    · have hry : ∀ a ∈ r ++ y, d a := by
        intro a ha
        exact (List.mem_append.1 ha).elim (hr a) (hyd a)
      have hne : r ++ y ≠ [] := List.append_ne_nil_of_left_ne_nil hr' y
      have h₁ := pieces_run (w := w) h hry hne hz
      have h₂ := pieces_run (w := w) h hr hr' hz
      rw [List.countP_append, hcount, Nat.add_zero, ← h₂, List.append_nil] at h₁
      rw [List.append_nil, List.append_assoc, h₁, List.append_nil]
    · have hzy : ∀ a ∈ (z ++ y).head?, d a = false := by
        rwa [List.head?_append_of_ne_nil _ hz']
      rw [List.append_assoc, List.append_assoc, pieces_run h hr hr' hzy, pieces_run h hr hr' hz,
        ← List.cons_append, ← List.cons_append, dropEnd_append (pieces_ne_nil _), ih hz',
        dropEnd_append (pieces_ne_nil _)]

/-- It is enough to ignore the blanks in front. -/
theorem split_eq (hw : ∀ a, w a → d a) (b : List α) :
    split d w b = dropLone (dropEnd (pieces d w (b.dropWhile w))) := by
  unfold split
  congr 1
  set x := b.dropWhile w with hx
  rcases eq_or_ne (x.rdropWhile w) [] with h | h
  · have hx' : x = [] := by
      rw [List.rdropWhile_eq_nil_iff] at h
      by_contra hne
      obtain ⟨c, t, hc⟩ := List.exists_cons_of_ne_nil hne
      have := not_of_dropWhile_eq (hx ▸ hc)
      rw [h c (by rw [hc]; exact List.mem_cons_self)] at this
      exact absurd this nofun
    rw [hx']
    rfl
  · conv_rhs => rw [← List.rdropWhile_append_rtakeWhile (p := w) (l := x)]
    exact (dropEnd_pieces_blank hw h fun a ha => List.mem_rtakeWhile_imp ha).symm

end Pieces

end Shish
