import Mathlib.Data.List.DropRight
import Shish.Lib.Lines

/-!
# Lib/Components — what stands between separators, and putting it together

`components` are the pieces between separators that are not empty.  They are read off from the front
one by one (`components_cut`), and joined with one separator between them they are the components of
what comes out (`components_joined`).  `joined_back` takes the last one off again.
-/

namespace Shish

variable {α : Type*} [DecidableEq α] {sep : α} {a b c : List α} {cs : List (List α)}

/-- The pieces between separators that are not empty. -/
def components (sep : α) (l : List α) : List (List α) := (l.splitOn sep).filter (· ≠ [])

/-- The components with a separator between them. -/
def joined (sep : α) (cs : List (List α)) : List α := List.intercalate [sep] cs

/-- Not empty, and without a separator. -/
def IsComponent (sep : α) (c : List α) : Prop := c ≠ [] ∧ sep ∉ c

instance (sep : α) (c : List α) : Decidable (IsComponent sep c) := inferInstanceAs (Decidable (_ ∧ _))

/-! ## From the front -/

theorem components_append (a b : List α) :
    components sep (a ++ sep :: b) = components sep a ++ components sep b := by
  rw [components, splitOn_append, List.filter_append]
  rfl

@[simp] theorem components_nil : components sep ([] : List α) = [] := by
  rw [components, splitOn_text List.not_mem_nil]
  rfl

@[simp] theorem components_sep (b : List α) : components sep (sep :: b) = components sep b := by
  have h : components sep ([] ++ sep :: b) = _ := components_append [] b
  rwa [List.nil_append, components_nil, List.nil_append] at h

theorem components_text (hc : IsComponent sep c) : components sep c = [c] := by
  rw [components, splitOn_text hc.2]
  exact List.filter_cons_of_pos (by simpa using hc.1)

theorem components_dropWhile (l : List α) :
    components sep (l.dropWhile (· == sep)) = components sep l := by
  induction l with
  | nil => rfl
  | cons x l ih =>
    by_cases hx : x = sep
    · subst hx
      rw [List.dropWhile_cons_of_pos (by simp), ih, components_sep]
    · rw [List.dropWhile_cons_of_neg (by simpa using hx)]

/-- **The first component, and the rest.** -/
theorem components_cut (hc : IsComponent sep c) (hb : ∀ x ∈ b.head?, x = sep) :
    components sep (c ++ b) = c :: components sep b := by
  cases b with
  | nil => rw [List.append_nil, components_text hc, components_nil]
  | cons x b =>
    obtain rfl := hb x rfl
    rw [components_append, components_text hc, components_sep]
    rfl

theorem isComponent_of_mem {l : List α} (h : c ∈ components sep l) : IsComponent sep c := by
  induction hn : l.length using Nat.strong_induction_on generalizing l with
  | _ n ih =>
    subst hn
    rcases line_cases sep l with htext | ⟨w, b, rfl, hw⟩
    · by_cases hl : l = []
      · subst hl
        rw [components_nil] at h
        exact absurd h List.not_mem_nil
      · rw [components_text ⟨hl, htext⟩, List.mem_singleton] at h
        exact h ▸ ⟨hl, htext⟩
    · rw [components_append, List.mem_append] at h
      rcases h with h | h
      · refine ih w.length ?_ h rfl
        rw [List.length_append, List.length_cons]
        omega
      · refine ih b.length ?_ h rfl
        rw [List.length_append, List.length_cons]
        omega

/-! ## Put together -/

omit [DecidableEq α] in
@[simp] theorem joined_nil : joined sep ([] : List (List α)) = [] := rfl

omit [DecidableEq α] in
@[simp] theorem joined_singleton (c : List α) : joined sep [c] = c := by
  simp [joined]

omit [DecidableEq α] in
theorem joined_cons_cons (c c' : List α) (cs : List (List α)) :
    joined sep (c :: c' :: cs) = c ++ sep :: joined sep (c' :: cs) := by
  simp [joined, List.intercalate_cons_cons]

omit [DecidableEq α] in
theorem joined_append {ds : List (List α)} (hcs : cs ≠ []) (hds : ds ≠ []) :
    joined sep (cs ++ ds) = joined sep cs ++ sep :: joined sep ds := by
  induction cs with
  | nil => exact absurd rfl hcs
  | cons x cs ih =>
    cases cs with
    | nil =>
      obtain ⟨d, ds, rfl⟩ := List.exists_cons_of_ne_nil hds
      rw [List.cons_append, List.nil_append, joined_cons_cons, joined_singleton]
    | cons y cs =>
      have hy := ih (List.cons_ne_nil y cs)
      rw [List.cons_append] at hy
      rw [List.cons_append, List.cons_append, joined_cons_cons, hy, joined_cons_cons, List.append_assoc]
      rfl

omit [DecidableEq α] in
theorem length_le_joined {c : List α} (hc : c ∈ cs) : c.length ≤ (joined sep cs).length := by
  induction cs with
  | nil => exact absurd hc List.not_mem_nil
  | cons d cs ih =>
    cases cs with
    | nil => rw [List.mem_singleton.1 hc, joined_singleton]
    | cons e cs =>
      rw [joined_cons_cons, List.length_append, List.length_cons]
      rcases List.mem_cons.1 hc with rfl | hc
      · exact Nat.le_add_right ..
      · have := ih hc
        omega

omit [DecidableEq α] in
theorem count_le_joined (sep : α) (cs : List (List α)) : cs.length ≤ (joined sep cs).length + 1 := by
  induction cs with
  | nil => exact Nat.zero_le _
  | cons d cs ih =>
    cases cs with
    | nil => exact Nat.le_add_left ..
    | cons e cs =>
      rw [List.length_cons] at ih
      simp only [joined_cons_cons, List.length_append, List.length_cons]
      omega

omit [DecidableEq α] in
/-- One more component behind the others. -/
theorem joined_concat (hcs : cs ≠ []) (c : List α) :
    joined sep (cs ++ [c]) = joined sep cs ++ sep :: c := by
  rw [joined_append hcs (List.cons_ne_nil c []), joined_singleton]

omit [DecidableEq α] in
/-- What stands between the components in front and the last one. -/
theorem joined_between (sep : α) (cs ds : List (List α)) (c : List α) : ∃ t,
    joined sep (cs ++ ds ++ [c]) = joined sep cs ++ t ++ c ∧ (t ≠ [] → t.getLast? = some sep) ∧
      joined sep (cs ++ ds) = joined sep cs ++ t.dropLast := by
  by_cases hnil : cs ++ ds = []
  · obtain ⟨rfl, rfl⟩ := List.append_eq_nil_iff.1 hnil
    exact ⟨[], by simp, fun h => absurd rfl h, by simp⟩
  · obtain ⟨u, hu⟩ : ∃ u, joined sep (cs ++ ds) = joined sep cs ++ u := by
      by_cases hcs : cs = []
      · exact ⟨joined sep ds, by rw [hcs]; rfl⟩
      · by_cases hds : ds = []
        · exact ⟨[], by rw [hds, List.append_nil, List.append_nil]⟩
        · exact ⟨sep :: joined sep ds, joined_append hcs hds⟩
    refine ⟨u ++ [sep], ?_, fun _ => List.getLast?_concat, ?_⟩
    · rw [joined_concat hnil, hu]
      simp
    · rw [List.dropLast_concat, hu]

omit [DecidableEq α] in
theorem joined_ne_nil (hcs : ∀ c ∈ cs, IsComponent sep c) (hne : cs ≠ []) : joined sep cs ≠ [] := by
  cases cs with
  | nil => exact absurd rfl hne
  | cons c cs =>
    have hc := (hcs c (List.mem_cons_self ..)).1
    cases cs with
    | nil => rwa [joined_singleton]
    | cons c' cs =>
      rw [joined_cons_cons]
      exact List.append_ne_nil_of_left_ne_nil hc _

/-- **Joined components are the components of what comes out.** -/
theorem components_joined (hcs : ∀ c ∈ cs, IsComponent sep c) : components sep (joined sep cs) = cs := by
  induction cs with
  | nil => exact components_nil
  | cons c cs ih =>
    rw [List.forall_mem_cons] at hcs
    obtain ⟨hc, hcs⟩ := hcs
    cases cs with
    | nil => rw [joined_singleton, components_text hc]
    | cons c' cs =>
      rw [joined_cons_cons, components_append, components_text hc, ih hcs]
      rfl

omit [DecidableEq α] in
theorem head?_joined (hcs : ∀ c ∈ cs, IsComponent sep c) : ∀ x ∈ (joined sep cs).head?, x ≠ sep := by
  cases cs with
  | nil => exact nofun
  | cons c cs =>
    have hc := hcs c (List.mem_cons_self ..)
    obtain ⟨y, c, rfl⟩ := List.exists_cons_of_ne_nil hc.1
    intro x hx
    have hhead : (joined sep ((y :: c) :: cs)).head? = some y := by
      cases cs with
      | nil => rw [joined_singleton, List.head?_cons]
      | cons c' cs => rw [joined_cons_cons, List.cons_append, List.head?_cons]
    rw [hhead, Option.mem_def, Option.some.injEq] at hx
    subst hx
    rintro rfl
    exact hc.2 (List.mem_cons_self ..)

/-- **The last component is taken off**, and the separator in front of it. -/
theorem joined_back (hc : IsComponent sep c) (hcs : ∀ c ∈ cs, IsComponent sep c) :
    ((joined sep (cs ++ [c])).rdropWhile (· != sep)).rdropWhile (· == sep) = joined sep cs := by
  have hall : ∀ x ∈ c, (x != sep) = true := fun x hx => by
    rw [bne_iff_ne]
    rintro rfl
    exact hc.2 hx
  have hdrop : ∀ l : List α, (∀ x ∈ l.getLast?, x = sep) →
      (l ++ c).rdropWhile (· != sep) = l := fun l hl => by
    have hl' : l.rdropWhile (· != sep) = l := by
      rw [List.rdropWhile_eq_self_iff]
      intro hne
      simpa using hl _ (List.getLast?_eq_some_getLast hne)
    rw [List.rdropWhile, List.reverse_append, List.dropWhile_append_of_pos (by simpa using hall)]
    exact hl'
  rcases List.eq_nil_or_concat cs with rfl | ⟨cs, d, rfl⟩
  · rw [List.nil_append, joined_singleton, joined_nil]
    have := hdrop [] nofun
    rw [List.nil_append] at this
    rw [this, List.rdropWhile_nil]
  · rw [List.concat_eq_append] at hcs ⊢
    have hd := hcs d (by simp)
    rw [joined_concat (by simp) c]
    have hsep : joined sep (cs ++ [d]) ++ sep :: c = (joined sep (cs ++ [d]) ++ [sep]) ++ c := by simp
    rw [hsep, hdrop _ (by simp), List.rdropWhile_concat_pos _ _ _ (by simp),
      List.rdropWhile_eq_self_iff]
    intro hne
    have hlast : (joined sep (cs ++ [d])).getLast hne ∈ d := by
      by_cases hcs' : cs = []
      · subst hcs'
        simp only [List.nil_append, joined_singleton] at hne ⊢
        exact List.getLast_mem hne
      · simp only [joined_concat hcs' d]
        rw [List.getLast_append_of_ne_nil _ (List.cons_ne_nil _ _), List.getLast_cons hd.1]
        exact List.getLast_mem hd.1
    rw [beq_iff_eq]
    intro heq
    exact hd.2 (heq ▸ hlast)

omit [DecidableEq α] in
theorem getLast?_joined (hcs : ∀ c ∈ cs, IsComponent sep c) : ∀ x ∈ (joined sep cs).getLast?, x ≠ sep := by
  rcases List.eq_nil_or_concat cs with rfl | ⟨cs, d, rfl⟩
  · exact nofun
  · rw [List.concat_eq_append] at hcs ⊢
    have hd := hcs d (by simp)
    obtain ⟨t, ht, -⟩ := joined_between sep cs [] d
    rw [List.append_nil] at ht
    rintro x hx rfl
    rw [ht, List.getLast?_append_of_ne_nil _ hd.1] at hx
    exact hd.2 (List.mem_of_getLast? hx)

/-! ## Without what they share -/

/-- Two lists without what they have in common in front. -/
def unshared : List α → List α → List α × List α
  | x :: xs, y :: ys => if x = y then unshared xs ys else (x :: xs, y :: ys)
  | xs, ys => (xs, ys)

@[simp] theorem unshared_cons_self (x : α) (xs ys : List α) : unshared (x :: xs) (x :: ys) = unshared xs ys :=
  if_pos rfl

theorem unshared_of_ne {xs ys : List α} (h : ∀ x ∈ xs.head?, x ∉ ys.head?) : unshared xs ys = (xs, ys) := by
  unfold unshared
  split
  · rename_i x xs y ys
    exact if_neg fun heq => h x rfl (congrArg some heq.symm)
  · rfl

/-- **What they share** stands in front of either. -/
theorem exists_shared (xs ys : List α) : ∃ zs, xs = zs ++ (unshared xs ys).1 ∧ ys = zs ++ (unshared xs ys).2 ∧
    ∀ x ∈ (unshared xs ys).1.head?, x ∉ (unshared xs ys).2.head? := by
  fun_induction unshared xs ys with
  | case1 xs x ys ih =>
    obtain ⟨zs, hxs, hys, hne⟩ := ih
    exact ⟨x :: zs, congrArg (x :: ·) hxs, congrArg (x :: ·) hys, hne⟩
  | case2 x xs y ys hne =>
    refine ⟨[], rfl, rfl, fun z hz hz' => hne ?_⟩
    exact (Option.some.inj hz).trans (Option.some.inj hz').symm
  | case3 xs ys h =>
    refine ⟨[], rfl, rfl, fun z hz hz' => ?_⟩
    cases xs with
    | nil => exact nomatch hz
    | cons x xs =>
      cases ys with
      | nil => exact nomatch hz'
      | cons y ys => exact h x xs y ys rfl rfl

end Shish
