import Mathlib.Order.Interval.Set.Defs
import Mathlib.Data.Set.Insert
import Mathlib.Data.Nat.Basic
import Shish.Lib.Bytes
import Shish.Lib.Insertion

/-!
# Filter/Ranges — the list of `cut`

`cut_item` reads one item of a list and `cut_list` sorts the ranges and merges those that overlap or touch.
What it stores are ranges with a gap between any two, and a position is in one of them exactly if an item names
it (`cutList_ranges`).
-/

namespace Shish.Cut

/-- `CUT_MAX`. -/
def cutMax : UInt64 := 0xffffffffffffffff

/-- `struct range`, as `cut_item` builds it. -/
structure Range where
  lo : UInt64
  hi : UInt64
  pos : lo ≠ 0
  le : lo ≤ hi
  deriving DecidableEq

/-- A position in a range; `CUT_MAX` is no bound. -/
def Range.Has (r : Range) (k : ℕ) : Prop := r.lo.toNat ≤ k ∧ (k ≤ r.hi.toNat ∨ r.hi = cutMax)

instance (r : Range) (k : ℕ) : Decidable (r.Has k) := inferInstanceAs (Decidable (_ ∧ _))

/-- A position in one of the ranges. -/
def Selected (rs : List Range) (k : ℕ) : Prop := ∃ r ∈ rs, r.Has k

instance (rs : List Range) : DecidablePred (Selected rs) := fun k => inferInstanceAs (Decidable (∃ r ∈ rs, r.Has k))

/-- There is a gap between two ranges. -/
def Range.Before (a b : Range) : Prop := a.hi.toNat + 1 < b.lo.toNat

/-! ## One item -/

/-- `'-'`. -/
def dash : UInt8 := '-'.toUInt8

/-- The variables of `cut_item`. -/
structure Item where
  lo : UInt64 := 0
  hi : UInt64 := 0
  haslo : Bool := false
  hashi : Bool := false
  dash : Bool := false

/-- A digit behind a number; `none` when it might not fit. -/
def push (v : UInt64) (c : UInt8) : Option UInt64 :=
  if (cutMax - 9) / 10 < v then none else some (v * 10 + (digit c).toUInt64)

/-- The body of `cut_item`'s loop. -/
def Item.step (it : Item) (c : UInt8) : Option Item :=
  if c = Cut.dash ∧ ¬ it.dash then some { it with dash := true }
  else if isDigit c then
    if it.dash then (push it.hi c).map fun hi => { it with hi, hashi := true }
    else (push it.lo c).map fun lo => { it with lo, haslo := true }
  else none

/-- The end of `cut_item`. -/
def Item.range (it : Item) : Option Range :=
  if !it.haslo && !it.hashi then none
  else
    let lo := if it.dash && !it.haslo then 1 else it.lo
    let hi := if !it.dash then it.lo else if it.haslo && !it.hashi then cutMax else it.hi
    if h : lo = 0 ∨ hi < lo then none
    else some ⟨lo, hi, (not_or.1 h).1, UInt64.not_lt.1 (not_or.1 h).2⟩

/-- `cut_item`. -/
def cutItem (s : Bytes) : Option Range := (s.foldlM Item.step {}).bind Item.range

/-! ## The list -/

/-- What stands between two items. -/
def separator (c : UInt8) : Bool := c == ','.toUInt8 || c == ' '.toUInt8 || c == '\t'.toUInt8

/-- The items of a list. -/
def items (s : Bytes) : List Bytes := s.splitOnP separator

/-- The first loop of `cut_list`: all items are read, or the list is wrong. -/
def cutItems : List Bytes → Option (List Range)
  | [] => some []
  | s :: ss => (cutItem s).bind fun r => (cutItems ss).map (r :: ·)

/-- The insertion sort, by the lower ends. -/
def sortRanges (rs : List Range) : List Range := insertionSort (fun a b => b.lo < a.lo) rs

/-- A range that reaches up to another's end. -/
def Range.extend (r : Range) (x : Range) : Range :=
  if h : r.hi < x.hi then { r with hi := x.hi, le := UInt64.le_of_lt (UInt64.lt_of_le_of_lt r.le h) } else r

/-- The last loop of `cut_list`, with `c->r[j]`; a successor of `CUT_MAX` is 0. -/
def merge (r : Range) : List Range → List Range
  | [] => [r]
  | x :: xs => if x.lo ≤ r.hi ∨ x.lo = r.hi + 1 then merge (r.extend x) xs else r :: merge x xs

/-- `cut_list`: the ranges it stores. -/
def cutList (s : Bytes) : Option (List Range) :=
  (cutItems (items s)).map fun rs =>
    match sortRanges rs with
    | [] => []
    | r :: rs => merge r rs

/-! ## What an item means -/

/-- The number that digits stand for. -/
def value (d : Bytes) : ℕ := d.foldl (fun v c => v * 10 + (digit c).toNat) 0

/-- Digits and their number. -/
structure Number (d : Bytes) (n : ℕ) : Prop where
  ne_nil : d ≠ []
  digits : d.all isDigit
  value : value d = n

/-- **The positions an item names**: `N`, `N-M`, `N-` and `-M`. -/
inductive Names : Bytes → Set ℕ → Prop
  | one {d n} : Number d n → Names d {n}
  | between {d e m n} : Number d m → Number e n → Names (d ++ dash :: e) (Set.Icc m n)
  | above {d m} : Number d m → Names (d ++ [dash]) (Set.Ici m)
  | below {e n} : Number e n → Names (dash :: e) (Set.Icc 1 n)

/-! ## Reading an item -/

theorem value_append (d : Bytes) (c : UInt8) : value (d ++ [c]) = value d * 10 + (digit c).toNat := by
  simp [value]

/-- **No digit overflows**, and a number stays below `CUT_MAX`. -/
theorem push_eq_some {v v' : UInt64} {c : UInt8} (h : push v c = some v') (hc : isDigit c = true) :
    v'.toNat = v.toNat * 10 + (digit c).toNat ∧ v'.toNat < cutMax.toNat := by
  unfold push at h
  split_ifs at h with hv
  obtain rfl := Option.some.inj h
  have hmax : ((cutMax - 9) / 10).toNat = 1844674407370955160 := by decide
  have hle : v.toNat ≤ 1844674407370955160 := hmax ▸ UInt64.le_iff_toNat_le.1 (UInt64.not_lt.1 hv)
  have hdigit := digit_le hc
  have hval : (v * 10 + (digit c).toUInt64).toNat = v.toNat * 10 + (digit c).toNat := by
    have hten : (10 : UInt64).toNat = 10 := rfl
    rw [UInt64.toNat_add, UInt64.toNat_mul, UInt8.toNat_toUInt64, hten]
    omega
  rw [hval]
  have hcut : cutMax.toNat = 18446744073709551615 := rfl
  exact ⟨rfl, by omega⟩

/-- What the variables say about the bytes read so far. -/
inductive Item.Read : Item → Bytes → Prop
  | plain {s : Bytes} {lo : UInt64} : s.all isDigit → value s = lo.toNat → lo.toNat < cutMax.toNat →
      Item.Read ⟨lo, 0, !s.isEmpty, false, false⟩ s
  | dashed {d e : Bytes} {lo hi : UInt64} : d.all isDigit → e.all isDigit → value d = lo.toNat →
      value e = hi.toNat → lo.toNat < cutMax.toNat → hi.toNat < cutMax.toNat →
      Item.Read ⟨lo, hi, !d.isEmpty, !e.isEmpty, true⟩ (d ++ Cut.dash :: e)

theorem isEmpty_append_digit (d : Bytes) (c : UInt8) : (d ++ [c]).isEmpty = false := by
  cases d <;> rfl

theorem all_append_digit {d : Bytes} {c : UInt8} (hd : d.all isDigit) (hc : isDigit c = true) :
    (d ++ [c]).all isDigit := by
  simpa [hc] using hd

/-- **One byte.** -/
theorem Item.Read.step {it it' : Item} {s : Bytes} (h : it.Read s) {c : UInt8} (hstep : it.step c = some it') :
    it'.Read (s ++ [c]) := by
  unfold Item.step at hstep
  split_ifs at hstep with hdash hdigit hd
  · obtain rfl := Option.some.inj hstep
    cases h with
    | plain hs hval hlt =>
      have := @Item.Read.dashed s [] _ 0 hs rfl hval rfl hlt (by decide)
      rwa [← hdash.1] at this
    | dashed => exact absurd rfl hdash.2
  · obtain ⟨hi, hpush, rfl⟩ := Option.map_eq_some_iff.1 hstep
    obtain ⟨hval', hlt'⟩ := push_eq_some hpush hdigit
    cases h with
    | plain => cases hd
    | dashed hs he hlo hhi hlt hlt₂ =>
      rw [List.append_assoc, List.cons_append]
      have := Item.Read.dashed hs (all_append_digit he hdigit) hlo
        ((value_append _ c).trans ((congrArg (· * 10 + (digit c).toNat) hhi).trans hval'.symm)) hlt hlt'
      rwa [isEmpty_append_digit] at this
  · obtain ⟨lo, hpush, rfl⟩ := Option.map_eq_some_iff.1 hstep
    obtain ⟨hval', hlt'⟩ := push_eq_some hpush hdigit
    cases h with
    | plain hs hval hlt =>
      have := Item.Read.plain (all_append_digit hs hdigit)
        ((value_append _ c).trans ((congrArg (· * 10 + (digit c).toNat) hval).trans hval'.symm)) hlt'
      rwa [isEmpty_append_digit] at this
    | dashed => exact absurd rfl hd

/-- All the bytes. -/
theorem Item.Read.foldlM (t : Bytes) : ∀ {it it' : Item} {s : Bytes}, it.Read s →
    t.foldlM Item.step it = some it' → it'.Read (s ++ t) := by
  induction t with
  | nil =>
    intro it it' s h heq
    obtain rfl := Option.some.inj heq
    rwa [List.append_nil]
  | cons c t ih =>
    intro it it' s h heq
    obtain ⟨it₁, hstep, heq⟩ := Option.bind_eq_some_iff.1 ((List.foldlM_cons).symm.trans heq)
    have := ih (h.step hstep) heq
    rwa [List.append_assoc] at this

theorem has_bounded {r : Range} (h : r.hi.toNat < cutMax.toNat) (k : ℕ) :
    r.Has k ↔ r.lo.toNat ≤ k ∧ k ≤ r.hi.toNat := by
  have hne : r.hi ≠ cutMax := fun h' => by simp [h'] at h
  simp [Range.Has, hne]

/-- **An item names the positions in its range.** -/
theorem cutItem_names {s : Bytes} {r : Range} (h : cutItem s = some r) :
    ∃ S, Names s S ∧ ∀ k, r.Has k ↔ k ∈ S := by
  obtain ⟨it, hit, hr⟩ := Option.bind_eq_some_iff.1 h
  have hread : it.Read s := Item.Read.foldlM s (s := []) (.plain rfl rfl (by decide)) hit
  unfold Item.range at hr
  extract_lets lo hi at hr
  split_ifs at hr with hnone hbad
  obtain rfl := Option.some.inj hr
  cases hread with
  | plain hs hval hlt =>
    have hne : s ≠ [] := by simpa using hnone
    refine ⟨_, .one ⟨hne, hs, rfl⟩, fun k => ?_⟩
    rw [has_bounded hlt, Set.mem_singleton_iff, hval]
    exact ⟨fun h => Nat.le_antisymm h.2 h.1, fun h => h ▸ ⟨Nat.le_refl _, Nat.le_refl _⟩⟩
  | @dashed d e l m hd he hlo hhi hlt hlt₂ =>
    rcases eq_or_ne d [] with rfl | hdne
    · have hene : e ≠ [] := by simpa using hnone
      refine ⟨_, .below ⟨hene, he, rfl⟩, fun k => ?_⟩
      rw [has_bounded hlt₂, Set.mem_Icc, hhi]
      exact Iff.rfl
    · have hdemp : d.isEmpty = false := by simpa using hdne
      rcases eq_or_ne e [] with rfl | hene
      · refine ⟨_, .above ⟨hdne, hd, rfl⟩, fun k => ?_⟩
        rw [Set.mem_Ici, hlo]
        simp [Range.Has, lo, hi, hdemp]
      · have heemp : e.isEmpty = false := by simpa using hene
        refine ⟨_, .between ⟨hdne, hd, rfl⟩ ⟨hene, he, rfl⟩, fun k => ?_⟩
        have hlo' : lo = l := by simp [lo, hdemp]
        have hhi' : hi = m := by simp [hi, hdemp, heemp]
        refine (has_bounded (congrArg UInt64.toNat hhi' ▸ hlt₂) k).trans ?_
        change lo.toNat ≤ k ∧ k ≤ hi.toNat ↔ _
        rw [Set.mem_Icc, hlo, hhi, hlo', hhi']

/-! ## Sorting and merging -/

/-- **The ranges are sorted by their lower ends.** -/
theorem sortRanges_spec (rs : List Range) :
    (sortRanges rs).Pairwise (fun a b => a.lo ≤ b.lo) ∧ (sortRanges rs).Perm rs := by
  refine ⟨sorted_insertionSort ?_ ?_ ?_ rs, perm_pass 1 rs⟩
  · exact fun a b h => UInt64.le_of_lt (of_decide_eq_true h)
  · exact fun a b h => UInt64.not_lt.1 (of_decide_eq_false h)
  · exact fun a b c => UInt64.le_trans

@[simp] theorem extend_lo (r x : Range) : (r.extend x).lo = r.lo := by
  unfold Range.extend
  split_ifs <;> rfl

theorem succ_toNat {a b : UInt64} (h : a < b) : (a + 1).toNat = a.toNat + 1 := by
  have hlt := UInt64.lt_iff_toNat_lt.1 h
  have hb := b.toNat_lt
  have hone : (1 : UInt64).toNat = 1 := rfl
  rw [UInt64.toNat_add, hone, Nat.mod_eq_of_lt (by omega)]

theorem lt_cutMax {a b : UInt64} (h : a < b) : a ≠ cutMax := by
  rintro rfl
  have hlt := UInt64.lt_iff_toNat_lt.1 h
  have hb := b.toNat_lt
  have hmax : cutMax.toNat = 18446744073709551615 := rfl
  omega

/-- Two ranges that overlap or touch are one. -/
theorem extend_has {r x : Range} (hle : r.lo ≤ x.lo) (h : x.lo ≤ r.hi ∨ x.lo = r.hi + 1) (k : ℕ) :
    (r.extend x).Has k ↔ r.Has k ∨ x.Has k := by
  have hle' := UInt64.le_iff_toNat_le.1 hle
  unfold Range.extend
  split_ifs with hlt
  · have hreach : x.lo.toNat ≤ r.hi.toNat + 1 := by
      rcases h with h | h
      · exact Nat.le_succ_of_le (UInt64.le_iff_toNat_le.1 h)
      · rw [h, succ_toNat hlt]
    have hlt' := UInt64.lt_iff_toNat_lt.1 hlt
    simp only [Range.Has, lt_cutMax hlt, or_false]
    by_cases hx : x.hi = cutMax
    · simp only [hx, or_true, and_true]
      omega
    · simp only [hx, or_false]
      omega
  · have hle₂ := UInt64.le_iff_toNat_le.1 (UInt64.not_lt.1 hlt)
    have hend : x.hi = cutMax → r.hi = cutMax := by
      intro hmax
      have hval : cutMax.toNat = 18446744073709551615 := rfl
      have := r.hi.toNat_lt
      refine UInt64.toNat_inj.1 ?_
      rw [hmax] at hle₂
      omega
    exact ⟨.inl, fun h => h.elim id fun hx =>
      ⟨Nat.le_trans hle' hx.1, hx.2.imp (Nat.le_trans · hle₂) hend⟩⟩

/-- A range that is too far away to touch. -/
theorem before_of_not_touch {r x : Range} (h : ¬ (x.lo ≤ r.hi ∨ x.lo = r.hi + 1)) :
    r.hi.toNat + 1 < x.lo.toNat := by
  obtain ⟨h₁, h₂⟩ := not_or.1 h
  have hlt := UInt64.not_le.1 h₁
  have hne : x.lo.toNat ≠ r.hi.toNat + 1 := fun h => h₂ (UInt64.toNat_inj.1 (h.trans (succ_toNat hlt).symm))
  have := UInt64.lt_iff_toNat_lt.1 hlt
  omega

theorem merge_spec (xs : List Range) : ∀ {r : Range}, (r :: xs).Pairwise (fun a b => a.lo ≤ b.lo) →
    (merge r xs).Pairwise Range.Before ∧ (∀ y ∈ merge r xs, r.lo ≤ y.lo) ∧
      ∀ k, Selected (merge r xs) k ↔ Selected (r :: xs) k := by
  induction xs with
  | nil =>
    intro r _
    exact ⟨List.pairwise_singleton _ r, fun y hy => List.mem_singleton.1 hy ▸ UInt64.le_refl _, fun k => Iff.rfl⟩
  | cons x xs ih =>
    intro r h
    obtain ⟨hr, hx⟩ := List.pairwise_cons.1 h
    have hrx := hr x (.head _)
    rw [merge]
    split_ifs with htouch
    · have hpair : (r.extend x :: xs).Pairwise fun a b => a.lo ≤ b.lo := by
        refine List.pairwise_cons.2 ⟨fun y hy => ?_, (List.pairwise_cons.1 hx).2⟩
        rw [extend_lo]
        exact hr y (.tail _ hy)
      obtain ⟨h₁, h₂, h₃⟩ := ih hpair
      refine ⟨h₁, fun y hy => extend_lo r x ▸ h₂ y hy, fun k => ?_⟩
      rw [h₃]
      simp only [Selected, List.exists_mem_cons_iff, extend_has hrx htouch, or_assoc]
    · obtain ⟨h₁, h₂, h₃⟩ := ih hx
      refine ⟨List.pairwise_cons.2 ⟨fun y hy => ?_, h₁⟩, ?_, fun k => ?_⟩
      · exact Nat.lt_of_lt_of_le (before_of_not_touch htouch) (UInt64.le_iff_toNat_le.1 (h₂ y hy))
      · exact List.forall_mem_cons.2 ⟨UInt64.le_refl _, fun y hy => UInt64.le_trans hrx (h₂ y hy)⟩
      · simp only [Selected, List.exists_mem_cons_iff] at h₃ ⊢
        rw [h₃]

/-! ## The whole list -/

theorem cutItems_forall₂ : ∀ {ss : List Bytes} {rs : List Range}, cutItems ss = some rs →
    List.Forall₂ (fun s r => cutItem s = some r) ss rs
  | [], rs, h => by
      obtain rfl := Option.some.inj h
      exact .nil
  | s :: ss, rs, h => by
      obtain ⟨r, hr, h⟩ := Option.bind_eq_some_iff.1 h
      obtain ⟨rs, hrs, rfl⟩ := Option.map_eq_some_iff.1 h
      exact .cons hr (cutItems_forall₂ hrs)

/-- Every item names the positions of its range. -/
theorem exists_names {ss : List Bytes} {rs : List Range}
    (h : List.Forall₂ (fun s r => cutItem s = some r) ss rs) :
    ∃ Ss, List.Forall₂ Names ss Ss ∧ ∀ k, Selected rs k ↔ ∃ S ∈ Ss, k ∈ S := by
  induction h with
  | nil => exact ⟨[], .nil, fun k => by simp [Selected]⟩
  | cons hr _ ih =>
    obtain ⟨S, hS, hk⟩ := cutItem_names hr
    obtain ⟨Ss, hSs, hks⟩ := ih
    refine ⟨S :: Ss, .cons hS hSs, fun k => ?_⟩
    have := hks k
    simp only [Selected, List.exists_mem_cons_iff] at this ⊢
    rw [hk, this]

theorem selected_perm {rs rs' : List Range} (h : rs.Perm rs') (k : ℕ) : Selected rs k ↔ Selected rs' k := by
  simp only [Selected, h.mem_iff]

/-- **The ranges that are stored.**  Between any two there is a gap, and together they have the positions that
the items name. -/
theorem cutList_ranges {s : Bytes} {rs : List Range} (h : cutList s = some rs) :
    rs.Pairwise Range.Before ∧
      ∃ Ss, List.Forall₂ Names (items s) Ss ∧ ∀ k, Selected rs k ↔ ∃ S ∈ Ss, k ∈ S := by
  obtain ⟨rs₀, hrs₀, rfl⟩ := Option.map_eq_some_iff.1 h
  obtain ⟨Ss, hSs, hk⟩ := exists_names (cutItems_forall₂ hrs₀)
  obtain ⟨hsorted, hperm⟩ := sortRanges_spec rs₀
  have hk' := fun k => (selected_perm hperm k).trans (hk k)
  generalize sortRanges rs₀ = rs at hsorted hk'
  cases rs with
  | nil => exact ⟨.nil, Ss, hSs, hk'⟩
  | cons r rs =>
    obtain ⟨h₁, -, h₃⟩ := merge_spec rs hsorted
    exact ⟨h₁, Ss, hSs, fun k => (h₃ k).trans (hk' k)⟩

/-- Items that overlap, touch and have no end, out of order. -/
example : (cutList ("9-,3-4,1,4-7".toList.map Char.toUInt8)).map (·.map fun r => (r.lo, r.hi)) =
    some [(1, 1), (3, 7), (9, cutMax)] := by decide +kernel

end Shish.Cut
