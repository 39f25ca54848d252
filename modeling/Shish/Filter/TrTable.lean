import Mathlib.Data.List.Basic
import Mathlib.Data.Nat.Basic
import Shish.Lib.Insertion

/-!
# Filter/TrTable — the sorted table of `tr`

Code points from 256 on do not fit `tr`'s arrays: `ent_high` sorts those of a string, `ent_uniq` keeps the last
of equal ones, and `ent_find` looks for one by halving.  It finds the last place in the string where the code
point stands (`find_high`).
-/

namespace Shish.Tr

/-- `struct ent`. -/
structure Ent where
  /-- The code point. -/
  src : UInt32
  /-- What it becomes, `to`. -/
  dst : UInt32
  /-- Its position. -/
  k : ℕ
  deriving DecidableEq

/-- The order of `ent_sort`. -/
def Ent.gt (a e : Ent) : Bool := e.src < a.src || (a.src == e.src && e.k < a.k)

/-- `ent_sort`. -/
def entSort (a : List Ent) : List Ent := shell Ent.gt a

/-- `ent_uniq`. -/
def entUniq : List Ent → List Ent
  | [] => []
  | [e] => [e]
  | e :: e' :: a => if e'.src ≠ e.src then e :: entUniq (e' :: a) else entUniq (e' :: a)

/-- The loop of `ent_find`, between `lo` and `hi`. -/
def findFrom (a : List Ent) (cp : UInt32) (lo hi : ℕ) : Option Ent :=
  if lo < hi then
    match a[(lo + hi) / 2]? with
    | none => none
    | some e =>
        if e.src = cp then some e
        else if e.src < cp then findFrom a cp ((lo + hi) / 2 + 1) hi
        else findFrom a cp lo ((lo + hi) / 2)
  else none
termination_by hi - lo
decreasing_by all_goals omega

/-- `ent_find`. -/
def entFind (a : List Ent) (cp : UInt32) : Option Ent := findFrom a cp 0 a.length

/-- The element of a list that is there, or its last one. -/
def orLast (l : List UInt32) (k : ℕ) : UInt32 := l.getD (if k < l.length then k else l.length - 1) 0

/-- What `ent_high` sorts: the code points of `l` from 256 on, and what they become. -/
def highEnts (l dst : List UInt32) : List Ent :=
  (l.zipIdx.filter (256 ≤ ·.1)).map fun x => ⟨x.1, orLast dst x.2, x.2⟩

/-- `ent_high`; without a second string, `dst` is empty. -/
def entHigh (l dst : List UInt32) : List Ent := entUniq (entSort (highEnts l dst))

/-- The last place where a code point stands. -/
def lastPos (cp : UInt32) : List UInt32 → Option ℕ
  | [] => none
  | x :: l =>
      match lastPos cp l with
      | some k => some (k + 1)
      | none => if x = cp then some 0 else none

/-! ## Sorting -/

/-- Up to a place in the order. -/
def Ent.le (a e : Ent) : Prop := a.src < e.src ∨ a.src = e.src ∧ a.k ≤ e.k

theorem le_of_gt {a e : Ent} (h : a.gt e = true) : e.le a := by
  simp only [Ent.gt, Bool.or_eq_true, Bool.and_eq_true, decide_eq_true_eq, beq_iff_eq] at h
  exact h.imp id fun h => ⟨h.1.symm, Nat.le_of_lt h.2⟩

theorem le_of_not_gt {a e : Ent} (h : a.gt e = false) : a.le e := by
  simp only [Ent.gt, Bool.or_eq_false_iff, Bool.and_eq_false_iff, decide_eq_false_iff_not, beq_eq_false_iff_ne] at h
  rcases UInt32.lt_or_eq_of_le (UInt32.not_lt.1 h.1) with hlt | heq
  · exact .inl hlt
  · exact .inr ⟨heq, Nat.le_of_not_lt (h.2.resolve_left fun hne => hne heq)⟩

theorem le_trans {a b c : Ent} (h₁ : a.le b) (h₂ : b.le c) : a.le c := by
  rcases h₁ with h₁ | ⟨h₁, hk₁⟩ <;> rcases h₂ with h₂ | ⟨h₂, hk₂⟩
  · exact .inl (UInt32.lt_trans h₁ h₂)
  · exact .inl (h₂ ▸ h₁)
  · exact .inl (h₁ ▸ h₂)
  · exact .inr ⟨h₁.trans h₂, Nat.le_trans hk₁ hk₂⟩

theorem sorted_entSort (a : List Ent) : (entSort a).Pairwise Ent.le := by
  refine sorted_shell ?_ ?_ ?_ a
  · exact fun _ _ => le_of_gt
  · exact fun _ _ => le_of_not_gt
  · exact fun _ _ _ => le_trans

/-! ## One entry each -/

theorem entUniq_subset (a : List Ent) : entUniq a ⊆ a := by
  fun_induction entUniq a with
  | case1 => exact fun _ h => h
  | case2 => exact fun _ h => h
  | case3 e e' a hne ih => exact List.cons_subset_cons e ih
  | case4 e e' a heq ih => exact fun x hx => .tail e (ih hx)

theorem exists_entUniq {a : List Ent} {e : Ent} (he : e ∈ a) : ∃ e' ∈ entUniq a, e'.src = e.src := by
  fun_induction entUniq a generalizing e with
  | case1 => exact absurd he List.not_mem_nil
  | case2 => exact ⟨e, he, rfl⟩
  | case3 e₁ e₂ a hne ih =>
    rcases List.mem_cons.1 he with rfl | he
    · exact ⟨e, .head _, rfl⟩
    · obtain ⟨e', he', hsrc⟩ := ih he
      exact ⟨e', .tail _ he', hsrc⟩
  | case4 e₁ e₂ a heq ih =>
    rcases List.mem_cons.1 he with rfl | he
    · obtain ⟨e', he', hsrc⟩ := ih (.head _)
      exact ⟨e', he', hsrc.trans (not_not.1 heq)⟩
    · exact ih he

/-- **The entries that are kept** are in order, and each is the last of its equals. -/
theorem entUniq_spec {a : List Ent} (h : a.Pairwise Ent.le) :
    (entUniq a).Pairwise (fun e e' => e.src < e'.src) ∧
      ∀ e ∈ entUniq a, ∀ e' ∈ a, e'.src = e.src → e'.k ≤ e.k := by
  fun_induction entUniq a with
  | case1 => exact ⟨.nil, nofun⟩
  | case2 e =>
    refine ⟨List.pairwise_singleton _ e, fun x hx y hy _ => ?_⟩
    rw [List.mem_singleton.1 hx, List.mem_singleton.1 hy]
  | case3 e e' a hne ih =>
    obtain ⟨he, ha⟩ := List.pairwise_cons.1 h
    obtain ⟨h₁, h₂⟩ := ih ha
    -- all that follows is greater
    have hlt : ∀ x ∈ e' :: a, e.src < x.src := by
      intro x hx
      have hle : e'.src ≤ x.src := by
        rcases List.mem_cons.1 hx with rfl | hx
        · exact UInt32.le_refl _
        · rcases (List.pairwise_cons.1 ha).1 x hx with h | h
          · exact UInt32.le_of_lt h
          · exact h.1 ▸ UInt32.le_refl _
      rcases he e' (.head _) with h | h
      · exact UInt32.lt_of_lt_of_le h hle
      · exact absurd h.1.symm hne
    refine ⟨List.pairwise_cons.2 ⟨fun x hx => hlt x (entUniq_subset _ hx), h₁⟩, fun x hx y hy hsrc => ?_⟩
    rcases List.mem_cons.1 hx with hxe | hx' <;> rcases List.mem_cons.1 hy with hye | hy'
    · rw [hxe, hye]
    · exact absurd (hxe ▸ hsrc.symm) (UInt32.ne_of_lt (hlt y hy'))
    · exact absurd (hye ▸ hsrc) (UInt32.ne_of_lt (hlt x (entUniq_subset _ hx')))
    · exact h₂ x hx' y hy' hsrc
  | case4 e e' a heq ih =>
    obtain ⟨he, ha⟩ := List.pairwise_cons.1 h
    obtain ⟨h₁, h₂⟩ := ih ha
    refine ⟨h₁, fun x hx y hy hsrc => ?_⟩
    rcases List.mem_cons.1 hy with rfl | hy
    · have hsame : e'.src = y.src := not_not.1 heq
      have hk := h₂ x hx e' (.head _) (hsame.trans hsrc)
      rcases he e' (.head _) with h | h
      · exact absurd hsame.symm (UInt32.ne_of_lt h)
      · exact Nat.le_trans h.2 hk
    · exact h₂ x hx y hy hsrc

/-! ## Looking for one -/

theorem findFrom_eq_some {a : List Ent} (ha : a.Pairwise fun e e' => e.src < e'.src) {cp : UInt32} {lo hi : ℕ}
    (hhi : hi ≤ a.length) (e : Ent) :
    findFrom a cp lo hi = some e ↔ ∃ i, lo ≤ i ∧ i < hi ∧ a[i]? = some e ∧ e.src = cp := by
  have hmono : ∀ {i j : ℕ} {x y : Ent}, a[i]? = some x → a[j]? = some y → i < j → x.src < y.src := by
    intro i j x y hx hy hij
    obtain ⟨hi, rfl⟩ := List.getElem?_eq_some_iff.1 hx
    obtain ⟨hj, rfl⟩ := List.getElem?_eq_some_iff.1 hy
    exact List.pairwise_iff_getElem.1 ha i j hi hj hij
  fun_induction findFrom a cp lo hi with
  | case1 lo hi hlt hnone =>
    exact absurd (List.getElem?_eq_none_iff.1 hnone) (by omega)
  | case2 lo hi hlt m hm hcp =>
    refine ⟨fun h => ?_, fun ⟨i, _, _, hget, hsrc⟩ => ?_⟩
    · obtain rfl := Option.some.inj h
      exact ⟨_, by omega, by omega, hm, hcp⟩
    · rcases Nat.lt_trichotomy i ((lo + hi) / 2) with hlt | rfl | hlt
      · exact absurd (hsrc.trans hcp.symm) (UInt32.ne_of_lt (hmono hget hm hlt))
      · exact hm.symm.trans hget
      · exact absurd (hcp.trans hsrc.symm) (UInt32.ne_of_lt (hmono hm hget hlt))
  | case3 lo hi hlt m hm hne hmlt ih =>
    refine (ih hhi).trans (exists_congr fun i => ⟨fun ⟨h₁, h₂, h₃, h₄⟩ => ⟨by omega, h₂, h₃, h₄⟩, fun ⟨h₁, h₂, h₃, h₄⟩ => ?_⟩)
    rcases Nat.lt_trichotomy i ((lo + hi) / 2) with hi | rfl | hi
    · exact absurd (UInt32.lt_trans (hmono h₃ hm hi) hmlt) (h₄ ▸ UInt32.lt_irrefl _)
    · rw [hm] at h₃
      exact absurd ((congrArg Ent.src (Option.some.inj h₃)).trans h₄) hne
    · exact ⟨hi, h₂, h₃, h₄⟩
  | case4 lo hi hlt m hm hne hmlt ih =>
    refine (ih (by omega)).trans (exists_congr fun i => ⟨fun ⟨h₁, h₂, h₃, h₄⟩ => ⟨h₁, by omega, h₃, h₄⟩, fun ⟨h₁, h₂, h₃, h₄⟩ => ?_⟩)
    rcases Nat.lt_trichotomy i ((lo + hi) / 2) with hi | rfl | hi
    · exact ⟨h₁, hi, h₃, h₄⟩
    · rw [hm] at h₃
      exact absurd ((congrArg Ent.src (Option.some.inj h₃)).trans h₄) hne
    · exact absurd (h₄ ▸ hmono hm h₃ hi) hmlt
  | case5 lo hi hlt => exact ⟨nofun, fun ⟨i, _, _, _⟩ => by omega⟩

theorem entFind_eq_some {a : List Ent} (ha : a.Pairwise fun e e' => e.src < e'.src) {cp : UInt32} (e : Ent) :
    entFind a cp = some e ↔ e ∈ a ∧ e.src = cp := by
  rw [entFind, findFrom_eq_some ha (Nat.le_refl _), List.mem_iff_getElem?]
  constructor
  · rintro ⟨i, -, -, h, hsrc⟩
    exact ⟨⟨i, h⟩, hsrc⟩
  · rintro ⟨⟨i, h⟩, hsrc⟩
    exact ⟨i, Nat.zero_le i, (List.getElem?_eq_some_iff.1 h).1, h, hsrc⟩

/-! ## The last place -/

theorem lastPos_eq_none {cp : UInt32} {l : List UInt32} : lastPos cp l = none ↔ cp ∉ l := by
  induction l with
  | nil => simp [lastPos]
  | cons x l ih =>
    rw [lastPos]
    cases h : lastPos cp l with
    | some k =>
      have hmem : cp ∈ l := not_not.1 (ih.not.1 (by simp [h]))
      simp [hmem]
    | none =>
      have hmem := ih.1 h
      by_cases hx : x = cp
      · simp [hx]
      · simp [hx, Ne.symm hx, hmem]

theorem lastPos_spec {cp : UInt32} : ∀ {l : List UInt32} {k : ℕ}, lastPos cp l = some k →
    l[k]? = some cp ∧ ∀ j : ℕ, l[j]? = some cp → j ≤ k
  | [], k, h => by cases h
  | x :: l, k, h => by
      rw [lastPos] at h
      cases hl : lastPos cp l with
      | some m =>
        obtain ⟨hm, hmax⟩ := lastPos_spec hl
        rw [hl] at h
        obtain rfl := Option.some.inj h
        refine ⟨hm, fun j hj => ?_⟩
        cases j with
        | zero => exact Nat.zero_le _
        | succ j => exact Nat.succ_le_succ (hmax j hj)
      | none =>
        rw [hl] at h
        obtain ⟨hx, h⟩ := Option.ite_none_right_eq_some.1 h
        obtain rfl := Option.some.inj h
        have hno : cp ∉ l := lastPos_eq_none.1 hl
        refine ⟨congrArg some hx, fun j hj => ?_⟩
        cases j with
        | zero => exact Nat.le_refl _
        | succ j => exact absurd (List.mem_of_getElem? (l := l) hj) hno

theorem mem_highEnts {l dst : List UInt32} {e : Ent} :
    e ∈ highEnts l dst ↔ 256 ≤ e.src ∧ l[e.k]? = some e.src ∧ e.dst = orLast dst e.k := by
  simp only [highEnts, List.mem_map, List.mem_filter, List.mem_zipIdx_iff_getElem?, decide_eq_true_eq]
  constructor
  · rintro ⟨⟨c, k⟩, ⟨hget, hc⟩, rfl⟩
    exact ⟨hc, hget, rfl⟩
  · rintro ⟨hc, hget, hdst⟩
    exact ⟨(e.src, e.k), ⟨hget, hc⟩, by rw [← hdst]⟩

/-- **What is found is the last place.** -/
theorem find_high (l dst : List UInt32) {cp : UInt32} (hcp : 256 ≤ cp) :
    entFind (entHigh l dst) cp = (lastPos cp l).map fun k => ⟨cp, orLast dst k, k⟩ := by
  have hsorted := sorted_entSort (highEnts l dst)
  have hmem : ∀ e, e ∈ entSort (highEnts l dst) ↔ e ∈ highEnts l dst := fun e => (perm_shell _).mem_iff
  obtain ⟨hpair, hlast⟩ := entUniq_spec hsorted
  cases hpos : lastPos cp l with
  | none =>
    rw [Option.map_none, Option.eq_none_iff_forall_ne_some]
    intro e he
    obtain ⟨hin, rfl⟩ := (entFind_eq_some hpair e).1 he
    have := (mem_highEnts.1 ((hmem e).1 (entUniq_subset _ hin))).2.1
    exact lastPos_eq_none.1 hpos (List.mem_of_getElem? this)
  | some k =>
    obtain ⟨hk, hmax⟩ := lastPos_spec hpos
    have hin : (⟨cp, orLast dst k, k⟩ : Ent) ∈ highEnts l dst := mem_highEnts.2 ⟨hcp, hk, rfl⟩
    obtain ⟨e, he, hsrc⟩ := exists_entUniq ((hmem _).2 hin)
    obtain ⟨-, hget, hdst⟩ := mem_highEnts.1 ((hmem e).1 (entUniq_subset _ he))
    have hsrc' : e.src = cp := hsrc
    have hek : e.k = k := Nat.le_antisymm (hmax _ (hsrc' ▸ hget)) (hlast e he _ ((hmem _).2 hin) hsrc.symm)
    have heq : e = ⟨cp, orLast dst k, k⟩ := by
      obtain ⟨src, d, k'⟩ := e
      simp only at hsrc' hek hdst
      rw [hsrc', hdst, hek]
    rw [heq] at he
    exact (entFind_eq_some hpair _).2 ⟨he, rfl⟩

end Shish.Tr
