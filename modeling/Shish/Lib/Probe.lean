import Mathlib.Data.List.Basic
import Mathlib.Logic.Function.Basic

/-!
# Lib/Probe — open addressing with tombstones

A key is looked for in the buckets of its path, up to an empty one.  `Sound` says that a live key is
reached before an empty bucket and is in no other bucket: then what is found is what is there
(`Sound.lookup_eq`).  A deletion leaves a tombstone (`Sound.delete`); a new key may take any bucket
that is not live, as long as no empty one comes first (`Sound.insert`).
-/

namespace Shish

/-- A bucket. -/
inductive Bucket (κ β : Type*) where
  | null
  | tombstone
  | live (key : κ) (val : β)
  deriving DecidableEq

variable {κ β : Type*}

namespace Bucket

def isNull : Bucket κ β → Bool
  | .null => true
  | _ => false

def entry : Bucket κ β → Option (κ × β)
  | .live k v => some (k, v)
  | _ => none

def isLive (b : Bucket κ β) : Bool := b.entry.isSome

@[simp] theorem isNull_null : (null : Bucket κ β).isNull = true := rfl

@[simp] theorem isNull_tombstone : (tombstone : Bucket κ β).isNull = false := rfl

@[simp] theorem isNull_live (k : κ) (v : β) : (live k v).isNull = false := rfl

theorem isNull_iff {b : Bucket κ β} : b.isNull = true ↔ b = .null := by
  cases b <;> simp [isNull]

theorem entry_eq_some {b : Bucket κ β} {e : κ × β} : b.entry = some e ↔ b = .live e.1 e.2 := by
  cases b <;> simp [entry, Prod.ext_iff]

variable [DecidableEq κ]

def holds (k : κ) : Bucket κ β → Bool
  | .live k' _ => k' = k
  | _ => false

@[simp] theorem holds_null (k : κ) : (Bucket.null : Bucket κ β).holds k = false := rfl

@[simp] theorem holds_tombstone (k : κ) : (Bucket.tombstone : Bucket κ β).holds k = false := rfl

@[simp] theorem holds_live (k k' : κ) (v : β) : (Bucket.live k' v).holds k = decide (k' = k) := rfl

theorem holds_iff {k : κ} {b : Bucket κ β} : b.holds k = true ↔ ∃ v, b = .live k v := by
  cases b with
  | null => simp
  | tombstone => simp
  | live k' v => simp

end Bucket

variable [DecidableEq κ]

/-- The bucket of a key: the search ends at an empty one. -/
def lookup (t : ℕ → Bucket κ β) (k : κ) : List ℕ → Option ℕ
  | [] => none
  | j :: js => if (t j).holds k then some j else if (t j).isNull then none else lookup t k js

/-- The bucket a key is put in: its own, or the first that is not live. -/
def place (t : ℕ → Bucket κ β) (k : κ) : List ℕ → Option ℕ
  | [] => none
  | j :: js => if (t j).holds k then some j else if (t j).isLive then place t k js else some j

variable {t : ℕ → Bucket κ β} {k : κ} {v : β} {j : ℕ} {path : List ℕ}

example : lookup (fun _ => (.null : Bucket κ β)) k (j :: path) = none ∧ place (fun _ => (.null : Bucket κ β)) k [j] = some j := by
  simp [lookup, place, Bucket.isLive, Bucket.entry]

theorem lookup_some (h : lookup t k path = some j) : j ∈ path ∧ ∃ v, t j = .live k v := by
  induction path with
  | nil => exact nomatch h
  | cons i js ih =>
    rw [lookup] at h
    split_ifs at h with hk hn
    · obtain rfl := Option.some.inj h
      exact ⟨List.mem_cons_self .., Bucket.holds_iff.1 hk⟩
    · exact (ih h).imp_left (List.mem_cons_of_mem i)

/-- The key's own bucket is found when no empty bucket and no other one of the key comes first. -/
theorem lookup_eq_some (hj : j ∈ path) (hv : t j = .live k v)
    (hfront : ∀ i ∈ path.takeWhile (· ≠ j), t i ≠ .null ∧ (t i).holds k = false) :
    lookup t k path = some j := by
  induction path with
  | nil => exact nomatch hj
  | cons i js ih =>
    rw [lookup]
    by_cases hij : i = j
    · subst hij
      rw [if_pos (by simp [hv])]
    · rw [List.takeWhile_cons_of_pos (by simpa using hij), List.forall_mem_cons] at hfront
      obtain ⟨⟨hnull, hhold⟩, hrest⟩ := hfront
      rw [if_neg (by simp [hhold]), if_neg (by rwa [Bucket.isNull_iff]),
        ih ((List.mem_cons.1 hj).resolve_left (Ne.symm hij)) hrest]

theorem lookup_eq_none (h : ∀ j ∈ path, (t j).holds k = false) : lookup t k path = none := by
  rw [Option.eq_none_iff_forall_ne_some]
  intro j hj
  obtain ⟨hmem, hv⟩ := lookup_some hj
  exact absurd (h j hmem) (by simp [Bucket.holds_iff.2 hv])

/-- **Where a key is put**: no bucket that is empty, a tombstone or the key's own comes first. -/
theorem place_some (h : place t k path = some j) :
    j ∈ path ∧ ((t j).holds k = true ∨ (t j).isLive = false) ∧
      ∀ i ∈ path.takeWhile (· ≠ j), (t i).isLive = true ∧ (t i).holds k = false := by
  induction path with
  | nil => exact nomatch h
  | cons i js ih =>
    rw [place] at h
    by_cases hij : i = j
    · subst hij
      refine ⟨List.mem_cons_self .., ?_, by simp⟩
      split_ifs at h with hk hl
      · exact .inl hk
      · obtain ⟨-, hor, -⟩ := ih h
        exact hor
      · exact .inr (by simpa using hl)
    · split_ifs at h with hk hl
      · exact absurd (Option.some.inj h) hij
      · obtain ⟨hmem, hor, hfront⟩ := ih h
        refine ⟨List.mem_cons_of_mem i hmem, hor, ?_⟩
        rw [List.takeWhile_cons_of_pos (by simpa using hij), List.forall_mem_cons]
        exact ⟨⟨hl, by simpa using hk⟩, hfront⟩
      · exact absurd (Option.some.inj h) hij

theorem place_isSome (hj : j ∈ path) (hfree : (t j).isLive = false) : (place t k path).isSome := by
  induction path with
  | nil => exact nomatch hj
  | cons i js ih =>
    rw [place]
    split_ifs with hk hl
    · rfl
    · refine ih ((List.mem_cons.1 hj).resolve_left ?_)
      rintro rfl
      rw [hfree] at hl
      exact nomatch hl
    · rfl

/-- A key's own bucket is the place when every one in front is live with another key. -/
theorem place_eq_some (hj : j ∈ path) (hk : (t j).holds k = true)
    (hfront : ∀ i ∈ path.takeWhile (· ≠ j), (t i).isLive = true ∧ (t i).holds k = false) :
    place t k path = some j := by
  induction path with
  | nil => exact nomatch hj
  | cons i js ih =>
    rw [place]
    by_cases hij : i = j
    · subst hij
      rw [if_pos hk]
    · rw [List.takeWhile_cons_of_pos (by simpa using hij), List.forall_mem_cons] at hfront
      obtain ⟨⟨hlive, hhold⟩, hrest⟩ := hfront
      rw [if_neg (by simp [hhold]), if_pos hlive,
        ih ((List.mem_cons.1 hj).resolve_left (Ne.symm hij)) hrest]

/-! ## Sound tables -/

/-- **Every live key is reached before an empty bucket, and has one bucket.** -/
structure Sound (path : κ → List ℕ) (t : ℕ → Bucket κ β) : Prop where
  reached : ∀ j k v, t j = .live k v → j ∈ path k ∧ ∀ i ∈ (path k).takeWhile (· ≠ j), t i ≠ .null
  unique : ∀ i j k v w, t i = .live k v → t j = .live k w → i = j

namespace Sound

variable {path : κ → List ℕ}

theorem lookup_eq (h : Sound path t) (hv : t j = .live k v) : lookup t k (path k) = some j := by
  obtain ⟨hmem, hfront⟩ := h.reached j k v hv
  refine lookup_eq_some hmem hv fun i hi => ⟨hfront i hi, ?_⟩
  have hij : i ≠ j := by simpa using List.all_eq_true.1 List.all_takeWhile i hi
  by_contra hk
  obtain ⟨w, hw⟩ := Bucket.holds_iff.1 (by simpa using hk)
  exact hij (h.unique i j k w v hw hv)

/-- What is found is what is there. -/
theorem lookup_iff (h : Sound path t) : lookup t k (path k) = some j ↔ ∃ v, t j = .live k v :=
  ⟨fun hj => (lookup_some hj).2, fun ⟨_, hv⟩ => h.lookup_eq hv⟩

omit [DecidableEq κ] in
theorem empty : Sound path (fun _ => (.null : Bucket κ β)) :=
  ⟨nofun, nofun⟩

omit [DecidableEq κ] in
/-- **A bucket becomes a tombstone.** -/
theorem delete (h : Sound path t) (j : ℕ) : Sound path (Function.update t j .tombstone) where
  reached i k v hv := by
    have hij : i ≠ j := by
      rintro rfl
      rw [Function.update_self] at hv
      exact nomatch hv
    rw [Function.update_of_ne hij] at hv
    obtain ⟨hmem, hfront⟩ := h.reached i k v hv
    refine ⟨hmem, fun m hm => ?_⟩
    by_cases hmj : m = j
    · subst hmj
      rw [Function.update_self]
      exact nofun
    · rw [Function.update_of_ne hmj]
      exact hfront m hm
  unique i m k v w hi hm := by
    have hne : ∀ {x u}, Function.update t j .tombstone x = .live k u → x ≠ j := by
      rintro x u hx rfl
      rw [Function.update_self] at hx
      exact nomatch hx
    rw [Function.update_of_ne (hne hi)] at hi
    rw [Function.update_of_ne (hne hm)] at hm
    exact h.unique i m k v w hi hm

/-- **A key is put in a bucket**, its own or one that no empty one comes before. -/
theorem insert (h : Sound path t) (hmem : j ∈ path k) (v : β)
    (hfront : ∀ i ∈ (path k).takeWhile (· ≠ j), t i ≠ .null)
    (hfree : (t j).holds k = true ∨ (t j).isLive = false)
    (honly : ∀ i, (t i).holds k = true → i = j) :
    Sound path (Function.update t j (.live k v)) where
  reached i k' v' hv := by
    have hother : ∀ {p : List ℕ}, (∀ m ∈ p, t m ≠ .null) →
        ∀ m ∈ p, Function.update t j (.live k v) m ≠ .null := fun hp m hm => by
      by_cases hmj : m = j
      · subst hmj
        rw [Function.update_self]
        exact nofun
      · rw [Function.update_of_ne hmj]
        exact hp m hm
    by_cases hij : i = j
    · subst hij
      rw [Function.update_self] at hv
      obtain ⟨rfl, rfl⟩ := Bucket.live.inj hv
      exact ⟨hmem, hother hfront⟩
    · rw [Function.update_of_ne hij] at hv
      obtain ⟨hmem', hfront'⟩ := h.reached i k' v' hv
      exact ⟨hmem', hother hfront'⟩
  unique i m k' u w hi hm := by
    -- a bucket of the key itself is `j`, any other one is as it was
    have hkey : ∀ {x u}, Function.update t j (.live k v) x = .live k' u → (x = j ∧ k' = k) ∨
        (x ≠ j ∧ k' ≠ k ∧ t x = .live k' u) := by
      intro x u hx
      by_cases hxj : x = j
      · subst hxj
        rw [Function.update_self] at hx
        exact .inl ⟨rfl, (Bucket.live.inj hx).1.symm⟩
      · rw [Function.update_of_ne hxj] at hx
        refine .inr ⟨hxj, ?_, hx⟩
        rintro rfl
        exact hxj (honly x (Bucket.holds_iff.2 ⟨u, hx⟩))
    rcases hkey hi with ⟨rfl, rfl⟩ | ⟨-, hk, hi⟩
    · rcases hkey hm with ⟨rfl, -⟩ | ⟨-, hk, -⟩
      · rfl
      · exact absurd rfl hk
    · rcases hkey hm with ⟨-, rfl⟩ | ⟨-, -, hm⟩
      · exact absurd rfl hk
      · exact h.unique i m k' u w hi hm

end Sound

/-! ## The map -/

/-- The table holds these keys and values. -/
def Stores (t : ℕ → Bucket κ β) (f : κ → Option β) : Prop :=
  ∀ k v, f k = some v ↔ ∃ j, t j = .live k v

namespace Stores

variable {f : κ → Option β}

theorem not_holds (h : Stores t f) (hk : f k = none) (j : ℕ) : (t j).holds k = false := by
  by_contra hj
  obtain ⟨v, hv⟩ := Bucket.holds_iff.1 (by simpa using hj)
  have := (h k v).2 ⟨j, hv⟩
  rw [hk] at this
  exact nomatch this

theorem insert (h : Stores t f) (v : β) (hfree : (t j).holds k = true ∨ (t j).isLive = false)
    (honly : ∀ i, (t i).holds k = true → i = j) :
    Stores (Function.update t j (.live k v)) (Function.update f k (some v)) := by
  intro k' v'
  by_cases hk : k' = k
  · subst hk
    rw [Function.update_self]
    constructor
    · intro hv
      exact ⟨j, by rw [Function.update_self, Option.some.inj hv]⟩
    · rintro ⟨i, hi⟩
      by_cases hij : i = j
      · subst hij
        rw [Function.update_self] at hi
        rw [(Bucket.live.inj hi).2]
      · rw [Function.update_of_ne hij] at hi
        exact absurd (honly i (Bucket.holds_iff.2 ⟨v', hi⟩)) hij
  · rw [Function.update_of_ne hk, h k' v']
    have hne : ∀ i, t i = .live k' v' → i ≠ j := by
      rintro i hi rfl
      rw [hi] at hfree
      rcases hfree with hhold | hlive
      · exact hk (by simpa using hhold)
      · exact nomatch hlive
    constructor
    · rintro ⟨i, hi⟩
      exact ⟨i, by rw [Function.update_of_ne (hne i hi), hi]⟩
    · rintro ⟨i, hi⟩
      by_cases hij : i = j
      · subst hij
        rw [Function.update_self] at hi
        exact absurd (Bucket.live.inj hi).1.symm hk
      · rw [Function.update_of_ne hij] at hi
        exact ⟨i, hi⟩

theorem delete (h : Stores t f) (hv : t j = .live k v)
    (honly : ∀ i, (t i).holds k = true → i = j) :
    Stores (Function.update t j .tombstone) (Function.update f k none) := by
  intro k' v'
  have hback : ∀ i, Function.update t j .tombstone i = .live k' v' ↔ i ≠ j ∧ t i = .live k' v' := by
    intro i
    by_cases hij : i = j
    · subst hij
      rw [Function.update_self]
      exact ⟨nofun, fun hi => absurd rfl hi.1⟩
    · rw [Function.update_of_ne hij]
      exact (and_iff_right hij).symm
  simp only [hback]
  by_cases hk : k' = k
  · subst hk
    rw [Function.update_self]
    refine ⟨nofun, fun ⟨i, hij, hi⟩ => absurd (honly i (Bucket.holds_iff.2 ⟨v', hi⟩)) hij⟩
  · rw [Function.update_of_ne hk, h k' v']
    refine exists_congr fun i => (and_iff_right_of_imp ?_).symm
    rintro hi rfl
    exact hk (Bucket.live.inj (hi.symm.trans hv)).1

end Stores

/-! ## Counting -/

omit [DecidableEq κ] in
/-- One bucket changes: the others count as before. -/
theorem countP_update (p : Bucket κ β → Bool) (b : Bucket κ β) {n : ℕ} (hj : j < n) :
    (List.range n).countP (fun i => p (Function.update t j b i)) + (if p (t j) then 1 else 0) =
      (List.range n).countP (fun i => p (t i)) + (if p b then 1 else 0) := by
  have hout : ∀ m, m ≤ j → (List.range m).countP (fun i => p (Function.update t j b i)) =
      (List.range m).countP (fun i => p (t i)) := fun m hm =>
    List.countP_congr fun i hi => by
      rw [Function.update_of_ne (Nat.ne_of_lt (Nat.lt_of_lt_of_le (List.mem_range.1 hi) hm))]
  induction n with
  | zero => exact absurd hj (Nat.not_lt_zero j)
  | succ n ih =>
    rw [List.range_succ, List.countP_append, List.countP_append, List.countP_singleton,
      List.countP_singleton]
    rcases Nat.lt_succ_iff_lt_or_eq.1 hj with hlt | rfl
    · rw [Function.update_of_ne (Nat.ne_of_gt hlt)]
      have := ih hlt
      omega
    · rw [Function.update_self, hout j (Nat.le_refl j)]
      omega

end Shish
