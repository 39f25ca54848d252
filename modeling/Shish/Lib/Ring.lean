import Mathlib.Data.List.DropRight
import Mathlib.Data.Nat.ModEq

/-!
# Lib/Ring — a ring buffer and the list it holds

A ring keeps up to `cap` elements in as many slots, from the slot `head` on and around the end.
`Ring.Holds` says which list that is, oldest element first.  Taking the oldest element out, putting
a new one in and moving the newest elements to another ring are the operations on lists they should
be (`Holds.dropFirst`, `Holds.put`, `Holds.rebuild`), wherever the ring happens to start.
-/

namespace Shish

variable {α : Type*}

structure Ring (α : Type*) where
  slots : ℕ → Option α
  cap : ℕ
  count : ℕ
  head : ℕ

namespace Ring

variable {r : Ring α} {l : List α} {a : α}

/-- The slot of the element `i` behind the oldest one. -/
def slot (r : Ring α) (i : ℕ) : ℕ := (r.head + i) % r.cap

/-- The elements, oldest first. -/
def items (r : Ring α) : List (Option α) := (List.range r.count).map fun i => r.slots (r.slot i)

/-- The oldest element goes. -/
def dropFirst (r : Ring α) : Ring α :=
  { r with
    slots := Function.update r.slots r.head none
    head := (r.head + 1) % r.cap
    count := r.count - 1 }

/-- A new element comes. -/
def put (r : Ring α) (a : α) : Ring α :=
  { r with slots := Function.update r.slots (r.slot r.count) (some a), count := r.count + 1 }

/-- The newest `n` elements in a ring of another capacity. -/
def rebuild (r : Ring α) (n cap : ℕ) : Ring α where
  slots i := if i < n then r.slots (r.slot (r.count - n + i)) else none
  cap
  count := n
  head := 0

/-- **The ring is in order and holds the list.** -/
structure Holds (r : Ring α) (l : List α) : Prop where
  head_lt : r.head < r.cap
  le_cap : r.count ≤ r.cap
  length : l.length = r.count
  get : ∀ i, i < r.count → r.slots (r.slot i) = l[i]?

/-- Different elements have different slots. -/
theorem slot_inj {i j : ℕ} (hi : i < r.cap) (hj : j < r.cap) (h : r.slot i = r.slot j) : i = j := by
  have hmod : i % r.cap = j % r.cap := Nat.ModEq.add_left_cancel' r.head h
  rwa [Nat.mod_eq_of_lt hi, Nat.mod_eq_of_lt hj] at hmod

theorem slot_zero (h : r.head < r.cap) : r.slot 0 = r.head := Nat.mod_eq_of_lt h

theorem Holds.items (h : r.Holds l) : r.items = l.map some := by
  refine List.ext_getElem (by simp [Ring.items, h.length]) fun i h₁ h₂ => ?_
  have hi : i < r.count := by simpa [Ring.items] using h₁
  rw [List.length_map] at h₂
  simp only [Ring.items, List.getElem_map, List.getElem_range, h.get i hi, List.getElem?_eq_getElem h₂]

theorem Holds.dropFirst (h : r.Holds (a :: l)) : r.dropFirst.Holds l := by
  have hlen := h.length
  have hcap := h.le_cap
  rw [List.length_cons] at hlen
  have hslot : ∀ i, r.dropFirst.slot i = r.slot (i + 1) := by
    intro i
    simp only [slot, Ring.dropFirst, Nat.mod_add_mod]
    congr 1
    omega
  refine ⟨Nat.mod_lt _ (by omega), ?_, ?_, fun i hi => ?_⟩
  · exact (Nat.sub_le _ _).trans hcap
  · exact (by omega : l.length = r.count - 1)
  · have hi' : i + 1 < r.count := by
      have : i < r.count - 1 := hi
      omega
    have hne : r.slot (i + 1) ≠ r.head := by
      rw [← slot_zero h.head_lt]
      intro heq
      have := slot_inj (by omega) (by omega) heq
      omega
    rw [hslot]
    exact (Function.update_of_ne hne _ _).trans (h.get (i + 1) hi')

theorem Holds.put (h : r.Holds l) (hlt : r.count < r.cap) (a : α) : (r.put a).Holds (l ++ [a]) := by
  have hlen := h.length
  refine ⟨h.head_lt, hlt, by simp [Ring.put, hlen], fun i hi => ?_⟩
  have hi' : i < r.count + 1 := hi
  rcases Nat.eq_or_lt_of_le (Nat.le_of_lt_succ hi') with rfl | hlti
  · rw [← hlen, List.getElem?_concat_length, hlen]
    exact Function.update_self ..
  · have hne : r.slot i ≠ r.slot r.count := fun heq => by
      have := slot_inj (by omega) hlt heq
      omega
    rw [List.getElem?_append_left (by omega)]
    exact (Function.update_of_ne hne _ _).trans (h.get i hlti)

theorem Holds.rebuild (h : r.Holds l) {n cap : ℕ} (hn : n ≤ r.count) (hc : n ≤ cap) (h0 : 0 < cap) :
    (r.rebuild n cap).Holds (l.rtake n) := by
  have hlen := h.length
  refine ⟨h0, hc, by simp [List.rtake, Ring.rebuild]; omega, fun i hi => ?_⟩
  have hi' : i < n := hi
  have hslot : (r.rebuild n cap).slot i = i := by
    simp only [slot, Ring.rebuild, Nat.zero_add]
    exact Nat.mod_eq_of_lt (by omega)
  rw [hslot, List.rtake, List.getElem?_drop, hlen, ← h.get (r.count - n + i) (by omega)]
  exact if_pos hi'

end Ring

end Shish
