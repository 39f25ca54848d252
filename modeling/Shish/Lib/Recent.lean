import Mathlib.Data.List.Basic
import Mathlib.Logic.Function.Basic
import Mathlib.Data.Nat.Find

/-!
# Lib/Recent — a ring that keeps the end of a log

What is put into a ring of `cap` slots goes into the slot behind the last one, and around the end; nothing is taken
out.  `Retains` says that the ring holds the last `cap` entries of the log, and is blank where it was never written
(`Retains.put`).  A search through the slots from the first one on does not find the newest entry but the one in the
lowest slot (`Retains.find`).
-/

namespace Shish

variable {α β : Type*} {cap : ℕ} {blank : α} {slots : ℕ → α} {log : List α}

/-- **The ring keeps the end of the log.** -/
structure Retains (cap : ℕ) (blank : α) (slots : ℕ → α) (log : List α) : Prop where
  kept : ∀ i a, log[i]? = some a → log.length ≤ i + cap → slots (i % cap) = a
  blank : ∀ j, log.length ≤ j → j < cap → slots j = blank

/-- Among the last `cap` entries that pass the test, the one in the lowest slot. -/
def LowestSlot (cap : ℕ) (p : α → Prop) (log : List α) (a : α) : Prop :=
  ∃ i, log[i]? = some a ∧ log.length ≤ i + cap ∧ p a ∧
    ∀ k b, log[k]? = some b → log.length ≤ k + cap → p b → i % cap ≤ k % cap

namespace Retains

theorem nil : Retains cap blank (fun _ => blank) [] := ⟨nofun, fun _ _ _ => rfl⟩

/-- An entry more takes the place of the oldest one. -/
theorem put (h : Retains cap blank slots log) (a : α) :
    Retains cap blank (Function.update slots (log.length % cap) a) (log ++ [a]) := by
  refine ⟨fun i b hi hlen => ?_, fun j hj hlt => ?_⟩
  · rw [List.length_append, List.length_singleton] at hlen
    rcases Nat.lt_trichotomy i log.length with hlt | rfl | hlt
    · rw [List.getElem?_append_left hlt] at hi
      have hne : i % cap ≠ log.length % cap := fun heq => by
        have hsub := Nat.sub_mod_eq_zero_of_mod_eq heq.symm
        rw [Nat.mod_eq_of_lt (by omega)] at hsub
        omega
      rw [Function.update_of_ne hne]
      exact h.kept i b hi (by omega)
    · rw [List.getElem?_concat_length] at hi
      rw [Function.update_self]
      exact Option.some.inj hi
    · rw [List.getElem?_eq_none (by simp; omega)] at hi
      cases hi
  · rw [List.length_append, List.length_singleton] at hj
    have hne : j ≠ log.length % cap := by
      rw [Nat.mod_eq_of_lt (by omega)]
      omega
    rw [Function.update_of_ne hne]
    exact h.blank j (by omega) hlt

/-- A slot that was written holds one of the last `cap` entries. -/
theorem exists_of_slot (h : Retains cap blank slots log) {j : ℕ} (hj : j < cap) (hlen : j < log.length) :
    ∃ i, log[i]? = some (slots j) ∧ log.length ≤ i + cap ∧ i % cap = j := by
  have hdiv := Nat.div_add_mod (log.length - 1 - j) cap
  have hmod := Nat.mod_lt (log.length - 1 - j) (Nat.zero_lt_of_lt hj)
  have hi : j + cap * ((log.length - 1 - j) / cap) < log.length := by omega
  have hslot : (j + cap * ((log.length - 1 - j) / cap)) % cap = j := by
    rw [Nat.add_mul_mod_self_left, Nat.mod_eq_of_lt hj]
  have hle : log.length ≤ j + cap * ((log.length - 1 - j) / cap) + cap := by omega
  refine ⟨_, ?_, hle, hslot⟩
  have hkept := h.kept _ _ (List.getElem?_eq_getElem hi) hle
  rw [hslot] at hkept
  rw [hkept]
  exact List.getElem?_eq_getElem hi

/-- **A search from the first slot on** finds the entry in the lowest slot. -/
theorem find (h : Retains cap blank slots log) {p : α → Prop} [DecidablePred p] (hblank : ¬p blank) (f : α → β)
    {a : α} (ha : LowestSlot cap p log a) :
    ((List.range cap).findSome? fun j => if p (slots j) then some (f (slots j)) else none) = some (f a) := by
  obtain ⟨i, hi, hlen, hp, hlow⟩ := ha
  have hlt : i < log.length := (List.getElem?_eq_some_iff.1 hi).1
  have hslot := h.kept i a hi hlen
  have hcap : i % cap < cap := Nat.mod_lt i (by omega)
  rw [List.findSome?_eq_some_iff]
  refine ⟨List.range (i % cap), i % cap, (List.range' (i % cap + 1) (cap - i % cap - 1)), ?_, ?_, ?_⟩
  · rw [List.range_eq_range', List.range_eq_range', ← List.range'_succ]
    have happ := @List.range'_append_1 0 (i % cap) (cap - i % cap - 1 + 1)
    rw [Nat.zero_add] at happ
    rw [happ]
    congr 1
    omega
  · rw [hslot, if_pos hp]
  · intro j hj
    rw [List.mem_range] at hj
    refine if_neg fun hpj => ?_
    rcases Nat.lt_or_ge j log.length with hjl | hjl
    · obtain ⟨k, hk, hklen, rfl⟩ := h.exists_of_slot (Nat.lt_trans hj hcap) hjl
      exact absurd (hlow k _ hk hklen hpj) (by omega)
    · rw [h.blank j hjl (Nat.lt_trans hj hcap)] at hpj
      exact hblank hpj

end Retains

theorem LowestSlot.map {p : β → Prop} {q : α → Prop} (f : α → β) (hf : ∀ a, p (f a) ↔ q a) {a : α}
    (h : LowestSlot cap q log a) : LowestSlot cap p (log.map f) (f a) := by
  obtain ⟨i, hi, hlen, hq, hlow⟩ := h
  refine ⟨i, by rw [List.getElem?_map, hi]; rfl, by rwa [List.length_map], (hf a).2 hq, fun k b hk hklen hb => ?_⟩
  rw [List.getElem?_map] at hk
  obtain ⟨a', ha', rfl⟩ := Option.map_eq_some_iff.1 hk
  exact hlow k a' ha' (by rwa [List.length_map] at hklen) ((hf a').1 hb)

/-- Among the last entries there is one in the lowest slot, if one of them passes the test. -/
theorem exists_lowestSlot {p : α → Prop} {i : ℕ} {a : α} (hi : log[i]? = some a) (hlen : log.length ≤ i + cap)
    (hp : p a) : ∃ b, LowestSlot cap p log b := by
  have hex : ∃ m, ∃ k b, log[k]? = some b ∧ log.length ≤ k + cap ∧ p b ∧ k % cap = m :=
    ⟨i % cap, i, a, hi, hlen, hp, rfl⟩
  classical
  obtain ⟨k, b, hk, hklen, hpb, hm⟩ := Nat.find_spec hex
  refine ⟨b, k, hk, hklen, hpb, fun k' b' hk' hlen' hp' => ?_⟩
  rw [hm]
  exact Nat.find_min' hex ⟨k', b', hk', hlen', hp', rfl⟩

end Shish
