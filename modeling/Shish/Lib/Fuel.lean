import Mathlib.Data.Nat.Init

/-!
# Lib/Fuel — functions with a bound on the depth of calls

A recursion without a bound is written with a bound that every call lowers.  What such a function
does is what it does for every bound that is large enough; `Soon` says that, and a rule of the
function becomes a rule without bounds through `Soon.next` and `Soon.and`.
-/

namespace Shish

variable {α β : Type}

/-- `P` holds from some bound on. -/
def Soon (P : ℕ → Prop) : Prop := ∃ N, ∀ n, N ≤ n → P n

namespace Soon

variable {P Q : ℕ → Prop}

theorem and (hP : Soon P) (hQ : Soon Q) : Soon fun n => P n ∧ Q n := by
  obtain ⟨N, hN⟩ := hP
  obtain ⟨M, hM⟩ := hQ
  exact ⟨N + M, fun n hn => ⟨hN n (by omega), hM n (by omega)⟩⟩

/-- One call more. -/
theorem next (hP : Soon P) (h : ∀ n, P n → Q (n + 1)) : Soon Q := by
  obtain ⟨N, hN⟩ := hP
  refine ⟨N + 1, fun n hn => ?_⟩
  obtain ⟨m, rfl⟩ : ∃ m, n = m + 1 := ⟨n - 1, by omega⟩
  exact h m (hN m (by omega))

theorem exists_of (hP : Soon P) : ∃ n, P n := by
  obtain ⟨N, hN⟩ := hP
  exact ⟨N, hN N (Nat.le_refl N)⟩

theorem of_succ (h : ∀ n, P (n + 1)) : Soon P :=
  next (P := fun _ => True) ⟨0, fun _ _ => trivial⟩ fun n _ => h n

end Soon

/-- With a bound large enough `f` returns `r` for `s`. -/
def Gives (f : ℕ → α → Option β) (s : α) (r : β) : Prop := Soon fun n => f n s = some r

/-- With some bound `f` returns `r`. -/
def Halts (f : ℕ → Option β) (r : β) : Prop := ∃ n, f n = some r

theorem halts_map {γ : Type} {f : ℕ → Option β} {g : β → γ} {r : γ} :
    Halts (fun n => (f n).map g) r ↔ ∃ b, Halts f b ∧ g b = r := by
  constructor
  · rintro ⟨n, hn⟩
    obtain ⟨b, hb, hr⟩ := Option.map_eq_some_iff.1 hn
    exact ⟨b, ⟨n, hb⟩, hr⟩
  · rintro ⟨b, ⟨n, hb⟩, rfl⟩
    exact ⟨n, congrArg (Option.map g) hb⟩

theorem Gives.unique {f : ℕ → α → Option β} {s : α} {r r' : β} (h : Gives f s r)
    (h' : Gives f s r') : r = r' := by
  obtain ⟨n, h₁, h₂⟩ := (Soon.and h h').exists_of
  exact Option.some.inj (h₁.symm.trans h₂)

end Shish
