import Mathlib.Data.List.Basic

/-!
# Lib/Run — runs of a partial step function, and conditions along them

A machine is a partial function `step : σ → α → Option σ`; a run feeds it a list of actions.  A
condition on single steps is carried along a run by `Along`, and what every step that meets it
preserves holds wherever such a run ends (`run_invariant`).
-/

namespace Shish

variable {σ α : Type*} (step : σ → α → Option σ)

/-- A run of actions from a state; `none` once a step has none. -/
def runs : σ → List α → Option σ
  | s, [] => some s
  | s, a :: as => (step s a).bind fun s' => runs s' as

/-- Every step of the run from `s` meets the condition in the state it is taken in. -/
def Along (ok : σ → α → Prop) : σ → List α → Prop
  | _, [] => True
  | s, a :: as => ok s a ∧ ∀ s', step s a = some s' → Along ok s' as

instance Along.decidable (ok : σ → α → Prop) [∀ s a, Decidable (ok s a)] :
    ∀ (s : σ) (as : List α), Decidable (Along step ok s as)
  | _, [] => isTrue trivial
  | s, a :: as =>
      match hs : step s a with
      | none => decidable_of_iff (ok s a) ⟨fun h => ⟨h, fun s' hs' => by simp [hs] at hs'⟩, And.left⟩
      | some s' =>
          have := Along.decidable ok s' as
          decidable_of_iff (ok s a ∧ Along step ok s' as)
            ⟨fun h => ⟨h.1, fun s1 h1 => by
              obtain rfl : s' = s1 := by simpa [hs] using h1
              exact h.2⟩, fun h => ⟨h.1, h.2 s' hs⟩⟩

variable {step}

theorem runs_append (s : σ) (as bs : List α) :
    runs step s (as ++ bs) = (runs step s as).bind fun s' => runs step s' bs := by
  induction as generalizing s with
  | nil => rfl
  | cons a as ih =>
    simp only [List.cons_append, runs]
    cases step s a with
    | none => rfl
    | some s' => exact ih s'

/-- **What every step preserves, a run preserves.** -/
theorem run_invariant {ok : σ → α → Prop} (Inv : σ → Prop)
    (hstep : ∀ s a s', Inv s → ok s a → step s a = some s' → Inv s') :
    ∀ (as : List α) {s s' : σ}, Inv s → Along step ok s as → runs step s as = some s' → Inv s'
  | [], s, s', h, _, hr => by
      obtain rfl := Option.some.inj hr
      exact h
  | a :: as, s, s', h, ⟨hok, hrest⟩, hr => by
      simp only [runs] at hr
      obtain ⟨s1, h1, h2⟩ := Option.bind_eq_some_iff.mp hr
      exact run_invariant Inv hstep as (hstep s a s1 h hok h1) (hrest s1 h1) h2

/-- A condition along a run of two parts holds along each. -/
theorem along_append {ok : σ → α → Prop} : ∀ (as bs : List α) {s : σ},
    Along step ok s (as ++ bs) → Along step ok s as ∧
      ∀ s', runs step s as = some s' → Along step ok s' bs
  | [], bs, s, h => ⟨trivial, fun s' hs => by obtain rfl := Option.some.inj hs; exact h⟩
  | a :: as, bs, s, ⟨hok, h⟩ => by
      refine ⟨⟨hok, fun s1 h1 => (along_append as bs (h s1 h1)).1⟩, fun s' hs => ?_⟩
      simp only [runs] at hs
      obtain ⟨s1, h1, h2⟩ := Option.bind_eq_some_iff.mp hs
      exact (along_append as bs (h s1 h1)).2 s' h2

/-- A run along which a condition fails has a first step that does not meet it. -/
theorem exists_first_not {ok : σ → α → Prop} : ∀ {as : List α} {s : σ}, ¬Along step ok s as →
    ∃ pre a rest s', as = pre ++ a :: rest ∧ Along step ok s pre ∧ runs step s pre = some s' ∧ ¬ok s' a
  | [], _, h => absurd trivial h
  | a :: as, s, h => by
      by_cases hok : ok s a
      · obtain ⟨s₁, hs₁, h⟩ : ∃ s', step s a = some s' ∧ ¬Along step ok s' as := by
          by_contra hnone
          exact h ⟨hok, fun s' hs' => not_not.1 fun hs => hnone ⟨s', hs', hs⟩⟩
        obtain ⟨pre, b, rest, s', rfl, hpre, hrun, hb⟩ := exists_first_not h
        refine ⟨a :: pre, b, rest, s', rfl, ⟨hok, fun s₂ hs₂ => ?_⟩, ?_, hb⟩
        · obtain rfl := Option.some.inj (hs₁.symm.trans hs₂)
          exact hpre
        · rw [runs, hs₁]
          exact hrun
      · exact ⟨[], a, as, s, rfl, trivial, rfl, hok⟩

theorem Along.mono {ok ok' : σ → α → Prop} (himp : ∀ s a, ok s a → ok' s a) :
    ∀ {as : List α} {s : σ}, Along step ok s as → Along step ok' s as
  | [], _, _ => trivial
  | _ :: _, _, ⟨h1, h2⟩ => ⟨himp _ _ h1, fun s' hs => (h2 s' hs).mono himp⟩

end Shish
