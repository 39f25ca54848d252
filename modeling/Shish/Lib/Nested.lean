import Shish.Lib.Run

/-!
# Lib/Nested — scopes that are opened and closed along a run

Some actions open a scope and some close the innermost one.  `note` keeps, beside the run, a view of
the state at each opening.  If every closing step leaves the state with the view that is noted on
top, then a scope whose openings and closings balance ends with the view it began with, however deep
the scopes in it are nested (`scope_restored`).
-/

namespace Shish

variable {σ α τ : Type*} (opens closes : α → Bool)

/-- How many scopes are open behind some actions that begin in `k` of them; the actions close none
of those `k` but what they opened and these. -/
def nesting : ℕ → List α → Option ℕ
  | k, [] => some k
  | k, a :: as =>
      if opens a then nesting (k + 1) as
      else if closes a then if k = 0 then none else nesting (k - 1) as
      else nesting k as

/-- Every scope that is opened is closed, and no other. -/
def Balanced (as : List α) : Prop := nesting opens closes 0 as = some 0

instance (as : List α) : Decidable (Balanced opens closes as) :=
  inferInstanceAs (Decidable (nesting opens closes 0 as = some 0))

/-- The views noted behind an action. -/
def note (view : σ → τ) (s : σ) (noted : List τ) (a : α) : List τ :=
  if opens a then view s :: noted else if closes a then noted.tail else noted

variable {opens closes} {step : σ → α → Option σ} {ok : σ → α → Prop} {view : σ → τ}
  (Inv : σ → List τ → Prop)

/-- What was noted before a run is noted behind it, below what the run opened. -/
theorem noted_of_nesting
    (hstep : ∀ s noted a s', Inv s noted → ok s a → step s a = some s' →
      Inv s' (note opens closes view s noted a)) :
    ∀ (as : List α) (k j : ℕ) (top : List τ) {rest : List τ} {s s' : σ}, nesting opens closes k as = some j →
      top.length = k → Inv s (top ++ rest) → Along step ok s as → runs step s as = some s' →
        ∃ top', top'.length = j ∧ Inv s' (top' ++ rest)
  | [], k, j, top, rest, s, s', hn, ht, hinv, _, hrun => by
      obtain rfl := Option.some.inj hrun
      exact ⟨top, ht.trans (Option.some.inj hn), hinv⟩
  | a :: as, k, j, top, rest, s, s', hn, ht, hinv, ⟨hok, hrest⟩, hrun => by
      obtain ⟨s₁, h₁, hrun⟩ := Option.bind_eq_some_iff.1 hrun
      have hinv₁ := hstep s _ a s₁ hinv hok h₁
      rw [nesting] at hn
      rw [note] at hinv₁
      split_ifs at hn hinv₁ with ho hc h0
      · exact noted_of_nesting hstep as (k + 1) j (view s :: top) hn (congrArg (· + 1) ht)
          hinv₁ (hrest s₁ h₁) hrun
      · obtain ⟨t, top, rfl⟩ := List.exists_cons_of_length_pos (by omega : 0 < top.length)
        exact noted_of_nesting hstep as (k - 1) j top hn (by simp at ht; omega) hinv₁ (hrest s₁ h₁) hrun
      · exact noted_of_nesting hstep as k j top hn ht hinv₁ (hrest s₁ h₁) hrun

/-- **A scope ends with the view it began with.** -/
theorem scope_restored
    (hstep : ∀ s noted a s', Inv s noted → ok s a → step s a = some s' →
      Inv s' (note opens closes view s noted a))
    (hclose : ∀ s noted a s', Inv s noted → ok s a → step s a = some s' → opens a = false →
      closes a → noted.head? = some (view s'))
    {o c : α} {body : List α} {s s' : σ} {noted : List τ} (ho : opens o) (hoc : opens c = false)
    (hc : closes c) (hb : Balanced opens closes body) (hinv : Inv s noted)
    (hok : Along step ok s (o :: (body ++ [c])))
    (hrun : runs step s (o :: (body ++ [c])) = some s') : view s' = view s := by
  obtain ⟨hoko, hok⟩ := hok
  obtain ⟨s₁, h₁, hrun⟩ := Option.bind_eq_some_iff.1 hrun
  have hinv₁ := hstep s noted o s₁ hinv hoko h₁
  rw [note, if_pos ho] at hinv₁
  obtain ⟨hbody, hlast⟩ := along_append body [c] (hok s₁ h₁)
  rw [runs_append] at hrun
  obtain ⟨s₂, h₂, hrun⟩ := Option.bind_eq_some_iff.1 hrun
  obtain ⟨s₃, h₃, hrun⟩ := Option.bind_eq_some_iff.1 hrun
  obtain rfl := Option.some.inj hrun
  obtain ⟨top, ht, hinv₂⟩ :=
    noted_of_nesting Inv hstep body 0 0 [] hb rfl hinv₁ hbody h₂
  obtain rfl := List.length_eq_zero_iff.1 ht
  have hhead := hclose s₂ _ c s₃ hinv₂ (hlast s₂ h₂).1 h₃ hoc hc
  exact (Option.some.inj hhead).symm

end Shish
