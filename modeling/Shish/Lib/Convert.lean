import Mathlib.Algebra.Order.Ring.Nat
import Mathlib.Algebra.Order.BigOperators.Group.List

/-!
# Lib/Convert — converting a text character by character, into a limited room

A converter takes a character off the front of its input and knows what to write for it.  `steps` are all the characters
of an input; a call with a limit takes the characters that fit, whole ones only (`Converts`).  Calls that go on where
the one before stopped write together what a single call without a limit does (`Piecewise.flatten`).
-/

namespace Shish.Converter

variable {α β : Type*} {next : List α → ℕ × List β} {f : ℕ → List α → List β × ℕ} {limit : ℕ} {s : List α}
  {es : List (ℕ × List β)} {out : List β} {outs : List (List β)}

/-- All the characters of an input: how much of it each of them is, and what is written for it. -/
def steps (next : List α → ℕ × List β) (s : List α) : List (ℕ × List β) :=
  if h : s = [] then []
  else
    have := List.length_pos_iff.2 h
    next s :: steps next (s.drop (max 1 (next s).1))
termination_by s.length
decreasing_by
  rw [List.length_drop]
  omega

/-- What is written for some characters. -/
def written (es : List (ℕ × List β)) : List β := es.flatMap Prod.snd

/-- How much of the input they are. -/
def used (es : List (ℕ × List β)) : ℕ := (es.map Prod.fst).sum

/-- The characters from the front that fit. -/
def fitting : ℕ → List (ℕ × List β) → List (ℕ × List β)
  | _, [] => []
  | limit, e :: es => if e.2.length ≤ limit then e :: fitting (limit - e.2.length) es else []

/-- A character is some of the input. -/
def Advances (next : List α → ℕ × List β) : Prop := ∀ s, s ≠ [] → 1 ≤ (next s).1 ∧ (next s).1 ≤ s.length

/-- **The converter writes the characters that fit**, and says how much of the input they are. -/
def Converts (next : List α → ℕ × List β) (f : ℕ → List α → List β × ℕ) : Prop :=
  ∀ limit s, f limit s = (written (fitting limit (steps next s)), used (fitting limit (steps next s)))

/-- **A call that is not limited** writes `out` for all of the input. -/
def Whole (f : ℕ → List α → List β × ℕ) (s : List α) (out : List β) : Prop :=
  ∀ limit, out.length ≤ limit → f limit s = (out, s.length)

/-- **Calls with a limit** that go on where the one before stopped, up to the end of the input, and what they write. -/
inductive Piecewise (f : ℕ → List α → List β × ℕ) (limit : ℕ) : List α → List (List β) → Prop
  | done : Piecewise f limit [] []
  | call {s : List α} {outs : List (List β)} (hs : s ≠ []) (rest : Piecewise f limit (s.drop (f limit s).2) outs) :
      Piecewise f limit s ((f limit s).1 :: outs)

example : fitting 3 [(1, ['a', 'b']), (1, ['c', 'd'])] = [(1, ['a', 'b'])] := by simp [fitting]

/-! ## All the characters -/

@[simp] theorem steps_nil : steps next [] = [] := by rw [steps, dif_pos rfl]

theorem steps_of_ne_nil (h : Advances next) (hs : s ≠ []) :
    steps next s = next s :: steps next (s.drop (next s).1) := by
  rw [steps, dif_neg hs]
  change next s :: steps next (s.drop (max 1 (next s).1)) = _
  rw [show max 1 (next s).1 = (next s).1 from Nat.max_eq_right (h s hs).1]

/-- **The characters are all of the input.** -/
theorem used_steps (h : Advances next) : used (steps next s) = s.length := by
  induction hn : s.length using Nat.strong_induction_on generalizing s with
  | _ n ih =>
    rcases eq_or_ne s [] with rfl | hs
    · rw [steps_nil, ← hn]
      rfl
    · obtain ⟨h₁, h₂⟩ := h s hs
      have hrest := ih (s.drop (next s).1).length (by rw [List.length_drop]; omega) rfl
      rw [steps_of_ne_nil h hs, used, List.map_cons, List.sum_cons, ← used, hrest, List.length_drop]
      omega

/-- Behind some characters there are the other ones. -/
theorem steps_drop (h : Advances next) (hes : es <+: steps next s) :
    steps next s = es ++ steps next (s.drop (used es)) := by
  induction es generalizing s with
  | nil => rfl
  | cons e es ih =>
    obtain ⟨rest, hrest⟩ := hes
    rcases eq_or_ne s [] with rfl | hs
    · rw [steps_nil] at hrest
      exact nomatch hrest
    · rw [steps_of_ne_nil h hs, List.cons_append] at hrest
      obtain ⟨rfl, htail⟩ := List.cons.inj hrest
      have hih := ih ⟨rest, htail⟩
      rw [steps_of_ne_nil h hs, hih, List.drop_drop]
      rfl

/-- A property of every character has a run over all of them. -/
theorem forall_mem_steps {p : ℕ × List β → Prop} (h : Advances next) (hp : ∀ s, s ≠ [] → p (next s)) :
    ∀ e ∈ steps next s, p e := by
  induction hn : s.length using Nat.strong_induction_on generalizing s with
  | _ n ih =>
    rcases eq_or_ne s [] with rfl | hs
    · rw [steps_nil]
      exact nofun
    · obtain ⟨h₁, h₂⟩ := h s hs
      rw [steps_of_ne_nil h hs, List.forall_mem_cons]
      exact ⟨hp s hs, ih (s.drop (next s).1).length (by rw [List.length_drop]; omega) rfl⟩

/-- What is written for characters is a text of them. -/
theorem exists_written {γ : Type*} {text : γ → List β} (h : ∀ e ∈ es, ∃ c, e.2 = text c) :
    ∃ cs : List γ, written es = cs.flatMap text := by
  induction es with
  | nil => exact ⟨[], rfl⟩
  | cons e es ih =>
    rw [List.forall_mem_cons] at h
    obtain ⟨⟨c, hc⟩, hes⟩ := h
    obtain ⟨cs, hcs⟩ := ih hes
    refine ⟨c :: cs, ?_⟩
    rw [written, List.flatMap_cons, ← written, hcs, hc, List.flatMap_cons]

/-! ## The characters that fit -/

theorem isPrefix_fitting (limit : ℕ) (es : List (ℕ × List β)) : fitting limit es <+: es := by
  fun_induction fitting limit es with
  | case1 => exact List.prefix_rfl
  | case2 limit e es hfit ih => exact List.cons_prefix_cons.2 ⟨rfl, ih⟩
  | case3 limit e es hfit => exact List.nil_prefix

theorem length_written_fitting (limit : ℕ) (es : List (ℕ × List β)) : (written (fitting limit es)).length ≤ limit := by
  fun_induction fitting limit es with
  | case1 => exact Nat.zero_le _
  | case2 limit e es hfit ih =>
    rw [written, List.flatMap_cons, List.length_append, ← written]
    omega
  | case3 limit e es hfit => exact Nat.zero_le _

theorem fitting_all (h : (written es).length ≤ limit) : fitting limit es = es := by
  fun_induction fitting limit es with
  | case1 => rfl
  | case2 limit e es hfit ih =>
    rw [written, List.flatMap_cons, List.length_append, ← written] at h
    rw [ih (by omega)]
  | case3 limit e es hfit =>
    rw [written, List.flatMap_cons, List.length_append] at h
    omega

/-- A character that does not fit ends it. -/
theorem fitting_steps_of_lt (h : Advances next) (hs : s ≠ []) (hlt : limit < (next s).2.length) :
    fitting limit (steps next s) = [] := by
  rw [steps_of_ne_nil h hs, fitting, if_neg (Nat.not_le.2 hlt)]

/-- A character that fits is written, and the others have what room is left. -/
theorem fitting_steps_of_le (h : Advances next) (hs : s ≠ []) (hle : (next s).2.length ≤ limit) :
    written (fitting limit (steps next s)) =
      (next s).2 ++ written (fitting (limit - (next s).2.length) (steps next (s.drop (next s).1))) ∧
    used (fitting limit (steps next s)) =
      (next s).1 + used (fitting (limit - (next s).2.length) (steps next (s.drop (next s).1))) := by
  rw [steps_of_ne_nil h hs, fitting, if_pos hle]
  exact ⟨List.flatMap_cons, List.sum_cons⟩

/-! ## Calls -/

variable (h : Advances next) (hf : Converts next f)

include h hf

/-- **A call that is not limited** writes all the characters. -/
theorem Converts.whole (s : List α) : Whole f s (written (steps next s)) := by
  intro limit hlimit
  rw [hf, fitting_all hlimit, used_steps h]

/-- What a call leaves are the characters it did not write. -/
theorem Converts.steps_eq (limit : ℕ) (s : List α) :
    steps next s = fitting limit (steps next s) ++ steps next (s.drop (f limit s).2) := by
  have hdrop := steps_drop h (isPrefix_fitting limit (steps next s))
  rwa [hf]

/-- **A call writes some of the input** when the limit has room for a character. -/
theorem Converts.used_pos (hroom : ∀ s, s ≠ [] → (next s).2.length ≤ limit) (hs : s ≠ []) : 1 ≤ (f limit s).2 := by
  rw [hf, steps_of_ne_nil h hs, fitting, if_pos (hroom s hs)]
  change 1 ≤ ((next s).1 :: _).sum
  rw [List.sum_cons]
  exact (h s hs).1.trans (Nat.le_add_right ..)

/-- The calls come to an end. -/
theorem exists_piecewise (hroom : ∀ s, s ≠ [] → (next s).2.length ≤ limit) (s : List α) :
    ∃ outs, Piecewise f limit s outs := by
  induction hn : s.length using Nat.strong_induction_on generalizing s with
  | _ n ih =>
    rcases eq_or_ne s [] with rfl | hs
    · exact ⟨[], .done⟩
    · have hpos := hf.used_pos h hroom hs
      have hlen := List.length_pos_iff.2 hs
      obtain ⟨outs, houts⟩ := ih (s.drop (f limit s).2).length (by rw [List.length_drop]; omega) _ rfl
      exact ⟨_, .call hs houts⟩

/-- **The calls write what one call does**, each of them some characters. -/
theorem Piecewise.flatten (hp : Piecewise f limit s outs) : outs.flatten = written (steps next s) ∧
    ∀ out ∈ outs, out.length ≤ limit ∧ ∃ es, (∀ e ∈ es, e ∈ steps next s) ∧ out = written es := by
  induction hp with
  | done => exact ⟨by rw [steps_nil]; rfl, nofun⟩
  | @call s outs hs rest ih =>
    have heq := hf.steps_eq h limit s
    obtain ⟨hflat, hall⟩ := ih
    have hout : (f limit s).1 = written (fitting limit (steps next s)) := by rw [hf]
    refine ⟨?_, List.forall_mem_cons.2 ⟨⟨?_, fitting limit (steps next s), ?_, hout⟩, fun out hmem => ?_⟩⟩
    · have happend : written (fitting limit (steps next s) ++ steps next (s.drop (f limit s).2)) =
          written (fitting limit (steps next s)) ++ written (steps next (s.drop (f limit s).2)) := List.flatMap_append
      rw [← heq] at happend
      rw [List.flatten_cons, hflat, hout]
      exact happend.symm
    · rw [hout]
      exact length_written_fitting ..
    · exact fun e he => (isPrefix_fitting limit (steps next s)).subset he
    · obtain ⟨hlen, es, hes, rfl⟩ := hall out hmem
      refine ⟨hlen, es, fun e he => ?_, rfl⟩
      rw [heq]
      exact List.mem_append_right _ (hes e he)

end Shish.Converter
