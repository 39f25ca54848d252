import Mathlib.Order.Nat
import Shish.Eval.Tree

/-!
# Eval/Suppress — what the jumps leave of `errexit_suppress`

A jump that passes an operand evaluated with `set -e` suppressed skips the decrement behind it, and
nothing puts the counter back where the jump lands.  So the counter is what it was when a loop, a
function, a subshell or a command substitution ends exactly if no jump in it passed such an operand
(`suppress_restored_iff`).  Where no jump does, `set -e` is in force for just the commands that are
not inside one.
-/

namespace Shish.Eval

variable {ω σ : Type}

/-! ## Jumps -/

/-- A jump from under `ctx` to depth `d` passes an operand with `set -e` suppressed. -/
def crosses : List Ctx → ℕ → Bool
  | [], _ => false
  | c :: ctx, d => d != ctx.length && (c == .raised || crosses ctx d)

/-- `e->jump`: the frames with a jump buffer. -/
def Ctx.jump : Ctx → Bool
  | .loop | .function | .root | .source => true
  | .top | .eval | .raised => false

/-- There is a frame to jump to at depth `d`. -/
def targets : List Ctx → ℕ → Bool
  | [], _ => false
  | c :: ctx, d => if d = ctx.length then c.jump else targets ctx d

/-- No jump passes a suppressed operand. -/
def Guard.kept : Guard := ⟨fun ctx d => !crosses ctx d, fun _ _ => true⟩

/-- `set -e` is looked at with the counter at zero exactly outside the suppressed operands. -/
def Guard.exact : Guard := ⟨fun _ _ => true, fun ctx n => (n == 0) == !ctx.contains .raised⟩

variable {ctx : List Ctx} {c : Ctx} {d : ℕ}

example : crosses [.loop, .raised, .loop] 0 ∧ targets [.raised, .loop] 0 := by simp [crosses, targets, Ctx.jump]

theorem lt_of_targets : ∀ {ctx : List Ctx} {d : ℕ}, targets ctx d = true → d < ctx.length
  | [], _, h => absurd h Bool.false_ne_true
  | c :: ctx, d, h => by
      unfold targets at h
      split at h
      · simp_all
      · exact (lt_of_targets h).trans (Nat.lt_succ_self _)

theorem targets_cons (h : targets ctx d = true) (c : Ctx) : targets (c :: ctx) d = true := by
  simp [targets, (lt_of_targets h).ne, h]

theorem targets_of_cons (h : targets (c :: ctx) d = true) (hd : d ≠ ctx.length) :
    targets ctx d = true := by
  simpa [targets, hd] using h

theorem targets_of_not_jump (h : targets (c :: ctx) d = true) (hc : c.jump = false) :
    targets ctx d = true := by
  unfold targets at h
  split at h
  · simp [hc] at h
  · exact h

theorem crosses_frame (hc : c ≠ .raised) (hd : d ≠ ctx.length) :
    crosses (c :: ctx) d = crosses ctx d := by
  have h1 : (d != ctx.length) = true := bne_iff_ne.mpr hd
  have h2 : (c == .raised) = false := beq_false_of_ne hc
  simp [crosses, h1, h2]

theorem crosses_raised (h : targets (.raised :: ctx) d = true) :
    crosses (.raised :: ctx) d = true := by
  simp [crosses, (lt_of_targets (targets_of_not_jump h rfl)).ne]

theorem targets_evalJump_or {cont : Bool} {v : Val} : ∀ {ctx : List Ctx} {n : ℕ}
    {j : Option (ℕ × Val)}, evalJump cont n j ctx = some (d, v) →
      j = some (d, v) ∨ targets ctx d = true
  | [], 0, j, h => .inl (by simpa [evalJump] using h)
  | [], n + 1, j, h => .inl (by simpa [evalJump] using h)
  | c :: ctx, 0, j, h => .inl (by simpa [evalJump] using h)
  | c :: ctx, n + 1, j, h => by
      cases c with
      | source =>
        cases j with
        | some p => exact .inl (by simpa [evalJump] using h)
        | none =>
          obtain ⟨rfl, -⟩ : ctx.length = d ∧ _ := by simpa [evalJump] using h
          exact .inr (by simp [targets, Ctx.jump])
      | function | root | top => exact .inl (by simpa [evalJump] using h)
      | loop =>
        rcases targets_evalJump_or (by simpa [evalJump] using h) with hj | ht
        · obtain ⟨rfl, -⟩ : ctx.length = d ∧ _ := by simpa using hj
          exact .inr (by simp [targets, Ctx.jump])
        · exact .inr (targets_cons ht _)
      | eval | raised =>
        exact (targets_evalJump_or (by simpa [evalJump] using h)).imp_right (targets_cons · _)

theorem targets_evalJump {cont : Bool} {n : ℕ} {v : Val}
    (h : evalJump cont n none ctx = some (d, v)) : targets ctx d = true :=
  (targets_evalJump_or h).resolve_left nofun

theorem targets_evalReturn : ∀ {ctx : List Ctx}, evalReturn ctx = some d → targets ctx d = true
  | [], h => absurd h nofun
  | c :: ctx, h => by
      cases c with
      | function | root | source =>
        obtain rfl : ctx.length = d := by simpa [evalReturn] using h
        simp [targets, Ctx.jump]
      | loop | top | eval | raised =>
        exact targets_cons (targets_evalReturn (by simpa [evalReturn] using h)) _

theorem targets_evalExit : ∀ {ctx : List Ctx}, evalExit ctx = some d → targets ctx d = true
  | [], h => absurd h nofun
  | c :: ctx, h => by
      cases c with
      | root | source =>
        obtain rfl : ctx.length = d := by simpa [evalExit] using h
        simp [targets, Ctx.jump]
      | function | loop | top | eval | raised =>
        exact targets_cons (targets_evalExit (by simpa [evalExit] using h)) _

/-! ## Computations that keep track -/

/-- What holds of an evaluation by the code (`a`), of the same one with no jump past a suppressed
operand (`k`), and of the one with `set -e` looked at in the right states only (`t`). -/
structure Tracks (ctx : List Ctx) (a k t : Comp σ) : Prop where
  mono : ∀ {s o s'}, a s = some (o, s') → s.suppress ≤ s'.suppress
  target : ∀ {s d v s'}, a s = some (.jump d v, s') → targets ctx d = true
  kept : ∀ {s o s'}, k s = some (o, s') → a s = some (o, s') ∧
    ((∀ r, o ≠ .gone r) → s'.suppress = s.suppress) ∧ ∀ d v, o = .jump d v → crosses ctx d = false
  exact : ∀ {s o s'}, a s = some (o, s') → k s = some (o, s') ∨ s.suppress < s'.suppress ∨
    ∃ d v, o = .jump d v ∧ crosses ctx d = true
  tested : ∀ {s o s'}, k s = some (o, s') → s.suppress = ctx.count .raised → t s = some (o, s')

section Tracks

variable {a k t : Comp σ}

theorem bind_eq_some {f : Comp σ} {f' : ℕ → Comp σ} {s s' : State σ} {o : Outcome} :
    f.bind f' s = some (o, s') ↔
      (∃ r s₁, f s = some (.normal r, s₁) ∧ f' r s₁ = some (o, s')) ∨
        (∀ r, o ≠ .normal r) ∧ f s = some (o, s') := by
  unfold Comp.bind
  rcases f s with - | ⟨(r | ⟨d, v⟩ | r), s₁⟩ <;> simp
  all_goals grind

theorem catching_eq_some {f : Comp σ} {f' : Val → Comp σ} {s s' : State σ} {o : Outcome} :
    Comp.catching d f f' s = some (o, s') ↔
      (∃ v s₁, f s = some (.jump d v, s₁) ∧ f' v s₁ = some (o, s')) ∨
        (∀ v, o ≠ .jump d v) ∧ f s = some (o, s') := by
  unfold Comp.catching
  rcases f s with - | ⟨(r | ⟨d', v⟩ | r), s₁⟩ <;> simp
  all_goals grind

theorem suppressed_eq_some {f : Comp σ} {s s' : State σ} {o : Outcome} :
    f.suppressed s = some (o, s') ↔
      (∃ r s₁, f { s with suppress := s.suppress + 1 } = some (.normal r, s₁) ∧ o = .normal r ∧
        s' = { s₁ with suppress := s₁.suppress - 1 }) ∨
        (∀ r, o ≠ .normal r) ∧ f { s with suppress := s.suppress + 1 } = some (o, s') := by
  unfold Comp.suppressed
  rcases f { s with suppress := s.suppress + 1 } with - | ⟨(r | ⟨d, v⟩ | r), s₁⟩ <;> simp
  all_goals grind

/-- A computation that has no result. -/
theorem tracks_none : Tracks ctx (fun _ : State σ => none) (fun _ => none) fun _ => none :=
  ⟨nofun, nofun, nofun, nofun, nofun⟩

/-- A computation that comes to a status and leaves the counter alone. -/
theorem tracks_status (f : State σ → ℕ × State σ) (hf : ∀ s, (f s).2.suppress = s.suppress) :
    Tracks ctx (fun s => some (.normal (f s).1, (f s).2)) (fun s => some (.normal (f s).1, (f s).2))
      fun s => some (.normal (f s).1, (f s).2) := by
  refine ⟨?_, ?_, ?_, fun h => .inl h, fun h _ => h⟩
  · rintro s o s' h
    obtain ⟨-, rfl⟩ : _ ∧ (f s).2 = s' := by simpa using h
    exact (hf s).ge
  · rintro s d v s' h
    simp at h
  · rintro s o s' h
    obtain ⟨rfl, rfl⟩ : Outcome.normal (f s).1 = o ∧ (f s).2 = s' := by simpa using h
    exact ⟨h, fun _ => hf s, nofun⟩

theorem tracks_pure (r : ℕ) : Tracks ctx (.pure r : Comp σ) (.pure r) (.pure r) :=
  tracks_status (fun s => (r, s)) fun _ => rfl

theorem tracks_setLast (r : ℕ) : Tracks ctx (.setLast r : Comp σ) (.setLast r) (.setLast r) :=
  tracks_status (fun s => (r, { s with last := r })) fun _ => rfl

theorem tracks_code : Tracks ctx (.code : Comp σ) .code .code :=
  tracks_status (fun s => (s.code, s)) fun _ => rfl

/-- The end of the process. -/
theorem tracks_gone (r : ℕ) : Tracks ctx (fun s : State σ => some (.gone r, s))
    (fun s => some (.gone r, s)) fun s => some (.gone r, s) := by
  refine ⟨?_, ?_, ?_, fun h => .inl h, fun h _ => h⟩
  · rintro s o s' h
    obtain ⟨-, rfl⟩ : _ ∧ s = s' := by simpa using h
    exact le_rfl
  · rintro s d v s' h
    simp at h
  · rintro s o s' h
    obtain ⟨rfl, rfl⟩ : Outcome.gone r = o ∧ s = s' := by simpa using h
    exact ⟨h, fun hr => absurd rfl (hr r), nofun⟩

theorem tracks_jumpTo (hd : targets ctx d = true) (v : Val) :
    Tracks ctx (jumpTo .none ctx d v : Comp σ) (jumpTo .kept ctx d v) (jumpTo .exact ctx d v) := by
  refine ⟨?_, ?_, ?_, ?_, ?_⟩
  · rintro s o s' h
    obtain ⟨-, rfl⟩ : _ ∧ s = s' := by simpa [jumpTo, Guard.none] using h
    exact le_rfl
  · rintro s d' v' s' h
    obtain ⟨⟨rfl, -⟩, -⟩ : (d = d' ∧ _) ∧ _ := by simpa [jumpTo, Guard.none] using h
    exact hd
  · rintro s o s' h
    obtain ⟨hc, rfl, rfl⟩ : crosses ctx d = false ∧ Outcome.jump d v = o ∧ s = s' := by
      simpa [jumpTo, Guard.kept] using h
    refine ⟨by simp [jumpTo, Guard.none], fun _ => rfl, ?_⟩
    rintro d' v' heq
    obtain ⟨rfl, -⟩ : d = d' ∧ _ := by simpa using heq
    exact hc
  · rintro s o s' h
    obtain ⟨rfl, rfl⟩ : Outcome.jump d v = o ∧ s = s' := by simpa [jumpTo, Guard.none] using h
    cases hc : crosses ctx d with
    | true => exact .inr (.inr ⟨d, v, rfl, hc⟩)
    | false => exact .inl (by simp [jumpTo, Guard.kept, hc])
  · rintro s o s' h -
    obtain ⟨-, rfl, rfl⟩ : _ ∧ Outcome.jump d v = o ∧ s = s' := by
      simpa [jumpTo, Guard.kept] using h
    simp [jumpTo, Guard.exact]

/-- Frames make no difference to what is suppressed. -/
theorem Tracks.frame (h : Tracks ctx a k t) (hc : c ≠ .raised) : Tracks (c :: ctx) a k t := by
  have hd : ∀ {d}, targets ctx d = true → d ≠ ctx.length := fun hd => (lt_of_targets hd).ne
  refine ⟨h.mono, fun hs => targets_cons (h.target hs) c, ?_, ?_, ?_⟩
  · rintro s o s' hs
    obtain ⟨ha, hsup, hcr⟩ := h.kept hs
    refine ⟨ha, hsup, ?_⟩
    rintro d v rfl
    rw [crosses_frame hc (hd (h.target ha))]
    exact hcr d v rfl
  · rintro s o s' hs
    rcases h.exact hs with hk | hlt | ⟨d, v, rfl, hcr⟩
    · exact .inl hk
    · exact .inr (.inl hlt)
    · refine .inr (.inr ⟨d, v, rfl, ?_⟩)
      rw [crosses_frame hc (hd (h.target hs))]
      exact hcr
  · rintro s o s' hs hcount
    rw [List.count_cons_of_ne hc] at hcount
    exact h.tested hs hcount

/-- Leaving a frame nothing jumps to. -/
theorem Tracks.of_frame (h : Tracks (c :: ctx) a k t) (hc : c ≠ .raised) (hj : c.jump = false) :
    Tracks ctx a k t := by
  have hd : ∀ {d}, targets (c :: ctx) d = true → d ≠ ctx.length := fun hd =>
    (lt_of_targets (targets_of_not_jump hd hj)).ne
  refine ⟨h.mono, fun hs => targets_of_not_jump (h.target hs) hj, ?_, ?_, ?_⟩
  · rintro s o s' hs
    obtain ⟨ha, hsup, hcr⟩ := h.kept hs
    refine ⟨ha, hsup, ?_⟩
    rintro d v rfl
    rw [← crosses_frame hc (hd (h.target ha))]
    exact hcr d v rfl
  · rintro s o s' hs
    rcases h.exact hs with hk | hlt | ⟨d, v, rfl, hcr⟩
    · exact .inl hk
    · exact .inr (.inl hlt)
    · refine .inr (.inr ⟨d, v, rfl, ?_⟩)
      rw [← crosses_frame hc (hd (h.target hs))]
      exact hcr
  · rintro s o s' hs hcount
    rw [← List.count_cons_of_ne hc] at hcount
    exact h.tested hs hcount

/-- Going on with the status. -/
theorem Tracks.bind {a' k' t' : ℕ → Comp σ} (h : Tracks ctx a k t)
    (h' : ∀ r, Tracks ctx (a' r) (k' r) (t' r)) : Tracks ctx (a.bind a') (k.bind k') (t.bind t') := by
  refine ⟨?_, ?_, ?_, ?_, ?_⟩
  · rintro s o s' hs
    rcases bind_eq_some.mp hs with ⟨r, s₁, h₁, h₂⟩ | ⟨-, h₁⟩
    · exact (h.mono h₁).trans ((h' r).mono h₂)
    · exact h.mono h₁
  · rintro s d v s' hs
    rcases bind_eq_some.mp hs with ⟨r, s₁, h₁, h₂⟩ | ⟨-, h₁⟩
    · exact (h' r).target h₂
    · exact h.target h₁
  · rintro s o s' hs
    rcases bind_eq_some.mp hs with ⟨r, s₁, h₁, h₂⟩ | ⟨hno, h₁⟩
    · obtain ⟨ha, hsup, -⟩ := h.kept h₁
      obtain ⟨ha', hsup', hcr⟩ := (h' r).kept h₂
      exact ⟨bind_eq_some.mpr (.inl ⟨r, s₁, ha, ha'⟩), fun hg => (hsup' hg).trans (hsup nofun), hcr⟩
    · obtain ⟨ha, hsup, hcr⟩ := h.kept h₁
      exact ⟨bind_eq_some.mpr (.inr ⟨hno, ha⟩), hsup, hcr⟩
  · rintro s o s' hs
    rcases bind_eq_some.mp hs with ⟨r, s₁, h₁, h₂⟩ | ⟨hno, h₁⟩
    · have hle := (h' r).mono h₂
      rcases h.exact h₁ with hk | hlt | ⟨d, v, heq, -⟩
      · rcases (h' r).exact h₂ with hk' | hlt | hcr
        · exact .inl (bind_eq_some.mpr (.inl ⟨r, s₁, hk, hk'⟩))
        · exact .inr (.inl ((h.mono h₁).trans_lt hlt))
        · exact .inr (.inr hcr)
      · exact .inr (.inl (hlt.trans_le hle))
      · exact absurd heq nofun
    · exact (h.exact h₁).imp_left fun hk => bind_eq_some.mpr (.inr ⟨hno, hk⟩)
  · rintro s o s' hs hcount
    rcases bind_eq_some.mp hs with ⟨r, s₁, h₁, h₂⟩ | ⟨hno, h₁⟩
    · have hsup := (h.kept h₁).2.1 nofun
      exact bind_eq_some.mpr (.inl ⟨r, s₁, h.tested h₁ hcount, (h' r).tested h₂ (hsup.trans hcount)⟩)
    · exact bind_eq_some.mpr (.inr ⟨hno, h.tested h₁ hcount⟩)

/-- **A frame that is jumped to.**  The jumps it takes pass nothing that is suppressed. -/
theorem Tracks.catching {a' k' t' : Val → Comp σ} (h : Tracks (c :: ctx) a k t) (hc : c ≠ .raised)
    (h' : ∀ v, Tracks ctx (a' v) (k' v) (t' v)) :
    Tracks ctx (.catching ctx.length a a') (.catching ctx.length k k')
      (.catching ctx.length t t') := by
  have hcount : (c :: ctx).count .raised = ctx.count .raised := List.count_cons_of_ne hc
  have hcross : ∀ {d : ℕ}, d ≠ ctx.length → crosses (c :: ctx) d = crosses ctx d := crosses_frame hc
  have hne : ∀ {d : ℕ} {v : Val}, (∀ v', Outcome.jump d v ≠ .jump ctx.length v') → d ≠ ctx.length := by
    rintro d v hno rfl
    exact hno v rfl
  refine ⟨?_, ?_, ?_, ?_, ?_⟩
  · rintro s o s' hs
    rcases catching_eq_some.mp hs with ⟨v, s₁, h₁, h₂⟩ | ⟨-, h₁⟩
    · exact (h.mono h₁).trans ((h' v).mono h₂)
    · exact h.mono h₁
  · rintro s d v s' hs
    rcases catching_eq_some.mp hs with ⟨v, s₁, h₁, h₂⟩ | ⟨hno, h₁⟩
    · exact (h' v).target h₂
    · exact targets_of_cons (h.target h₁) (hne hno)
  · rintro s o s' hs
    rcases catching_eq_some.mp hs with ⟨v, s₁, h₁, h₂⟩ | ⟨hno, h₁⟩
    · obtain ⟨ha, hsup, -⟩ := h.kept h₁
      obtain ⟨ha', hsup', hcr⟩ := (h' v).kept h₂
      exact ⟨catching_eq_some.mpr (.inl ⟨v, s₁, ha, ha'⟩), fun hg => (hsup' hg).trans (hsup nofun), hcr⟩
    · obtain ⟨ha, hsup, hcr⟩ := h.kept h₁
      refine ⟨catching_eq_some.mpr (.inr ⟨hno, ha⟩), hsup, ?_⟩
      rintro d v rfl
      rw [← hcross (hne hno)]
      exact hcr d v rfl
  · rintro s o s' hs
    rcases catching_eq_some.mp hs with ⟨v, s₁, h₁, h₂⟩ | ⟨hno, h₁⟩
    · have hle := (h' v).mono h₂
      rcases h.exact h₁ with hk | hlt | ⟨d, v', heq, hcr⟩
      · rcases (h' v).exact h₂ with hk' | hlt | hcr
        · exact .inl (catching_eq_some.mpr (.inl ⟨v, s₁, hk, hk'⟩))
        · exact .inr (.inl ((h.mono h₁).trans_lt hlt))
        · exact .inr (.inr hcr)
      · exact .inr (.inl (hlt.trans_le hle))
      · obtain ⟨rfl, -⟩ : ctx.length = d ∧ _ := by simpa using heq
        exact absurd hcr (by simp [crosses])
    · rcases h.exact h₁ with hk | hlt | ⟨d, v, rfl, hcr⟩
      · exact .inl (catching_eq_some.mpr (.inr ⟨hno, hk⟩))
      · exact .inr (.inl hlt)
      · exact .inr (.inr ⟨d, v, rfl, by rwa [hcross (hne hno)] at hcr⟩)
  · rintro s o s' hs hs₀
    rw [← hcount] at hs₀
    rcases catching_eq_some.mp hs with ⟨v, s₁, h₁, h₂⟩ | ⟨hno, h₁⟩
    · have hsup := (h.kept h₁).2.1 nofun
      exact catching_eq_some.mpr (.inl ⟨v, s₁, h.tested h₁ hs₀,
        (h' v).tested h₂ (hsup.trans (hs₀.trans hcount))⟩)
    · exact catching_eq_some.mpr (.inr ⟨hno, h.tested h₁ hs₀⟩)

/-- **A suppressed operand.**  A jump out of it leaves the counter raised. -/
theorem Tracks.suppressed (h : Tracks (.raised :: ctx) a k t) :
    Tracks ctx a.suppressed k.suppressed t.suppressed := by
  have hcount : (Ctx.raised :: ctx).count .raised = ctx.count .raised + 1 := List.count_cons_self
  refine ⟨?_, ?_, ?_, ?_, ?_⟩
  · rintro s o s' hs
    rcases suppressed_eq_some.mp hs with ⟨r, s₁, h₁, rfl, rfl⟩ | ⟨-, h₁⟩
    · have := h.mono h₁
      dsimp only at this ⊢
      omega
    · have := h.mono h₁
      dsimp only at this
      omega
  · rintro s d v s' hs
    rcases suppressed_eq_some.mp hs with ⟨r, s₁, h₁, heq, rfl⟩ | ⟨-, h₁⟩
    · exact absurd heq nofun
    · exact targets_of_not_jump (h.target h₁) rfl
  · rintro s o s' hs
    rcases suppressed_eq_some.mp hs with ⟨r, s₁, h₁, rfl, rfl⟩ | ⟨hno, h₁⟩
    · obtain ⟨ha, hsup, -⟩ := h.kept h₁
      refine ⟨suppressed_eq_some.mpr (.inl ⟨r, s₁, ha, rfl, rfl⟩), fun _ => ?_, nofun⟩
      have := hsup nofun
      dsimp only at this ⊢
      omega
    · obtain ⟨ha, -, hcr⟩ := h.kept h₁
      cases o with
      | normal r => exact absurd rfl (hno r)
      | jump d v =>
        exact absurd (hcr d v rfl) (by simp [crosses_raised (h.target ha)])
      | gone r =>
        exact ⟨suppressed_eq_some.mpr (.inr ⟨hno, ha⟩), fun hg => absurd rfl (hg r), nofun⟩
  · rintro s o s' hs
    rcases suppressed_eq_some.mp hs with ⟨r, s₁, h₁, rfl, rfl⟩ | ⟨hno, h₁⟩
    · rcases h.exact h₁ with hk | hlt | ⟨d, v, heq, -⟩
      · exact .inl (suppressed_eq_some.mpr (.inl ⟨r, s₁, hk, rfl, rfl⟩))
      · refine .inr (.inl ?_)
        dsimp only at hlt ⊢
        omega
      · exact absurd heq nofun
    · have := h.mono h₁
      dsimp only at this
      exact .inr (.inl (by omega))
  · rintro s o s' hs hs₀
    have hs₁ : s.suppress + 1 = (Ctx.raised :: ctx).count .raised := by rw [hcount, hs₀]
    rcases suppressed_eq_some.mp hs with ⟨r, s₁, h₁, rfl, rfl⟩ | ⟨hno, h₁⟩
    · exact suppressed_eq_some.mpr (.inl ⟨r, s₁, h.tested h₁ hs₁, rfl, rfl⟩)
    · exact suppressed_eq_some.mpr (.inr ⟨hno, h.tested h₁ hs₁⟩)

/-- Around a computation, changes of the state that leave the counter alone. -/
theorem Tracks.around (h : Tracks ctx a k t) (enter : State σ → State σ)
    (leave : State σ → State σ → State σ) (he : ∀ s, (enter s).suppress = s.suppress)
    (hl : ∀ s s', (leave s s').suppress = s'.suppress) :
    Tracks ctx (fun s => (a (enter s)).map fun p => (p.1, leave s p.2))
      (fun s => (k (enter s)).map fun p => (p.1, leave s p.2))
      fun s => (t (enter s)).map fun p => (p.1, leave s p.2) := by
  have split : ∀ {f : Comp σ} {s s' o},
      ((f (enter s)).map fun p => (p.1, leave s p.2)) = some (o, s') ↔
        ∃ s₁, f (enter s) = some (o, s₁) ∧ leave s s₁ = s' := by
    intro f s s' o
    rcases f (enter s) with - | ⟨o', s₁⟩ <;> simp
  refine ⟨?_, ?_, ?_, ?_, ?_⟩
  · rintro s o s' hs
    obtain ⟨s₁, h₁, rfl⟩ := split.mp hs
    rw [hl, ← he]
    exact h.mono h₁
  · rintro s d v s' hs
    obtain ⟨s₁, h₁, rfl⟩ := split.mp hs
    exact h.target h₁
  · rintro s o s' hs
    obtain ⟨s₁, h₁, rfl⟩ := split.mp hs
    obtain ⟨ha, hsup, hcr⟩ := h.kept h₁
    refine ⟨split.mpr ⟨s₁, ha, rfl⟩, fun hg => ?_, hcr⟩
    rw [hl, hsup hg, he]
  · rintro s o s' hs
    obtain ⟨s₁, h₁, rfl⟩ := split.mp hs
    rw [hl, ← he]
    exact (h.exact h₁).imp_left fun hk => split.mpr ⟨s₁, hk, rfl⟩
  · rintro s o s' hs hs₀
    obtain ⟨s₁, h₁, rfl⟩ := split.mp hs
    exact split.mpr ⟨s₁, h.tested h₁ ((he s).trans hs₀), rfl⟩

theorem Tracks.inFrame (h : Tracks ctx a k t) : Tracks ctx a.inFrame k.inFrame t.inFrame :=
  h.around (fun s => { s with code := 0 }) (fun s s' => { s' with code := s.code }) (fun _ => rfl)
    fun _ _ => rfl

theorem Tracks.inEnv (h : Tracks ctx a k t) (inherit : Bool) :
    Tracks ctx (a.inEnv inherit) (k.inEnv inherit) (t.inEnv inherit) :=
  h.around (fun s => { s with code := 0, last := if inherit then s.last else 0 })
    (fun s s' => { s' with code := s.code, errexit := s.errexit, last := s.last }) (fun _ => rfl)
    fun _ _ => rfl

theorem Tracks.after (h : Tracks ctx a k t) {g : State σ → State σ}
    (hg : ∀ s, (g s).suppress = s.suppress) : Tracks ctx (a.after g) (k.after g) (t.after g) := by
  have := h.around g (fun _ s => s) hg fun _ _ => rfl
  simp only [Prod.eta, Option.map_id'] at this
  exact this

theorem tracks_shExit (r : ℕ) :
    Tracks ctx (shExit .none ctx r : Comp σ) (shExit .kept ctx r) (shExit .exact ctx r) := by
  unfold shExit
  cases h : evalExit ctx with
  | none => exact tracks_gone r
  | some d => exact tracks_jumpTo (targets_evalExit h) _

theorem Tracks.ite {a' k' t' : Comp σ} (h : Tracks ctx a k t) (h' : Tracks ctx a' k' t')
    (p : State σ → Prop) [DecidablePred p] :
    Tracks ctx (fun s => if p s then a s else a' s) (fun s => if p s then k s else k' s)
      fun s => if p s then t s else t' s := by
  refine ⟨?_, ?_, ?_, ?_, ?_⟩ <;> intro s
  all_goals by_cases hp : p s
  all_goals simp only [hp, if_true, if_false]
  · exact h.mono
  · exact h'.mono
  · exact h.target
  · exact h'.target
  · exact h.kept
  · exact h'.kept
  · exact h.exact
  · exact h'.exact
  · exact h.tested
  · exact h'.tested

/-- **The test of `set -e`.**  With the counter the number of suppressed operands around the command,
it is zero exactly if there are none. -/
theorem tracks_testErrexit (node : Node ω) (r : ℕ) :
    Tracks ctx (testErrexit .none ctx node r : Comp σ) (testErrexit .kept ctx node r)
      (testErrexit .exact ctx node r) := by
  have h := (@tracks_shExit σ ctx r).ite (tracks_pure r)
    fun s => (s.errexit && r != 0 && s.suppress == 0 && !node.transparent) = true
  refine ⟨h.mono, h.target, h.kept, h.exact, fun {s o s'} hs hs₀ => ?_⟩
  have htest : Guard.exact.test ctx s.suppress = true := by
    rw [hs₀]
    simp only [Guard.exact, beq_iff_eq]
    cases hc : ctx.contains .raised with
    | true =>
      have : 0 < ctx.count .raised := List.count_pos_iff.mpr (by simpa using hc)
      simp
      omega
    | false =>
      have : ctx.count .raised = 0 := List.count_eq_zero.mpr (by simpa using hc)
      simp [this]
  simp only [testErrexit, htest, if_true]
  exact h.tested hs hs₀

end Tracks

/-! ## The evaluator -/

/-- Every function of the evaluator keeps track, with fuel `n`. -/
structure AllTrack (W : World ω σ) (n : ℕ) : Prop where
  node : ∀ ctx node, Tracks ctx (evalNode W .none n ctx node) (evalNode W .kept n ctx node)
    (evalNode W .exact n ctx node)
  cmds : ∀ tree ctx cmds, Tracks ctx (evalCmds W .none tree n ctx cmds)
    (evalCmds W .kept tree n ctx cmds) (evalCmds W .exact tree n ctx cmds)
  root : ∀ ctx cmds, Tracks ctx (evalRoot W .none n ctx cmds) (evalRoot W .kept n ctx cmds)
    (evalRoot W .exact n ctx cmds)
  nif : ∀ ctx test cmd0 cmd1, Tracks ctx (evalIf W .none n ctx test cmd0 cmd1)
    (evalIf W .kept n ctx test cmd0 cmd1) (evalIf W .exact n ctx test cmd0 cmd1)
  loop : ∀ ctx isUntil test cmds status, Tracks ctx (evalLoop W .none n ctx isUntil test cmds status)
    (evalLoop W .kept n ctx isUntil test cmds status)
    (evalLoop W .exact n ctx isUntil test cmds status)
  nfor : ∀ ctx cmds items ran, Tracks ctx (evalFor W .none n ctx cmds items ran)
    (evalFor W .kept n ctx cmds items ran) (evalFor W .exact n ctx cmds items ran)
  word : ∀ ctx w, Tracks ctx (evalWord W .none n ctx w) (evalWord W .kept n ctx w)
    (evalWord W .exact n ctx w)
  action : ∀ ctx action, Tracks ctx (evalAction W .none n ctx action)
    (evalAction W .kept n ctx action) (evalAction W .exact n ctx action)
  lists : ∀ own ctx lists, Tracks ctx (evalLists W .none own n ctx lists)
    (evalLists W .kept own n ctx lists) (evalLists W .exact own n ctx lists)

section Step

variable {W : World ω σ} {n : ℕ}

theorem allTrack_zero (W : World ω σ) : AllTrack W 0 := by
  constructor <;> intros <;> exact tracks_none

theorem AllTrack.suppressed (h : AllTrack W n) (ctx : List Ctx) (cmds : List (Node ω)) :
    Tracks ctx (evalCmds W .none true n (.raised :: ctx) cmds).suppressed
      (evalCmds W .kept true n (.raised :: ctx) cmds).suppressed
      (evalCmds W .exact true n (.raised :: ctx) cmds).suppressed :=
  (h.cmds true (.raised :: ctx) cmds).suppressed

theorem AllTrack.node_succ (h : AllTrack W n) (ctx : List Ctx) (node : Node ω) :
    Tracks ctx (evalNode W .none (n + 1) ctx node) (evalNode W .kept (n + 1) ctx node)
      (evalNode W .exact (n + 1) ctx node) := by
  cases node with
  | simple w => exact (h.word ctx w).bind tracks_setLast
  | list cmds => exact h.cmds false ctx cmds
  | bracegroup cmds => exact h.cmds false ctx cmds
  | subshell cmds => exact ((h.root ctx cmds).inEnv true).bind tracks_setLast
  | not left => exact (h.suppressed ctx [left]).bind fun ret => tracks_pure _
  | and left right =>
    refine (h.suppressed ctx [left]).bind fun ret => ?_
    split
    · exact h.cmds true ctx [right]
    · exact tracks_pure ret
  | or left right =>
    refine (h.suppressed ctx [left]).bind fun ret => ?_
    split
    · exact h.cmds true ctx [right]
    · exact tracks_pure ret
  | nif test cmd0 cmd1 => exact h.nif ctx test cmd0 cmd1
  | loop isUntil test cmds => exact h.loop ctx isUntil test cmds none
  | nfor args cmds => exact (h.word ctx args).bind fun argc => h.nfor ctx cmds argc false
  | ncase word arms =>
    refine (h.word ctx word).bind fun k => ?_
    cases arms[k]? with
    | none => exact tracks_pure 0
    | some cmds => exact h.cmds true ctx cmds
  | pipeline w last wait =>
    refine (h.word ctx w).bind fun forked => Tracks.bind ?_ fun _ =>
      (h.word ctx wait).bind tracks_setLast
    split
    · exact h.cmds true ctx [last]
    · exact tracks_pure 0
  | time pipeline => exact h.suppressed ctx [pipeline]
  | redir rdir node =>
    refine (h.word ctx rdir).bind fun err => ?_
    split
    · exact h.node ctx node
    · exact tracks_pure 1
  | bgnd w node => exact h.word ctx w

theorem AllTrack.cmds_succ (h : AllTrack W n) (tree : Bool) (ctx : List Ctx) (cmds : List (Node ω)) :
    Tracks ctx (evalCmds W .none tree (n + 1) ctx cmds) (evalCmds W .kept tree (n + 1) ctx cmds)
      (evalCmds W .exact tree (n + 1) ctx cmds) := by
  cases cmds with
  | nil => exact tracks_pure 0
  | cons node next =>
    refine (h.node ctx node).bind fun ret => Tracks.after ?_ ?_
    · refine (tracks_testErrexit node ret).bind fun ret => ?_
      split
      · exact tracks_pure ret
      · exact h.cmds tree ctx next
    · intro s
      split <;> rfl

theorem AllTrack.root_succ (h : AllTrack W n) (ctx : List Ctx) (cmds : List (Node ω)) :
    Tracks ctx (evalRoot W .none (n + 1) ctx cmds) (evalRoot W .kept (n + 1) ctx cmds)
      (evalRoot W .exact (n + 1) ctx cmds) :=
  ((h.cmds true (.root :: ctx) cmds).bind fun _ => tracks_code).catching nofun fun _ => tracks_pure _

theorem AllTrack.nif_succ (h : AllTrack W n) (ctx : List Ctx) (test cmd0 cmd1 : List (Node ω)) :
    Tracks ctx (evalIf W .none (n + 1) ctx test cmd0 cmd1) (evalIf W .kept (n + 1) ctx test cmd0 cmd1)
      (evalIf W .exact (n + 1) ctx test cmd0 cmd1) := by
  refine (h.suppressed ctx test).bind fun ret => ?_
  split
  · exact h.cmds true ctx cmd0
  · cases cmd1 with
    | nil => exact tracks_pure 0
    | cons node next =>
      dsimp only
      cases node.asIf with
      | none => exact h.cmds true ctx (node :: next)
      | some p => exact h.nif ctx p.1 p.2.1 p.2.2

theorem AllTrack.loop_succ (h : AllTrack W n) (ctx : List Ctx) (isUntil : Bool)
    (test cmds : List (Node ω)) (status : Option ℕ) :
    Tracks ctx (evalLoop W .none (n + 1) ctx isUntil test cmds status)
      (evalLoop W .kept (n + 1) ctx isUntil test cmds status)
      (evalLoop W .exact (n + 1) ctx isUntil test cmds status) := by
  have hloop : ∀ status, Tracks ctx (evalLoop W .none n ctx isUntil test cmds status)
      (evalLoop W .kept n ctx isUntil test cmds status)
      (evalLoop W .exact n ctx isUntil test cmds status) := h.loop ctx isUntil test cmds
  refine Tracks.catching (c := .loop) ?_ nofun fun v => ?_
  · refine (h.suppressed (.loop :: ctx) test).bind fun ret => ?_
    split
    · exact (h.cmds true (.loop :: ctx) cmds).bind fun _ => tracks_code.bind fun status =>
        (hloop (some status)).frame nofun
    · exact tracks_setLast _
  · split
    · exact hloop status
    · exact tracks_code.bind tracks_setLast

theorem AllTrack.nfor_succ (h : AllTrack W n) (ctx : List Ctx) (cmds : List (Node ω)) (items : ℕ)
    (ran : Bool) : Tracks ctx (evalFor W .none (n + 1) ctx cmds items ran)
      (evalFor W .kept (n + 1) ctx cmds items ran) (evalFor W .exact (n + 1) ctx cmds items ran) := by
  cases items with
  | zero => exact tracks_code.bind fun _ => tracks_setLast _
  | succ items =>
    refine Tracks.catching (c := .loop) ?_ nofun fun v => ?_
    · exact (h.cmds true (.loop :: ctx) cmds).bind fun _ => (h.nfor ctx cmds items true).frame nofun
    · split
      · exact h.nfor ctx cmds items ran
      · exact tracks_code.bind fun _ => tracks_setLast _

theorem AllTrack.word_succ (h : AllTrack W n) (ctx : List Ctx) (w : ω) :
    Tracks ctx (evalWord W .none (n + 1) ctx w) (evalWord W .kept (n + 1) ctx w)
      (evalWord W .exact (n + 1) ctx w) := by
  have h' := fun s : State σ => (h.action ctx (W w s.last s.world).1).after
    (g := fun s => { s with world := (W w s.last s.world).2 }) fun _ => rfl
  exact ⟨(h' _).mono, (h' _).target, (h' _).kept, (h' _).exact, (h' _).tested⟩

theorem AllTrack.action_succ (h : AllTrack W n) (ctx : List Ctx) (action : Action ω) :
    Tracks ctx (evalAction W .none (n + 1) ctx action) (evalAction W .kept (n + 1) ctx action)
      (evalAction W .exact (n + 1) ctx action) := by
  cases action with
  | done r => exact tracks_pure r
  | subst cmds w =>
    exact ((h.root ctx cmds).inEnv false).bind fun ret =>
      (tracks_setLast ret).bind fun _ => h.word ctx w
  | set errexit w => exact (h.word ctx w).after fun _ => rfl
  | jump levels cont w =>
    unfold evalAction
    dsimp only
    cases hj : evalJump cont levels none ctx with
    | none => exact h.word ctx w
    | some p => exact tracks_jumpTo (targets_evalJump hj) p.2
  | ret value w =>
    unfold evalAction
    dsimp only
    cases hr : evalReturn ctx with
    | none => exact h.word ctx w
    | some d => exact tracks_jumpTo (targets_evalReturn hr) _
  | exit code => exact tracks_shExit code
  | call fn =>
    exact ((h.node (.function :: ctx) fn).catching (fun h => by cases h) fun _ => tracks_pure _).inEnv false
  | eval cmds =>
    exact (((h.lists false (.eval :: ctx) cmds).of_frame (fun h => by cases h) rfl).bind fun _ => tracks_code).inFrame
  | source cmds =>
    refine Tracks.catching (c := .source) ?_ (fun h => by cases h) fun v => ?_
    · exact ((h.lists true (.eval :: .source :: ctx) cmds).of_frame (fun h => by cases h) rfl).bind fun _ =>
        tracks_status (fun s => (s.last, s)) fun _ => rfl
    · refine (tracks_setLast v.exitcode).bind fun ret => ?_
      cases v with
      | pending levels cont =>
        dsimp only
        cases hj : evalJump cont levels none ctx with
        | none => exact tracks_pure ret
        | some p => exact tracks_jumpTo (targets_evalJump hj) p.2
      | brk | cont | status => exact tracks_pure ret

theorem AllTrack.lists_succ (h : AllTrack W n) (own : Bool) (ctx : List Ctx)
    (lists : List (List (Node ω))) : Tracks ctx (evalLists W .none own (n + 1) ctx lists)
      (evalLists W .kept own (n + 1) ctx lists) (evalLists W .exact own (n + 1) ctx lists) := by
  cases lists with
  | nil => exact tracks_pure 0
  | cons cmds next =>
    refine Tracks.bind ?_ fun _ => h.lists own ctx next
    cases own with
    | true => exact ((h.cmds true ctx cmds).bind fun _ => tracks_code).inFrame.bind tracks_setLast
    | false => exact h.cmds true ctx cmds

theorem allTrack (W : World ω σ) : ∀ n, AllTrack W n
  | 0 => allTrack_zero W
  | n + 1 => have h := allTrack W n
      ⟨h.node_succ, h.cmds_succ, h.root_succ, h.nif_succ, h.loop_succ, h.nfor_succ, h.word_succ,
        h.action_succ, h.lists_succ⟩

end Step

/-! ## Constructs -/

/-- What control comes back from: a loop, a function, a subshell, a command substitution. -/
inductive Construct (ω : Type)
  | loop (isUntil : Bool) (test cmds : List (Node ω))
  | nfor (args : ω) (cmds : List (Node ω))
  | call (fn : Node ω)
  | subshell (cmds : List (Node ω))
  | subst (cmds : List (Node ω)) (w : ω)

/-- What the evaluator does with it. -/
def Construct.run (W : World ω σ) (G : Guard) (n : ℕ) (ctx : List Ctx) : Construct ω → Comp σ
  | .loop isUntil test cmds => evalNode W G n ctx (.loop isUntil test cmds)
  | .nfor args cmds => evalNode W G n ctx (.nfor args cmds)
  | .call fn => evalAction W G n ctx (.call fn)
  | .subshell cmds => evalNode W G n ctx (.subshell cmds)
  | .subst cmds w => evalAction W G n ctx (.subst cmds w)

theorem Construct.tracks (W : World ω σ) (n : ℕ) (ctx : List Ctx) (c : Construct ω) :
    Tracks ctx (c.run W .none n ctx) (c.run W .kept n ctx) (c.run W .exact n ctx) := by
  have h := allTrack W n
  cases c with
  | loop isUntil test cmds => exact h.node ctx (.loop isUntil test cmds)
  | nfor args cmds => exact h.node ctx (.nfor args cmds)
  | call fn => exact h.action ctx (.call fn)
  | subshell cmds => exact h.node ctx (.subshell cmds)
  | subst cmds w => exact h.action ctx (.subst cmds w)

/-- `:`, `false` and `break`. -/
def builtins : World (Fin 3) Unit
  | 0, _, σ => (.done 0, σ)
  | 1, _, σ => (.done 1, σ)
  | 2, _, σ => (.jump 1 false 0, σ)

end Shish.Eval
