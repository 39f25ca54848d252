import Shish.Builtin.Trap

/-!
# Builtin/TrapScope — a subshell leaves the traps as they were

The proof goes one signal at a time.  Between its beginning and its end a subshell may set traps of
its own, in front of those it noted: then the disposition under such a trap is the one the signal
had, or the default in place of an interactive shell's own ignore (`Turns`).  `Above` says that of
the signals of a state and of what was noted last, and `Keeps` carries it along a run.  At the end
the traps in front are popped, the noted ones armed and the shell's ignores put back, and everything
is as it was (`traps_restored`).
-/

namespace Shish

namespace Signals

variable (catchable : ℕ → Bool)

/-- No signal becomes one that was ignored on entry. -/
structure Fewer (g g' : Signals) : Prop where
  interactive : g'.interactive = g.interactive
  ignored : ∀ sig, g'.sigWasIgnored sig → g.sigWasIgnored sig

/-- What a step leaves of the rest of the shell. -/
structure Same (g g' : Signals) : Prop extends g.Fewer g' where
  async : g'.async = g.async
  child : g'.child = g.child
  subshell : g'.subshell = g.subshell

theorem Same.refl (g : Signals) : g.Same g := ⟨⟨rfl, fun _ => id⟩, rfl, rfl, rfl⟩

theorem Same.trans {g g' g'' : Signals} (h : g.Same g') (h' : g'.Same g'') : g.Same g'' :=
  ⟨⟨h'.interactive.trans h.interactive, fun sig hs => h.ignored sig (h'.ignored sig hs)⟩,
    h'.async.trans h.async, h'.child.trans h.child, h'.subshell.trans h.subshell⟩

/-- Only one signal changes. -/
structure Only (sig : ℕ) (g g' : Signals) : Prop extends g.Same g' where
  disp : ∀ k, k ≠ sig → g'.disp k = g.disp k
  stack : ∀ k, k ≠ sig → g'.stack k = g.stack k

theorem Only.refl (sig : ℕ) (g : Signals) : Only sig g g :=
  ⟨.refl g, fun _ _ => rfl, fun _ _ => rfl⟩

theorem Only.trans {sig : ℕ} {g g' g'' : Signals} (h : Only sig g g') (h' : Only sig g' g'') :
    Only sig g g'' :=
  ⟨h.toSame.trans h'.toSame, fun k hk => (h'.disp k hk).trans (h.disp k hk),
    fun k hk => (h'.stack k hk).trans (h.stack k hk)⟩

variable {catchable} {g : Signals} {sig : ℕ}

theorem isReal_of_shellSigs (h : sig ∈ shellSigs) : isReal sig := by
  simp only [shellSigs, List.mem_cons, List.not_mem_nil, or_false] at h
  rcases h with rfl | rfl | rfl <;> rfl

theorem sigWasIgnored_unignore (g : Signals) (sig : ℕ) :
    (g.sigUnignore sig).sigWasIgnored sig = false := by
  simp [sigWasIgnored, sigUnignore]

theorem only_unignore (g : Signals) (sig : ℕ) : Only sig g (g.sigUnignore sig) := by
  refine ⟨⟨⟨rfl, fun k hk => ?_⟩, rfl, rfl, rfl⟩, fun _ _ => rfl, fun _ _ => rfl⟩
  by_cases hks : k = sig
  · rw [hks, sigWasIgnored_unignore] at hk
    exact absurd hk Bool.false_ne_true
  · simpa [sigWasIgnored, sigUnignore, Function.update_of_ne hks] using hk

theorem only_sigAction (catchable : ℕ → Bool) (g : Signals) (sig : ℕ) (d : Disp) :
    Only sig g (g.sigAction catchable sig d) ∧ (g.sigAction catchable sig d).stack = g.stack ∧
      (g.sigAction catchable sig d).ignored = g.ignored := by
  unfold sigAction
  split_ifs
  · exact ⟨⟨⟨⟨rfl, fun _ => id⟩, rfl, rfl, rfl⟩, fun k hk => Function.update_of_ne hk .., fun _ _ => rfl⟩,
      rfl, rfl⟩
  · exact ⟨.refl sig g, rfl, rfl⟩

theorem disp_sigAction (catchable : ℕ → Bool) (g : Signals) (sig : ℕ) (d : Disp) :
    (g.sigAction catchable sig d).disp sig = if catchable sig then d else g.disp sig := by
  unfold sigAction
  split_ifs
  · exact Function.update_self ..
  · rfl

/-- **A disposition is pushed** where there is none. -/
theorem sigPush_eq (hset : settable catchable sig) (hstack : (g.stack sig).length = 0) (d : Disp) :
    g.sigPush catchable sig d = { g with
      disp := Function.update g.disp sig d
      stack := Function.update g.stack sig [g.disp sig] } := by
  have hnil := List.length_eq_zero_iff.1 hstack
  unfold sigPush
  rw [hnil, if_pos]
  simpa [settable] using hset

/-- **And popped again.** -/
theorem sigPop_eq (hset : settable catchable sig) {d : Disp} {ds : List Disp}
    (hstack : g.stack sig = d :: ds) :
    g.sigPop catchable sig = { g with
      disp := Function.update g.disp sig d
      stack := Function.update g.stack sig ds } := by
  unfold sigPop
  rw [hstack]
  exact if_pos hset

theorem only_sigPop (catchable : ℕ → Bool) (g : Signals) (sig : ℕ) : Only sig g (g.sigPop catchable sig) := by
  unfold sigPop
  split
  · exact .refl sig g
  · split_ifs
    · exact ⟨⟨⟨rfl, fun _ => id⟩, rfl, rfl, rfl⟩, fun k hk => Function.update_of_ne hk ..,
        fun k hk => Function.update_of_ne hk ..⟩
    · exact .refl sig g

theorem only_reset (catchable : ℕ → Bool) (g : Signals) (sig : ℕ) :
    Only sig g (g.trapResetEntryIgnore catchable sig) ∧
      (g.trapResetEntryIgnore catchable sig).stack = g.stack := by
  have hact := fun d => only_sigAction catchable g sig d
  unfold trapResetEntryIgnore
  dsimp only
  split_ifs
  · exact ⟨(hact .dfl).1.trans (only_unignore _ sig), (hact .dfl).2.1⟩
  · exact ⟨(hact .dfl).1, (hact .dfl).2.1⟩
  · exact ⟨(hact .ign).1.trans (only_unignore _ sig), (hact .ign).2.1⟩
  · exact ⟨(hact .dfl).1.trans (only_unignore _ sig), (hact .dfl).2.1⟩
  · exact ⟨.refl sig g, rfl⟩

/-- **The disposition `d` of a signal turns into `D`** when the subshell ends: it is the same, or an
interactive shell ignores the signal again. -/
def Turns (catchable : ℕ → Bool) (g : Signals) (sig : ℕ) (d D : Disp) : Prop :=
  d = D ∨ (g.interactive ∧ sig ∈ shellSigs ∧ catchable sig ∧ d = .dfl ∧ D = .ign ∧
    g.sigWasIgnored sig = false)

theorem Turns.mono {g' : Signals} {d D : Disp} (h : Turns catchable g sig d D) (hs : g.Fewer g') :
    Turns catchable g' sig d D := by
  rcases h with h | ⟨hi, hsig, hc, hd, hD, hign⟩
  · exact .inl h
  · refine .inr ⟨hs.interactive ▸ hi, hsig, hc, hd, hD, ?_⟩
    by_contra hne
    exact absurd (hs.ignored sig (by simpa using hne)) (by simp [hign])

/-- **Resetting a signal in a subshell is harmless** when it says so. -/
theorem Turns.reset {D : Disp} (h : Turns catchable g sig (g.disp sig) D)
    (hstack : g.stack sig = []) (hsub : g.subshell ≠ 0) (hreal : isReal sig)
    (hharm : g.Harmless sig) (hD : g.interactive → sig ∈ shellSigs → D = .ign) :
    let g' := g.trapResetEntryIgnore catchable sig
    Turns catchable g' sig (g'.disp sig) D := by
  have hunder : g.under sig = g.disp sig := by rw [under, hstack]; rfl
  rw [Harmless, hunder] at hharm
  have hact := disp_sigAction catchable g sig .dfl
  have honly := (only_sigAction catchable g sig .dfl)
  by_cases hc : catchable sig
  swap
  · -- nothing can be installed
    have hsame : (g.trapResetEntryIgnore catchable sig).disp sig = g.disp sig := by
      unfold trapResetEntryIgnore sigAction
      dsimp only
      rw [if_neg hc, if_neg hc]
      split_ifs <;> rfl
    rw [← hsame] at h
    exact h.mono (only_reset catchable g sig).1.toFewer
  rw [if_pos hc] at hact
  by_cases hshell : sig ∈ shellSigs
  · cases hi : g.interactive with
    | true =>
      -- the default; the shell's own ignore comes back
      have hD := hD hi hshell
      simp only [trapResetEntryIgnore, hreal, hshell, hi, decide_true, Bool.true_and,
        show (g.subshell != 0) = true by simpa using hsub, Bool.or_true, if_true]
      split_ifs with hign
      · exact .inr ⟨honly.1.interactive.trans hi, hshell, hc, hact, hD,
          sigWasIgnored_unignore _ sig⟩
      · exact .inr ⟨honly.1.interactive.trans hi, hshell, hc, hact, hD, by simpa using hign⟩
    | false =>
      have hdD : g.disp sig = D := h.resolve_right fun h' => by simp [hi] at h'
      cases ha : g.async with
      | true =>
        have hdfl : g.disp sig = .dfl := hharm (.inl ⟨hshell, ha, by simp [hi]⟩)
        left
        simp only [trapResetEntryIgnore, hreal, hshell, ha, decide_true, Bool.true_and,
          Bool.true_or, if_true]
        split_ifs
        · exact hact.trans (hdfl.symm.trans hdD)
        · exact hact.trans (hdfl.symm.trans hdD)
      | false =>
        left
        simpa [trapResetEntryIgnore, hi, ha] using hdD
  · have hdD : g.disp sig = D := h.resolve_right fun h' => hshell h'.2.1
    left
    simp only [trapResetEntryIgnore, hreal, hshell, decide_false, Bool.and_false, Bool.false_and,
      Bool.false_eq_true, if_false, Bool.true_and]
    split_ifs with hign
    · rw [Bool.and_eq_true] at hign
      have hdfl : g.disp sig = .dfl := hharm (.inr ⟨hshell, hign.2, hign.1⟩)
      exact hact.trans (hdfl.symm.trans hdD)
    · exact hdD

theorem Harmless.of_same {g' : Signals} (h : g.Harmless sig) (hs : g.Same g')
    (hu : g'.under sig = g.under sig) : g'.Harmless sig := by
  intro hcase
  rw [hu]
  refine h (hcase.imp ?_ ?_)
  · exact fun ⟨hsig, ha, hi⟩ => ⟨hsig, hs.async ▸ ha, hs.interactive ▸ hi⟩
  · exact fun ⟨hsig, hi, hign⟩ => ⟨hsig, hs.interactive ▸ hi, hs.ignored sig hign⟩

theorem reset_of_not_isReal (hreal : isReal sig = false) :
    g.trapResetEntryIgnore catchable sig = g := by
  simp [trapResetEntryIgnore, hreal]

end Signals

variable {catchable : ℕ → Bool} {τ : Type} {g g' : Signals} {sig : ℕ}

/-! ## The signals of a subshell -/

namespace Signals

variable {ts : List (Trap τ)}

/-- What `sh_sigrestore` may set to the default: a signal whose trap has a body, or one of the
shell's own that has no trap. -/
def Dropped (catchable : ℕ → Bool) (g : Signals) (ts : List (Trap τ)) (sig : ℕ) : Prop :=
  catchable sig ∧ ((∃ t ∈ ts, t.sig = sig ∧ isReal sig ∧ t.tree.isSome) ∨
    (g.interactive ∧ sig ∈ shellSigs ∧ g.sigWasIgnored sig = false ∧
      ∀ t ∈ ts, t.sig = sig → t.tree.isSome))

/-- Dispositions are dropped, and nothing else changes. -/
structure Drops (catchable : ℕ → Bool) (ts : List (Trap τ)) (g g' : Signals) : Prop
    extends g.Same g' where
  stack : g'.stack = g.stack
  same : ∀ sig, g'.sigWasIgnored sig = g.sigWasIgnored sig
  disp : ∀ sig, g'.disp sig = g.disp sig ∨ (g'.disp sig = .dfl ∧ Dropped catchable g ts sig)

theorem Drops.refl (g : Signals) : Drops catchable ts g g :=
  ⟨.refl g, rfl, fun _ => rfl, fun _ => .inl rfl⟩

theorem Drops.act {g' : Signals} (h : Drops catchable ts g g')
    (hsig : catchable sig → Dropped catchable g ts sig) :
    Drops catchable ts g (g'.sigAction catchable sig .dfl) := by
  unfold sigAction
  split_ifs with hc
  · refine ⟨⟨⟨h.interactive, h.ignored⟩, h.async, h.child, h.subshell⟩, h.stack, h.same, fun k => ?_⟩
    by_cases hk : k = sig
    · exact .inr ⟨hk ▸ Function.update_self .., hk ▸ hsig hc⟩
    · exact (h.disp k).imp (Function.update_of_ne hk ..).trans
        (.imp_left (Function.update_of_ne hk ..).trans)
  · exact h

theorem drops_resetCaught (catchable : ℕ → Bool) (g : Signals) (ts : List (Trap τ)) :
    Drops catchable ts g (Traps.trapResetCaught catchable g ts) := by
  unfold Traps.trapResetCaught
  split_ifs
  swap
  · exact .refl g
  have hfold : ∀ (us : List (Trap τ)) (g' : Signals), us ⊆ ts → Drops catchable ts g g' →
      Drops catchable ts g (us.foldl (Traps.resetOne catchable) g') := by
    intro us
    induction us with
    | nil => exact fun _ _ h => h
    | cons u us ih =>
      intro g' hsub h
      refine ih _ (fun t ht => hsub (.tail _ ht)) ?_
      unfold Traps.resetOne
      split_ifs with hu
      · simp only [Bool.and_eq_true] at hu
        exact h.act fun hc => ⟨hc, .inl ⟨u, hsub (.head _), rfl, hu.1.1, hu.1.2⟩⟩
      · exact h
  exact hfold ts g (fun _ => id) (.refl g)

/-- **`sh_sigrestore` drops dispositions**, those of ignoring traps excepted. -/
theorem drops_sigrestore (catchable : ℕ → Bool) (g : Signals) {ts : List (Trap τ)} (hnd : (ts.map (·.sig)).Nodup) :
    Drops catchable ts g (Traps.shSigrestore catchable g ts) := by
  have hcaught := drops_resetCaught catchable g ts
  unfold Traps.shSigrestore
  dsimp only
  split_ifs with hi
  swap
  · exact hcaught
  have hone : ∀ (sig : ℕ) (g' : Signals), sig ∈ shellSigs → Drops catchable ts g g' →
      Drops catchable ts g (Traps.restoreOne catchable ts g' sig) := by
    intro sig g' hsig h
    unfold Traps.restoreOne
    split_ifs with hign hfind
    · exact h
    · exact h
    · rw [Bool.or_eq_true, not_or, h.same] at hign
      refine h.act fun hc => ⟨hc, .inr ⟨hcaught.interactive ▸ hi, hsig, by simpa using hign.1, ?_⟩⟩
      intro t ht hts
      have hsome : ts.find? (·.sig == sig) = some t := by
        obtain ⟨a, b, rfl⟩ := List.append_of_mem ht
        rw [List.map_append, List.map_cons, List.nodup_middle, List.nodup_cons,
          List.mem_append, not_or] at hnd
        rw [List.find?_append, List.find?_eq_none.2, Option.none_or, List.find?_cons_of_pos]
        · simpa using hts
        · intro u hu hus
          refine hnd.1.1 (List.mem_map.2 ⟨u, hu, ?_⟩)
          rw [hts]
          simpa using hus
      rw [hsome] at hfind
      cases htree : t.tree with
      | none => simp [htree] at hfind
      | some b => rfl
  exact hone 15 _ (by decide) (hone 3 _ (by decide) (hone 2 _ (by decide) hcaught))

/-- What `sh_sigignore` does to each signal. -/
theorem sigignore_eq (catchable : ℕ → Bool) (g : Signals) : g.Same (g.shSigignore catchable) ∧
    (g.shSigignore catchable).stack = g.stack ∧ ∀ k, (g.shSigignore catchable).disp k =
      if g.interactive ∧ k ∈ shellSigs ∧ g.sigWasIgnored k = false ∧ g.disp k = .dfl ∧ catchable k
      then .ign else g.disp k := by
  unfold shSigignore
  by_cases hi : g.interactive
  swap
  · rw [if_neg hi]
    exact ⟨.refl g, rfl, fun k => (if_neg fun h => hi h.1).symm⟩
  rw [if_pos hi]
  have hfold : ∀ (L : List ℕ) (g : Signals), L.Nodup →
      let g' := L.foldl (ignoreOne catchable) g
      g.Same g' ∧ g'.stack = g.stack ∧ g'.ignored = g.ignored ∧ ∀ k, g'.disp k =
        if k ∈ L ∧ g.sigWasIgnored k = false ∧ g.disp k = .dfl ∧ catchable k then .ign
        else g.disp k := by
    intro L
    induction L with
    | nil => exact fun g _ => ⟨.refl g, rfl, rfl, fun k => by simp⟩
    | cons sig L ih =>
      intro g hnd
      obtain ⟨hsig, hnd⟩ := List.nodup_cons.1 hnd
      obtain ⟨hsame, hstack, hign, hdisp⟩ := ih (ignoreOne catchable g sig) hnd
      have hone : g.Same (ignoreOne catchable g sig) ∧
          (ignoreOne catchable g sig).stack = g.stack ∧
          (ignoreOne catchable g sig).ignored = g.ignored ∧
          (∀ k, k ≠ sig → (ignoreOne catchable g sig).disp k = g.disp k) ∧
          (ignoreOne catchable g sig).disp sig = if g.sigWasIgnored sig = false ∧
            g.disp sig = .dfl ∧ catchable sig then .ign else g.disp sig := by
        obtain ⟨honly, hst, hig⟩ := only_sigAction catchable g sig .ign
        have hact := disp_sigAction catchable g sig .ign
        unfold ignoreOne
        split_ifs with h₁ h₂ h₂
        · simp only [Bool.or_eq_true, bne_iff_ne, ne_eq] at h₁
          rcases h₁ with h₁ | h₁
          · exact absurd h₂.1 (by simp [h₁])
          · exact absurd h₂.2.1 h₁
        · exact ⟨.refl g, rfl, rfl, fun _ _ => rfl, rfl⟩
        · exact ⟨honly.toSame, hst, hig, honly.disp, by rw [hact, if_pos h₂.2.2]⟩
        · refine ⟨honly.toSame, hst, hig, honly.disp, ?_⟩
          rw [hact]
          split_ifs with hc
          · simp only [Bool.or_eq_true, bne_iff_ne, ne_eq, not_or, not_not] at h₁
            exact absurd ⟨by simpa using h₁.1, h₁.2, hc⟩ h₂
          · rfl
      obtain ⟨hsame₁, hstack₁, hign₁, hother, hself⟩ := hone
      refine ⟨hsame₁.trans hsame, hstack.trans hstack₁, hign.trans hign₁, fun k => ?_⟩
      have hwas : (ignoreOne catchable g sig).sigWasIgnored k = g.sigWasIgnored k := by
        rw [sigWasIgnored, sigWasIgnored, hign₁]
      rw [List.foldl_cons, hdisp k, hwas]
      by_cases hk : k = sig
      · subst hk
        rw [if_neg fun h' => hsig h'.1, hself]
        simp
      · rw [hother k hk]
        simp [hk]
  obtain ⟨hsame, hstack, -, hdisp⟩ := hfold shellSigs g (by decide)
  refine ⟨hsame, hstack, fun k => ?_⟩
  rw [hdisp k]
  simp [hi]

end Signals

/-! ## What is noted -/

/-- The traps with their nodes, the dispositions and the stacks. -/
structure TrapView (τ : Type) where
  list : List (ℕ × Trap τ)
  disp : ℕ → Disp
  stack : ℕ → List Disp

namespace TrapView

/-- The signals that have traps. -/
def trapped (v : TrapView τ) : List ℕ := v.list.map (·.2.sig)

/-- **A state is above what was noted**: its traps stand in front of the noted ones, which are as they
were; the dispositions under the traps in front turn into the noted ones.  When it was noted every
trap was in force. -/
structure Above (catchable : ℕ → Bool) (g : Signals) (v w : TrapView τ) : Prop where
  list : ∃ new, v.list = new ++ w.list
  recorded : ∀ x ∈ w.list, isReal x.2.sig →
    v.stack x.2.sig = w.stack x.2.sig ∧ (x.2.tree = none → v.disp x.2.sig = .ign)
  inForce : ∀ x ∈ w.list, isReal x.2.sig → w.disp x.2.sig = x.2.inForce
  free : ∀ sig, (isReal sig → sig ∉ w.trapped) →
    Signals.Turns catchable g sig ((v.stack sig).headD (v.disp sig)) (w.disp sig)
  shell : g.interactive → ∀ sig ∈ shellSigs, w.disp sig = .ign ∨ sig ∈ w.trapped
  stackLen : ∀ sig, (w.stack sig).length = if isReal sig ∧ sig ∈ w.trapped then 1 else 0

/-- What was noted, from the innermost subshell outwards. -/
def Frames (catchable : ℕ → Bool) (g : Signals) : TrapView τ → List (TrapView τ) → Prop
  | _, [] => True
  | v, w :: ws => Above catchable g v w ∧ Frames catchable g w ws

theorem Above.mono {v w : TrapView τ} (h : Above catchable g v w) (hs : g.Fewer g') :
    Above catchable g' v w :=
  { h with
    free := fun sig hsig => (h.free sig hsig).mono hs
    shell := fun hi => h.shell (hs.interactive ▸ hi) }

theorem Frames.mono {v : TrapView τ} {ws : List (TrapView τ)} (h : Frames catchable g v ws)
    (hs : g.Fewer g') : Frames catchable g' v ws := by
  induction ws generalizing v with
  | nil => trivial
  | cons w ws ih => exact ⟨h.1.mono hs, ih h.2⟩

/-- What was noted is an end of the list. -/
theorem Frames.suffix {v : TrapView τ} {ws : List (TrapView τ)} (h : Frames catchable g v ws) :
    ∀ w ∈ ws, w.list <:+ v.list := by
  induction ws generalizing v with
  | nil => exact nofun
  | cons w ws ih =>
    obtain ⟨new, hnew⟩ := h.1.list
    refine List.forall_mem_cons.2 ⟨⟨new, hnew.symm⟩, fun w' hw' => (ih h.2 w' hw').trans ⟨new, hnew.symm⟩⟩

/-- **One signal that is not noted changes**: the rest is still above. -/
theorem Above.only {v v' w : TrapView τ} (h : Above catchable g v w) (ho : g.Same g')
    (hlist : ∃ new, v'.list = new ++ w.list) (hdisp : ∀ k, k ≠ sig → v'.disp k = v.disp k)
    (hstack : ∀ k, k ≠ sig → v'.stack k = v.stack k) (hsig : sig ∉ w.trapped)
    (hturns : Signals.Turns catchable g' sig ((v'.stack sig).headD (v'.disp sig)) (w.disp sig)) :
    Above catchable g' v' w where
  list := hlist
  recorded x hx hreal := by
    have hne : x.2.sig ≠ sig := fun heq => hsig (heq ▸ List.mem_map_of_mem hx)
    rw [hdisp _ hne, hstack _ hne]
    exact h.recorded x hx hreal
  inForce := h.inForce
  free k hk := by
    by_cases hks : k = sig
    · exact hks ▸ hturns
    · rw [hdisp k hks, hstack k hks]
      exact (h.free k hk).mono ho.toFewer
  shell hi := h.shell (ho.interactive ▸ hi)
  stackLen := h.stackLen

theorem Frames.only {v v' : TrapView τ} {noted : List (TrapView τ)} (h : Frames catchable g v noted)
    (sig : ℕ) (ho : g.Same g') (hdisp : ∀ k, k ≠ sig → v'.disp k = v.disp k)
    (hstack : ∀ k, k ≠ sig → v'.stack k = v.stack k)
    (hw : ∀ w ∈ noted, Above catchable g v w → (∃ new, v'.list = new ++ w.list) ∧ sig ∉ w.trapped ∧
      Signals.Turns catchable g' sig ((v'.stack sig).headD (v'.disp sig)) (w.disp sig)) :
    Frames catchable g' v' noted := by
  cases noted with
  | nil => trivial
  | cons w ws =>
    obtain ⟨hlist, hsig, hturns⟩ := hw w (.head _) h.1
    exact ⟨h.1.only ho hlist hdisp hstack hsig hturns, h.2.mono ho.toFewer⟩

end TrapView

/-- The view of a state. -/
def Traps.view (s : Traps τ) (l : List (ℕ × Trap τ)) : TrapView τ := ⟨l, s.sigs.disp, s.sigs.stack⟩

/-- **What every step keeps**: the list is in order, and above what the open subshells noted. -/
structure Keeps (catchable : ℕ → Bool) (s : Traps τ) (l : List (ℕ × Trap τ))
    (noted : List (TrapView τ)) : Prop extends InOrder catchable s l where
  snaps : s.snaps = noted.map fun w => w.list.map Prod.fst
  depth : noted.length ≤ s.subshellDepth
  subshell : noted.length ≤ s.sigs.subshell
  frames : TrapView.Frames catchable s.sigs (s.view l) noted

namespace Keeps

variable {s : Traps τ} {l : List (ℕ × Trap τ)} {noted : List (TrapView τ)}

/-- Without a trap there is no entry on the signal's stack. -/
theorem stack_nil (h : InOrder catchable s l) (hsig : sig ∉ l.map (·.2.sig)) :
    s.sigs.stack sig = [] := by
  have hlen := h.stackLen sig
  rw [if_neg fun h' => hsig h'.2] at hlen
  exact List.length_eq_zero_iff.1 hlen

/-- With one there is one. -/
theorem stack_singleton (h : InOrder catchable s l) (hreal : isReal sig)
    (hsig : sig ∈ l.map (·.2.sig)) : ∃ d, s.sigs.stack sig = [d] := by
  have hlen := h.stackLen sig
  rw [if_pos ⟨hreal, hsig⟩] at hlen
  exact List.length_eq_one_iff.1 hlen

/-- **Resetting a signal that has no trap.** -/
theorem reset (h : Keeps catchable s l noted) (hsig : sig ∉ l.map (·.2.sig))
    (hharm : s.snaps ≠ [] → isReal sig → s.sigs.Harmless sig) :
    Keeps catchable { s with sigs := s.sigs.trapResetEntryIgnore catchable sig } l noted := by
  obtain ⟨honly, hstack⟩ := Signals.only_reset catchable s.sigs sig
  have hnil := stack_nil h.toInOrder hsig
  refine ⟨⟨h.lists, h.fresh, h.distinct, fun k => ?_, h.settable⟩, h.snaps, h.depth, ?_, ?_⟩
  · dsimp only
    rw [hstack]
    exact h.stackLen k
  · exact honly.subshell.symm ▸ h.subshell
  · refine h.frames.only _ honly.toSame honly.disp honly.stack fun w hw habove => ?_
    have hsuf := h.frames.suffix w hw
    have hws : sig ∉ w.trapped := fun hmem => hsig (List.map_subset _ hsuf.subset hmem)
    refine ⟨habove.list, hws, ?_⟩
    have hturns := habove.free sig fun _ => hws
    simp only [Traps.view, hstack, hnil, List.headD_nil] at hturns ⊢
    by_cases hreal : isReal sig
    · have hsnaps : s.snaps ≠ [] := by
        rw [h.snaps]
        exact List.ne_nil_of_mem (List.mem_map_of_mem hw)
      have hsub : s.sigs.subshell ≠ 0 := by
        have := h.subshell
        have := List.length_pos_of_mem hw
        omega
      refine hturns.reset hnil hsub hreal (hharm hsnaps hreal) fun hi hshell => ?_
      exact (habove.shell hi sig hshell).resolve_right hws
    · rw [Signals.reset_of_not_isReal (by simpa using hreal)]
      exact hturns

theorem append_cons_eq_append {α : Type*} {a b new w : List α} {x : α}
    (heq : a ++ x :: b = new ++ w) (hx : x ∉ w) : ∃ c, new = a ++ x :: c ∧ b = c ++ w := by
  rcases List.append_eq_append_iff.1 heq with ⟨c, hnew, hb⟩ | ⟨c, ha, hw⟩
  · cases c with
    | nil =>
      rw [List.nil_append] at hb
      exact absurd (hb ▸ List.mem_cons_self ..) hx
    | cons y c =>
      obtain ⟨rfl, rfl⟩ := List.cons.inj hb
      exact ⟨c, hnew, rfl⟩
  · exact absurd (hw ▸ List.mem_append_right _ (List.mem_cons_self ..)) hx

/-- **A trap set in this subshell is popped and taken out**, its node released or not. -/
theorem pop {a b : List (ℕ × Trap τ)} {x : ℕ × Trap τ}
    (h : Keeps catchable s (a ++ x :: b) noted) (hx : ∀ w ∈ noted, x ∉ w.list) :
    let prev := (a.map Prod.fst).getLast?
    let sigs := if isReal x.2.sig then s.sigs.sigPop catchable x.2.sig else s.sigs
    Keeps catchable ({ s with sigs }.takeOut prev x.1) (a ++ b) noted ∧
      sigs.under x.2.sig = s.sigs.under x.2.sig ∧ s.sigs.Same sigs ∧
        x.2.sig ∉ (a ++ b).map (·.2.sig) := by
  have hsub : (a ++ b).Sublist (a ++ x :: b) := (List.Sublist.refl a).append (List.sublist_cons_self x b)
  have hdist := h.distinct
  rw [List.map_append, List.map_cons, List.nodup_middle, List.nodup_cons, ← List.map_append] at hdist
  obtain ⟨hlists, hval⟩ := h.lists.unlink
  have hmem : x.2.sig ∈ (a ++ x :: b).map (·.2.sig) := List.mem_map_of_mem (by simp)
  have hlist : ∀ w ∈ noted, TrapView.Above catchable s.sigs (s.view (a ++ x :: b)) w →
      ∃ new, a ++ b = new ++ w.list := fun w hw habove => by
    obtain ⟨new, hnew⟩ := habove.list
    obtain ⟨c, -, rfl⟩ := append_cons_eq_append hnew (hx w hw)
    exact ⟨a ++ c, (List.append_assoc ..).symm⟩
  have hws : ∀ w ∈ noted, TrapView.Above catchable s.sigs (s.view (a ++ x :: b)) w →
      x.2.sig ∉ w.trapped := fun w hw habove hmem' => by
    obtain ⟨new, hnew⟩ := hlist w hw habove
    rw [hnew] at hdist
    exact hdist.1 (by rw [List.map_append]; exact List.mem_append_right _ hmem')
  have hfresh : ∀ n, ((s.heap.unlink s.traps (a.map Prod.fst).getLast?
      ((s.heap x.1).bind Cell.next)).1 n).isSome → n < s.fresh := fun n hn => by
    rw [Heap.isSome_of_val (congrFun hval n)] at hn
    exact h.fresh n hn
  have hother : ∀ k, k ≠ x.2.sig →
      (k ∈ (a ++ x :: b).map (·.2.sig) ↔ k ∈ (a ++ b).map (·.2.sig)) := fun k hk => by
    simp [hk]
  dsimp only
  by_cases hreal : isReal x.2.sig
  · obtain ⟨d, hstack⟩ := stack_singleton h.toInOrder hreal hmem
    have hpop := Signals.sigPop_eq (h.settable x (by simp) hreal) hstack
    have honly := Signals.only_sigPop catchable s.sigs x.2.sig
    rw [if_pos hreal]
    have hd : (s.sigs.sigPop catchable x.2.sig).disp x.2.sig = d := by
      rw [hpop]
      exact Function.update_self ..
    have hs : (s.sigs.sigPop catchable x.2.sig).stack x.2.sig = [] := by
      rw [hpop]
      exact Function.update_self ..
    refine ⟨⟨⟨hlists, hfresh, hdist.2, fun k => ?_, fun y hy => h.settable y (hsub.subset hy)⟩,
      h.snaps, h.depth, honly.subshell.symm ▸ h.subshell, ?_⟩, ?_, honly.toSame, hdist.1⟩
    · by_cases hk : k = x.2.sig
      · subst hk
        rw [if_neg fun h' => hdist.1 h'.2]
        exact congrArg List.length hs
      · exact (congrArg List.length (honly.stack k hk)).trans
          ((h.stackLen k).trans (by simp only [hother k hk]))
    · refine h.frames.only _ honly.toSame honly.disp honly.stack fun w hw habove => ?_
      refine ⟨hlist w hw habove, hws w hw habove, ?_⟩
      have hturns := habove.free x.2.sig fun _ => hws w hw habove
      simp only [Traps.view, hstack, List.headD_cons] at hturns
      have hhead : (((s.sigs.sigPop catchable x.2.sig).stack x.2.sig).headD
          ((s.sigs.sigPop catchable x.2.sig).disp x.2.sig)) = d := by
        rw [hs, hd]
        rfl
      exact (hhead.symm ▸ hturns).mono honly.toFewer
    · rw [Signals.under, Signals.under, hs, hd, hstack]
      rfl
  · rw [if_neg hreal]
    refine ⟨⟨⟨hlists, hfresh, hdist.2, fun k => ?_, fun y hy => h.settable y (hsub.subset hy)⟩,
      h.snaps, h.depth, h.subshell, ?_⟩, rfl, .refl _, hdist.1⟩
    · by_cases hk : k = x.2.sig
      · subst hk
        have hlen := h.stackLen x.2.sig
        rwa [if_neg fun h' => hreal h'.1] at hlen ⊢
      · exact (h.stackLen k).trans (by simp only [hother k hk])
    · refine h.frames.only x.2.sig (.refl _) (fun _ _ => rfl) (fun _ _ => rfl) fun w hw habove => ?_
      exact ⟨hlist w hw habove, hws w hw habove, habove.free _ fun h' => absurd h' hreal⟩

/-- A released node that is on no list. -/
theorem release (h : Keeps catchable s l noted) {n : ℕ} (hn : n ∉ l.map Prod.fst) :
    Keeps catchable { s with heap := s.heap.release n } l noted := by
  refine ⟨⟨h.lists.release hn, fun m hm => ?_, h.distinct, h.stackLen, h.settable⟩, h.snaps, h.depth,
    h.subshell, h.frames⟩
  dsimp only at hm
  by_cases hmn : m = n
  · rw [hmn, Heap.release_self] at hm
    exact absurd hm Bool.false_ne_true
  · rw [Heap.release_of_ne hmn] at hm
    exact h.fresh m hm

/-- **`trap_uninstall` of a trap set in this subshell**, or of none. -/
theorem uninstall (h : Keeps catchable s l noted) (hleave : s.sigs.leaves sig = false)
    (hrem : s.Removes sig) : ∃ s' l', s.trapUninstall catchable sig = some s' ∧
      Keeps catchable s' l' noted ∧ sig ∉ l'.map (·.2.sig) := by
  unfold Traps.trapUninstall
  rw [if_neg (by simp [hleave])]
  rcases h.lists.find (q := (·.sig == sig)) (h.lists.length_le h.fresh) with
    ⟨hf, hall⟩ | ⟨a, x, b, rfl, hx, hf⟩
  · have hsig : sig ∉ l.map (·.2.sig) := fun hmem => by
      obtain ⟨x, hx, rfl⟩ := List.mem_map.1 hmem
      simpa using hall x hx
    exact ⟨_, l, by rw [Traps.trapFind, hf]; rfl, h.reset hsig hrem.2, hsig⟩
  · obtain rfl : x.2.sig = sig := by simpa using hx
    have hnode : ∀ w ∈ noted, x ∉ w.list := fun w hw hxw => by
      refine hrem.1 _ hf ((a.map Prod.fst).getLast?, x.1) rfl
        (w.list.map Prod.fst) ?_ (List.mem_map.2 ⟨x, hxw, rfl⟩)
      rw [h.snaps]
      exact List.mem_map_of_mem hw
    obtain ⟨hpop, hunder, hsame, hgone⟩ := h.pop hnode
    have hreset : Keeps catchable { ({ s with
        sigs := if isReal x.2.sig then s.sigs.sigPop catchable x.2.sig else s.sigs }.takeOut
          (a.map Prod.fst).getLast? x.1) with
        sigs := if isReal x.2.sig then
            (s.sigs.sigPop catchable x.2.sig).trapResetEntryIgnore catchable x.2.sig
          else s.sigs } (a ++ b) noted := by
      by_cases hreal : isReal x.2.sig
      · simp only [hreal, if_true] at hpop hunder hsame ⊢
        exact hpop.reset hgone fun hsnaps hreal => (hrem.2 hsnaps hreal).of_same hsame hunder
      · simp only [hreal, if_false, Bool.false_eq_true] at hpop ⊢
        exact hpop
    have hnd := h.lists.nodup
    rw [List.map_append, List.map_cons, List.nodup_middle, List.nodup_cons, ← List.map_append] at hnd
    rw [Traps.trapFind, hf]
    by_cases hd : s.subshellDepth = 0
    · exact ⟨_, a ++ b, congrArg some (if_pos hd), hreset.release hnd.1, hgone⟩
    · exact ⟨_, a ++ b, congrArg some (if_neg hd), hreset, hgone⟩

/-- **A trap is set** for a signal that has none. -/
theorem prepend (h : Keeps catchable s l noted) (t : Trap τ) (hsig : t.sig ∉ l.map (·.2.sig))
    (hset : isReal t.sig → settable catchable t.sig) :
    Keeps catchable { s.prepend t with sigs := Traps.installed catchable s.sigs t }
      ((s.fresh, t) :: l) noted := by
  have hfresh : s.fresh ∉ l.map Prod.fst := fun hmem => by
    have := h.fresh _ (h.lists.chain.live _ hmem)
    omega
  have hlists := h.lists.push hfresh t
  have hlive : ∀ n, (Function.update s.heap s.fresh (some ⟨t, s.traps⟩) n).isSome → n < s.fresh + 1 :=
    fun n hn => by
      by_cases hns : n = s.fresh
      · omega
      · rw [Function.update_of_ne hns] at hn
        exact Nat.lt_succ_of_lt (h.fresh n hn)
  have hdist : (((s.fresh, t) :: l).map (·.2.sig)).Nodup := List.nodup_cons.2 ⟨hsig, h.distinct⟩
  have hall : ∀ x ∈ (s.fresh, t) :: l, isReal x.2.sig → settable catchable x.2.sig :=
    List.forall_mem_cons.2 ⟨hset, h.settable⟩
  have hother : ∀ k, k ≠ t.sig →
      (k ∈ ((s.fresh, t) :: l).map (·.2.sig) ↔ k ∈ l.map (·.2.sig)) := fun k hk => by
    simp [hk]
  have hnil := stack_nil h.toInOrder hsig
  have hws : ∀ w ∈ noted, t.sig ∉ w.trapped := fun w hw hmem =>
    hsig (List.map_subset _ (h.frames.suffix w hw).subset hmem)
  have hlist : ∀ w : TrapView τ, (∃ new, l = new ++ w.list) → ∃ new, (s.fresh, t) :: l = new ++ w.list :=
    fun w ⟨new, hnew⟩ => ⟨(s.fresh, t) :: new, by rw [hnew]; rfl⟩
  by_cases hreal : isReal t.sig
  · have hpush := Signals.sigPush_eq (g := s.sigs) (hset hreal) (by rw [hnil]; rfl) t.inForce
    have hcatch : catchable t.sig := by
      have := hset hreal
      simp only [settable, Bool.and_eq_true] at this
      exact this.2
    have hinst : Traps.installed catchable s.sigs t = { s.sigs with
        disp := Function.update s.sigs.disp t.sig t.inForce
        stack := Function.update s.sigs.stack t.sig [s.sigs.disp t.sig] } := by
      unfold Traps.installed
      rw [if_pos hreal, hpush]
      split_ifs with htree
      · have hrelay : t.inForce = .relay := if_pos htree
        simp [Signals.sigAction, hcatch, hrelay]
      · rfl
    rw [hinst]
    refine ⟨⟨hlists, hlive, hdist, fun k => ?_, hall⟩, h.snaps, h.depth, h.subshell, ?_⟩
    · by_cases hk : k = t.sig
      · subst hk
        rw [if_pos ⟨hreal, List.mem_cons_self ..⟩]
        change (Function.update s.sigs.stack t.sig [s.sigs.disp t.sig] t.sig).length = 1
        rw [Function.update_self]
        rfl
      · refine (congrArg List.length (Function.update_of_ne hk ..)).trans ((h.stackLen k).trans ?_)
        simp only [hother k hk]
    · refine h.frames.only t.sig ⟨⟨rfl, fun _ => id⟩, rfl, rfl, rfl⟩ (fun k hk => Function.update_of_ne hk ..)
        (fun k hk => Function.update_of_ne hk ..) fun w hw habove => ?_
      refine ⟨hlist w habove.list, hws w hw, ?_⟩
      have hturns := habove.free t.sig fun _ => hws w hw
      simp only [Traps.view, hnil, List.headD_nil] at hturns
      simpa [Traps.view, Signals.Turns, Signals.sigWasIgnored] using hturns
  · have hinst : Traps.installed catchable s.sigs t = s.sigs := if_neg hreal
    rw [hinst]
    refine ⟨⟨hlists, hlive, hdist, fun k => ?_, hall⟩, h.snaps, h.depth, h.subshell, ?_⟩
    · by_cases hk : k = t.sig
      · subst hk
        have hlen := h.stackLen t.sig
        rwa [if_neg fun h' => hreal h'.1] at hlen ⊢
      · exact (h.stackLen k).trans (by simp only [hother k hk])
    · refine h.frames.only t.sig (.refl _) (fun _ _ => rfl) (fun _ _ => rfl) fun w hw habove => ?_
      exact ⟨hlist w habove.list, hws w hw, habove.free _ fun h' => absurd h' hreal⟩

/-- **`trap_install`.** -/
theorem install (h : Keeps catchable s l noted) {t : Trap τ} (hleave : s.sigs.leaves t.sig = false)
    (hset : isReal t.sig → settable catchable t.sig) (hrem : s.Removes t.sig) :
    ∃ s' l', s.trapInstall catchable t = some s' ∧ Keeps catchable s' l' noted := by
  obtain ⟨s₁, l₁, hs₁, h₁, hsig⟩ := h.uninstall hleave hrem
  refine ⟨_, _, ?_, h₁.prepend t hsig hset⟩
  unfold Traps.trapInstall
  rw [if_neg (by simp [hleave]), hs₁]
  rfl

/-- **A subshell begins.** -/
theorem enter (h : Keeps catchable s l noted) (hok : Keeping catchable s .enter) :
    ∃ s', s.subshellEnter catchable = some s' ∧
      Keeps catchable s' l (s.view l :: noted) := by
  have hfuel := h.lists.length_le h.fresh
  have hlist : s.list = some (l.map Prod.snd) := h.lists.values_eq hfuel
  obtain ⟨hforce, hshell⟩ := hok _ hlist
  have hnd : ((l.map Prod.snd).map (·.sig)).Nodup := by
    rw [List.map_map]
    exact h.distinct
  have hdrops := Signals.drops_sigrestore catchable s.sigs hnd
  have hmem : ∀ x ∈ l, x.2 ∈ l.map Prod.snd := fun x hx => List.mem_map_of_mem hx
  have huniq : ∀ x ∈ l, ∀ t ∈ l.map Prod.snd, t.sig = x.2.sig → t = x.2 := fun x hx t ht hs =>
    List.inj_on_of_nodup_map hnd ht (hmem x hx) hs
  have hnodes : s.heap.nodes s.fresh s.traps = some (l.map Prod.fst) :=
    h.lists.chain.nodes_eq (by simpa using hfuel)
  refine ⟨{ s with
    sigs := { Traps.shSigrestore catchable s.sigs (l.map Prod.snd) with
      subshell := (Traps.shSigrestore catchable s.sigs (l.map Prod.snd)).subshell + 1 }
    snaps := l.map Prod.fst :: s.snaps
    subshellDepth := s.subshellDepth + 1 }, ?_, ⟨?_, ?_, ?_, ?_, ?_⟩⟩
  · simp only [Traps.subshellEnter, Traps.trapSnapshotSave, hnodes, Option.map_some,
      Option.bind_eq_bind, Option.bind_some]
    have hlist' : Traps.list { s with
        snaps := l.map Prod.fst :: s.snaps, subshellDepth := s.subshellDepth + 1 } =
          some (l.map Prod.snd) := hlist
    rw [hlist', Option.bind_some]
  · refine ⟨h.lists, h.fresh, h.distinct, fun k => ?_, h.settable⟩
    exact (congrArg (fun f => (f k).length) hdrops.stack).trans (h.stackLen k)
  · exact congrArg (l.map Prod.fst :: ·) h.snaps
  · exact Nat.succ_le_succ h.depth
  · have hsub := h.subshell
    rw [← hdrops.subshell] at hsub
    exact Nat.succ_le_succ hsub
  · have hfewer : s.sigs.Fewer { Traps.shSigrestore catchable s.sigs (l.map Prod.snd) with
        subshell := (Traps.shSigrestore catchable s.sigs (l.map Prod.snd)).subshell + 1 } :=
      ⟨hdrops.interactive, hdrops.ignored⟩
    refine ⟨⟨⟨[], rfl⟩, fun x hx hreal => ⟨congrFun hdrops.stack _, fun htree => ?_⟩,
      fun x hx => hforce x.2 (hmem x hx), fun k hk => ?_, fun hi k hkshell => ?_, h.stackLen⟩,
      h.frames.mono hfewer⟩
    · -- an ignoring trap is not dropped
      have hign : s.sigs.disp x.2.sig = .ign := by
        rw [hforce x.2 (hmem x hx) hreal, Trap.inForce, htree]
        rfl
      rcases hdrops.disp x.2.sig with hd | ⟨-, -, ⟨t, ht, hts, -, hsome⟩ | ⟨-, -, -, hall⟩⟩
      · exact hd.trans hign
      · rw [huniq x hx t ht hts, htree] at hsome
        exact absurd hsome Bool.false_ne_true
      · have hsome := hall x.2 (hmem x hx) rfl
        rw [htree] at hsome
        exact absurd hsome Bool.false_ne_true
    · have hnil : s.sigs.stack k = [] := by
        have hlen := h.stackLen k
        rw [if_neg fun h' => hk h'.1 h'.2] at hlen
        exact List.length_eq_zero_iff.1 hlen
      have hhead : ((Traps.shSigrestore catchable s.sigs (l.map Prod.snd)).stack k).headD
          ((Traps.shSigrestore catchable s.sigs (l.map Prod.snd)).disp k) =
            (Traps.shSigrestore catchable s.sigs (l.map Prod.snd)).disp k := by
        rw [hdrops.stack, hnil]
        rfl
      refine hhead.symm ▸ ?_
      rcases hdrops.disp k with hd | ⟨hd, hc, ⟨t, ht, rfl, hreal, -⟩ | ⟨hi, hkshell, hign, -⟩⟩
      · exact .inl hd
      · obtain ⟨x, hx, rfl⟩ := List.mem_map.1 ht
        exact absurd (List.mem_map_of_mem hx) (hk hreal)
      · refine .inr ⟨hdrops.interactive.trans hi, hkshell, hc, hd, ?_, (hdrops.same k).trans hign⟩
        refine (hshell hi k hkshell).resolve_right ?_
        rintro ⟨t, ht, rfl⟩
        obtain ⟨x, hx, rfl⟩ := List.mem_map.1 ht
        exact hk (Signals.isReal_of_shellSigs hkshell) (List.mem_map_of_mem hx)
    · refine (hshell (hdrops.interactive ▸ hi) k hkshell).imp id ?_
      rintro ⟨t, ht, rfl⟩
      obtain ⟨x, hx, rfl⟩ := List.mem_map.1 ht
      exact List.mem_map_of_mem hx

/-! ## A subshell ends -/

/-- A trap is popped, as the first loop of `trap_snapshot_restore` does it. -/
def popOne (catchable : ℕ → Bool) (g : Signals) (x : ℕ × Trap τ) : Signals :=
  if isReal x.2.sig then g.sigPop catchable x.2.sig else g

/-- A trap is armed, as the second loop does it. -/
def armOne (catchable : ℕ → Bool) (g : Signals) (x : ℕ × Trap τ) : Signals :=
  if isReal x.2.sig && x.2.tree.isSome then g.sigAction catchable x.2.sig .relay else g

/-- Noted nodes stay. -/
theorem undo_noted {ns : List ℕ} : ∀ {old : List (ℕ × Trap τ)} {s : Traps τ} {k : ℕ} {p : Option ℕ},
    s.heap.Chain p (old.map Prod.fst) → (∀ x ∈ old, x.1 ∈ ns) → old.length ≤ k →
      Traps.undo catchable ns s k p = some s
  | [], s, k, p, hc, _, _ => by
      obtain rfl := hc
      cases k <;> rfl
  | x :: old, s, k + 1, p, hc, hns, hk => by
      obtain ⟨rfl, c, hx, hc⟩ := hc
      obtain ⟨hxn, hns⟩ := List.forall_mem_cons.1 hns
      rw [Traps.undo, hx]
      exact (if_pos hxn).trans (undo_noted hc hns (by simpa using hk))

/-- **The nodes in front are popped and released.** -/
theorem undo_eq (catchable : ℕ → Bool) {ns : List ℕ} {old : List (ℕ × Trap τ)} (hold : ∀ x ∈ old, x.1 ∈ ns) :
    ∀ {new : List (ℕ × Trap τ)} {s : Traps τ} {k : ℕ} {p : Option ℕ},
      s.heap.Lists p (new ++ old) → (∀ x ∈ new, x.1 ∉ ns) → (new ++ old).length ≤ k →
        ∃ heap, Traps.undo catchable ns s k p =
            some { s with sigs := new.foldl (popOne catchable) s.sigs, heap } ∧
          (∀ x ∈ old, heap x.1 = s.heap x.1) ∧ ∀ n, (heap n).isSome → (s.heap n).isSome
  | [], s, k, p, hl, _, hk => ⟨s.heap, undo_noted hl.chain hold hk, fun _ _ => rfl, fun _ => id⟩
  | x :: new, s, k + 1, p, hl, hns, hk => by
      obtain ⟨rfl, c, hx, hc⟩ := hl.chain
      obtain ⟨hxn, hns⟩ := List.forall_mem_cons.1 hns
      obtain ⟨hxnd, hnd⟩ := List.nodup_cons.1 hl.nodup
      have hcval : c.val = x.2 := by
        have hval := hl.vals x (List.mem_cons_self ..)
        rw [Heap.val, hx] at hval
        exact Option.some.inj hval
      have htail : s.heap.Lists c.next (new ++ old) :=
        ⟨hc, fun y hy => hl.vals y (List.mem_cons_of_mem _ hy), hnd⟩
      obtain ⟨heap, hundo, hkeep, hlive⟩ := undo_eq catchable hold (k := k)
        (s := { s with sigs := popOne catchable s.sigs x, heap := s.heap.release x.1 })
        (htail.release hxnd) hns (by simpa using hk)
      refine ⟨heap, ?_, fun y hy => ?_, fun n hn => ?_⟩
      · rw [Traps.undo, hx]
        dsimp only
        rw [if_neg hxn, hcval]
        exact hundo
      · rw [hkeep y hy]
        refine Heap.release_of_ne fun heq => hxnd ?_
        exact heq ▸ List.mem_map_of_mem (List.mem_append_right _ hy)
      · have hn' := hlive n hn
        dsimp only at hn'
        by_cases hnx : n = x.1
        · rw [hnx, hx]
          rfl
        · rwa [Heap.release_of_ne hnx] at hn'

/-- **The noted traps are armed.** -/
theorem rearm_eq : ∀ {old : List (ℕ × Trap τ)} {s : Traps τ},
    (∀ x ∈ old, s.heap.val x.1 = some x.2) →
      Traps.rearm catchable s (old.map Prod.fst) =
        some { s with sigs := old.foldl (armOne catchable) s.sigs }
  | [], s, _ => rfl
  | x :: old, s, hval => by
      obtain ⟨hx, hval⟩ := List.forall_mem_cons.1 hval
      obtain ⟨c, hc, hcx⟩ := Option.map_eq_some_iff.1 hx
      rw [List.map_cons, Traps.rearm, hc]
      dsimp only
      rw [hcx]
      by_cases harm : (isReal x.2.sig && x.2.tree.isSome) = true
      · rw [if_pos harm, rearm_eq (by exact hval), List.foldl_cons, armOne, if_pos harm]
      · rw [if_neg harm, rearm_eq hval, List.foldl_cons, armOne, if_neg harm]

/-- Behind the pops the signals in front have the dispositions that were under their traps. -/
theorem pops_eq (catchable : ℕ → Bool) : ∀ {new : List (ℕ × Trap τ)} {g : Signals}, (new.map (·.2.sig)).Nodup →
    (∀ x ∈ new, isReal x.2.sig → settable catchable x.2.sig ∧ ∃ d, g.stack x.2.sig = [d]) →
      let g' := new.foldl (popOne catchable) g
      g.Same g' ∧ ∀ k, if isReal k ∧ k ∈ new.map (·.2.sig) then
          g'.disp k = (g.stack k).headD (g.disp k) ∧ g'.stack k = []
        else g'.disp k = g.disp k ∧ g'.stack k = g.stack k
  | [], g, _, _ => ⟨.refl g, fun k => by simp⟩
  | x :: new, g, hnd, hst => by
      obtain ⟨hxnd, hnd⟩ := List.nodup_cons.1 hnd
      obtain ⟨hx, hst⟩ := List.forall_mem_cons.1 hst
      have hne : ∀ y ∈ new, y.2.sig ≠ x.2.sig := fun y hy heq =>
        hxnd (List.mem_map.2 ⟨y, hy, heq⟩)
      have honly : Signals.Only x.2.sig g (popOne catchable g x) := by
        unfold popOne
        split_ifs
        · exact Signals.only_sigPop catchable g x.2.sig
        · exact .refl _ g
      have ih := pops_eq catchable (g := popOne catchable g x) hnd fun y hy hreal => by
        rw [honly.stack _ (hne y hy)]
        exact hst y hy hreal
      dsimp only at ih ⊢
      obtain ⟨hsame, hall⟩ := ih
      refine ⟨honly.toSame.trans hsame, fun k => ?_⟩
      have hk := hall k
      rw [List.foldl_cons]
      by_cases hkx : k = x.2.sig
      · subst hkx
        rw [if_neg fun h' => hxnd h'.2] at hk
        by_cases hreal : isReal x.2.sig
        · obtain ⟨hset, d, hd⟩ := hx hreal
          have hpop : popOne catchable g x = _ := (if_pos hreal).trans (Signals.sigPop_eq hset hd)
          rw [if_pos ⟨hreal, List.mem_cons_self ..⟩, hk.1, hk.2, hpop, hd]
          exact ⟨Function.update_self .., Function.update_self ..⟩
        · have hpop : popOne catchable g x = g := if_neg hreal
          rw [if_neg fun h' => hreal h'.1, hk.1, hk.2, hpop]
          exact ⟨rfl, rfl⟩
      · have hmem : k ∈ (x :: new).map (·.2.sig) ↔ k ∈ new.map (·.2.sig) := by
          rw [List.map_cons, List.mem_cons]
          exact or_iff_right hkx
        rw [honly.disp k hkx, honly.stack k hkx] at hk
        simp only [hmem]
        exact hk

/-- Behind the arming every noted trap with a body has its relay. -/
theorem arms_eq (catchable : ℕ → Bool) : ∀ {old : List (ℕ × Trap τ)} {g : Signals}, (old.map (·.2.sig)).Nodup →
    (∀ x ∈ old, isReal x.2.sig → catchable x.2.sig) →
      let g' := old.foldl (armOne catchable) g
      g.Same g' ∧ g'.stack = g.stack ∧
        (∀ x ∈ old, isReal x.2.sig → x.2.tree.isSome → g'.disp x.2.sig = .relay) ∧
          ∀ k, (∀ x ∈ old, x.2.sig = k → ¬ (isReal k ∧ x.2.tree.isSome)) → g'.disp k = g.disp k
  | [], g, _, _ => ⟨.refl g, rfl, nofun, fun _ _ => rfl⟩
  | x :: old, g, hnd, hcatch => by
      obtain ⟨hxnd, hnd⟩ := List.nodup_cons.1 hnd
      obtain ⟨hx, hcatch⟩ := List.forall_mem_cons.1 hcatch
      have hone : Signals.Only x.2.sig g (armOne catchable g x) ∧
          (armOne catchable g x).stack = g.stack := by
        unfold armOne
        split_ifs
        · exact ⟨(Signals.only_sigAction catchable g x.2.sig .relay).1,
            (Signals.only_sigAction catchable g x.2.sig .relay).2.1⟩
        · exact ⟨.refl _ g, rfl⟩
      have ih := arms_eq catchable (g := armOne catchable g x) hnd hcatch
      dsimp only at ih ⊢
      obtain ⟨hsame, hstack, harmed, hrest⟩ := ih
      have hnone : ∀ y ∈ old, y.2.sig = x.2.sig → ¬ (isReal x.2.sig ∧ y.2.tree.isSome) :=
        fun y hy heq => absurd (List.mem_map.2 ⟨y, hy, heq⟩) hxnd
      rw [List.foldl_cons]
      refine ⟨hone.1.toSame.trans hsame, hstack.trans hone.2, ?_, fun k hk => ?_⟩
      · refine List.forall_mem_cons.2 ⟨fun hreal htree => ?_, harmed⟩
        rw [hrest _ hnone, armOne, if_pos (by simp [hreal, htree]), Signals.disp_sigAction,
          if_pos (hx hreal)]
      · rw [List.forall_mem_cons] at hk
        rw [hrest k hk.2]
        by_cases hkx : k = x.2.sig
        · subst hkx
          rw [armOne, if_neg (by simpa using hk.1 rfl)]
        · exact hone.1.disp k hkx

/-- **Behind a subshell the signals are as they were noted.** -/
theorem signals_restored {w : TrapView τ} {new : List (ℕ × Trap τ)} {ws : List (TrapView τ)}
    (h : Keeps catchable s (new ++ w.list) (w :: ws)) (n : ℕ) :
    let g := w.list.foldl (armOne catchable) (new.foldl (popOne catchable) s.sigs)
    let g' := Signals.shSigignore catchable { g with subshell := n }
    g.subshell = s.sigs.subshell ∧ s.sigs.Fewer g' ∧ g'.subshell = n ∧ g'.disp = w.disp ∧
      g'.stack = w.stack := by
  have habove := h.frames.1
  have hdist := h.distinct
  rw [List.map_append, List.nodup_append] at hdist
  obtain ⟨hnew, hold, hdis⟩ := hdist
  have hset : ∀ x ∈ new ++ w.list, isReal x.2.sig → settable catchable x.2.sig := h.settable
  have hpops := pops_eq catchable (g := s.sigs) hnew fun x hx hreal =>
    ⟨hset x (List.mem_append_left _ hx) hreal,
      stack_singleton h.toInOrder hreal (List.mem_map_of_mem (List.mem_append_left _ hx))⟩
  have harms := arms_eq catchable (g := new.foldl (popOne catchable) s.sigs) hold
    fun x hx hreal => by
      have := hset x (List.mem_append_right _ hx) hreal
      simp only [settable, Bool.and_eq_true] at this
      exact this.2
  dsimp only at hpops harms ⊢
  obtain ⟨hsame₁, hpop⟩ := hpops
  obtain ⟨hsame₂, hstack₂, harmed, hunarmed⟩ := harms
  generalize new.foldl (popOne catchable) s.sigs = g₁ at *
  generalize w.list.foldl (armOne catchable) g₁ = g₂ at *
  obtain ⟨hsame₃, hstack₃, hdisp₃⟩ :=
    Signals.sigignore_eq catchable { g₂ with subshell := n }
  generalize Signals.shSigignore catchable { g₂ with subshell := n } = g₃ at *
  have hfewer : s.sigs.Fewer g₂ := (hsame₁.trans hsame₂).toFewer
  have hnewk : ∀ k, k ∈ w.trapped → ¬ (isReal k ∧ k ∈ new.map (·.2.sig)) := fun k hk hkn =>
    hdis k hkn.2 k hk rfl
  -- behind the pops and the arming, a signal that is not noted has what was under its trap
  have hfree : ∀ k, ¬ (isReal k ∧ k ∈ w.trapped) →
      g₂.disp k = (s.sigs.stack k).headD (s.sigs.disp k) ∧ g₁.stack k = [] := fun k hk => by
    have hun : g₂.disp k = g₁.disp k := hunarmed k fun x hx hxk hr =>
      hk ⟨hr.1, hxk ▸ List.mem_map_of_mem hx⟩
    have hpk := hpop k
    split_ifs at hpk with hkn
    · exact ⟨hun.trans hpk.1, hpk.2⟩
    · have hnil : s.sigs.stack k = [] := by
        have hlen := h.stackLen k
        rw [if_neg] at hlen
        · exact List.length_eq_zero_iff.1 hlen
        · rw [List.map_append, List.mem_append]
          rintro ⟨hreal, hmem | hmem⟩
          · exact hkn ⟨hreal, hmem⟩
          · exact hk ⟨hreal, hmem⟩
      rw [hun, hpk.1, hpk.2, hnil]
      exact ⟨rfl, rfl⟩
  refine ⟨(hsame₁.trans hsame₂).subshell, ⟨hsame₃.interactive.trans hfewer.interactive,
    fun k hk => hfewer.ignored k (hsame₃.ignored k hk)⟩, hsame₃.subshell, funext fun k => ?_, funext fun k => ?_⟩
  · rw [hdisp₃ k]
    by_cases hk : isReal k ∧ k ∈ w.trapped
    · obtain ⟨hreal, hk⟩ := hk
      have hpk := hpop k
      rw [if_neg (hnewk k hk)] at hpk
      obtain ⟨x, hx, rfl⟩ := List.mem_map.1 hk
      have hforce := habove.inForce x hx hreal
      have hdisp : g₂.disp x.2.sig = x.2.inForce := by
        cases htree : x.2.tree with
        | some b =>
          rw [harmed x hx hreal (by simp [htree]), Trap.inForce, htree]
          rfl
        | none =>
          have hign : s.sigs.disp x.2.sig = .ign := (habove.recorded x hx hreal).2 htree
          rw [hunarmed, hpk.1, hign, Trap.inForce, htree]
          · rfl
          · intro y hy hyx hr
            have heq := List.inj_on_of_nodup_map hold hy hx hyx
            rw [heq, htree] at hr
            exact absurd hr.2 Bool.false_ne_true
      have hndfl : x.2.inForce ≠ .dfl := by
        unfold Trap.inForce
        split_ifs <;> exact nofun
      rw [if_neg fun h' => hndfl (hdisp.symm.trans h'.2.2.2.1)]
      exact hdisp.trans hforce.symm
    · have hturns := habove.free k fun hr hm => hk ⟨hr, hm⟩
      rw [show ((s.view (new ++ w.list)).stack k).headD ((s.view (new ++ w.list)).disp k) =
        g₂.disp k from (hfree k hk).1.symm] at hturns
      have hturns₂ := hturns.mono hfewer
      rcases hturns₂ with hd | ⟨hi, hshell, hc, hd, hD, hign⟩
      · rw [if_neg, hd]
        rintro ⟨hi, hshell, -, hdfl, -⟩
        rcases habove.shell (hfewer.interactive ▸ hi) k hshell with hD | hmem
        · exact absurd (hdfl.symm.trans (hd.trans hD)) nofun
        · exact hk ⟨Signals.isReal_of_shellSigs hshell, hmem⟩
      · rw [if_pos ⟨hi, hshell, hign, hd, hc⟩, hD]
  · rw [hstack₃]
    change g₂.stack k = _
    rw [hstack₂]
    by_cases hk : isReal k ∧ k ∈ w.trapped
    · have hpk := hpop k
      rw [if_neg (hnewk k hk.2)] at hpk
      obtain ⟨x, hx, rfl⟩ := List.mem_map.1 hk.2
      exact hpk.2.trans (habove.recorded x hx hk.1).1
    · have hlen := habove.stackLen k
      rw [if_neg hk] at hlen
      rw [(hfree k hk).2, List.length_eq_zero_iff.1 hlen]

/-- **A subshell ends.** -/
theorem leave {w : TrapView τ} {ws : List (TrapView τ)} (h : Keeps catchable s l (w :: ws)) :
    ∃ s', s.subshellLeave catchable = some s' ∧ Keeps catchable s' w.list ws ∧
      s'.view w.list = w := by
  obtain ⟨new, rfl⟩ : ∃ new, l = new ++ w.list := h.frames.1.list
  have hfuel := h.lists.length_le h.fresh
  have hsnaps := h.snaps
  rw [List.map_cons] at hsnaps
  obtain ⟨hndnew, hndold, hdis⟩ := List.nodup_append.1 (List.map_append ▸ h.lists.nodup)
  have hnotin : ∀ x ∈ new, x.1 ∉ w.list.map Prod.fst := fun x hx hmem =>
    hdis x.1 (List.mem_map_of_mem hx) x.1 hmem rfl
  have hnoted : ∀ x ∈ w.list, x.1 ∈ w.list.map Prod.fst := fun x hx => List.mem_map_of_mem hx
  obtain ⟨heap, hundo, hkeep, hlive⟩ := undo_eq catchable hnoted h.lists hnotin hfuel
  have hvals : ∀ x ∈ w.list, heap.val x.1 = some x.2 := fun x hx =>
    (Heap.val_congr (hkeep x hx)).trans (h.lists.vals x (List.mem_append_right _ hx))
  have hsome : ∀ n ∈ w.list.map Prod.fst, (heap n).isSome := fun n hn => by
    obtain ⟨x, hx, rfl⟩ := List.mem_map.1 hn
    obtain ⟨c, hc, -⟩ := Option.map_eq_some_iff.1 (hvals x hx)
    rw [hc]
    rfl
  obtain ⟨heap', hrelink, hchain, hval, -⟩ := Heap.relink_chain hndold hsome
  obtain ⟨hsubshell, hfewer, hsub, hdisp, hstack⟩ := signals_restored h (s.sigs.subshell - 1)
  refine ⟨{ s with
    sigs := Signals.shSigignore catchable
      { w.list.foldl (armOne catchable) (new.foldl (popOne catchable) s.sigs) with
        subshell := s.sigs.subshell - 1 }
    heap := heap'
    traps := (w.list.map Prod.fst).head?
    snaps := ws.map fun w => w.list.map Prod.fst
    subshellDepth := s.subshellDepth - 1 }, ?_, ⟨⟨⟨hchain, ?_, hndold⟩, ?_, ?_, ?_, ?_⟩, rfl, ?_, ?_, ?_⟩, ?_⟩
  · simp only [Traps.subshellLeave, Traps.trapSnapshotRestore, hsnaps, hundo, Option.bind_eq_bind,
      Option.bind_some]
    rw [rearm_eq (by exact hvals)]
    simp only [Option.bind_some, hrelink, hsubshell]
  · exact fun x hx => (congrFun hval x.1).trans (hvals x hx)
  · exact fun n hn => h.fresh n (hlive n (by rwa [Heap.isSome_of_val (congrFun hval n)] at hn))
  · exact (List.nodup_append.1 (List.map_append ▸ h.distinct)).2.1
  · exact fun k => (congrArg (fun f => (f k).length) hstack).trans (h.frames.1.stackLen k)
  · exact fun x hx => h.settable x (List.mem_append_right _ hx)
  · have := h.depth
    rw [List.length_cons] at this
    exact (by omega : ws.length ≤ s.subshellDepth - 1)
  · have := h.subshell
    rw [List.length_cons] at this
    exact hsub.symm ▸ (by omega : ws.length ≤ s.sigs.subshell - 1)
  · have hframes := h.frames.2.mono hfewer
    rw [Traps.view]
    dsimp only
    rw [hdisp, hstack]
    exact hframes
  · rw [Traps.view]
    dsimp only
    rw [hdisp, hstack]

end Keeps

/-! ## Runs -/

/-- The traps, the dispositions and the stacks. -/
def Traps.seen (s : Traps τ) : Option (List (Trap τ)) × (ℕ → Disp) × (ℕ → List Disp) :=
  (s.list, s.sigs.disp, s.sigs.stack)

/-- The same of what was noted. -/
def TrapView.seen (w : TrapView τ) : Option (List (Trap τ)) × (ℕ → Disp) × (ℕ → List Disp) :=
  (some (w.list.map Prod.snd), w.disp, w.stack)

namespace Keeps

variable {s s' : Traps τ} {l : List (ℕ × Trap τ)} {noted : List (TrapView τ)}

theorem list_eq (h : InOrder catchable s l) : s.list = some (l.map Prod.snd) :=
  h.lists.values_eq (h.lists.length_le h.fresh)

theorem seen_eq (h : InOrder catchable s l) : s.seen = (s.view l).seen :=
  congrArg (·, s.sigs.disp, s.sigs.stack) (list_eq h)

/-- **Every step that goes well** keeps the traps in order, above what is noted then; a subshell that
ends leaves what was noted when it began. -/
theorem step (h : Keeps catchable s l noted) {op : TrapOp τ} (hok : Keeping catchable s op) :
    ∃ s' l' noted', trapStep catchable s op = some s' ∧ Keeps catchable s' l' noted' ∧
      noted'.map TrapView.seen =
        note TrapOp.begins TrapOp.ends Traps.seen s (noted.map TrapView.seen) op ∧
      (op.ends → (noted.map TrapView.seen).head? = some s'.seen) := by
  cases op with
  | install t =>
    cases hleave : s.sigs.leaves t.sig with
    | true => exact ⟨s, l, noted, if_pos hleave, h, rfl, nofun⟩
    | false =>
      obtain ⟨hset, hrem⟩ := hok hleave
      obtain ⟨s', l', hs', h'⟩ := h.install hleave hset hrem
      exact ⟨s', l', noted, hs', h', rfl, nofun⟩
  | uninstall sig =>
    cases hleave : s.sigs.leaves sig with
    | true => exact ⟨s, l, noted, if_pos hleave, h, rfl, nofun⟩
    | false =>
      obtain ⟨s', l', hs', h', -⟩ := h.uninstall hleave (hok hleave)
      exact ⟨s', l', noted, hs', h', rfl, nofun⟩
  | enter =>
    obtain ⟨s', hs', h'⟩ := h.enter hok
    refine ⟨s', l, s.view l :: noted, hs', h', ?_, nofun⟩
    exact congrArg (· :: noted.map TrapView.seen) (seen_eq h.toInOrder).symm
  | leave =>
    cases noted with
    | nil => exact absurd h.snaps hok
    | cons w ws =>
      obtain ⟨s', hs', h', hview⟩ := h.leave
      refine ⟨s', w.list, ws, hs', h', rfl, fun _ => ?_⟩
      rw [seen_eq h'.toInOrder, hview]
      rfl

/-- A run that goes well reads no released node. -/
theorem run : ∀ {ops : List (TrapOp τ)} {s : Traps τ} {l : List (ℕ × Trap τ)} {noted : List (TrapView τ)},
    Keeps catchable s l noted → Along (trapStep catchable) (Keeping catchable) s ops →
      ∃ s' l' noted', runs (trapStep catchable) s ops = some s' ∧ Keeps catchable s' l' noted'
  | [], s, l, noted, h, _ => ⟨s, l, noted, rfl, h⟩
  | op :: ops, s, l, noted, h, ⟨hok, hrest⟩ => by
      obtain ⟨s₁, l₁, noted₁, hs₁, h₁, -⟩ := h.step hok
      obtain ⟨s', l', noted', hrun, h'⟩ := run h₁ (hrest s₁ hs₁)
      refine ⟨s', l', noted', ?_, h'⟩
      rw [runs, hs₁]
      exact hrun

/-- A shell that begins has no traps. -/
theorem start (catchable : ℕ → Bool) (τ : Type) (g : Signals) (hstack : ∀ sig, g.stack sig = []) :
    Keeps catchable ({ sigs := g } : Traps τ) [] [] where
  lists := ⟨rfl, nofun, List.nodup_nil⟩
  fresh := nofun
  distinct := List.nodup_nil
  stackLen sig := by simp [hstack]
  settable := nofun
  snaps := rfl
  depth := Nat.zero_le _
  subshell := Nat.zero_le _
  frames := trivial

end Keeps

/-- **In a run whose steps all go well** every state reached has one entry on the stack of each signal
that has a trap and none on the others, and every subshell ends with the traps, the dispositions and
the stacks it began with. -/
theorem traps_restored (catchable : ℕ → Bool) (g : Signals) (hstack : ∀ sig, g.stack sig = []) (ops : List (TrapOp τ))
    (hok : Along (trapStep catchable) (Keeping catchable) { sigs := g } ops) :
    ∃ s', runs (trapStep catchable) { sigs := g } ops = some s' ∧
      (∃ ts, s'.list = some ts ∧ ∀ sig, (s'.sigs.stack sig).length =
        if isReal sig ∧ ∃ t ∈ ts, t.sig = sig then 1 else 0) ∧
      ∀ pre body s₀, ops = pre ++ .enter :: (body ++ [.leave]) →
        Balanced TrapOp.begins TrapOp.ends body →
        runs (trapStep catchable) { sigs := g } pre = some s₀ →
          s'.list = s₀.list ∧ s'.sigs.disp = s₀.sigs.disp ∧ s'.sigs.stack = s₀.sigs.stack := by
  have hstart := Keeps.start catchable τ g hstack
  obtain ⟨s', l', noted', hrun, h'⟩ := hstart.run hok
  refine ⟨s', hrun, ⟨l'.map Prod.snd, Keeps.list_eq h'.toInOrder, fun sig => ?_⟩, ?_⟩
  · rw [h'.stackLen sig]
    simp only [List.mem_map, exists_exists_and_eq_and]
  · rintro pre body s₀ rfl hbody hpre
    obtain ⟨hokpre, hokrest⟩ := along_append pre _ hok
    obtain ⟨s₀', l₀, noted₀, hpre', h₀⟩ := hstart.run hokpre
    obtain rfl := Option.some.inj (hpre'.symm.trans hpre)
    rw [runs_append, hpre, Option.bind_some] at hrun
    let Inv : Traps τ → List (Option (List (Trap τ)) × (ℕ → Disp) × (ℕ → List Disp)) → Prop :=
      fun s seens => ∃ l noted, Keeps catchable s l noted ∧ seens = noted.map TrapView.seen
    have hseen : s'.seen = s₀'.seen := by
      refine scope_restored Inv ?_ ?_ (o := .enter) (c := .leave) rfl rfl rfl hbody
        ⟨l₀, noted₀, h₀, rfl⟩ (hokrest _ hpre) hrun
      · rintro s _ op s₁ ⟨l, noted, h, rfl⟩ hokop hs₁
        obtain ⟨s₁', l₁, noted₁, hs₁', h₁, hnote, -⟩ := h.step hokop
        obtain rfl := Option.some.inj (hs₁'.symm.trans hs₁)
        exact ⟨l₁, noted₁, h₁, hnote.symm⟩
      · rintro s _ op s₁ ⟨l, noted, h, rfl⟩ hokop hs₁ - hends
        obtain ⟨s₁', l₁, noted₁, hs₁', -, -, hhead⟩ := h.step hokop
        obtain rfl := Option.some.inj (hs₁'.symm.trans hs₁)
        exact hhead hends
    obtain ⟨hlist, hdisp⟩ := Prod.mk.inj hseen
    exact ⟨hlist, Prod.mk.inj hdisp⟩

/-- `trap 7 INT; ( trap 8 QUIT; ( trap '' TERM ); trap - QUIT )`. -/
def nestedTraps : List (TrapOp ℕ) :=
  [.install ⟨2, some 7⟩, .enter, .install ⟨3, some 8⟩, .enter, .install ⟨15, none⟩, .leave,
    .uninstall 3, .leave]

theorem traps_restored_nested : ∃ s₀ s',
    runs (trapStep fun _ => true) { sigs := { disp := fun _ => .dfl } } (nestedTraps.take 1) = some s₀ ∧
      runs (trapStep fun _ => true) { sigs := { disp := fun _ => .dfl } } nestedTraps = some s' ∧
        s'.list = s₀.list ∧ s'.sigs.disp = s₀.sigs.disp ∧ s'.sigs.stack = s₀.sigs.stack := by
  obtain ⟨s', hrun, -, hscope⟩ := traps_restored (fun _ => true)
    { disp := fun _ => .dfl } (fun _ => rfl) nestedTraps (by decide)
  exact ⟨_, s', rfl, hrun, hscope (nestedTraps.take 1) [.install ⟨3, some 8⟩, .enter,
    .install ⟨15, none⟩, .leave, .uninstall 3] _ rfl (by decide) rfl⟩

/-- `trap 7 INT; ( trap - INT )`: the trap is back, but what its disposition took the place of is
lost. -/
theorem subshell_loses_disposition :
    (runs (trapStep fun _ => true) { sigs := { disp := fun _ => .dfl } }
        [.install (⟨2, some 7⟩ : Trap ℕ), .enter, .uninstall 2, .leave]).map
          (fun s => (s.list, s.sigs.disp 2, s.sigs.stack 2)) = some (some [⟨2, some 7⟩], .relay, []) ∧
      (runs (trapStep fun _ => true) { sigs := { disp := fun _ => .dfl } }
        [.install (⟨2, some 7⟩ : Trap ℕ)]).map
          (fun s => (s.list, s.sigs.disp 2, s.sigs.stack 2)) =
        some (some [⟨2, some 7⟩], .relay, [.dfl]) := by
  decide

end Shish
