import Shish.Dfa.Captures

/-!
# Dfa/Backref — the bytes a back-reference compares

`bt_match` compares `end - start` bytes of a group.  A pattern may refer to a group that is open, and
in a repetition the end may then be the one of the time before: `backref_in_bounds_iff` says of every
state of every search when the two slots are in order, and inside the subject.
-/

namespace Shish

namespace Dfa
variable {d : Dfa} {t : Subject} {start : ℕ}

/-- A path that begins in the subject stays in it. -/
theorem Comes.le_n (hn : start ≤ t.n) {p : Point} (h : Comes d t start p) : p.pos ≤ t.n := by
  induction h with
  | refl => exact hn
  | @tail q p _ hgo ih =>
    cases hgo with
    | char _ hlt | any _ hlt | set _ _ hlt => exact hlt
    | backref _ _ _ _ hle => exact hle
    | _ => exact ih

/-- Slots that are in order are compared within the subject. -/
theorem btNext_backref {st : Bt} {pc g s e : ℕ} (hpc : st.pc = some pc)
    (hi : d.prog[pc]? = some (.backref g)) (hs : st.save[2 * (g - 1)]? = some (some s))
    (he : st.save[2 * (g - 1) + 1]? = some (some e)) (hle : s ≤ e) : (btNext d t st).isSome := by
  simp [btNext, hpc, hi, hs, he, hle]

/-- **A back-reference compares a part of the subject** — its start is not behind its end, the end is in
the subject, and no byte behind it is read — if and only if it is outside of its own group, or nothing
was read between the last end of the group and where it was opened again. -/
theorem backref_in_bounds_iff (fl : DfaFlags) (pat : Str) (d : Dfa) (h : dfaCompile fl pat = .ok d)
    (t : Subject) (start : ℕ) (hn : start ≤ t.n) (st : Bt) (hr : BtReached d t start st) (pc g s e : ℕ)
    (hpc : st.pc = some pc) (hi : d.prog[pc]? = some (.backref g))
    (hs : st.save[2 * (g - 1)]? = some (some s)) (he : st.save[2 * (g - 1) + 1]? = some (some e)) :
    (s ≤ e ∧ e ≤ t.n ∧ (btNext d t st).isSome) ↔ (¬Within d (g - 1) pc ∨ s = e) := by
  obtain ⟨⟨lab, hp, h0⟩, -⟩ := compiled_places fl pat d h
  have hcome := hr.onpath.here pc hpc
  have hiff := backref_ordered_iff hp h0 hcome hs he
  rw [← hiff]
  constructor
  · exact fun hin => ⟨hin.1, hiff.2 (by
      by_cases hw : Within d (g - 1) pc
      · have hends := (hcome.slots hp).opened (g - 1) (hw.mem hp) s hs
        exact .inr (Nat.le_antisymm hin.1 (hends.2.2 e he))
      · exact .inl hw) |>.2⟩
  · exact fun hord => ⟨hord.1, Nat.le_trans hord.2 (hcome.le_n hn), btNext_backref hpc hi hs he hord.1⟩

/-- Some turns of the loop. -/
def btSteps (d : Dfa) (t : Subject) : ℕ → Bt → Option Bt
  | 0, s => some s
  | k + 1, s =>
    match btNext d t s with
    | some (.inl s') => btSteps d t k s'
    | _ => none

theorem btReached_of_steps : ∀ (k : ℕ) {s s' : Bt}, BtReached d t start s → btSteps d t k s = some s' →
    BtReached d t start s'
  | 0, s, s', h, hs => by
      obtain rfl := Option.some.inj hs
      exact h
  | k + 1, s, s', h, hs => by
      rw [btSteps] at hs
      split at hs
      · next s₁ h₁ => exact btReached_of_steps k (.tail h h₁) hs
      · exact absurd hs nofun

/-- `acb`. -/
def acb : Subject := ⟨fun k => ['a', 'c', 'b'].getD k ' ', 3, false⟩

/-- The compiled `(a)\1`. -/
def compiledTwice : Dfa := ⟨[.save 0, .char 'a', .save 1, .backref 1, .done], [], 1, true, false⟩

/-- The slots of `(a)\1` behind the first byte of a subject `aa`. -/
theorem backref_in_bounds_twice :
    (0 ≤ 1 ∧ 1 ≤ 2 ∧ (btNext compiledTwice ⟨fun _ => 'a', 2, false⟩
      ⟨some 3, 1, [some 0, some 1], [], [(1, none), (0, none)]⟩).isSome) ↔
      (¬Within compiledTwice 0 3 ∨ 0 = 1) :=
  backref_in_bounds_iff { ere := true } ['(', 'a', ')', '\\', '1'] compiledTwice (by decide +kernel)
    ⟨fun _ => 'a', 2, false⟩ 0 (by decide) _ (btReached_of_steps 3 .refl (by decide)) 3 1 0 1 rfl rfl rfl rfl

/-- The compiled `((a|\2)c)*`. -/
def compiledInside : Dfa :=
  ⟨[.split (some 1) (some 11), .save 0, .save 2, .split (some 4) (some 6), .char 'a', .jmp (some 7), .backref 2,
    .save 3, .char 'c', .save 1, .jmp (some 0), .done], [], 2, true, false⟩

/-- `((a|\2)c)*` on `acb`: behind the first round the group is opened at 2, and ends at 1. -/
theorem backref_out_of_bounds : ¬∀ (fl : DfaFlags) (pat : Str) (d : Dfa), dfaCompile fl pat = .ok d →
    ∀ (t : Subject) (start : ℕ), start ≤ t.n → ∀ st, BtReached d t start st → ∀ pc g s e,
      st.pc = some pc → d.prog[pc]? = some (.backref g) → st.save[2 * (g - 1)]? = some (some s) →
        st.save[2 * (g - 1) + 1]? = some (some e) → s ≤ e ∧ e ≤ t.n ∧ (btNext d t st).isSome := by
  intro hall
  have hcompiled : dfaCompile { ere := true } "((a|\\2)c)*".toList = .ok compiledInside := by decide +kernel
  have hsteps : btSteps compiledInside acb 15 (btInit compiledInside 0) = some ⟨some 6, 2,
      [some 2, some 2, some 2, some 1], [(some 11, 2, 4), (some 6, 0, 2), (some 11, 0, 0)],
      [(2, some 0), (0, some 0), (1, none), (3, none), (2, none), (0, none)]⟩ := by decide +kernel
  have h := hall _ _ compiledInside hcompiled acb 0 (by decide) _ (btReached_of_steps 15 .refl hsteps) 6 2 2 1
    rfl rfl rfl rfl
  exact absurd h.1 (by decide)

end Dfa

end Shish
