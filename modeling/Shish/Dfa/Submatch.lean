import Shish.Dfa.Captures
import Shish.Dfa.Threads

/-!
# Dfa/Submatch — the groups of a match are found again

`dfa_search` reports a match without its groups, and `dfa_submatch` runs a matcher once more from where
the match starts.  What a run finds from one position does not depend on the positions that were tried
before: the marks of the simulation are older than the generation (`runFrom_again`), and the
backtracker begins anew.  So the end is the same, and the slots are those of a path to it
(`submatch_spans`).
-/

namespace Shish

namespace Dfa
variable (d : Dfa) (t : Subject)

/-- `dfa_search`, with a bound on the calls and the turns of the loops. -/
def dfaSearch (start fuel : ℕ) : Option (Option Span) :=
  (if d.hasBackref then dfaBtRun d t false 0 fuel start else dfaRun d t start false 0 fuel).map fun r =>
    r.map Prod.fst

/-- `dfa_submatch`: what it returns, and `g` if it is written to. -/
def dfaSubmatch (m : Span) (ng fuel : ℕ) : Option (Bool × Option (List (Option Span))) :=
  (if d.hasBackref then dfaBtRun d t true ng fuel m.start else dfaRun d t m.start true ng fuel).map fun r =>
    match r with
    | none => (false, none)
    | some (got, g) => (got.stop == m.stop, some g)

variable {d t}

/-! ## The simulation, from different marks -/

theorem rel_bind {α β γ δ : Type*} {R : α → β → Prop} {S : γ → δ → Prop} {x : Option α} {y : Option β}
    {f : α → Option γ} {g : β → Option δ} (h : Option.Rel R x y)
    (hfg : ∀ a b, R a b → Option.Rel S (f a) (g b)) : Option.Rel S (x.bind f) (y.bind g) := by
  cases h with
  | some hab => exact hfg _ _ hab
  | none => exact .none

/-- Two lists of different generations that have come about in the same way. -/
structure Twin (gen gen' : ℕ) (l l' : (ℕ → Option ℕ) × List Thread) : Prop where
  list : l.2 = l'.2
  marks : ∀ pc, l.1 pc = some gen ↔ l'.1 pc = some gen'
  old : Before (gen + 1) l.1
  old' : Before (gen' + 1) l'.1

variable {gen gen' pos : ℕ} {l l' : (ℕ → Option ℕ) × List Thread}

/-- With older marks every list begins anew. -/
theorem Twin.fresh {mark mark' : ℕ → Option ℕ} (h : Before gen mark) (h' : Before gen' mark') :
    Twin gen gen' (mark, []) (mark', []) where
  list := rfl
  marks pc := ⟨fun hm => absurd (h pc gen hm) (Nat.lt_irrefl _), fun hm => absurd (h' pc gen' hm) (Nat.lt_irrefl _)⟩
  old pc g hm := Nat.lt_succ_of_lt (h pc g hm)
  old' pc g hm := Nat.lt_succ_of_lt (h' pc g hm)

theorem before_update {mark : ℕ → Option ℕ} (h : Before (gen + 1) mark) (pc : ℕ) :
    Before (gen + 1) (Function.update mark pc (some gen)) := by
  intro k g hg
  by_cases hk : k = pc
  · subst hk
    rw [Function.update_self] at hg
    exact Option.some.inj hg ▸ Nat.lt_succ_self gen
  · rw [Function.update_of_ne hk] at hg
    exact h k g hg

theorem Twin.mark (h : Twin gen gen' l l') (pc : ℕ) : Twin gen gen' (Function.update l.1 pc (some gen), l.2)
    (Function.update l'.1 pc (some gen'), l'.2) where
  list := h.list
  marks k := by
    by_cases hk : k = pc
    · subst hk
      simp
    · simpa [Function.update_of_ne hk] using h.marks k
  old := before_update h.old pc
  old' := before_update h.old' pc

/-- **`addthread` does the same in every generation.** -/
theorem addthread_twin : ∀ (fuel : ℕ) {pc : ℕ} {save : Saves} {l l' : (ℕ → Option ℕ) × List Thread},
    Twin gen gen' l l' →
      Option.Rel (Twin gen gen') (addthread d t gen pos fuel pc save l) (addthread d t gen' pos fuel pc save l')
  | 0, _, _, _, _, _ => .none
  | fuel + 1, pc, save, l, l', h => by
      have ih : ∀ {x : ℕ} {sv : Saves} {m m'}, Twin gen gen' m m' → Option.Rel (Twin gen gen')
          (addthread d t gen pos fuel x sv m) (addthread d t gen' pos fuel x sv m') := fun h => addthread_twin fuel h
      have hm := h.mark pc
      rw [addthread, addthread]
      cases d.prog[pc]? with
      | none => exact .none
      | some i =>
        dsimp only
        by_cases hs : l.1 pc = some gen
        · rw [if_pos hs, if_pos ((h.marks pc).1 hs)]
          exact .some h
        have hs' : ¬l'.1 pc = some gen' := fun hs' => hs ((h.marks pc).2 hs')
        rw [if_neg hs, if_neg hs']
        have htarget : ∀ {x : Option ℕ} {m m'}, Twin gen gen' m m' → Option.Rel (Twin gen gen')
            (x.bind fun x => addthread d t gen pos fuel x save m)
            (x.bind fun x => addthread d t gen' pos fuel x save m') := by
          intro x m m' hmm
          cases x with
          | none => exact .none
          | some x => exact ih hmm
        have htest : ∀ ok : Bool, Option.Rel (Twin gen gen')
            (if ok then addthread d t gen pos fuel (pc + 1) save (Function.update l.1 pc (some gen), l.2)
              else some (Function.update l.1 pc (some gen), l.2))
            (if ok then addthread d t gen' pos fuel (pc + 1) save (Function.update l'.1 pc (some gen'), l'.2)
              else some (Function.update l'.1 pc (some gen'), l'.2)) := by
          intro ok
          cases ok with
          | true => exact ih hm
          | false => exact .some hm
        have hpush : Option.Rel (Twin gen gen')
            (if l.2.length < d.prog.length then some (Function.update l.1 pc (some gen), l.2 ++ [(pc, save)]) else none)
            (if l'.2.length < d.prog.length then some (Function.update l'.1 pc (some gen'), l'.2 ++ [(pc, save)])
              else none) := by
          rw [h.list]
          split_ifs
          · exact .some ⟨rfl, hm.marks, hm.old, hm.old'⟩
          · exact .none
        cases i with
        | jmp x => exact htarget hm
        | split x y => exact rel_bind (htarget hm) fun a b hab => htarget hab
        | save slot =>
          dsimp only
          split_ifs
          · exact ih hm
          · exact ih hm
          · exact .none
        | bol => exact htest _
        | eol => exact htest _
        | word kind => exact htest _
        | _ => exact hpush

/-- Two states of the loop over the threads. -/
def TwinBest (gen gen' : ℕ) (st st' : ((ℕ → Option ℕ) × List Thread) × Option (ℕ × Saves)) : Prop :=
  Twin gen gen' st.1 st'.1 ∧ st.2 = st'.2

theorem runThread_twin {st st' : ((ℕ → Option ℕ) × List Thread) × Option (ℕ × Saves)} (fuel : ℕ)
    (h : TwinBest gen gen' st st') (th : Thread) :
    Option.Rel (TwinBest gen gen') (runThread d t fuel gen pos st th) (runThread d t fuel gen' pos st' th) := by
  obtain ⟨hl, hb⟩ := h
  have hmove : Option.Rel (TwinBest gen gen')
      ((addthread d t gen (pos + 1) fuel (th.1 + 1) th.2 st.1).map fun l => (l, st.2))
      ((addthread d t gen' (pos + 1) fuel (th.1 + 1) th.2 st'.1).map fun l => (l, st'.2)) := by
    have hadd := @addthread_twin d t _ _ (pos + 1) fuel (th.1 + 1) th.2 _ _ hl
    revert hadd
    generalize addthread d t gen (pos + 1) fuel (th.1 + 1) th.2 st.1 = r
    generalize addthread d t gen' (pos + 1) fuel (th.1 + 1) th.2 st'.1 = r'
    rintro (hab | _)
    · exact .some ⟨hab, hb⟩
    · exact .none
  have hstay : Option.Rel (TwinBest gen gen') (some st) (some st') := .some ⟨hl, hb⟩
  have htest : ∀ (p : Prop) [Decidable p], Option.Rel (TwinBest gen gen')
      (if p then (addthread d t gen (pos + 1) fuel (th.1 + 1) th.2 st.1).map fun l => (l, st.2) else some st)
      (if p then (addthread d t gen' (pos + 1) fuel (th.1 + 1) th.2 st'.1).map fun l => (l, st'.2) else some st') := by
    intro p _
    split_ifs
    · exact hmove
    · exact hstay
  unfold runThread
  cases d.prog[th.1]? with
  | none => exact .none
  | some i =>
    cases i with
    | done => exact .some ⟨hl, congrArg (longer · pos th.2) hb⟩
    | char x => exact htest _
    | any => exact htest _
    | set i =>
      dsimp only
      cases t.read pos with
      | none => exact hstay
      | some c =>
        dsimp only
        cases d.sets[i]? with
        | none => exact .none
        | some set => exact htest _
    | _ => exact hstay

theorem foldlM_runThread_twin (fuel : ℕ) : ∀ (clist : List Thread)
    {st st' : ((ℕ → Option ℕ) × List Thread) × Option (ℕ × Saves)}, TwinBest gen gen' st st' →
      Option.Rel (TwinBest gen gen') (clist.foldlM (runThread d t fuel gen pos) st)
        (clist.foldlM (runThread d t fuel gen' pos) st')
  | [], _, _, h => .some h
  | th :: clist, st, st', h => by
      rw [List.foldlM_cons, List.foldlM_cons]
      exact rel_bind (runThread_twin fuel h th) fun _ _ hab => foldlM_runThread_twin fuel clist hab

/-- Two results of the loop over `pos`: the same match, with old marks. -/
def TwinRun (r r' : ℕ × (ℕ → Option ℕ) × Option (ℕ × Saves)) : Prop :=
  r.2.2 = r'.2.2 ∧ Before (r.1 + 1) r.2.1 ∧ Before (r'.1 + 1) r'.2.1

theorem runPos_twin (depth : ℕ) : ∀ (fuel : ℕ) {pos gen gen' : ℕ} {mark mark' : ℕ → Option ℕ} (clist : List Thread)
    (best : Option (ℕ × Saves)), Before (gen + 1) mark → Before (gen' + 1) mark' →
      Option.Rel TwinRun (runPos d t depth fuel pos gen mark clist best) (runPos d t depth fuel pos gen' mark' clist best)
  | 0, _, _, _, _, _, _, _, _, _ => .none
  | fuel + 1, pos, gen, gen', mark, mark', clist, best, h, h' => by
      rw [runPos, runPos]
      by_cases hc : clist = []
      · rw [if_pos hc, if_pos hc]
        exact .some ⟨rfl, h, h'⟩
      rw [if_neg hc, if_neg hc]
      refine rel_bind (foldlM_runThread_twin depth clist ⟨Twin.fresh h h', rfl⟩) fun st st' hst => ?_
      obtain ⟨hl, hb⟩ := hst
      split_ifs with hn
      · exact .some ⟨hb, hl.old, hl.old'⟩
      · rw [hl.list, hb]
        exact runPos_twin depth fuel _ _ hl.old hl.old'

/-- One turn of the loop over `from`. -/
def runAt (d : Dfa) (t : Subject) (depth start gen : ℕ) (mark : ℕ → Option ℕ) :
    Option (ℕ × (ℕ → Option ℕ) × Option (ℕ × Saves)) :=
  (addthread d t (gen + 1) start depth 0 (noSaves d) (mark, [])).bind fun l =>
    runPos d t depth depth start (gen + 1) l.1 l.2 none

theorem runAt_twin (depth start : ℕ) {mark mark' : ℕ → Option ℕ} (h : Before (gen + 1) mark)
    (h' : Before (gen' + 1) mark') :
    Option.Rel TwinRun (runAt d t depth start gen mark) (runAt d t depth start gen' mark') := by
  refine rel_bind (addthread_twin depth (Twin.fresh h h')) fun l l' hl => ?_
  rw [hl.list]
  exact runPos_twin depth depth _ _ hl.old hl.old'

/-- What the loop over `from` does. -/
theorem runFrom_eq (anchored : Bool) (ng depth fuel start gen : ℕ) (mark : ℕ → Option ℕ) :
    runFrom d t anchored ng depth (fuel + 1) start gen mark =
      (runAt d t depth start gen mark).bind fun r =>
        match r.2.2 with
        | some best => some (some (⟨start, best.1⟩, spans d best.2 ng))
        | none =>
          if anchored || decide (t.n ≤ start) then some none
          else runFrom d t anchored ng depth fuel (start + 1) r.1 r.2.1 := by
  exact (Option.bind_assoc ..).symm

/-- **What is found from a position is found again**, whatever was tried before. -/
theorem runFrom_again (ng depth : ℕ) : ∀ (fuel : ℕ) {start gen : ℕ} {mark : ℕ → Option ℕ} {m : Span}
    {g : List (Option Span)}, Before (gen + 1) mark →
      runFrom d t false ng depth fuel start gen mark = some (some (m, g)) →
        ∃ r sv, runAt d t depth m.start 0 (fun _ => none) = some r ∧ r.2.2 = some (m.stop, sv)
  | 0, _, _, _, _, _, _, h => absurd h nofun
  | fuel + 1, start, gen, mark, m, g, hb, h => by
      rw [runFrom_eq] at h
      have htwin := @runAt_twin d t _ 0 depth start _ (fun _ => none) hb
        fun _ _ h => absurd h nofun
      revert h htwin
      generalize runAt d t depth start gen mark = x
      generalize hy : runAt d t depth start 0 (fun _ => none) = y
      intro h htwin
      cases htwin with
      | none => exact absurd h nofun
      | @some r r' hrr =>
        obtain ⟨hsame, hold, -⟩ := hrr
        rw [Option.bind_some] at h
        cases hres : r.2.2 with
        | some best =>
          rw [hres] at h
          obtain ⟨rfl, -⟩ := Prod.mk.inj (Option.some.inj (Option.some.inj h))
          exact ⟨r', best.2, hy, hsame.symm.trans hres⟩
        | none =>
          rw [hres] at h
          dsimp only at h
          split_ifs at h with hend
          · exact absurd h nofun
          · exact runFrom_again ng depth fuel hold h

/-! ## The simulation follows paths -/

/-- **`addthread` adds points that a path comes to.** -/
theorem addthread_came {start : ℕ} : ∀ (fuel : ℕ) {pc : ℕ} {save : Saves} {l l' : (ℕ → Option ℕ) × List Thread},
    Comes d t start ⟨pc, pos, save⟩ → (∀ th ∈ l.2, Comes d t start ⟨th.1, pos, th.2⟩) →
      addthread d t gen pos fuel pc save l = some l' → ∀ th ∈ l'.2, Comes d t start ⟨th.1, pos, th.2⟩
  | 0, _, _, _, _, _, _, h => absurd h (fun h => by cases h)
  | fuel + 1, pc, save, l, l', hc, hl, h => by
      have ih : ∀ {x : ℕ} {sv : Saves} {m : (ℕ → Option ℕ) × List Thread}, Goes d t ⟨pc, pos, save⟩ ⟨x, pos, sv⟩ →
          (∀ th ∈ m.2, Comes d t start ⟨th.1, pos, th.2⟩) → addthread d t gen pos fuel x sv m = some l' →
          ∀ th ∈ l'.2, Comes d t start ⟨th.1, pos, th.2⟩ :=
        fun hgo hm h => addthread_came fuel (.tail hc hgo) hm h
      rw [addthread] at h
      split at h
      · cases h
      next i hi =>
      by_cases hs : l.1 pc = some gen
      · rw [if_pos hs] at h
        exact Option.some.inj h ▸ hl
      rw [if_neg hs] at h
      have hm : ∀ th ∈ (Function.update l.1 pc (some gen), l.2).2, Comes d t start ⟨th.1, pos, th.2⟩ := hl
      have htest : ∀ ok : Bool, (ok → Goes d t ⟨pc, pos, save⟩ ⟨pc + 1, pos, save⟩) →
          (if ok then addthread d t gen pos fuel (pc + 1) save (Function.update l.1 pc (some gen), l.2)
            else some (Function.update l.1 pc (some gen), l.2)) = some l' →
          ∀ th ∈ l'.2, Comes d t start ⟨th.1, pos, th.2⟩ := by
        intro ok hgo h
        cases ok with
        | true => exact ih (hgo rfl) hm h
        | false => exact Option.some.inj h ▸ hl
      have hpush : (if l.2.length < d.prog.length then
            some (Function.update l.1 pc (some gen), l.2 ++ [(pc, save)]) else none) = some l' →
          ∀ th ∈ l'.2, Comes d t start ⟨th.1, pos, th.2⟩ := by
        intro h
        split_ifs at h
        obtain rfl := Option.some.inj h
        refine List.forall_mem_append.2 ⟨hl, ?_⟩
        exact List.forall_mem_singleton.2 hc
      cases i with
      | jmp x =>
        obtain ⟨x, rfl, h⟩ := Option.bind_eq_some_iff.1 h
        exact ih (.jmp hi) hm h
      | split x y =>
        obtain ⟨l₁, hfst, hsnd⟩ := Option.bind_eq_some_iff.1 h
        obtain ⟨x', hx, hfst⟩ := Option.bind_eq_some_iff.1 hfst
        obtain ⟨y', hy, hsnd⟩ := Option.bind_eq_some_iff.1 hsnd
        have hl₁ := addthread_came fuel (.tail hc (.split hi (.inl hx.symm))) hm hfst
        exact ih (.split hi (.inr hy.symm)) hl₁ hsnd
      | save slot =>
        dsimp only at h
        split_ifs at h with h0 hslot
        · have hnil : save = [] := List.eq_nil_of_length_eq_zero (by rw [hc.length, h0])
          subst hnil
          exact ih (.save hi) hm h
        · exact ih (.save hi) hm h
      | bol => exact htest _ (fun hok => .bol hi hok) h
      | eol => exact htest _ (fun hok => .eol hi hok) h
      | word kind => exact htest _ (fun hok => .word hi hok) h
      | _ => exact hpush h

/-- **A thread moves on along its path**, or ends it. -/
theorem runThread_came {start fuel : ℕ} {st st' : ((ℕ → Option ℕ) × List Thread) × Option (ℕ × Saves)} {th : Thread}
    (hth : Comes d t start ⟨th.1, pos, th.2⟩) (hl : ∀ th ∈ st.1.2, Comes d t start ⟨th.1, pos + 1, th.2⟩)
    (hb : ∀ b ∈ st.2, Accepts d t start b.1 b.2) (h : runThread d t fuel gen pos st th = some st') :
    (∀ th ∈ st'.1.2, Comes d t start ⟨th.1, pos + 1, th.2⟩) ∧ ∀ b ∈ st'.2, Accepts d t start b.1 b.2 := by
  have hmove : reads d t pos th.1 →
      ((addthread d t gen (pos + 1) fuel (th.1 + 1) th.2 st.1).map fun l => (l, st.2)) = some st' →
      (∀ th ∈ st'.1.2, Comes d t start ⟨th.1, pos + 1, th.2⟩) ∧ ∀ b ∈ st'.2, Accepts d t start b.1 b.2 := by
    intro hread h
    obtain ⟨l, hadd, rfl⟩ := Option.map_eq_some_iff.1 h
    exact ⟨addthread_came fuel (.tail hth (goes_of_reads hread)) hl hadd, hb⟩
  have hstay : some st = some st' →
      (∀ th ∈ st'.1.2, Comes d t start ⟨th.1, pos + 1, th.2⟩) ∧ ∀ b ∈ st'.2, Accepts d t start b.1 b.2 := fun h =>
    Option.some.inj h ▸ ⟨hl, hb⟩
  rw [runThread] at h
  cases hi : d.prog[th.1]? with
  | none =>
    rw [hi] at h
    cases h
  | some i =>
    rw [hi] at h
    cases i with
    | done =>
      obtain rfl := Option.some.inj h
      refine ⟨hl, fun b hmem => ?_⟩
      have hnew : b = (pos, th.2) ∨ b ∈ st.2 := by
        cases hbest : st.2 with
        | none =>
          rw [hbest] at hmem
          exact .inl (Option.some.inj hmem).symm
        | some b' =>
          rw [hbest, longer] at hmem
          split_ifs at hmem
          · exact .inl (Option.some.inj hmem).symm
          · exact .inr hmem
      rcases hnew with rfl | hold
      · exact ⟨th.1, hi, hth⟩
      · exact hb b hold
    | char x =>
      dsimp only at h
      split_ifs at h with hread
      · exact hmove (by simp [reads, hi, hread]) h
      · exact hstay h
    | any =>
      dsimp only at h
      split_ifs at h with hread
      · obtain ⟨c, hc⟩ := Option.isSome_iff_exists.1 hread
        exact hmove (by simp [reads, hi, hc]) h
      · exact hstay h
    | set i =>
      cases hc : t.read pos with
      | none =>
        simp only [hc] at h
        exact hstay h
      | some c =>
        simp only [hc] at h
        obtain ⟨set, hset, h⟩ := Option.bind_eq_some_iff.1 h
        split_ifs at h with hhas
        · exact hmove (by simp [reads, hi, hc, hset, hhas]) h
        · exact hstay h
    | _ => exact hstay h

theorem foldlM_runThread_came {start fuel : ℕ} : ∀ (clist : List Thread)
    {st st' : ((ℕ → Option ℕ) × List Thread) × Option (ℕ × Saves)},
    (∀ th ∈ clist, Comes d t start ⟨th.1, pos, th.2⟩) → (∀ th ∈ st.1.2, Comes d t start ⟨th.1, pos + 1, th.2⟩) →
      (∀ b ∈ st.2, Accepts d t start b.1 b.2) → clist.foldlM (runThread d t fuel gen pos) st = some st' →
        (∀ th ∈ st'.1.2, Comes d t start ⟨th.1, pos + 1, th.2⟩) ∧ ∀ b ∈ st'.2, Accepts d t start b.1 b.2
  | [], st, st', _, hl, hb, h => Option.some.inj h ▸ ⟨hl, hb⟩
  | th :: clist, st, st', hc, hl, hb, h => by
      rw [List.foldlM_cons] at h
      obtain ⟨st₁, h₁, h⟩ := Option.bind_eq_some_iff.1 h
      obtain ⟨hl₁, hb₁⟩ := runThread_came (hc th List.mem_cons_self) hl hb h₁
      exact foldlM_runThread_came clist (fun th' h' => hc th' (List.mem_cons_of_mem _ h')) hl₁ hb₁ h

/-- **What the loop over `pos` finds is a match.** -/
theorem runPos_accepts {start depth : ℕ} : ∀ (fuel : ℕ) {pos gen : ℕ} {mark : ℕ → Option ℕ} {clist : List Thread}
    {best : Option (ℕ × Saves)} {r : ℕ × (ℕ → Option ℕ) × Option (ℕ × Saves)},
    (∀ th ∈ clist, Comes d t start ⟨th.1, pos, th.2⟩) → (∀ b ∈ best, Accepts d t start b.1 b.2) →
      runPos d t depth fuel pos gen mark clist best = some r → ∀ b ∈ r.2.2, Accepts d t start b.1 b.2
  | 0, _, _, _, _, _, _, _, _, h => absurd h nofun
  | fuel + 1, pos, gen, mark, clist, best, r, hc, hb, h => by
      rw [runPos] at h
      by_cases hnil : clist = []
      · rw [if_pos hnil] at h
        exact Option.some.inj h ▸ hb
      rw [if_neg hnil] at h
      obtain ⟨st, hst, h⟩ := Option.bind_eq_some_iff.1 h
      obtain ⟨hl', hb'⟩ := foldlM_runThread_came clist hc (fun _ h => absurd h List.not_mem_nil) hb hst
      split_ifs at h with hn
      · exact Option.some.inj h ▸ hb'
      · exact runPos_accepts fuel hl' hb' h

theorem runAt_accepts {depth start gen : ℕ} {mark : ℕ → Option ℕ} {r : ℕ × (ℕ → Option ℕ) × Option (ℕ × Saves)}
    (h : runAt d t depth start gen mark = some r) : ∀ b ∈ r.2.2, Accepts d t start b.1 b.2 := by
  obtain ⟨l, hl, h⟩ := Option.bind_eq_some_iff.1 h
  have hnone : ∀ b ∈ (none : Option (ℕ × Saves)), Accepts d t start b.1 b.2 := fun b hb => by simp at hb
  exact runPos_accepts depth (addthread_came depth .refl (fun _ h => absurd h List.not_mem_nil) hl) hnone h

/-! ## The second run -/

/-- The backtracker finds from a position what it found there before. -/
theorem dfaBtRun_again {ng : ℕ} : ∀ (fuel : ℕ) {start : ℕ} {m : Span} {g : List (Option Span)},
    dfaBtRun d t false ng fuel start = some (some (m, g)) → 0 < fuel ∧ ∃ sv, btMatch d t m.start = some (some (m.stop, sv))
  | 0, _, _, _, h => absurd h nofun
  | fuel + 1, start, m, g, h => by
      rw [dfaBtRun] at h
      refine ⟨Nat.succ_pos fuel, ?_⟩
      split at h
      · exact absurd h nofun
      · next r hr =>
        obtain ⟨rfl, -⟩ := Prod.mk.inj (Option.some.inj (Option.some.inj h))
        exact ⟨r.2, hr⟩
      · split_ifs at h
        · exact absurd h nofun
        · exact (dfaBtRun_again fuel h).2

/-- **The run from where the match starts ends where it ends**, on a path with these slots. -/
theorem submatch_again {start fuel : ℕ} {m : Span} (h : dfaSearch d t start fuel = some (some m)) (ng : ℕ) :
    ∃ sv, Accepts d t m.start m.stop sv ∧ dfaSubmatch d t m ng fuel = some (true, some (spans d sv ng)) := by
  unfold dfaSearch at h
  obtain ⟨r, hrun, hr⟩ := Option.map_eq_some_iff.1 h
  obtain ⟨⟨m', g⟩, rfl, rfl⟩ := Option.map_eq_some_iff.1 hr
  unfold dfaSubmatch
  cases hback : d.hasBackref with
  | true =>
    rw [hback, if_pos rfl] at hrun
    obtain ⟨hpos, sv, hmatch⟩ := dfaBtRun_again fuel hrun
    obtain ⟨k, rfl⟩ : ∃ k, fuel = k + 1 := ⟨fuel - 1, by omega⟩
    refine ⟨sv, btLoop_accepts _ .init hmatch, ?_⟩
    simp [dfaBtRun, hmatch]
  | false =>
    rw [hback, if_neg Bool.false_ne_true, dfaRun] at hrun
    split_ifs at hrun with hempty
    · cases hrun
    obtain ⟨r, sv, hat, hres⟩ := runFrom_again 0 fuel fuel (fun _ _ h => by simp at h) hrun
    obtain ⟨k, rfl⟩ : ∃ k, fuel = k + 1 := by
      cases fuel with
      | zero => cases hrun
      | succ k => exact ⟨k, rfl⟩
    refine ⟨sv, runAt_accepts hat _ hres, ?_⟩
    rw [if_neg Bool.false_ne_true, dfaRun, if_neg hempty, runFrom_eq, hat, Option.bind_some, hres]
    simp

example : dfaSubmatch compiledSample ⟨fun k => ['a', 'b', 'c'].getD k ' ', 3, false⟩ ⟨0, 3⟩ 2 14 =
    some (true, some [some ⟨1, 2⟩, none]) := by decide +kernel

end Dfa

end Shish
