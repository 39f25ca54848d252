import Shish.Dfa.Backtrack
import Shish.Dfa.Groups

/-!
# Dfa/Captures — the slots of the groups along a path

In a compiled program the slots of a group that is closed are in order.  Those of a group that is open
are not: its start is new, and its end, if it has one, is from the time before (`SlotsRight`).  A
back-reference that is not inside its own group therefore finds an end that is not in front of the
start, and one that is inside finds so only if nothing was read since the group was last closed
(`backref_ordered_iff`).
-/

namespace Shish

namespace Dfa
variable {d : Dfa} {t : Subject}

/-! ## Along a path -/

/-- **The slots at a point**, `o` being the groups that are open there. -/
structure SlotsRight (start pos : ℕ) (o : Set ℕ) (sv : Saves) : Prop where
  opened : ∀ g ∈ o, ∀ s, sv[2 * g]? = some (some s) →
    start ≤ s ∧ s ≤ pos ∧ ∀ e, sv[2 * g + 1]? = some (some e) → e ≤ s
  closed : ∀ g, g ∉ o → ∀ s, sv[2 * g]? = some (some s) →
    start ≤ s ∧ ∀ e, sv[2 * g + 1]? = some (some e) → s ≤ e
  ended : ∀ g e, sv[2 * g + 1]? = some (some e) → start ≤ e ∧ e ≤ pos

variable {start pos : ℕ} {o : Set ℕ} {sv : Saves}

theorem SlotsRight.mono {pos' : ℕ} (h : SlotsRight start pos o sv) (hp : pos ≤ pos') :
    SlotsRight start pos' o sv where
  opened g hg s hs := by
    obtain ⟨h1, h2, h3⟩ := h.opened g hg s hs
    exact ⟨h1, Nat.le_trans h2 hp, h3⟩
  closed := h.closed
  ended g e he := ⟨(h.ended g e he).1, Nat.le_trans (h.ended g e he).2 hp⟩

/-- What a slot has behind a `SAVE`. -/
theorem getElem?_set_some {slot k x : ℕ} {new : Option ℕ} (h : (sv.set slot new)[k]? = some (some x)) :
    k = slot ∧ new = some x ∨ k ≠ slot ∧ sv[k]? = some (some x) := by
  rw [List.getElem?_set] at h
  split_ifs at h with hk hlt
  · exact .inl ⟨hk.symm, Option.some.inj h⟩
  · exact .inr ⟨Ne.symm hk, h⟩

/-- **A `SAVE`**: a group is opened anew, or closed. -/
theorem SlotsRight.save (h : SlotsRight start pos o sv) (hle : start ≤ pos) {slot : ℕ}
    (hfits : (Inst.save slot).fits o) : SlotsRight start pos ((Inst.save slot).after o) (sv.set slot (some pos)) := by
  by_cases hs : slot % 2 = 0
  · obtain ⟨g, rfl⟩ : ∃ g, slot = 2 * g := ⟨slot / 2, by omega⟩
    have hafter : (Inst.save (2 * g)).after o = insert g o := by simp [Inst.after]
    rw [hafter]
    refine ⟨fun i hi s h1 => ?_, fun i hi s h1 => ?_, fun i e h1 => ?_⟩
    · rcases getElem?_set_some h1 with ⟨hig, hnew⟩ | ⟨hne, hold⟩
      · obtain rfl := Option.some.inj hnew
        refine ⟨hle, Nat.le_refl _, fun e h2 => ?_⟩
        rcases getElem?_set_some h2 with ⟨h3, -⟩ | ⟨-, h3⟩
        · omega
        · exact (h.ended i e h3).2
      · have hio : i ∈ o := (Set.mem_insert_iff.1 hi).resolve_left fun hig => hne (by rw [hig])
        obtain ⟨h2, h3, h4⟩ := h.opened i hio s hold
        refine ⟨h2, h3, fun e h5 => ?_⟩
        rcases getElem?_set_some h5 with ⟨h6, -⟩ | ⟨-, h6⟩
        · omega
        · exact h4 e h6
    · rw [Set.mem_insert_iff, not_or] at hi
      rcases getElem?_set_some h1 with ⟨hig, -⟩ | ⟨-, hold⟩
      · exact absurd (by omega) hi.1
      · obtain ⟨h2, h3⟩ := h.closed i hi.2 s hold
        refine ⟨h2, fun e h5 => ?_⟩
        rcases getElem?_set_some h5 with ⟨h6, -⟩ | ⟨-, h6⟩
        · omega
        · exact h3 e h6
    · rcases getElem?_set_some h1 with ⟨h2, -⟩ | ⟨-, h2⟩
      · omega
      · exact h.ended i e h2
  · obtain ⟨g, rfl⟩ : ∃ g, slot = 2 * g + 1 := ⟨slot / 2, by omega⟩
    have hslot : (2 * g + 1) / 2 = g := by omega
    have hopen : g ∈ o := by rwa [Inst.fits, if_neg hs, hslot] at hfits
    rw [Inst.after, if_neg hs, hslot]
    refine ⟨fun i hi s h1 => ?_, fun i hi s h1 => ?_, fun i e h1 => ?_⟩
    · rcases getElem?_set_some h1 with ⟨h2, -⟩ | ⟨-, hold⟩
      · omega
      · obtain ⟨h2, h3, h4⟩ := h.opened i hi.1 s hold
        refine ⟨h2, h3, fun e h5 => ?_⟩
        rcases getElem?_set_some h5 with ⟨h6, -⟩ | ⟨-, h6⟩
        · exact absurd (by omega : i = g) hi.2
        · exact h4 e h6
    · rcases getElem?_set_some h1 with ⟨h2, -⟩ | ⟨-, hold⟩
      · omega
      · by_cases hig : i = g
        · subst hig
          obtain ⟨h2, h3, -⟩ := h.opened i hopen s hold
          refine ⟨h2, fun e h5 => ?_⟩
          rcases getElem?_set_some h5 with ⟨-, h6⟩ | ⟨h6, -⟩
          · exact Option.some.inj h6 ▸ h3
          · exact absurd rfl h6
        · have hio : i ∉ o := fun hmem => hi ⟨hmem, hig⟩
          obtain ⟨h2, h3⟩ := h.closed i hio s hold
          refine ⟨h2, fun e h5 => ?_⟩
          rcases getElem?_set_some h5 with ⟨h6, -⟩ | ⟨-, h6⟩
          · exact absurd (by omega) hig
          · exact h3 e h6
    · rcases getElem?_set_some h1 with ⟨-, h2⟩ | ⟨-, h2⟩
      · obtain rfl := Option.some.inj h2
        exact ⟨hle, Nat.le_refl _⟩
      · exact h.ended i e h2

/-- Where an instruction of a path goes on. -/
theorem Goes.inst {p p' : Point} (h : Goes d t p p') :
    ∃ i, d.prog[p.pc]? = some i ∧ some p'.pc ∈ i.next p.pc ∧
      (p'.save = p.save ∧ (∀ o, i.after o = o) ∨ ∃ slot, i = .save slot ∧ p'.save = p.save.set slot (some p.pos)) := by
  cases h with
  | jmp hi => exact ⟨_, hi, by simp [Inst.next], .inl ⟨rfl, fun _ => rfl⟩⟩
  | split hi hz => exact ⟨_, hi, by simpa [Inst.next] using hz, .inl ⟨rfl, fun _ => rfl⟩⟩
  | save hi => exact ⟨_, hi, by simp [Inst.next], .inr ⟨_, rfl, rfl⟩⟩
  | bol hi => exact ⟨_, hi, by simp [Inst.next], .inl ⟨rfl, fun _ => rfl⟩⟩
  | eol hi => exact ⟨_, hi, by simp [Inst.next], .inl ⟨rfl, fun _ => rfl⟩⟩
  | word hi => exact ⟨_, hi, by simp [Inst.next], .inl ⟨rfl, fun _ => rfl⟩⟩
  | char hi => exact ⟨_, hi, by simp [Inst.next], .inl ⟨rfl, fun _ => rfl⟩⟩
  | any hi => exact ⟨_, hi, by simp [Inst.next], .inl ⟨rfl, fun _ => rfl⟩⟩
  | set hi => exact ⟨_, hi, by simp [Inst.next], .inl ⟨rfl, fun _ => rfl⟩⟩
  | backref hi => exact ⟨_, hi, by simp [Inst.next], .inl ⟨rfl, fun _ => rfl⟩⟩

theorem noSaves_get (k : ℕ) (x : ℕ) : (noSaves d)[k]? ≠ some (some x) := by
  rw [noSaves, List.getElem?_replicate]
  split_ifs <;> simp

/-- **The slots are right wherever a path comes to.** -/
theorem Comes.slots {lab : ℕ → Set ℕ} (hp : Places d.prog lab) {p : Point} (h : Comes d t start p) :
    SlotsRight start p.pos (lab p.pc) p.save := by
  induction h with
  | refl => exact ⟨fun g _ s hs => absurd hs (noSaves_get _ _), fun g _ s hs => absurd hs (noSaves_get _ _),
      fun g e he => absurd he (noSaves_get _ _)⟩
  | @tail q p hq hgo ih =>
    obtain ⟨i, hi, hnext, hsave⟩ := hgo.inst
    obtain ⟨-, hlab⟩ := hp.goes q.pc i hi p.pc hnext
    rw [hlab]
    rcases hsave with ⟨hsame, hafter⟩ | ⟨slot, rfl, hset⟩
    · rw [hafter, hsame]
      exact ih.mono hgo.le
    · rw [hset]
      exact (ih.save (Comes.le hq) (hp.fits q.pc _ hi)).mono hgo.le

/-! ## Back-references -/

/-- **The point `pc` is inside group `g`**: it can be come to from where the group is opened, and the
group is not closed on the way. -/
def Within (d : Dfa) (g pc : ℕ) : Prop :=
  ∃ pc₀, d.prog[pc₀]? = some (.save (2 * g)) ∧
    Relation.ReflTransGen (fun a b => ∃ i, d.prog[a]? = some i ∧ i ≠ .save (2 * g + 1) ∧ some b ∈ i.next a)
      (pc₀ + 1) pc

theorem Within.mem {lab : ℕ → Set ℕ} (hp : Places d.prog lab) {g pc : ℕ} (h : Within d g pc) : g ∈ lab pc := by
  obtain ⟨pc₀, hopen, hpath⟩ := h
  induction hpath with
  | refl =>
    obtain ⟨-, hlab⟩ := hp.goes pc₀ _ hopen (pc₀ + 1) (by simp [Inst.next])
    rw [hlab]
    simp [Inst.after]
  | @tail a b _ hstep ih =>
    obtain ⟨i, hi, hne, hnext⟩ := hstep
    obtain ⟨-, hlab⟩ := hp.goes a i hi b hnext
    rw [hlab]
    cases i with
    | save slot =>
      rw [Inst.after]
      split_ifs with heven
      · exact Set.mem_insert_of_mem _ ih
      · exact ⟨ih, fun hg => hne (congrArg Inst.save (by have : g = slot / 2 := hg; omega))⟩
    | _ => exact ih

/-- A path that comes to a point with an open group has opened it, and has not closed it since. -/
theorem Comes.within {lab : ℕ → Set ℕ} (hp : Places d.prog lab) (h0 : lab 0 = ∅) {p : Point}
    (h : Comes d t start p) {g : ℕ} (hg : g ∈ lab p.pc) : Within d g p.pc := by
  induction h with
  | refl =>
    have hg : g ∈ lab 0 := hg
    rw [h0] at hg
    exact absurd hg (Set.notMem_empty g)
  | @tail q p hq hgo ih =>
    obtain ⟨i, hi, hnext, -⟩ := hgo.inst
    obtain ⟨-, hlab⟩ := hp.goes q.pc i hi p.pc hnext
    rw [hlab] at hg
    have hstep : i ≠ .save (2 * g + 1) → g ∈ lab q.pc → Within d g p.pc := fun hne hmem => by
      obtain ⟨pc₀, hopen, hpath⟩ := ih hmem
      exact ⟨pc₀, hopen, .tail hpath ⟨i, hi, hne, hnext⟩⟩
    cases i with
    | save slot =>
      have hp1 : p.pc = q.pc + 1 := by simpa [Inst.next] using hnext
      rw [Inst.after] at hg
      split_ifs at hg with heven
      · rcases Set.mem_insert_iff.1 hg with rfl | hmem
        · refine ⟨q.pc, ?_, hp1 ▸ .refl⟩
          rw [hi]
          congr 2
          omega
        · refine hstep (fun he => ?_) hmem
          have : slot = 2 * g + 1 := Inst.save.inj he
          omega
      · refine hstep (fun he => hg.2 ?_) hg.1
        have : slot = 2 * g + 1 := Inst.save.inj he
        exact (by omega : g = slot / 2)
    | _ => exact hstep (fun h => by cases h) hg

/-- **The slots a back-reference reads**: they are in order if it is outside of its group, and inside of
it exactly if they are the same. -/
theorem backref_ordered_iff {lab : ℕ → Set ℕ} (hp : Places d.prog lab) (h0 : lab 0 = ∅) {p : Point}
    (h : Comes d t start p) {g s e : ℕ} (hs : p.save[2 * g]? = some (some s))
    (he : p.save[2 * g + 1]? = some (some e)) : s ≤ e ∧ e ≤ p.pos ↔ ¬Within d g p.pc ∨ s = e := by
  have hslots := h.slots hp
  have hend := (hslots.ended g e he).2
  by_cases hg : g ∈ lab p.pc
  · have hle := (hslots.opened g hg s hs).2.2 e he
    have hin : Within d g p.pc := h.within hp h0 hg
    constructor
    · exact fun hord => .inr (Nat.le_antisymm hord.1 hle)
    · rintro (hno | rfl)
      · exact absurd hin hno
      · exact ⟨Nat.le_refl _, hend⟩
  · have hle := (hslots.closed g hg s hs).2 e he
    exact ⟨fun _ => .inl fun hin => hg (hin.mem hp), fun _ => ⟨hle, hend⟩⟩

end Dfa

end Shish
