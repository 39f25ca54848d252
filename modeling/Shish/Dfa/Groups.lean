import Mathlib
import Shish.Dfa.Compiled

/-!
# Dfa/Groups — where a group is open in a compiled program

The compiler brackets the code of a group between the two `SAVE`s of its slots, and no jump crosses
them: to every point of the program belongs a set of open groups, which a path from anywhere agrees
with (`Places`).  Insertions move the points, and a group that is compiled again is open at the new
points in the same way.  `compiled_places` gives the sets for a compiled program.
-/

namespace Shish

/-! ## Open groups -/

namespace Inst

/-- The groups that are open behind an instruction; slot `2 * g` opens group `g`, the next one closes
it. -/
def after : Inst → Set ℕ → Set ℕ
  | save slot, o => if slot % 2 = 0 then insert (slot / 2) o else o \ {slot / 2}
  | _, o => o

/-- A group is opened when it is not open and closed when it is, and none is open at the end. -/
def fits : Inst → Set ℕ → Prop
  | save slot, o => if slot % 2 = 0 then slot / 2 ∉ o else slot / 2 ∈ o
  | done, o => o = ∅
  | _, _ => True

theorem after_shift (pos : ℕ) (i : Inst) (o : Set ℕ) : (i.shift pos).after o = i.after o := by
  cases i <;> rfl

theorem fits_shift (pos : ℕ) (i : Inst) (o : Set ℕ) : (i.shift pos).fits o ↔ i.fits o := by
  cases i <;> rfl

/-- Where an instruction that has moved goes on. -/
theorem some_mem_next_shift {pos pc pc' t' : ℕ} {i : Inst}
    (hpc : pc' = if pos ≤ pc then pc + 1 else pc) (h : some t' ∈ (i.shift pos).next pc') :
    ∃ t, some t ∈ i.next pc ∧ (t' = if pos < t then t + 1 else t) := by
  have hone : ∀ {x : Option ℕ}, some t' = shiftTarget pos x →
      ∃ t, x = some t ∧ (t' = if pos < t then t + 1 else t) := fun {x} hx => by
    obtain ⟨t, rfl, ht⟩ := Option.map_eq_some_iff.1 hx.symm
    exact ⟨t, rfl, ht.symm⟩
  cases i with
  | split x y =>
    rcases List.mem_cons.1 h with hx | hy
    · obtain ⟨t, rfl, ht⟩ := hone hx
      exact ⟨t, List.mem_cons_self .., ht⟩
    · obtain ⟨t, rfl, ht⟩ := hone (List.mem_singleton.1 hy)
      exact ⟨t, List.mem_cons_of_mem _ (List.mem_singleton.2 rfl), ht⟩
  | jmp x =>
    obtain ⟨t, rfl, ht⟩ := hone (List.mem_singleton.1 h)
    exact ⟨t, List.mem_singleton.2 rfl, ht⟩
  | done => exact absurd h List.not_mem_nil
  | _ =>
    refine ⟨pc + 1, List.mem_singleton.2 rfl, ?_⟩
    have ht' : t' = pc' + 1 := Option.some.inj (List.mem_singleton.1 h)
    split_ifs at hpc ⊢ <;> omega

end Inst

/-- **The open groups at every point of a program**, its end included. -/
structure Places (prog : List Inst) (lab : ℕ → Set ℕ) : Prop where
  fits : ∀ (pc : ℕ) (i : Inst), prog[pc]? = some i → i.fits (lab pc)
  goes : ∀ (pc : ℕ) (i : Inst), prog[pc]? = some i → ∀ t, some t ∈ i.next pc →
    t ≤ prog.length ∧ lab t = i.after (lab pc)

namespace Places

variable {prog : List Inst} {lab : ℕ → Set ℕ}

/-- An instruction behind the program. -/
theorem emit (h : Places prog lab) {i : Inst} (hfits : i.fits (lab prog.length))
    (ht : ∀ t, some t ∈ i.targets → t ≤ prog.length ∧ lab t = lab prog.length) :
    Places (prog ++ [i]) fun k => if k ≤ prog.length then lab k else i.after (lab prog.length) := by
  have hlen : (prog ++ [i]).length = prog.length + 1 := List.length_append
  refine ⟨fun pc j hj => ?_, fun pc j hj t hjt => ?_⟩
  all_goals
    rcases Nat.lt_or_ge pc prog.length with hlt | hge
    · rw [List.getElem?_append_left hlt] at hj
      simp only [if_pos hlt.le]
      first
      | exact h.fits pc j hj
      | obtain ⟨hle, heq⟩ := h.goes pc j hj t hjt
        rw [if_pos hle]
        exact ⟨by omega, heq⟩
    · obtain rfl : pc = prog.length := by
        have := (List.getElem?_eq_some_iff.1 hj).1
        omega
      rw [List.getElem?_append_right (Nat.le_refl _), Nat.sub_self] at hj
      obtain rfl : i = j := Option.some.inj hj
      simp only [if_pos (Nat.le_refl _)]
      first
      | exact hfits
      | rcases Inst.mem_next hjt with hjt' | ⟨hjt', -⟩
        · obtain ⟨hle, heq⟩ := ht t hjt'
          rw [if_pos hle, heq]
          refine ⟨by omega, ?_⟩
          cases i <;> first | rfl | exact absurd hjt' List.not_mem_nil
        · obtain rfl := Option.some.inj hjt'
          rw [if_neg (by omega)]
          exact ⟨by omega, rfl⟩

/-- The points behind an insertion. -/
def moveUp (b : ℕ) (lab : ℕ → Set ℕ) (k : ℕ) : Set ℕ := if k ≤ b then lab k else lab (k - 1)

theorem moveUp_target (b : ℕ) (lab : ℕ → Set ℕ) (t : ℕ) :
    moveUp b lab (if b < t then t + 1 else t) = lab t := by
  split_ifs with h
  · rw [moveUp, if_neg (by omega), Nat.add_sub_cancel]
  · rw [moveUp, if_pos (by omega)]

/-- **An insertion**, of an instruction that goes on behind itself. -/
theorem insert (h : Places prog lab) {b : ℕ} (hb : b ≤ prog.length) :
    Places ((prog.take b).map (Inst.shift b) ++ .split (some (b + 1)) none :: (prog.drop b).map (Inst.shift b))
      (moveUp b lab) := by
  have hlen : ((prog.take b).map (Inst.shift b) ++
      .split (some (b + 1)) none :: (prog.drop b).map (Inst.shift b)).length = prog.length + 1 := by
    simp
    omega
  have htake : ((prog.take b).map (Inst.shift b)).length = b := by simp [hb]
  -- an instruction of the new program is the one that is put in, or an old one
  have hget : ∀ pc i, ((prog.take b).map (Inst.shift b) ++
      .split (some (b + 1)) none :: (prog.drop b).map (Inst.shift b))[pc]? = some i →
      pc = b ∧ i = .split (some (b + 1)) none ∨ ∃ o j, prog[o]? = some j ∧ i = j.shift b ∧
        pc = if b ≤ o then o + 1 else o := by
    intro pc i hi
    rcases Nat.lt_trichotomy pc b with hlt | rfl | hgt
    · rw [List.getElem?_append_left (by omega), List.getElem?_map, List.getElem?_take_of_lt hlt] at hi
      obtain ⟨j, hj, rfl⟩ := Option.map_eq_some_iff.1 hi
      exact .inr ⟨pc, j, hj, rfl, by rw [if_neg (by omega)]⟩
    · rw [List.getElem?_append_right (by omega), htake, Nat.sub_self] at hi
      exact .inl ⟨rfl, (Option.some.inj hi).symm⟩
    · rw [List.getElem?_append_right (by omega), htake] at hi
      obtain ⟨k, rfl⟩ : ∃ k, pc = b + k + 1 := ⟨pc - b - 1, by omega⟩
      rw [show b + k + 1 - b = k + 1 by omega, List.getElem?_cons_succ, List.getElem?_map,
        List.getElem?_drop] at hi
      obtain ⟨j, hj, rfl⟩ := Option.map_eq_some_iff.1 hi
      exact .inr ⟨b + k, j, hj, rfl, by rw [if_pos (by omega)]⟩
  have hlab : ∀ o, moveUp b lab (if b ≤ o then o + 1 else o) = lab o := by
    intro o
    split_ifs with ho
    · rw [moveUp, if_neg (by omega), Nat.add_sub_cancel]
    · rw [moveUp, if_pos (by omega)]
  refine ⟨fun pc i hi => ?_, fun pc i hi t ht => ?_⟩
  · rcases hget pc i hi with ⟨rfl, rfl⟩ | ⟨o, j, hj, rfl, rfl⟩
    · trivial
    · rw [hlab, Inst.fits_shift]
      exact h.fits o j hj
  · rw [hlen]
    rcases hget pc i hi with ⟨rfl, rfl⟩ | ⟨o, j, hj, rfl, hpc⟩
    · obtain rfl : t = pc + 1 := by simpa [Inst.next] using ht
      refine ⟨by omega, ?_⟩
      rw [moveUp, if_neg (by omega), Nat.add_sub_cancel, moveUp, if_pos (Nat.le_refl _)]
      rfl
    · obtain ⟨u, hu, rfl⟩ := Inst.some_mem_next_shift hpc ht
      obtain ⟨hle, heq⟩ := h.goes o j hj u hu
      refine ⟨by split_ifs <;> omega, ?_⟩
      rw [moveUp_target, hpc, hlab, Inst.after_shift, heq]

/-- **A target is filled in.** -/
theorem modify (h : Places prog lab) {pc t : ℕ} {f : Inst → Inst} (hle : t ≤ prog.length)
    (hlab : lab t = lab pc) (hf : ∀ i, prog[pc]? = some i → f i = i ∨
      (∀ o, (f i).fits o ∧ (f i).after o = o ∧ i.after o = o) ∧
        ∀ x, some x ∈ (f i).next pc → some x ∈ i.next pc ∨ x = t) :
    Places (prog.modify pc f) lab := by
  have hget : ∀ k i, (prog.modify pc f)[k]? = some i → prog[k]? = some i ∨
      k = pc ∧ ∃ j, prog[pc]? = some j ∧ i = f j ∧ f j ≠ j := by
    intro k i hi
    rw [List.getElem?_modify] at hi
    obtain ⟨j, hj, hi⟩ := Option.map_eq_some_iff.1 hi
    by_cases hk : pc = k
    · subst hk
      rw [if_pos rfl] at hi
      by_cases hfj : f j = j
      · exact .inl (by rw [hj, ← hi, hfj])
      · exact .inr ⟨rfl, j, hj, hi.symm, hfj⟩
    · rw [if_neg hk] at hi
      exact .inl (hi ▸ hj)
  refine ⟨fun k i hi => ?_, fun k i hi x hx => ?_⟩
  · rcases hget k i hi with hi | ⟨rfl, j, hj, rfl, hne⟩
    · exact h.fits k i hi
    · exact (((hf j hj).resolve_left hne).1 _).1
  · rw [List.length_modify]
    rcases hget k i hi with hi | ⟨rfl, j, hj, rfl, hne⟩
    · exact h.goes k i hi x hx
    · obtain ⟨hsame, hto⟩ := (hf j hj).resolve_left hne
      obtain ⟨-, hafter, hafter'⟩ := hsame (lab k)
      rcases hto x hx with hx | rfl
      · obtain ⟨h1, h2⟩ := h.goes k j hj x hx
        exact ⟨h1, by rw [h2, hafter, hafter']⟩
      · exact ⟨hle, by rw [hafter, hlab]⟩

theorem setX (h : Places prog lab) {pc t : ℕ} (hle : t ≤ prog.length) (hlab : lab t = lab pc) :
    Places (prog.modify pc (Inst.setX t)) lab := by
  refine h.modify hle hlab fun i _ => ?_
  cases i with
  | split x y => exact .inr ⟨fun o => ⟨trivial, rfl, rfl⟩, fun z hz => by simp_all [Inst.setX, Inst.next]; tauto⟩
  | jmp x => exact .inr ⟨fun o => ⟨trivial, rfl, rfl⟩, fun z hz => by simp_all [Inst.setX, Inst.next]⟩
  | _ => exact .inl rfl

theorem setY (h : Places prog lab) {pc t : ℕ} (hle : t ≤ prog.length) (hlab : lab t = lab pc) :
    Places (prog.modify pc (Inst.setY t)) lab := by
  refine h.modify hle hlab fun i _ => ?_
  cases i with
  | split x y => exact .inr ⟨fun o => ⟨trivial, rfl, rfl⟩, fun z hz => by simp_all [Inst.setY, Inst.next]; tauto⟩
  | _ => exact .inl rfl

end Places

/-! ## What the compiler keeps -/

namespace DfaParser

/-- **The points of the program so far**, and whether a back-reference is known of. -/
structure Tracked (ps : DfaParser) (lab : ℕ → Set ℕ) : Prop where
  places : Places ps.prog lab
  refs : ps.hasBackref = false → ∀ g, Inst.backref g ∉ ps.prog

/-- Code is added, and the points there are keep their open groups. -/
structure Extends (ps : DfaParser) (lab : ℕ → Set ℕ) (ps' : DfaParser) (lab' : ℕ → Set ℕ) : Prop where
  tracked : ps'.Tracked lab'
  agree : ∀ k ≤ ps.prog.length, lab' k = lab k
  length_le : ps.prog.length ≤ ps'.prog.length
  pos_le : ps.pos ≤ ps'.pos
  gsrc : ps.gsrc <+: ps'.gsrc

/-- **The same, and all groups that were opened are closed again.** -/
structure Keeps (ps : DfaParser) (lab : ℕ → Set ℕ) (ps' : DfaParser) (lab' : ℕ → Set ℕ) : Prop
    extends Extends ps lab ps' lab' where
  stays : lab' ps'.prog.length = lab ps.prog.length

/-- The open groups were opened in front of `pos`. -/
def OpenBefore (gsrc : List ℕ) (pos : ℕ) (o : Set ℕ) : Prop := ∀ g ∈ o, ∃ src, gsrc[g]? = some src ∧ src < pos

/-- Some result keeps what it is asked to. -/
abbrev KeepsFrom (ps : DfaParser) (lab : ℕ → Set ℕ) (r : Except DfaErr DfaParser) : Prop :=
  Meets (fun _ => False) r fun ps' => ∃ lab', ps.Keeps lab ps' lab'

/-- What is asked of a part of the compiler. -/
abbrev KeepsSpec (f : DfaParser → Except DfaErr DfaParser) : Prop :=
  ∀ (ps : DfaParser) (lab : ℕ → Set ℕ), ps.Tracked lab → OpenBefore ps.gsrc ps.pos (lab ps.prog.length) →
    ps.KeepsFrom lab (f ps)

variable {ps ps' ps₀ ps₁ : DfaParser} {lab lab' lab₀ lab₁ : ℕ → Set ℕ}

theorem OpenBefore.mono {gsrc gsrc' : List ℕ} {pos pos' : ℕ} {o : Set ℕ} (h : OpenBefore gsrc pos o)
    (hg : gsrc <+: gsrc') (hp : pos ≤ pos') : OpenBefore gsrc' pos' o := by
  intro g hmem
  obtain ⟨src, hsrc, hlt⟩ := h g hmem
  obtain ⟨l, rfl⟩ := hg
  refine ⟨src, ?_, Nat.lt_of_lt_of_le hlt hp⟩
  rw [List.getElem?_append_left (List.getElem?_eq_some_iff.1 hsrc).1]
  exact hsrc

namespace Keeps

theorem refl (h : ps.Tracked lab) : ps.Keeps lab ps lab :=
  ⟨⟨h, fun _ _ => rfl, Nat.le_refl _, Nat.le_refl _, List.prefix_refl _⟩, rfl⟩

theorem trans (h : ps.Keeps lab ps₁ lab₁) (h' : ps₁.Keeps lab₁ ps' lab') : ps.Keeps lab ps' lab' where
  tracked := h'.tracked
  agree k hk := (h'.agree k (Nat.le_trans hk h.length_le)).trans (h.agree k hk)
  length_le := Nat.le_trans h.length_le h'.length_le
  pos_le := Nat.le_trans h.pos_le h'.pos_le
  gsrc := h.gsrc.trans h'.gsrc
  stays := h'.stays.trans h.stays

theorem openBefore (h : ps.Keeps lab ps' lab') {pos : ℕ} (ho : OpenBefore ps.gsrc pos (lab ps.prog.length))
    {pos' : ℕ} (hp : pos ≤ pos') : OpenBefore ps'.gsrc pos' (lab' ps'.prog.length) := by
  rw [h.stays]
  exact ho.mono h.gsrc hp

/-- The label where the code begins is the one where it ends. -/
theorem start (h : ps.Keeps lab ps' lab') : lab' ps.prog.length = lab' ps'.prog.length :=
  (h.agree _ (Nat.le_refl _)).trans h.stays.symm

/-- A part of the compiler, behind others. -/
theorem andThen {f : DfaParser → Except DfaErr DfaParser} (hf : KeepsSpec f) (h : ps.Keeps lab ps₁ lab₁)
    (ho : OpenBefore ps.gsrc ps.pos (lab ps.prog.length)) : ps.KeepsFrom lab (f ps₁) :=
  (hf ps₁ lab₁ h.tracked (h.openBefore ho h.pos_le)).mono fun _ ⟨lab', h'⟩ => ⟨lab', h.trans h'⟩

/-- The text is taken from the front. -/
theorem advance (h : ps.Keeps lab ps' lab') (k : ℕ) : ps.Keeps lab (ps'.advance k) lab' :=
  ⟨⟨⟨h.tracked.places, h.tracked.refs⟩, h.agree, h.length_le, Nat.le_trans h.pos_le (Nat.le_add_right _ _),
    h.gsrc⟩, h.stays⟩

/-- A target is filled in. -/
theorem modify (h : ps.Keeps lab ps' lab') {pc : ℕ} {f : Inst → Inst} (hp : Places (ps'.prog.modify pc f) lab')
    (hf : ∀ i g, f i = .backref g → i = .backref g) : ps.Keeps lab (ps'.modify pc f) lab' := by
  refine ⟨⟨⟨hp, fun hno g hg => ?_⟩, h.agree, ?_, h.pos_le, h.gsrc⟩, ?_⟩
  · obtain ⟨k, hk⟩ := List.mem_iff_getElem?.1 hg
    have hk : (ps'.prog.modify pc f)[k]? = some (.backref g) := hk
    rw [List.getElem?_modify] at hk
    obtain ⟨j, hj, hfj⟩ := Option.map_eq_some_iff.1 hk
    refine h.tracked.refs hno g (List.mem_of_getElem? (i := k) ?_)
    rw [hj]
    split_ifs at hfj with hpc
    · exact congrArg some (hf j g hfj)
    · exact congrArg some hfj
  · rw [length_modify]
    exact h.length_le
  · rw [length_modify]
    exact h.stays

theorem setY (h : ps.Keeps lab ps' lab') {pc : ℕ} (hpc : lab' pc = lab ps.prog.length) :
    ps.Keeps lab (ps'.modify pc (Inst.setY ps'.prog.length)) lab' :=
  h.modify (h.tracked.places.setY (Nat.le_refl _) (h.stays.trans hpc.symm)) fun i g hi => by
    cases i <;> simp_all [Inst.setY]

theorem setX (h : ps.Keeps lab ps' lab') {pc : ℕ} (hpc : lab' pc = lab ps.prog.length) :
    ps.Keeps lab (ps'.modify pc (Inst.setX ps'.prog.length)) lab' :=
  h.modify (h.tracked.places.setX (Nat.le_refl _) (h.stays.trans hpc.symm)) fun i g hi => by
    cases i <;> simp_all [Inst.setX]

end Keeps

/-- **`dfa_emit`.** -/
theorem emit_extends (h : ps.Tracked lab) {i : Inst} (hfits : i.fits (lab ps.prog.length))
    (ht : ∀ t, some t ∈ i.targets → t ≤ ps.prog.length ∧ lab t = lab ps.prog.length)
    (href : ∀ g, i = .backref g → ps.hasBackref = true) :
    Meets (fun _ => False) (ps.emit i) fun ps' => ps'.prog = ps.prog ++ [i] ∧ ps'.gsrc = ps.gsrc ∧
      ps'.pos = ps.pos ∧ ∃ lab', ps.Extends lab ps' lab' ∧ lab' ps'.prog.length = i.after (lab ps.prog.length) := by
  unfold emit
  split_ifs with hfull
  · exact .error id
  refine .ok ⟨rfl, rfl, rfl, _, ⟨⟨h.places.emit hfits ht, fun hno g hg => ?_⟩, fun k hk => if_pos hk, ?_,
    Nat.le_refl _, List.prefix_refl _⟩, ?_⟩
  · rcases List.mem_append.1 hg with hg | hg
    · exact h.refs hno g hg
    · have hyes := href g (List.mem_singleton.1 hg).symm
      exact absurd (hno.symm.trans hyes) Bool.false_ne_true
  · simp
  · simp

/-- An instruction that is not a `SAVE`. -/
theorem emit_keeps (h : ps.Keeps lab ps₁ lab₁) {i : Inst} (hsave : ∀ o, i.fits o ∧ i.after o = o)
    (ht : ∀ t, some t ∈ i.targets → t ≤ ps₁.prog.length ∧ lab₁ t = lab₁ ps₁.prog.length)
    (href : ∀ g, i = .backref g → ps₁.hasBackref = true) :
    Meets (fun _ => False) (ps₁.emit i) fun ps' => ps'.prog = ps₁.prog ++ [i] ∧
      ∃ lab', ps.Keeps lab ps' lab' ∧ ps₁.Keeps lab₁ ps' lab' := by
  refine (emit_extends h.tracked (hsave _).1 ht href).mono fun ps' ⟨hprog, _, _, lab', hx, hlast⟩ => ?_
  have hk : ps₁.Keeps lab₁ ps' lab' := ⟨hx, hlast.trans (hsave _).2⟩
  exact ⟨hprog, lab', h.trans hk, hk⟩

theorem emit_plain (h : ps.Keeps lab ps₁ lab₁) {i : Inst} (hsave : ∀ o, i.fits o ∧ i.after o = o)
    (ht : i.targets = []) (href : ∀ g, i = .backref g → ps₁.hasBackref = true) :
    ps.KeepsFrom lab (ps₁.emit i) := by
  refine (emit_keeps h hsave (fun t hmem => ?_) href).mono fun ps' ⟨_, lab', hk, _⟩ => ⟨lab', hk⟩
  rw [ht] at hmem
  exact absurd hmem List.not_mem_nil

theorem emitSet_keeps (h : ps.Keeps lab ps₁ lab₁) (set : Byteset) : ps.KeepsFrom lab (ps₁.emitSet set) := by
  unfold emitSet addset
  have hplain : ∀ i : ℕ, ∀ o, (Inst.set i).fits o ∧ (Inst.set i).after o = o := fun _ _ => ⟨trivial, rfl⟩
  split
  next i ps₂ hset =>
  have hk : ps.Keeps lab ps₂ lab₁ := by
    split at hset
    · obtain ⟨-, rfl⟩ := Prod.mk.inj hset
      exact h
    · obtain ⟨-, rfl⟩ := Prod.mk.inj hset
      exact ⟨⟨⟨h.tracked.places, h.tracked.refs⟩, h.agree, h.length_le, h.pos_le, h.gsrc⟩, h.stays⟩
  exact emit_plain hk (hplain i) rfl nofun

/-! ## Repetition -/

/-- **`insert_split`**, in front of what has been added. -/
theorem insertSplit_keeps (h : ps₀.Keeps lab₀ ps lab) :
    Meets (fun _ => False) (ps.insertSplit ps₀.prog.length) fun ps' =>
      ps'.prog[ps₀.prog.length]? = some (.split (some (ps₀.prog.length + 1)) none) ∧
        ∃ lab', ps₀.Keeps lab₀ ps' lab' := by
  unfold insertSplit
  split_ifs with hfull
  · exact .error id
  have hb := h.length_le
  refine .ok ⟨?_, Places.moveUp ps₀.prog.length lab,
    ⟨⟨h.tracked.places.insert hb, fun hno g hg => ?_⟩, fun k hk => ?_, ?_, h.pos_le, h.gsrc⟩, ?_⟩
  · simp [hb]
  · have hshift : ∀ l : List Inst, Inst.backref g ∈ l.map (Inst.shift ps₀.prog.length) → Inst.backref g ∈ l := by
      intro l hl
      obtain ⟨j, hj, hjg⟩ := List.mem_map.1 hl
      cases j <;> simp_all [Inst.shift]
    rcases List.mem_append.1 hg with hg | hg
    · exact h.tracked.refs hno g (List.mem_of_mem_take (hshift _ hg))
    · rcases List.mem_cons.1 hg with hg | hg
      · cases hg
      · exact h.tracked.refs hno g (List.mem_of_mem_drop (hshift _ hg))
  · rw [Places.moveUp, if_pos hk]
    exact h.agree k hk
  · simp
    omega
  · have hlen : ((ps.prog.take ps₀.prog.length).map (Inst.shift ps₀.prog.length) ++
        .split (some (ps₀.prog.length + 1)) none ::
          (ps.prog.drop ps₀.prog.length).map (Inst.shift ps₀.prog.length)).length = ps.prog.length + 1 := by
      simp
      omega
    change Places.moveUp _ _ (List.length _) = _
    rw [hlen, Places.moveUp, if_neg (by omega), Nat.add_sub_cancel]
    exact h.stays

/-- **`wrap_optional`.** -/
theorem wrapOptional_keeps (h : ps₀.Keeps lab₀ ps lab) (alwaysSkip : Bool) :
    ps₀.KeepsFrom lab₀ (ps.wrapOptional ps₀.prog.length alwaysSkip) := by
  unfold wrapOptional
  refine (insertSplit_keeps h).bind fun ps₁ ⟨hsplit, lab₁, h₁⟩ => .pure ⟨lab₁, ?_⟩
  refine h₁.modify ?_ fun i g hi => ?_
  · refine h₁.tracked.places.modify (Nat.le_refl _) h₁.start.symm fun i hi => .inr ?_
    obtain rfl := Option.some.inj (hi.symm.trans hsplit)
    refine ⟨fun o => ⟨trivial, rfl, rfl⟩, fun x hx => ?_⟩
    cases alwaysSkip <;> simp_all [Inst.setX, Inst.setY, Inst.next]
  · cases i <;> simp_all [Inst.setX, Inst.setY]

/-- **`wrap_star`.** -/
theorem wrapStar_keeps (h : ps₀.Keeps lab₀ ps lab) : ps₀.KeepsFrom lab₀ (ps.wrapStar ps₀.prog.length) := by
  unfold wrapStar
  refine (wrapOptional_keeps h false).bind fun ps₁ ⟨lab₁, h₁⟩ => ?_
  refine (emit_keeps (i := .jmp (some ps₀.prog.length)) h₁ (fun _ => ⟨trivial, rfl⟩) (fun t ht => ?_) nofun).bind fun ps₂ ⟨_, lab₂, h₂, _⟩ =>
    .pure ⟨lab₂, h₂.setY (h₂.agree _ (Nat.le_refl _))⟩
  obtain rfl : t = ps₀.prog.length := by simpa [Inst.targets] using ht
  exact ⟨h₁.length_le, h₁.start⟩

/-- **`wrap_plus`.** -/
theorem wrapPlus_keeps (h : ps₀.Keeps lab₀ ps lab) : ps₀.KeepsFrom lab₀ (ps.wrapPlus ps₀.prog.length) := by
  unfold wrapPlus
  refine (emit_keeps (i := .split (some ps₀.prog.length) none) h (fun _ => ⟨trivial, rfl⟩) (fun t ht => ?_) nofun).bind fun ps₁ ⟨_, lab₁, h₁, hk⟩ =>
    .pure ⟨lab₁, h₁.setY ?_⟩
  · obtain rfl : t = ps₀.prog.length := by simpa [Inst.targets] using ht
    exact ⟨h.length_le, h.start⟩
  · rw [hk.agree _ (Nat.le_refl _), h.stays]

variable {fl : DfaFlags}

/-- **The stacked operators.** -/
theorem repeats_keeps : ∀ (k : ℕ) {ps : DfaParser} {lab : ℕ → Set ℕ}, ps₀.Keeps lab₀ ps lab →
    ps₀.KeepsFrom lab₀ (repeats fl ps₀.prog.length k ps)
  | 0, _, _, h => .ok ⟨_, h⟩
  | k + 1, ps, lab, h => by
      rw [repeats]
      split
      · exact .ok ⟨_, h⟩
      next op len _ =>
      have hone : ps₀.KeepsFrom lab₀ ((ps.advance len).applyRepeat ps₀.prog.length op) := by
        unfold applyRepeat
        split_ifs
        · exact wrapStar_keeps (h.advance len)
        · exact wrapPlus_keeps (h.advance len)
        · exact wrapOptional_keeps (h.advance len) false
      refine hone.bind fun ps₁ hps₁ => ?_
      obtain ⟨_, h₁⟩ := hps₁
      exact repeats_keeps k h₁

/-- Some times over. -/
theorem times_keeps {f : DfaParser → Except DfaErr DfaParser}
    (hf : ∀ {ps : DfaParser} {lab : ℕ → Set ℕ}, ps₀.Keeps lab₀ ps lab → ps₀.KeepsFrom lab₀ (f ps)) :
    ∀ (k : ℕ) {ps : DfaParser} {lab : ℕ → Set ℕ}, ps₀.Keeps lab₀ ps lab → ps₀.KeepsFrom lab₀ (times f k ps)
  | 0, _, _, h => .ok ⟨_, h⟩
  | k + 1, _, _, h => (hf h).bind fun _ ⟨_, h₁⟩ => times_keeps hf k h₁

/-- What is asked of an atom that is compiled again: it may be put behind what was added. -/
abbrev KeepsAgain (ps₀ : DfaParser) (lab₀ : ℕ → Set ℕ) (atom : DfaParser → Except DfaErr DfaParser) : Prop :=
  ∀ {ps : DfaParser} {lab : ℕ → Set ℕ}, ps₀.Keeps lab₀ ps lab → ps.KeepsFrom lab (atom ps)

/-- **`apply_interval`.** -/
theorem applyInterval_keeps {atom : DfaParser → Except DfaErr DfaParser} (hatom : KeepsAgain ps₀ lab₀ atom)
    (m : ℕ) (n : Option ℕ) (h : ps₀.Keeps lab₀ ps lab) :
    ps₀.KeepsFrom lab₀ (ps.applyInterval atom ps₀.prog.length m n) := by
  have hmore : ∀ {ps : DfaParser} {lab : ℕ → Set ℕ}, ps₀.Keeps lab₀ ps lab →
      ps₀.KeepsFrom lab₀ (ps.applyMore atom m n) := by
    intro ps lab h
    cases n with
    | none =>
      refine (hatom h).bind fun ps₁ ⟨lab₁, h₁⟩ => ?_
      exact (wrapStar_keeps h₁).mono fun _ ⟨lab₂, h₂⟩ => ⟨lab₂, h.trans h₂⟩
    | some n =>
      refine times_keeps (fun {ps lab} h => ?_) _ h
      refine (hatom h).bind fun ps₁ ⟨lab₁, h₁⟩ => ?_
      exact (wrapOptional_keeps h₁ false).mono fun _ ⟨lab₂, h₂⟩ => ⟨lab₂, h.trans h₂⟩
  unfold applyInterval
  split_ifs
  · exact wrapOptional_keeps h true
  · exact (wrapOptional_keeps h false).bind fun _ ⟨_, h₁⟩ => hmore h₁
  · refine (times_keeps (fun {ps lab} h => ?_) _ h).bind fun _ ⟨_, h₁⟩ => hmore h₁
    exact (hatom h).mono fun _ ⟨lab₁, h₁⟩ => ⟨lab₁, h.trans h₁⟩

/-- **An interval behind an atom**, if there is one. -/
theorem parseInterval_keeps {atom : DfaParser → Except DfaErr DfaParser} (hatom : KeepsAgain ps₀ lab₀ atom)
    (h : ps₀.Keeps lab₀ ps lab) : ps₀.KeepsFrom lab₀ (ps.parseInterval fl atom ps₀.prog.length) := by
  unfold parseInterval
  split_ifs with hno
  · exact .ok ⟨_, h⟩
  have hspec : Meets (fun _ : DfaErr => False) (intervalSpec (ps.advance (intervalLen fl ps.rem)).rem)
      fun _ => True := by
    cases intervalSpec (ps.advance (intervalLen fl ps.rem)).rem with
    | ok r => exact .ok trivial
    | error e => exact .error id
  refine hspec.bind fun r _ => ?_
  obtain ⟨m, n, rest⟩ := r
  dsimp only
  split_ifs
  · exact .error id
  · exact applyInterval_keeps hatom m n (((h.advance _).advance _).advance _)

/-- **The atom once more**, from its text. -/
theorem again_keeps {atom : DfaParser → Except DfaErr DfaParser} (hatom : KeepsSpec atom) (atomText : Str)
    (ho : OpenBefore ps₀.gsrc ps₀.pos (lab₀ ps₀.prog.length)) :
    KeepsAgain ps₀ lab₀ (again atom atomText ps₀.pos) := by
  intro ps lab h
  have htext := hatom { ps with rem := atomText, pos := ps₀.pos } lab ⟨h.tracked.places, h.tracked.refs⟩
    (h.openBefore ho (Nat.le_refl _))
  exact htext.bind fun ps' ⟨lab', h'⟩ => .pure ⟨lab', ⟨⟨h'.tracked.places, h'.tracked.refs⟩, h'.agree,
    h'.length_le, Nat.le_refl _, h'.gsrc⟩, h'.stays⟩

/-- **A piece.** -/
theorem parsePiece_keeps {atom : DfaParser → Except DfaErr DfaParser} (hatom : KeepsSpec atom) :
    KeepsSpec (parsePiece fl atom) := by
  intro ps lab ht ho
  unfold parsePiece
  refine (hatom ps lab ht ho).bind fun ps₁ ⟨lab₁, h₁⟩ => ?_
  split_ifs
  · exact .ok ⟨lab₁, h₁⟩
  refine (repeats_keeps _ h₁).bind fun ps₂ ⟨lab₂, h₂⟩ => ?_
  exact parseInterval_keeps (again_keeps hatom _ ho) h₂

/-! ## Branches -/

/-- **A branch.** -/
theorem parseSeq_keeps {piece : DfaParser → Except DfaErr DfaParser} (hpiece : KeepsSpec piece) (k : ℕ) :
    KeepsSpec (parseSeq fl piece k) := by
  induction k with
  | zero =>
    intro ps lab ht ho
    unfold parseSeq
    split_ifs
    · exact .ok ⟨lab, .refl ht⟩
    · exact .error id
  | succ k ih =>
    intro ps lab ht ho
    unfold parseSeq
    split_ifs
    · exact .ok ⟨lab, .refl ht⟩
    refine (hpiece ps lab ht ho).bind fun ps₁ hps₁ => ?_
    obtain ⟨lab₁, h₁⟩ := hps₁
    exact h₁.andThen ih ho

/-- The jumps get their target. -/
theorem Keeps.patch (jmpPcs : List ℕ) (h : ps₀.Keeps lab₀ ps lab)
    (hj : ∀ pc ∈ jmpPcs, lab pc = lab₀ ps₀.prog.length) : ps₀.Keeps lab₀ (ps.patch jmpPcs) lab := by
  have key : ∀ (pcs : List ℕ) (ps' : DfaParser), ps'.prog.length = ps.prog.length → ps₀.Keeps lab₀ ps' lab →
      (∀ pc ∈ pcs, lab pc = lab₀ ps₀.prog.length) →
      ps₀.Keeps lab₀ (pcs.foldl (fun ps' pc => ps'.modify pc (Inst.setX ps.prog.length)) ps') lab := by
    intro pcs
    induction pcs with
    | nil => exact fun _ _ h _ => h
    | cons pc pcs ih =>
      intro ps' hlen h hpcs
      have hset := h.setX (hpcs pc List.mem_cons_self)
      rw [hlen] at hset
      exact ih _ (by rw [length_modify, hlen]) hset fun pc hpc => hpcs pc (List.mem_cons_of_mem _ hpc)
  exact key jmpPcs ps rfl h hj

/-- **The loop of `parse_alt`**, behind a branch that began at `psb`. -/
theorem altGo_keeps {seq : DfaParser → Except DfaErr DfaParser} (hseq : KeepsSpec seq)
    (ho : OpenBefore ps₀.gsrc ps₀.pos (lab₀ ps₀.prog.length)) :
    ∀ (k : ℕ) {psb ps : DfaParser} {labb lab : ℕ → Set ℕ} {jmpPcs : List ℕ}, ps₀.Keeps lab₀ psb labb →
      psb.Keeps labb ps lab → (∀ pc ∈ jmpPcs, pc ≤ psb.prog.length ∧ labb pc = lab₀ ps₀.prog.length) →
      ps₀.KeepsFrom lab₀ (altGo fl seq k psb.prog.length jmpPcs ps)
  | 0, _, _, _, _, _, _, _, _ => .error id
  | k + 1, psb, ps, labb, lab, jmpPcs, hb, h, hj => by
      rw [altGo]
      dsimp only
      set jmpPcs' := if jmpPcs.length < 64 then jmpPcs ++ [ps.prog.length] else jmpPcs with hjmpPcs
      have hj' : ∀ pc ∈ jmpPcs', pc ≤ ps.prog.length ∧ lab pc = lab₀ ps₀.prog.length := by
        have hold : ∀ pc ∈ jmpPcs, pc ≤ ps.prog.length ∧ lab pc = lab₀ ps₀.prog.length := fun pc hpc =>
          ⟨Nat.le_trans (hj pc hpc).1 h.length_le, (h.agree pc (hj pc hpc).1).trans (hj pc hpc).2⟩
        intro pc hpc
        rw [hjmpPcs] at hpc
        split_ifs at hpc
        · rcases List.mem_append.1 hpc with hpc | hpc
          · exact hold pc hpc
          · obtain rfl := List.mem_singleton.1 hpc
            exact ⟨Nat.le_refl _, h.stays.trans hb.stays⟩
        · exact hold pc hpc
      refine (emit_keeps (i := .jmp none) (hb.trans h) (fun _ => ⟨trivial, rfl⟩) (fun t ht => by
        simp [Inst.targets] at ht) (fun _ h => by cases h)).bind fun ps₁ hps₁ => ?_
      obtain ⟨_, lab₁, h₁, hk₁⟩ := hps₁
      have hsplit : lab₁ psb.prog.length = lab₀ ps₀.prog.length := by
        rw [hk₁.agree _ h.length_le, h.agree _ (Nat.le_refl _), hb.stays]
      have h₂ := h₁.setY hsplit
      set ps₂ := ps₁.modify psb.prog.length (Inst.setY ps₁.prog.length) with hps₂
      have hlen₂ : ps₂.prog.length = ps₁.prog.length := length_modify _ _ _
      have hj₂ : ∀ pc ∈ jmpPcs', pc ≤ ps₂.prog.length ∧ lab₁ pc = lab₀ ps₀.prog.length := fun pc hpc =>
        ⟨hlen₂ ▸ Nat.le_trans (hj' pc hpc).1 hk₁.length_le, (hk₁.agree pc (hj' pc hpc).1).trans (hj' pc hpc).2⟩
      split_ifs with hlast
      · exact .ok ⟨lab₁, h₂.patch _ fun pc hpc => (hj₂ pc hpc).2⟩
      set ps₃ := ps₂.advance (altLen fl ps₂.rem) with hps₃
      have h₃ : ps₀.Keeps lab₀ ps₃ lab₁ := h₂.advance _
      refine (hseq ps₃ lab₁ h₃.tracked (h₃.openBefore ho h₃.pos_le)).bind fun ps₄ hps₄ => ?_
      obtain ⟨lab₄, h₄⟩ := hps₄
      split_ifs with hlast'
      · refine .ok ⟨lab₄, (h₃.trans h₄).patch _ fun pc hpc => ?_⟩
        rw [h₄.agree pc (hj₂ pc hpc).1, (hj₂ pc hpc).2]
      · refine (insertSplit_keeps h₄).bind fun ps₅ hps₅ => ?_
        obtain ⟨_, lab₅, h₅⟩ := hps₅
        exact altGo_keeps hseq ho k h₃ h₅ hj₂

/-! ## Groups -/

/-- **A group**: it is not open in front, and only its own code has it open. -/
theorem parseGroup_keeps {alt : DfaParser → Except DfaErr DfaParser} (halt : KeepsSpec alt)
    (ht : ps.Tracked lab) (ho : OpenBefore ps.gsrc ps.pos (lab ps.prog.length))
    (hopen : 0 < openLen fl ps.rem) : ps.KeepsFrom lab (ps.parseGroup fl alt) := by
  unfold parseGroup
  split_ifs with hnest
  · exact .error id
  have hindex : Meets (fun _ : DfaErr => False)
      ({ ps.advance (openLen fl ps.rem) with nest := ps.nest + 1 }.groupIndex ps.pos) fun r =>
        r.2.prog = ps.prog ∧ r.2.hasBackref = ps.hasBackref ∧ r.2.pos = ps.pos + openLen fl ps.rem ∧
          ps.gsrc <+: r.2.gsrc ∧ r.2.gsrc[r.1]? = some ps.pos := by
    unfold groupIndex
    split
    · next i hi =>
      obtain ⟨hlt, hi, -⟩ := List.findIdx?_eq_some_iff_getElem.1 hi
      refine .ok ⟨rfl, rfl, rfl, List.prefix_refl _, ?_⟩
      exact List.getElem?_eq_some_iff.2 ⟨hlt, by simpa using hi⟩
    · split_ifs
      · exact .error id
      · exact .ok ⟨rfl, rfl, rfl, List.prefix_append _ _, by simp⟩
  refine hindex.bind fun r ⟨hprog, href, hpos, hgsrc, hg⟩ => ?_
  obtain ⟨g, ps₁⟩ := r
  dsimp only at hprog href hpos hgsrc hg ⊢
  have ht₁ : ps₁.Tracked lab := ⟨hprog ▸ ht.places, by rw [href, hprog]; exact ht.refs⟩
  have hclosed : g ∉ lab ps.prog.length := fun hmem => by
    obtain ⟨src, hsrc, hlt⟩ := (ho.mono hgsrc (Nat.le_refl _)) g hmem
    obtain rfl := Option.some.inj (hg.symm.trans hsrc)
    exact Nat.lt_irrefl _ hlt
  have hfits : (Inst.save (2 * g)).fits (lab ps₁.prog.length) := by
    rw [hprog]
    simpa [Inst.fits] using hclosed
  refine (emit_extends ht₁ hfits (fun t hmem => absurd hmem List.not_mem_nil) nofun).bind
    fun ps₂ ⟨_, hgsrc₂, hpos₂, lab₂, hx₂, hlast₂⟩ => ?_
  have hopen₂ : lab₂ ps₂.prog.length = insert g (lab ps.prog.length) := by
    rw [hlast₂, hprog]
    simp [Inst.after]
  have ho₂ : OpenBefore ps₂.gsrc ps₂.pos (lab₂ ps₂.prog.length) := by
    rw [hopen₂, hgsrc₂, hpos₂, hpos]
    rintro i (rfl | hi)
    · exact ⟨ps.pos, hg, by omega⟩
    · exact (ho.mono hgsrc (Nat.le_add_right _ _)) i hi
  refine (halt ps₂ lab₂ hx₂.tracked ho₂).bind fun ps₃ ⟨lab₃, h₃⟩ => ?_
  unfold closeGroup
  split_ifs with hclose
  · exact .error id
  have hend : lab₃ ps₃.prog.length = insert g (lab ps.prog.length) := h₃.stays.trans hopen₂
  set ps₄ : DfaParser := { ps₃.advance (closeLen fl ps₃.rem) with nest := ps₃.nest - 1 } with hps₄
  have hfits₄ : (Inst.save (2 * g + 1)).fits (lab₃ ps₄.prog.length) := by
    change (Inst.save (2 * g + 1)).fits (lab₃ ps₃.prog.length)
    have hslot : (2 * g + 1) / 2 = g := by omega
    have hodd : (2 * g + 1) % 2 ≠ 0 := by omega
    rw [hend, Inst.fits, if_neg hodd, hslot]
    exact Set.mem_insert g _
  have ht₄ : ps₄.Tracked lab₃ := ⟨h₃.tracked.places, h₃.tracked.refs⟩
  refine (emit_extends ht₄ hfits₄ (fun t hmem => absurd hmem List.not_mem_nil) nofun).mono
    fun ps₅ ⟨_, hgsrc₅, hpos₅, lab₅, hx₅, hlast₅⟩ => ⟨lab₅, ?_⟩
  have hlen₂ : ps.prog.length ≤ ps₂.prog.length := hprog ▸ hx₂.length_le
  have hlen₅ : ps₃.prog.length ≤ ps₅.prog.length := hx₅.length_le
  refine ⟨⟨hx₅.tracked, fun k hk => ?_, ?_, ?_, ?_⟩, ?_⟩
  · rw [hx₅.agree k (Nat.le_trans (Nat.le_trans hk hlen₂) h₃.length_le),
      h₃.agree k (Nat.le_trans hk hlen₂), hx₂.agree k (by rw [hprog]; exact hk)]
  · exact Nat.le_trans hlen₂ (Nat.le_trans h₃.length_le hlen₅)
  · have hpos₃ := h₃.pos_le
    have hpos₄ : ps₄.pos = ps₃.pos + closeLen fl ps₃.rem := rfl
    omega
  · rw [hgsrc₅]
    exact (hgsrc.trans hx₂.gsrc).trans h₃.gsrc
  · have hslot : (2 * g + 1) / 2 = g := by omega
    have hodd : (2 * g + 1) % 2 ≠ 0 := by omega
    rw [hlast₅, Inst.after, if_neg hodd, hslot]
    change lab₃ ps₃.prog.length \ {g} = _
    rw [hend, Set.insert_sdiff_self_of_notMem hclosed]

/-- One byte, or both cases of a letter. -/
theorem literal_keeps (h : ps₀.Keeps lab₀ ps lab) (c : Char) : ps₀.KeepsFrom lab₀ (ps.literal fl c) := by
  unfold literal
  split_ifs
  · exact emitSet_keeps h _
  · exact emit_plain h (fun _ => ⟨trivial, rfl⟩) rfl nofun

/-- The part behind a backslash. -/
theorem parseEscape_keeps (ht : ps.Tracked lab) : ps.KeepsFrom lab (ps.parseEscape fl) := by
  have hk : ∀ k, ps.Keeps lab (ps.advance k) lab := fun k => (Keeps.refl ht).advance k
  unfold parseEscape
  split
  · exact .error id
  next e t _ =>
  dsimp only
  by_cases hdigit : ('1' ≤ e && e ≤ '9') = true
  · rw [if_pos hdigit]
    split_ifs with hg
    · exact .error id
    · have hk' : ps.Keeps lab ({ ps with hasBackref := true }.advance 2) lab :=
        ⟨⟨⟨ht.places, nofun⟩, fun _ _ => rfl, Nat.le_refl _, Nat.le_add_right _ _, List.prefix_refl _⟩, rfl⟩
      exact emit_plain (i := .backref (e.toNat - 48)) hk' (fun _ => ⟨trivial, rfl⟩) rfl fun _ _ => rfl
  rw [if_neg hdigit]
  split
  · next c got _ => exact emit_plain (i := .char c) (hk _) (fun _ => ⟨trivial, rfl⟩) rfl nofun
  · split
    · next kind _ => exact emit_plain (i := .word kind) (hk 2) (fun _ => ⟨trivial, rfl⟩) rfl nofun
    · split_ifs
      · exact emitSet_keeps (hk 2) _
      · exact literal_keeps (hk 2) e

/-- **An atom.** -/
theorem parseAtom_keeps {alt : DfaParser → Except DfaErr DfaParser} (halt : KeepsSpec alt) :
    KeepsSpec (parseAtom fl alt) := by
  intro ps lab ht ho
  have hk : ∀ k, ps.Keeps lab (ps.advance k) lab := fun k => (Keeps.refl ht).advance k
  unfold parseAtom
  split
  · exact .error id
  next c t hrem =>
  split_ifs with hdot hbr hopen hbol heol hbs
  · exact emit_plain (i := .any) (hk 1) (fun _ => ⟨trivial, rfl⟩) rfl (fun _ h => by cases h)
  · have hset : Meets (fun _ : DfaErr => False) (bracketCompile fl t) fun _ => True := by
      cases bracketCompile fl t with
      | ok r => exact .ok trivial
      | error e => exact .error id
    exact hset.bind fun r _ => emitSet_keeps (hk _) _
  · exact parseGroup_keeps halt ht ho hopen
  · exact emit_plain (i := .bol) (hk 1) (fun _ => ⟨trivial, rfl⟩) rfl (fun _ h => by cases h)
  · exact emit_plain (i := .eol) (hk 1) (fun _ => ⟨trivial, rfl⟩) rfl (fun _ h => by cases h)
  · exact parseEscape_keeps ht
  · exact literal_keeps (hk 1) c

/-- **An alternation**, in a group or the whole pattern. -/
theorem parseAlt_keeps : ∀ depth, KeepsSpec (parseAlt fl depth)
  | 0 => fun _ _ _ _ => .error id
  | depth + 1 => by
      intro ps lab ht ho
      have hseq : KeepsSpec fun ps : DfaParser =>
          parseSeq fl (parsePiece fl (parseAtom fl (parseAlt fl depth))) ps.rem.length ps := fun ps lab ht ho =>
        parseSeq_keeps (parsePiece_keeps (parseAtom_keeps (parseAlt_keeps depth))) _ ps lab ht ho
      rw [parseAlt]
      refine (hseq ps lab ht ho).bind fun ps₁ hps₁ => ?_
      obtain ⟨lab₁, h₁⟩ := hps₁
      split_ifs
      · exact .ok ⟨lab₁, h₁⟩
      · refine (insertSplit_keeps h₁).bind fun ps₂ hps₂ => ?_
        obtain ⟨_, lab₂, h₂⟩ := hps₂
        exact altGo_keeps hseq ho _ (.refl ht) h₂ (fun _ h => by cases h)

end DfaParser

/-! ## The whole pattern -/

/-- **To every point of a compiled program belong its open groups**: none at the entry and none where a
match ends.  Without a back-reference in the pattern there is none in the program. -/
theorem compiled_places (fl : DfaFlags) (pat : Str) (d : Dfa) (h : dfaCompile fl pat = .ok d) :
    (∃ lab, Places d.prog lab ∧ lab 0 = ∅) ∧ (d.hasBackref = false → ∀ g, Inst.backref g ∉ d.prog) := by
  have hempty : DfaParser.Tracked { rem := pat } fun _ => ∅ :=
    ⟨⟨fun pc i hi => absurd hi (by simp), fun pc i hi => absurd hi (by simp)⟩, fun _ _ => List.not_mem_nil⟩
  have hspec : Meets (fun _ => False) (dfaCompile fl pat) fun d =>
      (∃ lab, Places d.prog lab ∧ lab 0 = ∅) ∧ (d.hasBackref = false → ∀ g, Inst.backref g ∉ d.prog) := by
    unfold dfaCompile
    refine (DfaParser.parseAlt_keeps 257 _ _ hempty fun g hg => absurd hg (Set.notMem_empty g)).bind
      fun ps ⟨lab, hk⟩ => ?_
    split_ifs
    · exact .error id
    refine (DfaParser.emit_extends hk.tracked (i := .done) hk.stays
      (fun t ht => absurd ht List.not_mem_nil) nofun).bind fun ps' ⟨_, _, _, lab', hx, _⟩ => .ok ⟨⟨lab', hx.tracked.places, ?_⟩, hx.tracked.refs⟩
    rw [hx.agree 0 (Nat.zero_le _)]
    exact hk.agree 0 (Nat.zero_le _)
  exact hspec.of_ok h

end Shish
