import Mathlib.Data.List.Nodup
import Shish.Lib.Meets
import Shish.Dfa.Parse

/-!
# Dfa/Emit — what the compiler adds to a program

Code is added behind a program, with targets in it or right behind it, and is itself changed only by
what is added later on a higher level: an insertion moves no target that is not behind it.  `Emits`
says that much of any part of the compiler, and whether a target was left unknown.
-/

namespace Shish

/-! ## Targets -/

namespace Inst

variable {pos : ℕ} {i : Inst}

theorem some_mem_targets_shift {t : ℕ} (h : some t ∈ (i.shift pos).targets) :
    ∃ s, some s ∈ i.targets ∧ (t = s ∨ t = s + 1 ∧ pos < s) := by
  have hone : ∀ {x : Option ℕ}, some t = shiftTarget pos x →
      ∃ s, x = some s ∧ (t = s ∨ t = s + 1 ∧ pos < s) := fun {x} hx => by
    obtain ⟨s, rfl, hs⟩ := Option.map_eq_some_iff.1 hx.symm
    refine ⟨s, rfl, ?_⟩
    split_ifs at hs with hlt
    · exact .inr ⟨hs.symm, hlt⟩
    · exact .inl hs.symm
  cases i with
  | split x y =>
    rcases List.mem_cons.1 h with hx | hy
    · obtain ⟨s, rfl, hs⟩ := hone hx
      exact ⟨s, List.mem_cons_self .., hs⟩
    · obtain ⟨s, rfl, hs⟩ := hone (List.mem_singleton.1 hy)
      exact ⟨s, List.mem_cons_of_mem _ (List.mem_singleton.2 rfl), hs⟩
  | jmp x =>
    obtain ⟨s, rfl, hs⟩ := hone (List.mem_singleton.1 h)
    exact ⟨s, List.mem_singleton.2 rfl, hs⟩
  | _ => exact absurd h List.not_mem_nil

theorem none_mem_targets_shift : none ∈ (i.shift pos).targets ↔ none ∈ i.targets := by
  cases i with
  | split x y => cases x <;> cases y <;> simp [shift, targets, shiftTarget]
  | jmp x => cases x <;> simp [shift, targets, shiftTarget]
  | _ => rfl

/-- A target that is not behind the insertion stays. -/
theorem shift_eq_self (h : ∀ t, some t ∈ i.targets → t ≤ pos) : i.shift pos = i := by
  have hone : ∀ {x : Option ℕ}, x ∈ i.targets → shiftTarget pos x = x := fun {x} hx => by
    cases x with
    | none => rfl
    | some t => exact congrArg some (if_neg (Nat.not_lt.2 (h t hx)))
  cases i with
  | split x y =>
    rw [shift, hone (List.mem_cons_self ..), hone (List.mem_cons_of_mem _ (List.mem_singleton.2 rfl))]
  | jmp x => rw [shift, hone (List.mem_singleton.2 rfl)]
  | _ => rfl

theorem setX_setX (t : ℕ) : (i.setX t).setX t = i.setX t := by
  cases i <;> rfl

theorem names_shift {nsets ngroup : ℕ} : (i.shift pos).Names nsets ngroup ↔ i.Names nsets ngroup := by
  cases i <;> rfl

end Inst

/-- Some target is not known. -/
def Open (code : List Inst) : Prop := ∃ i ∈ code, none ∈ i.targets

@[simp] theorem open_nil : ¬ Open [] := by
  simp [Open]

@[simp] theorem open_cons {i : Inst} {code : List Inst} :
    Open (i :: code) ↔ none ∈ i.targets ∨ Open code := by
  simp [Open]

@[simp] theorem open_append {code code' : List Inst} : Open (code ++ code') ↔ Open code ∨ Open code' := by
  simp [Open, or_and_right, exists_or]

@[simp] theorem open_shift {pos : ℕ} {code : List Inst} :
    Open (code.map (Inst.shift pos)) ↔ Open code := by
  simp [Open, Inst.none_mem_targets_shift]

/-! ## Code -/

/-- What the compiler has besides the text. -/
structure Code where
  prog : List Inst
  nsets : ℕ
  ngroup : ℕ
  nest : ℕ

def DfaParser.code (ps : DfaParser) : Code := ⟨ps.prog, ps.sets.length, ps.gsrc.length, ps.nest⟩

/-- Another program. -/
def Code.withProg (c : Code) (prog : List Inst) : Code := { c with prog }

/-- Another nesting. -/
def Code.withNest (nest : ℕ) (c : Code) : Code := { c with nest }

/-- **A program in order**, so far. -/
structure Code.Ok (c : Code) : Prop where
  targets : ∀ i ∈ c.prog, ∀ t, some t ∈ i.targets → t ≤ c.prog.length
  names : ∀ i ∈ c.prog, i.Names c.nsets c.ngroup
  nest : c.nest ≤ 256

/-- **Code is added.** -/
structure Code.Adds (c c' : Code) (code : List Inst) : Prop where
  prog : c'.prog = c.prog ++ code
  targets : ∀ i ∈ code, ∀ t, some t ∈ i.targets → c.prog.length ≤ t ∧ t ≤ c'.prog.length
  names : ∀ i ∈ code, i.Names c'.nsets c'.ngroup
  nsets : c.nsets ≤ c'.nsets
  ngroup : c.ngroup ≤ c'.ngroup
  nest : c'.nest = c.nest

/-- The same, and whether a target was left unknown. -/
def Code.Emits (c c' : Code) (b : Bool) : Prop := ∃ code, c.Adds c' code ∧ (Open code ↔ b = true)

namespace Code

variable {c c' c'' : Code} {code code' : List Inst} {b b' : Bool}

theorem Adds.refl (c : Code) : c.Adds c [] :=
  ⟨(List.append_nil _).symm, nofun, nofun, Nat.le_refl _, Nat.le_refl _, rfl⟩

theorem Adds.length (h : c.Adds c' code) : c'.prog.length = c.prog.length + code.length := by
  rw [h.prog, List.length_append]

theorem Adds.trans (h : c.Adds c' code) (h' : c'.Adds c'' code') : c.Adds c'' (code ++ code') where
  prog := by rw [h'.prog, h.prog, List.append_assoc]
  targets i hi t ht := by
    have hlen := h.length
    have hlen' := h'.length
    rcases List.mem_append.1 hi with hi | hi
    · have := h.targets i hi t ht
      omega
    · have := h'.targets i hi t ht
      omega
  names i hi := by
    rcases List.mem_append.1 hi with hi | hi
    · exact (h.names i hi).mono h'.nsets h'.ngroup
    · exact h'.names i hi
  nsets := Nat.le_trans h.nsets h'.nsets
  ngroup := Nat.le_trans h.ngroup h'.ngroup
  nest := h'.nest.trans h.nest

theorem Adds.ok (h : c.Adds c' code) (hc : c.Ok) : c'.Ok where
  targets i hi t ht := by
    have hlen := h.length
    rw [h.prog, List.mem_append] at hi
    rcases hi with hi | hi
    · have := hc.targets i hi t ht
      omega
    · exact (h.targets i hi t ht).2
  names i hi := by
    rw [h.prog, List.mem_append] at hi
    rcases hi with hi | hi
    · exact (hc.names i hi).mono h.nsets h.ngroup
    · exact h.names i hi
  nest := h.nest ▸ hc.nest

theorem Emits.refl (c : Code) : c.Emits c false := ⟨[], .refl c, by simp⟩

theorem Emits.trans (h : c.Emits c' b) (h' : c'.Emits c'' b') : c.Emits c'' (b || b') := by
  obtain ⟨code, hadds, hopen⟩ := h
  obtain ⟨code', hadds', hopen'⟩ := h'
  exact ⟨code ++ code', hadds.trans hadds', by rw [open_append, hopen, hopen', Bool.or_eq_true]⟩

theorem Emits.ok (h : c.Emits c' b) (hc : c.Ok) : c'.Ok := by
  obtain ⟨code, hadds, -⟩ := h
  exact hadds.ok hc

theorem Emits.nest (h : c.Emits c' b) : c'.nest = c.nest := by
  obtain ⟨code, hadds, -⟩ := h
  exact hadds.nest

theorem Emits.ngroup (h : c.Emits c' b) : c.ngroup ≤ c'.ngroup := by
  obtain ⟨code, hadds, -⟩ := h
  exact hadds.ngroup

/-- Only the program counts. -/
theorem Emits.withNest {nest : ℕ} (h : (c.withNest nest).Emits c' b) (nest' : ℕ) :
    (c.withNest nest').Emits (c'.withNest nest') b := by
  obtain ⟨code, hadds, hopen⟩ := h
  exact ⟨code, ⟨hadds.prog, hadds.targets, hadds.names, hadds.nsets, hadds.ngroup, rfl⟩, hopen⟩

end Code

namespace DfaParser

variable {ps ps' : DfaParser} {c : Code} {code : List Inst} {b : Bool}

/-- An error that is the compiler's own. -/
abbrev MeetsDfa (r : Except DfaErr DfaParser) (Q : DfaParser → Prop) : Prop := Meets (· = .fuel) r Q

/-- The text is the same. -/
structure SameText (ps ps' : DfaParser) : Prop where
  rem : ps'.rem = ps.rem
  pos : ps'.pos = ps.pos

theorem SameText.refl (ps : DfaParser) : ps.SameText ps := ⟨rfl, rfl⟩

theorem SameText.trans {ps'' : DfaParser} (h : ps.SameText ps') (h' : ps'.SameText ps'') :
    ps.SameText ps'' := ⟨h'.rem.trans h.rem, h'.pos.trans h.pos⟩

/-- **`dfa_emit`.** -/
theorem emit_eq (i : Inst) : MeetsDfa (ps.emit i) fun ps' =>
    ps.SameText ps' ∧ ps'.code = ps.code.withProg (ps.prog ++ [i]) := by
  unfold emit
  split_ifs
  · exact .error nofun
  · exact .ok ⟨⟨rfl, rfl⟩, rfl⟩

theorem emit_adds {i : Inst} (ht : ∀ t, some t ∈ i.targets → ps.prog.length = t)
    (hn : i.Names ps.sets.length ps.gsrc.length) :
    MeetsDfa (ps.emit i) fun ps' => ps.SameText ps' ∧ ps.code.Adds ps'.code [i] := by
  refine (emit_eq i).mono fun ps' ⟨htext, hcode⟩ => ⟨htext, ?_⟩
  rw [hcode]
  refine ⟨rfl, fun j hj t htj => ?_, fun j hj => ?_, Nat.le_refl _, Nat.le_refl _, rfl⟩
  · obtain rfl := List.mem_singleton.1 hj
    have := ht t htj
    simp only [DfaParser.code, Code.withProg, List.length_append]
    omega
  · obtain rfl := List.mem_singleton.1 hj
    exact hn

/-- An instruction without targets. -/
theorem emit_emits {i : Inst} (ht : i.targets = []) (hn : i.Names ps.sets.length ps.gsrc.length) :
    MeetsDfa (ps.emit i) fun ps' => ps.SameText ps' ∧ ps.code.Emits ps'.code false := by
  refine (emit_adds (fun t h => ?_) hn).mono fun ps' h => ⟨h.1, [i], h.2, by simp [ht]⟩
  rw [ht] at h
  exact absurd h List.not_mem_nil

/-- A set of bytes. -/
theorem emitSet_emits (set : Byteset) :
    MeetsDfa (ps.emitSet set) fun ps' => ps.SameText ps' ∧ ps.code.Emits ps'.code false := by
  unfold emitSet addset
  cases hfind : ps.sets.findIdx? (· == set) with
  | some i => exact emit_emits rfl (List.findIdx?_eq_some_iff_findIdx_eq.1 hfind).1
  | none =>
    refine (emit_emits rfl ?_).mono fun ps' h => ⟨⟨h.1.rem, h.1.pos⟩, ?_⟩
    · exact (by simp : ps.sets.length < (ps.sets ++ [set]).length)
    · obtain ⟨code, hadds, hopen⟩ := h.2
      refine ⟨code, ⟨hadds.prog, hadds.targets, hadds.names, ?_, hadds.ngroup, hadds.nest⟩, hopen⟩
      have := hadds.nsets
      simp only [DfaParser.code, List.length_append] at this ⊢
      omega

theorem modify_append (P : List Inst) (i : Inst) (r : List Inst) (f : Inst → Inst) :
    (P ++ i :: r).modify P.length f = P ++ f i :: r := by
  induction P with
  | nil => rfl
  | cons j P ih => simpa using ih

@[simp] theorem length_modify (pc : ℕ) (f : Inst → Inst) (ps : DfaParser) :
    (ps.modify pc f).prog.length = ps.prog.length := List.length_modify ..

theorem code_modify (pc : ℕ) (f : Inst → Inst) (ps : DfaParser) :
    (ps.modify pc f).code = ps.code.withProg (ps.prog.modify pc f) := rfl

/-- **`insert_split`** in front of code that was added. -/
theorem insertSplit_eq (hc : c.Ok) (h : c.Adds ps.code code) :
    MeetsDfa (ps.insertSplit c.prog.length) fun ps' => ps.SameText ps' ∧
      ps'.code = ps.code.withProg (c.prog ++
        .split (some (c.prog.length + 1)) none :: code.map (Inst.shift c.prog.length)) := by
  have hprog : ps.prog = c.prog ++ code := h.prog
  unfold insertSplit
  split_ifs
  · exact .error nofun
  · refine .ok ⟨⟨rfl, rfl⟩, ?_⟩
    have hshift : c.prog.map (Inst.shift c.prog.length) = c.prog := by
      conv_rhs => rw [← List.map_id c.prog]
      exact List.map_congr_left fun i hi => Inst.shift_eq_self (hc.targets i hi)
    simp [DfaParser.code, Code.withProg, hprog, hshift]

/-- What is in order about code that an insertion moved. -/
theorem targets_map_shift (h : c.Adds ps.code code) :
    ∀ i ∈ code.map (Inst.shift c.prog.length), ∀ t, some t ∈ i.targets →
      c.prog.length ≤ t ∧ t ≤ ps.code.prog.length + 1 := by
  intro i hi t ht
  obtain ⟨j, hj, rfl⟩ := List.mem_map.1 hi
  obtain ⟨s, hs, hst⟩ := Inst.some_mem_targets_shift ht
  have := h.targets j hj s hs
  omega

theorem names_map_shift {nsets ngroup pos : ℕ} (h : ∀ i ∈ code, i.Names nsets ngroup) :
    ∀ i ∈ code.map (Inst.shift pos), i.Names nsets ngroup := by
  intro i hi
  obtain ⟨j, hj, rfl⟩ := List.mem_map.1 hi
  exact Inst.names_shift.2 (h j hj)

/-- A `SPLIT` in front whose second target is not known yet. -/
theorem insertSplit_adds (hc : c.Ok) (h : c.Adds ps.code code) :
    MeetsDfa (ps.insertSplit c.prog.length) fun ps' => ps.SameText ps' ∧ ∃ body,
      c.Adds ps'.code (.split (some (c.prog.length + 1)) none :: body) ∧ (Open body ↔ Open code) := by
  refine (insertSplit_eq hc h).mono fun ps' ⟨htext, hcode⟩ =>
    ⟨htext, code.map (Inst.shift c.prog.length), ?_, open_shift⟩
  rw [hcode]
  have hlen := h.length
  have hend : (ps.code.withProg (c.prog ++ .split (some (c.prog.length + 1)) none ::
      code.map (Inst.shift c.prog.length))).prog.length = ps.code.prog.length + 1 := by
    rw [hlen]
    simp [Code.withProg]
    omega
  refine ⟨rfl, ?_, ?_, h.nsets, h.ngroup, h.nest⟩
  · rw [hend]
    refine List.forall_mem_cons.2 ⟨fun t ht => ?_, targets_map_shift h⟩
    obtain rfl : t = c.prog.length + 1 := by simpa [Inst.targets] using ht
    omega
  · exact List.forall_mem_cons.2 ⟨True.intro, names_map_shift h.names⟩

/-- **`wrap_optional`**, and what it puts in front. -/
theorem wrapOptional_eq (hc : c.Ok) (h : c.Adds ps.code code) (alwaysSkip : Bool) :
    MeetsDfa (ps.wrapOptional c.prog.length alwaysSkip) fun ps' => ps.SameText ps' ∧
      ∃ x, (x = c.prog.length + 1 ∨ x = ps'.prog.length) ∧
        ps'.code = ps.code.withProg (c.prog ++
          .split (some x) (some ps'.prog.length) :: code.map (Inst.shift c.prog.length)) := by
  unfold wrapOptional
  refine (insertSplit_eq hc h).bind fun ps₁ ⟨htext, hcode⟩ => ?_
  have hprog : ps₁.prog = c.prog ++ .split (some (c.prog.length + 1)) none ::
      code.map (Inst.shift c.prog.length) := congrArg Code.prog hcode
  have hmod : ∀ f : Inst → Inst, (ps₁.prog.modify c.prog.length f) = c.prog ++
      f (.split (some (c.prog.length + 1)) none) :: code.map (Inst.shift c.prog.length) := fun f => by
    rw [hprog, modify_append]
  refine .pure ⟨⟨htext.rem, htext.pos⟩,
    if alwaysSkip then ps₁.prog.length else c.prog.length + 1, ?_, ?_⟩
  · cases alwaysSkip <;> simp
  · rw [length_modify, code_modify, hmod, hcode]
    rfl

/-- **`wrap_optional`.** -/
theorem wrapOptional_emits (hc : c.Ok) (h : c.Emits ps.code b) (alwaysSkip : Bool) :
    MeetsDfa (ps.wrapOptional c.prog.length alwaysSkip) fun ps' =>
      ps.SameText ps' ∧ c.Emits ps'.code b := by
  obtain ⟨code, hadds, hopen⟩ := h
  refine (wrapOptional_eq hc hadds alwaysSkip).mono fun ps' ⟨htext, x, hx, hcode⟩ => ⟨htext, ?_⟩
  have hprog : ps'.prog = c.prog ++ .split (some x) (some ps'.prog.length) ::
      code.map (Inst.shift c.prog.length) := congrArg Code.prog hcode
  have hlen : ps'.prog.length = ps.code.prog.length + 1 := by
    rw [congrArg List.length hprog, hadds.prog]
    simp
    omega
  have hlen₀ := hadds.length
  refine ⟨_, ⟨hprog, ?_, ?_, ?_, ?_, ?_⟩, ?_⟩
  · refine List.forall_mem_cons.2 ⟨fun t ht => ?_, fun i hi t ht => ?_⟩
    · change _ ≤ _ ∧ t ≤ ps'.prog.length
      simp only [Inst.targets, List.mem_cons, Option.some.injEq, List.not_mem_nil, or_false] at ht
      omega
    · change _ ≤ _ ∧ t ≤ ps'.prog.length
      rw [hlen]
      exact targets_map_shift hadds i hi t ht
  · rw [hcode]
    exact List.forall_mem_cons.2 ⟨True.intro, names_map_shift hadds.names⟩
  · rw [hcode]
    exact hadds.nsets
  · rw [hcode]
    exact hadds.ngroup
  · rw [hcode]
    exact hadds.nest
  · simp [Inst.targets, hopen]

/-- **`wrap_star`.** -/
theorem wrapStar_emits (hc : c.Ok) (h : c.Emits ps.code b) :
    MeetsDfa (ps.wrapStar c.prog.length) fun ps' => ps.SameText ps' ∧ c.Emits ps'.code b := by
  obtain ⟨code, hadds, hopen⟩ := h
  unfold wrapStar
  refine (wrapOptional_eq hc hadds false).bind fun ps₁ ⟨htext₁, x, hx, hcode₁⟩ => ?_
  refine (emit_eq _).bind fun ps₂ ⟨htext₂, hcode₂⟩ => .pure ⟨?_, ?_⟩
  · exact htext₁.trans ⟨htext₂.rem, htext₂.pos⟩
  have hprog₁ : ps₁.prog = c.prog ++ .split (some x) (some ps₁.prog.length) ::
      code.map (Inst.shift c.prog.length) := congrArg Code.prog hcode₁
  have hprog₂ : ps₂.prog = c.prog ++ .split (some x) (some ps₁.prog.length) ::
      (code.map (Inst.shift c.prog.length) ++ [.jmp (some c.prog.length)]) := by
    have hprog₂ : ps₂.prog = ps₁.prog ++ _ := congrArg Code.prog hcode₂
    rw [hprog₂]
    conv_lhs => rw [hprog₁]
    simp
  have hlen₀ := hadds.length
  have hlen₁ : ps₁.prog.length = ps.code.prog.length + 1 := by
    rw [congrArg List.length hprog₁, hadds.prog]
    simp
    omega
  have hlen₂ : ps₂.prog.length = ps.code.prog.length + 2 := by
    rw [congrArg List.length hprog₂, hadds.prog]
    simp
    omega
  have hmod : ∀ f : Inst → Inst, ps₂.prog.modify c.prog.length f = c.prog ++
      f (.split (some x) (some ps₁.prog.length)) ::
        (code.map (Inst.shift c.prog.length) ++ [.jmp (some c.prog.length)]) := fun f => by
    rw [hprog₂, modify_append]
  have hcode : (ps₂.modify c.prog.length fun i => i.setY ps₂.prog.length).code =
      ps.code.withProg (c.prog ++ .split (some x) (some ps₂.prog.length) ::
        (code.map (Inst.shift c.prog.length) ++ [.jmp (some c.prog.length)])) := by
    rw [code_modify, hmod, hcode₂, hcode₁]
    rfl
  rw [hcode]
  refine ⟨_, ⟨rfl, ?_, ?_, hadds.nsets, hadds.ngroup, hadds.nest⟩, ?_⟩
  · have hend : (ps.code.withProg (c.prog ++ .split (some x) (some ps₂.prog.length) ::
        (code.map (Inst.shift c.prog.length) ++ [.jmp (some c.prog.length)]))).prog.length =
          ps₂.prog.length := by
      rw [congrArg List.length hprog₂]
      simp [Code.withProg]
    rw [hend]
    refine List.forall_mem_cons.2 ⟨fun t ht => ?_, List.forall_mem_append.2 ⟨fun i hi t ht => ?_, ?_⟩⟩
    · simp only [Inst.targets, List.mem_cons, Option.some.injEq, List.not_mem_nil, or_false] at ht
      omega
    · have := targets_map_shift hadds i hi t ht
      omega
    · refine List.forall_mem_singleton.2 fun t ht => ?_
      obtain rfl : t = c.prog.length := by simpa [Inst.targets] using ht
      omega
  · refine List.forall_mem_cons.2 ⟨True.intro, List.forall_mem_append.2 ⟨?_, ?_⟩⟩
    · exact names_map_shift hadds.names
    · exact List.forall_mem_singleton.2 True.intro
  · simp [Inst.targets, hopen]

/-- **`wrap_plus`.** -/
theorem wrapPlus_emits (h : c.Emits ps.code b) :
    MeetsDfa (ps.wrapPlus c.prog.length) fun ps' => ps.SameText ps' ∧ c.Emits ps'.code b := by
  obtain ⟨code, hadds, hopen⟩ := h
  unfold wrapPlus
  refine (emit_eq _).bind fun ps₁ ⟨htext₁, hcode₁⟩ => .pure ⟨⟨htext₁.rem, htext₁.pos⟩, ?_⟩
  have hprog₁ : ps₁.prog = ps.prog ++ [.split (some c.prog.length) none] :=
    congrArg Code.prog hcode₁
  have hlen₀ := hadds.length
  have hlen₁ : ps₁.prog.length = ps.prog.length + 1 := by
    rw [hprog₁]
    simp
  have hmod : ∀ f : Inst → Inst, ps₁.prog.modify ps.prog.length f =
      ps.prog ++ [f (.split (some c.prog.length) none)] := fun f => by
    rw [hprog₁, modify_append]
  have hcode : (ps₁.modify ps.prog.length fun i => i.setY ps₁.prog.length).code =
      ps.code.withProg (c.prog ++ (code ++ [.split (some c.prog.length) (some ps₁.prog.length)])) := by
    rw [code_modify, hmod, hcode₁, ← List.append_assoc, ← hadds.prog]
    rfl
  rw [hcode]
  refine ⟨_, ⟨rfl, ?_, ?_, hadds.nsets, hadds.ngroup, hadds.nest⟩, ?_⟩
  · have hend : (ps.code.withProg (c.prog ++ (code ++
        [.split (some c.prog.length) (some ps₁.prog.length)]))).prog.length = ps₁.prog.length := by
      rw [hlen₁, show ps.prog.length = ps.code.prog.length from rfl, hlen₀]
      simp [Code.withProg]
      omega
    rw [hend]
    have hlen₀ : ps.prog.length = c.prog.length + code.length := hlen₀
    refine List.forall_mem_append.2 ⟨fun i hi t ht => ?_, List.forall_mem_singleton.2 fun t ht => ?_⟩
    · have : c.prog.length ≤ t ∧ t ≤ ps.prog.length := hadds.targets i hi t ht
      omega
    · simp only [Inst.targets, List.mem_cons, Option.some.injEq, List.not_mem_nil, or_false] at ht
      omega
  · exact List.forall_mem_append.2 ⟨hadds.names, List.forall_mem_singleton.2 True.intro⟩
  · simp [Inst.targets, hopen]

end DfaParser

/-! ## Jumps without a target -/

/-- The instruction at `pc` has a target that is not known. -/
def OpenAt (prog : List Inst) (pc : ℕ) : Prop := ∃ i, prog[pc]? = some i ∧ none ∈ i.targets

theorem OpenAt.lt {prog : List Inst} {pc : ℕ} (h : OpenAt prog pc) : pc < prog.length := by
  obtain ⟨i, hi, -⟩ := h
  exact (List.getElem?_eq_some_iff.1 hi).1

theorem openAt_append_left {prog code : List Inst} {pc : ℕ} (h : pc < prog.length) :
    OpenAt (prog ++ code) pc ↔ OpenAt prog pc := by
  rw [OpenAt, List.getElem?_append_left h, OpenAt]

theorem open_iff_openAt (prog code : List Inst) :
    Open code ↔ ∃ pc, prog.length ≤ pc ∧ OpenAt (prog ++ code) pc := by
  constructor
  · rintro ⟨i, hi, hnone⟩
    obtain ⟨k, hk⟩ := List.mem_iff_getElem?.1 hi
    refine ⟨prog.length + k, Nat.le_add_right .., i, ?_, hnone⟩
    rwa [List.getElem?_append_right (Nat.le_add_right ..), Nat.add_sub_cancel_left]
  · rintro ⟨pc, hle, i, hi, hnone⟩
    rw [List.getElem?_append_right hle] at hi
    exact ⟨i, List.mem_of_getElem? hi, hnone⟩

/-- **An alternation under way**: the jumps behind its branches are the pending ones, and whether
anything else was left unknown. -/
structure Code.Pending (c c' : Code) (pend : List ℕ) (b : Bool) : Prop where
  adds : ∃ code, c.Adds c' code
  jumps : ∀ pc ∈ pend, c.prog.length ≤ pc ∧ c'.prog[pc]? = some (.jmp none)
  nodup : pend.Nodup
  rest : (∃ pc, c.prog.length ≤ pc ∧ pc ∉ pend ∧ OpenAt c'.prog pc) ↔ b = true

namespace Code

variable {c c₁ c₂ : Code} {code : List Inst} {pend : List ℕ} {b b' : Bool}

theorem Adds.open_iff (h : c.Adds c₁ code) :
    Open code ↔ ∃ pc, c.prog.length ≤ pc ∧ OpenAt c₁.prog pc := h.prog ▸ open_iff_openAt ..

theorem Pending.refl (c : Code) : c.Pending c [] false := by
  refine ⟨⟨[], .refl c⟩, nofun, List.nodup_nil, ?_⟩
  have := (Adds.refl c).open_iff
  simpa using this

theorem Pending.lt (h : c.Pending c₁ pend b) {pc : ℕ} (hpc : pc ∈ pend) : pc < c₁.prog.length :=
  (List.getElem?_eq_some_iff.1 (h.jumps pc hpc).2).1

theorem Pending.length_le (h : c.Pending c₁ pend b) : c.prog.length ≤ c₁.prog.length := by
  obtain ⟨code, hadds⟩ := h.adds
  have := hadds.length
  omega

/-- What is added behind leaves the pending jumps pending. -/
theorem Pending.add (h : c.Pending c₁ pend b) (hadds : c₁.Adds c₂ code) (hopen : Open code ↔ b' = true) :
    c.Pending c₂ pend (b || b') where
  adds := by
    obtain ⟨code₀, hadds₀⟩ := h.adds
    exact ⟨_, hadds₀.trans hadds⟩
  jumps pc hpc := by
    refine ⟨(h.jumps pc hpc).1, ?_⟩
    rw [hadds.prog, List.getElem?_append_left (h.lt hpc)]
    exact (h.jumps pc hpc).2
  nodup := h.nodup
  rest := by
    rw [Bool.or_eq_true, ← h.rest, ← hopen, hadds.open_iff]
    constructor
    · rintro ⟨pc, hle, hpc, hat⟩
      by_cases hlt : pc < c₁.prog.length
      · rw [hadds.prog, openAt_append_left hlt] at hat
        exact .inl ⟨pc, hle, hpc, hat⟩
      · exact .inr ⟨pc, Nat.le_of_not_lt hlt, hat⟩
    · rintro (⟨pc, hle, hpc, hat⟩ | ⟨pc, hle, hat⟩)
      · refine ⟨pc, hle, hpc, ?_⟩
        rwa [hadds.prog, openAt_append_left hat.lt]
      · exact ⟨pc, Nat.le_trans h.length_le hle, fun hpc => absurd (h.lt hpc) (Nat.not_lt.2 hle), hat⟩

/-- **One more jump**, behind a branch. -/
theorem Pending.jump {jp : ℕ} (h : c.Pending c₁ pend b) (code : List Inst)
    (hadds : c₁.Adds c₂ (code ++ [.jmp none]))
    (hopen : Open code ↔ b' = true) (hjp : jp = c₁.prog.length + code.length) :
    c.Pending c₂ (pend ++ [jp]) (b || b') where
  adds := by
    obtain ⟨code₀, hadds₀⟩ := h.adds
    exact ⟨_, hadds₀.trans hadds⟩
  jumps := by
    refine List.forall_mem_append.2 ⟨fun pc hpc => ⟨(h.jumps pc hpc).1, ?_⟩, ?_⟩
    · rw [hadds.prog, List.getElem?_append_left (h.lt hpc)]
      exact (h.jumps pc hpc).2
    · refine List.forall_mem_singleton.2 ⟨by have := h.length_le; omega, ?_⟩
      rw [hadds.prog, ← List.append_assoc, List.getElem?_append_right (by simp [hjp])]
      simp [hjp]
  nodup := by
    refine List.nodup_append.2 ⟨h.nodup, List.nodup_singleton _, fun a ha d hd hEq => ?_⟩
    have := h.lt ha
    rw [hEq, List.mem_singleton.1 hd] at this
    omega
  rest := by
    have hprog : c₂.prog = c₁.prog ++ code ++ [.jmp none] := by rw [hadds.prog, List.append_assoc]
    have hlen : (c₁.prog ++ code).length = jp := by rw [List.length_append, hjp]
    rw [Bool.or_eq_true, ← h.rest, ← hopen, open_iff_openAt c₁.prog, hprog]
    constructor
    · rintro ⟨pc, hle, hpc, hat⟩
      rw [List.mem_append, List.mem_singleton, not_or] at hpc
      have hlt : pc < (c₁.prog ++ code).length := by
        have := hat.lt
        rw [List.length_append, List.length_singleton] at this
        omega
      rw [openAt_append_left hlt] at hat
      by_cases hlt' : pc < c₁.prog.length
      · rw [openAt_append_left hlt'] at hat
        exact .inl ⟨pc, hle, hpc.1, hat⟩
      · exact .inr ⟨pc, Nat.le_of_not_lt hlt', hat⟩
    · rintro (⟨pc, hle, hpc, hat⟩ | ⟨pc, hle, hat⟩)
      · have hlt := hat.lt
        refine ⟨pc, hle, fun hmem => ?_, ?_⟩
        · rcases List.mem_append.1 hmem with hmem | hmem
          · exact hpc hmem
          · rw [List.mem_singleton.1 hmem] at hlt
            omega
        · rw [openAt_append_left (by omega), openAt_append_left hlt]
          exact hat
      · have hlt := hat.lt
        refine ⟨pc, Nat.le_trans h.length_le hle, fun hmem => ?_, ?_⟩
        · rcases List.mem_append.1 hmem with hmem | hmem
          · exact absurd (h.lt hmem) (Nat.not_lt.2 hle)
          · rw [List.mem_singleton.1 hmem] at hlt
            omega
        · rwa [openAt_append_left hlt]

end Code

namespace DfaParser

variable {ps : DfaParser} {c : Code} {pend : List ℕ} {b : Bool}

theorem patch_code (pcs : List ℕ) (ps : DfaParser) : ps.SameText (ps.patch pcs) ∧
    (ps.patch pcs).code = ps.code.withProg
      (pcs.foldl (fun prog pc => prog.modify pc (Inst.setX ps.prog.length)) ps.prog) := by
  unfold patch
  generalize Inst.setX ps.prog.length = f
  induction pcs generalizing ps with
  | nil => exact ⟨.refl ps, rfl⟩
  | cons pc pcs ih =>
    obtain ⟨htext, hcode⟩ := @ih (ps.modify pc f)
    exact ⟨⟨htext.rem, htext.pos⟩, hcode⟩

/-- What a patched program has at `pc`. -/
theorem getElem?_patch (t : ℕ) : ∀ (pcs : List ℕ) (prog : List Inst) (pc : ℕ),
    (pcs.foldl (fun prog pc => prog.modify pc (Inst.setX t)) prog)[pc]? =
      prog[pc]?.map fun i => if pc ∈ pcs then i.setX t else i
  | [], prog, pc => by simp
  | q :: pcs, prog, pc => by
      rw [List.foldl_cons, getElem?_patch t pcs, List.getElem?_modify]
      cases prog[pc]? with
      | none => rfl
      | some i =>
        by_cases hq : q = pc
        · by_cases hpc : pc ∈ pcs
          · simp [hq, hpc, Inst.setX_setX]
          · simp [hq, hpc]
        · have hq' : pc ≠ q := fun h => hq h.symm
          by_cases hpc : pc ∈ pcs <;> simp [hq, hq', hpc]

theorem mem_take_or (n : ℕ) (hnodup : pend.Nodup) :
    (∃ pc ∈ pend, pc ∉ pend.take n) ↔ n < pend.length := by
  constructor
  · rintro ⟨pc, hpc, hno⟩
    by_contra hle
    rw [List.take_of_length_le (Nat.le_of_not_lt hle)] at hno
    exact hno hpc
  · intro hlt
    refine ⟨pend[n], List.getElem_mem hlt, fun hmem => ?_⟩
    refine List.disjoint_take_drop hnodup (Nat.le_refl n) hmem ?_
    rw [List.drop_eq_getElem_cons hlt]
    exact List.mem_cons_self ..

/-- **The jumps get their target**, as far as there was room for them. -/
theorem patch_emits (h : c.Pending ps.code pend b) : ps.SameText (ps.patch (pend.take 64)) ∧
    c.Emits (ps.patch (pend.take 64)).code (b || decide (64 < pend.length)) := by
  obtain ⟨htext, hcode⟩ := patch_code (pend.take 64) ps
  refine ⟨htext, ?_⟩
  rw [hcode]
  obtain ⟨code, hadds⟩ := h.adds
  set prog := (pend.take 64).foldl (fun prog pc => prog.modify pc (Inst.setX ps.prog.length)) ps.prog
    with hprogEq
  have hget : ∀ pc, prog[pc]? = ps.code.prog[pc]?.map fun i =>
      if pc ∈ pend.take 64 then i.setX ps.prog.length else i := getElem?_patch _ _ _
  have hlen : prog.length = ps.code.prog.length := by
    refine Nat.le_antisymm (List.getElem?_eq_none_iff.1 ?_) (List.getElem?_eq_none_iff.1 ?_)
    · rw [hget, List.getElem?_eq_none (Nat.le_refl _)]
      rfl
    · have := hget prog.length
      rw [List.getElem?_eq_none (Nat.le_refl _)] at this
      exact Option.map_eq_none_iff.1 this.symm
  have hpend : ∀ pc ∈ pend.take 64, c.prog.length ≤ pc ∧ ps.code.prog[pc]? = some (.jmp none) :=
    fun pc hpc => h.jumps pc (List.mem_of_mem_take hpc)
  have hsplit : prog = c.prog ++ prog.drop c.prog.length := by
    conv_lhs => rw [← List.take_append_drop c.prog.length prog]
    congr 1
    refine List.ext_getElem? fun pc => ?_
    rw [List.getElem?_take]
    split_ifs with hlt
    · have hno : pc ∉ pend.take 64 := fun hpc => Nat.not_lt.2 (hpend pc hpc).1 hlt
      rw [hget, hadds.prog, List.getElem?_append_left hlt]
      simp [hno]
    · rw [List.getElem?_eq_none (Nat.le_of_not_lt hlt)]
  -- each instruction is one of the old ones, or a jump to the end
  have hfrom : ∀ i ∈ prog.drop c.prog.length, i ∈ code ∨ i = .jmp (some ps.prog.length) := by
    intro i hi
    obtain ⟨k, hk⟩ := List.mem_iff_getElem?.1 hi
    rw [List.getElem?_drop, hget] at hk
    by_cases hmem : c.prog.length + k ∈ pend.take 64
    · rw [(hpend _ hmem).2] at hk
      simp only [Option.map_some, hmem, if_true, Option.some.injEq] at hk
      exact .inr hk.symm
    · simp only [hmem, if_false, Option.map_id'] at hk
      rw [hadds.prog, List.getElem?_append_right (Nat.le_add_right ..)] at hk
      exact .inl (List.mem_of_getElem? hk)
  refine ⟨prog.drop c.prog.length, ⟨hsplit, ?_, ?_, hadds.nsets, hadds.ngroup, hadds.nest⟩, ?_⟩
  · intro i hi t ht
    change _ ≤ _ ∧ t ≤ prog.length
    rw [hlen]
    rcases hfrom i hi with hi | rfl
    · exact hadds.targets i hi t ht
    · obtain rfl : t = ps.prog.length := by simpa [Inst.targets] using ht
      exact ⟨h.length_le, Nat.le_refl _⟩
  · intro i hi
    rcases hfrom i hi with hi | rfl
    · exact hadds.names i hi
    · exact True.intro
  · rw [open_iff_openAt c.prog, ← hsplit, Bool.or_eq_true, decide_eq_true_eq, ← h.rest,
      ← mem_take_or 64 h.nodup]
    have hat : ∀ pc, OpenAt prog pc ↔ pc ∉ pend.take 64 ∧ OpenAt ps.code.prog pc := fun pc => by
      unfold OpenAt
      rw [hget]
      by_cases hmem : pc ∈ pend.take 64
      · rw [(hpend pc hmem).2]
        simp [hmem, Inst.setX, Inst.targets]
      · simp [hmem]
    constructor
    · rintro ⟨pc, hle, hopen⟩
      obtain ⟨hno, hopen⟩ := (hat pc).1 hopen
      by_cases hmem : pc ∈ pend
      · exact .inr ⟨pc, hmem, hno⟩
      · exact .inl ⟨pc, hle, hmem, hopen⟩
    · rintro (⟨pc, hle, hmem, hopen⟩ | ⟨pc, hmem, hno⟩)
      · exact ⟨pc, hle, (hat pc).2 ⟨fun hin => hmem (List.mem_of_mem_take hin), hopen⟩⟩
      · obtain ⟨hle, hjmp⟩ := h.jumps pc hmem
        exact ⟨pc, hle, (hat pc).2 ⟨hno, _, hjmp, by simp [Inst.targets]⟩⟩

end DfaParser

end Shish
