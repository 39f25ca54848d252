import Shish.Dfa.Crowded
import Shish.Dfa.Emit

/-!
# Dfa/Compiled — the compiled program is well formed

Every part of the compiler takes its text from the front and adds the code for it.  A target stays
unknown only where the text is crowded (`Compiles`), and then the program is not well formed.
-/

namespace Shish

namespace DfaParser

variable {fl : DfaFlags} {ps ps' : DfaParser} {u rest : Str} {c : Char} {n : ℕ}

/-- **What is compiled of a text**: it is gone, and the code is added. -/
def Compiles (fl : DfaFlags) (ps ps' : DfaParser) : Prop :=
  ∃ u b, u ≠ [] ∧ ps.rem = u ++ ps'.rem ∧ Neutral fl u b ∧ ps.code.Emits ps'.code b

/-- The same of an alternation, or a single branch. -/
def CompilesAlt (fl : DfaFlags) (ps ps' : DfaParser) : Prop :=
  ∃ u k b, ps.rem = u ++ ps'.rem ∧ Branches fl u k b ∧ ps.code.Emits ps'.code (b || decide (64 < k))

/-- Some code without targets. -/
abbrev Straight (ps : DfaParser) (r : Except DfaErr DfaParser) : Prop :=
  MeetsDfa r fun ps' => ps.SameText ps' ∧ ps.code.Emits ps'.code false

/-! ## Atoms -/

theorem literal_straight (fl : DfaFlags) (c : Char) (ps : DfaParser) :
    ps.Straight (ps.literal fl c) := by
  unfold literal
  split_ifs
  · exact emitSet_emits _
  · exact emit_emits rfl True.intro

/-- Code for a text in front. -/
theorem Straight.compiles {k : ℕ} {r : Except DfaErr DfaParser} (h : (ps.advance k).Straight r)
    (hu : ps.rem = u ++ rest) (hk : u.length = k) (hne : u ≠ []) (hneut : Neutral fl u false) :
    MeetsDfa r (ps.Compiles fl) := by
  refine h.mono fun ps' ⟨htext, hcode⟩ => ⟨u, false, hne, ?_, hneut, hcode⟩
  have hrem : ps'.rem = ps.rem.drop k := htext.rem
  rw [hrem, hu, ← hk, List.drop_left]

theorem escByte_isPlain {e : Char} (h : (escByte e).isSome) : isPlain e := by
  unfold escByte at h
  split at h <;> first | decide | exact absurd h (by simp)

theorem digitValue_isPlain {c : Char} (h : digitValue c < 16) : isPlain c := by
  by_contra hno
  simp only [isPlain, Bool.and_eq_true, bne_iff_ne, ne_eq] at hno
  have : c = '\\' ∨ c = '[' ∨ c = '|' ∨ c = '(' ∨ c = ')' := by
    by_contra hall
    simp only [not_or] at hall
    exact hno ⟨⟨⟨⟨hall.1, hall.2.1⟩, hall.2.2.1⟩, hall.2.2.2.1⟩, hall.2.2.2.2⟩
  rcases this with rfl | rfl | rfl | rfl | rfl <;> exact absurd h (by decide)

/-- The digits that are read are digits. -/
theorem escDigits_eq {base : ℕ} (hbase : base ≤ 16) : ∀ {k : ℕ} {t : Str},
    ∃ u, t = u ++ (escDigits base k t).2.2 ∧ u.length = (escDigits base k t).2.1 ∧
      ∀ c ∈ u, isPlain c
  | 0, t => ⟨[], rfl, rfl, nofun⟩
  | _ + 1, [] => ⟨[], rfl, rfl, nofun⟩
  | k + 1, c :: t => by
      rw [escDigits]
      split_ifs with hc
      · exact ⟨[], rfl, rfl, nofun⟩
      · obtain ⟨u, ht, hlen, hplain⟩ := escDigits_eq (t := t) (k := k) hbase
        refine ⟨c :: u, congrArg (c :: ·) ht, congrArg (· + 1) hlen, ?_⟩
        exact List.forall_mem_cons.2 ⟨digitValue_isPlain (by omega), hplain⟩

theorem escBase_eq (e : Char) : (escBase e).1 ≤ 16 ∧ (escBase e = (0, 0) ∨ isPlain e) := by
  unfold escBase
  split
  · exact ⟨Nat.le_refl _, .inr rfl⟩
  · exact ⟨by decide, .inr rfl⟩
  · exact ⟨by decide, .inr rfl⟩
  · exact ⟨by decide, .inl rfl⟩

theorem escNumber_eq {e : Char} {t : Str} {got : ℕ} (h : escNumber e t = some (c, got)) :
    isPlain e ∧ ∃ u r, t = u ++ r ∧ u.length = got ∧ ∀ c ∈ u, isPlain c := by
  unfold escNumber at h
  cases hbyte : escByte e with
  | some d =>
    rw [hbyte] at h
    obtain ⟨-, rfl⟩ := Prod.mk.inj (Option.some.inj h)
    exact ⟨escByte_isPlain (by rw [hbyte]; rfl), [], t, rfl, rfl, nofun⟩
  | none =>
    rw [hbyte] at h
    dsimp only at h
    split_ifs at h with hgot
    obtain ⟨-, rfl⟩ := Prod.mk.inj (Option.some.inj h)
    obtain ⟨hle, hplain⟩ := escBase_eq e
    refine ⟨hplain.resolve_left fun hzero => hgot ?_, ?_⟩
    · rw [hzero]
      cases t <;> rfl
    · obtain ⟨u, ht, hlen, hu⟩ := escDigits_eq (t := t) hle
      exact ⟨u, _, ht, hlen, hu⟩

/-- **The part behind a backslash.** -/
theorem parseEscape_compiles {t : Str} (hrem : ps.rem = '\\' :: t) (halt : altLen fl ps.rem = 0)
    (hopen : openLen fl ps.rem = 0) (hclose : closeLen fl ps.rem = 0) :
    MeetsDfa (ps.parseEscape fl) (ps.Compiles fl) := by
  unfold parseEscape
  rw [show ps.rem.drop 1 = t by rw [hrem]; rfl]
  cases t with
  | nil => exact .error (fun h => by cases h)
  | cons e t =>
    have hneut : Neutral fl ['\\', e] false := by
      refine neutral_escape e fun hfl => ⟨?_, ?_, ?_⟩
      · rintro rfl
        simp [hrem, altLen, hfl] at halt
      · rintro rfl
        simp [hrem, openLen, hfl] at hopen
      · rintro rfl
        simp [hrem, closeLen, hfl] at hclose
    have hne : ['\\', e] ≠ [] := List.cons_ne_nil _ _
    have hplain : ∀ r, (ps.advance 2).Straight r → MeetsDfa r (ps.Compiles fl) := fun r h =>
      Straight.compiles h hrem rfl hne hneut
    dsimp only
    by_cases hdigit : ('1' ≤ e && e ≤ '9') = true
    · rw [if_pos hdigit]
      split_ifs with hg
      · exact .error (fun h => by cases h)
      · simp only [Bool.and_eq_true, decide_eq_true_eq] at hdigit
        have hle : '1'.toNat ≤ e.toNat := hdigit.1
        have h49 : '1'.toNat = 49 := rfl
        have hstraight : Straight ({ ps with hasBackref := true }.advance 2)
            (emit (.backref (e.toNat - 48)) _) :=
          emit_emits rfl ⟨by omega, Nat.le_of_not_lt hg⟩
        exact hplain _ (hstraight.mono fun ps' h => ⟨⟨h.1.rem, h.1.pos⟩, h.2⟩)
    rw [if_neg hdigit]
    split
    · next d got hnum =>
      split_ifs at hnum with hesc
      obtain ⟨he, w, r, rfl, hw, hwplain⟩ := escNumber_eq hnum
      refine Straight.compiles (k := 2 + got) (emit_emits rfl True.intro) (u := '\\' :: e :: w)
        hrem ?_ (List.cons_ne_nil _ _) (hneut.append (neutral_plain hwplain))
      rw [List.length_cons, List.length_cons, hw]
      omega
    · split
      · exact hplain _ (emit_emits rfl True.intro)
      · split_ifs
        · exact hplain _ (emitSet_emits _)
        · exact hplain _ (literal_straight ..)

/-- What is asked of the parser of an alternation: `n` is how deep it may be. -/
abbrev AltSpec (fl : DfaFlags) (n : ℕ) (alt : DfaParser → Except DfaErr DfaParser) : Prop :=
  ∀ ps : DfaParser, ps.code.Ok → n ≤ ps.nest → MeetsDfa (alt ps) (ps.CompilesAlt fl)

theorem groupIndex_eq (src : ℕ) (ps : DfaParser) :
    Meets (· = DfaErr.fuel) (ps.groupIndex src) fun r =>
      ps.SameText r.2 ∧ ps.code.Adds r.2.code [] ∧ r.1 < r.2.gsrc.length := by
  unfold groupIndex
  split
  · next i hi =>
    exact .ok ⟨.refl ps, .refl _, (List.findIdx?_eq_some_iff_findIdx_eq.1 hi).1⟩
  · split_ifs
    · exact .error nofun
    · refine .ok ⟨⟨rfl, rfl⟩, ⟨(List.append_nil _).symm, nofun, nofun, Nat.le_refl _, ?_, rfl⟩, ?_⟩
      · simp [DfaParser.code]
      · simp

theorem closeGroup_straight {g : ℕ} {c : Code} {b : Bool} (hg : g < ps.gsrc.length)
    (h : (c.withNest (c.nest + 1)).Emits ps.code b) :
    MeetsDfa (ps.closeGroup fl g) fun ps' => ps.rem = token fl ')' ++ ps'.rem ∧ c.Emits ps'.code b := by
  unfold closeGroup
  split_ifs with hclose
  · exact .error nofun
  obtain ⟨hrem, hlen⟩ := closeLen_eq (Nat.pos_of_ne_zero hclose)
  have hlt : 2 * g + 1 < 2 * ps.gsrc.length := by omega
  have hstraight : Straight { ps.advance (closeLen fl ps.rem) with nest := ps.nest - 1 }
      (emit (.save (2 * g + 1)) _) := emit_emits rfl hlt
  refine hstraight.mono fun ps' ⟨htext, hemits⟩ => ⟨?_, ?_⟩
  · rw [htext.rem]
    exact hrem
  · have hnest : ps.nest - 1 = c.nest := by
      have : ps.nest = c.nest + 1 := h.nest
      omega
    have hout : c.Emits (ps.code.withNest c.nest) b := h.withNest c.nest
    rw [← hnest] at hout
    exact Bool.or_false b ▸ hout.trans hemits

/-- **A group.** -/
theorem parseGroup_compiles {alt : DfaParser → Except DfaErr DfaParser} (halt : AltSpec fl n alt)
    (hok : ps.code.Ok) (hn : n ≤ ps.nest + 1) (hopen : 0 < openLen fl ps.rem) :
    MeetsDfa (ps.parseGroup fl alt) (ps.Compiles fl) := by
  unfold parseGroup
  split_ifs with hnest
  · exact .error nofun
  obtain ⟨hrem, hlen⟩ := openLen_eq hopen
  refine (groupIndex_eq ..).bind fun r ⟨htext₁, hadds₁, hg⟩ => ?_
  obtain ⟨g, ps₁⟩ := r
  have hslot : 2 * g < 2 * ps₁.gsrc.length := by
    have : g < ps₁.gsrc.length := hg
    omega
  refine (emit_emits (i := .save (2 * g)) rfl hslot).bind fun ps₂ ⟨htext₂, hemits₂⟩ => ?_
  have hemits₁ : (ps.code.withNest (ps.nest + 1)).Emits ps₁.code false := ⟨[], hadds₁, by simp⟩
  have hgroup₂ : ps₁.gsrc.length ≤ ps₂.gsrc.length := hemits₂.ngroup
  have hemits₂ := hemits₁.trans hemits₂
  have hok₂ : ps₂.code.Ok := hemits₂.ok ⟨hok.targets, hok.names, Nat.le_of_not_lt hnest⟩
  have hnest₂ : ps₂.nest = ps.nest + 1 := hemits₂.nest
  refine (halt ps₂ hok₂ (by omega)).bind fun ps₃ ⟨u, k, b, hu, hbranches, hemits₃⟩ => ?_
  have hg₃ : g < ps₃.gsrc.length :=
    Nat.lt_of_lt_of_le hg (Nat.le_trans hgroup₂ hemits₃.ngroup)
  refine (closeGroup_straight hg₃ (c := ps.code) (hemits₂.trans hemits₃)).mono
    fun ps₄ ⟨hclose, hemits⟩ => ?_
  refine ⟨token fl '(' ++ u ++ token fl ')', _, ?_, ?_, neutral_group hbranches, ?_⟩
  · unfold token
    split_ifs <;> simp
  · have hrem₂ : ps₂.rem = ps.rem.drop (openLen fl ps.rem) := htext₂.rem.trans htext₁.rem
    rw [hrem, ← hrem₂, hu, hclose]
    simp
  · exact hemits

/-- A character of its own. -/
theorem neutral_single (hc : c ≠ '\\') (hb : c ≠ '[') (halt : altLen fl (c :: u) = 0)
    (hopen : openLen fl (c :: u) = 0) (hclose : closeLen fl (c :: u) = 0) :
    Neutral fl [c] false := by
  refine neutral_char hc hb fun hfl => ⟨?_, ?_, ?_⟩
  · rintro rfl
    simp [altLen, hfl] at halt
  · rintro rfl
    simp [openLen, hfl] at hopen
  · rintro rfl
    simp [closeLen, hfl] at hclose

theorem bracketGo_ne_fuel (esc first : Bool) (set : Byteset) (t : Str) :
    bracketGo esc first set t ≠ .error .fuel := by
  fun_induction bracketGo esc first set t <;> first | (intro h; cases h; done) | assumption

theorem bracketCompile_ne_fuel (t : Str) : bracketCompile fl t ≠ .error .fuel := by
  unfold bracketCompile
  dsimp only
  cases hgo : bracketGo fl.esc true 0 (if (t.head? == some '^') = true then t.tail else t) with
  | error e =>
    rintro h
    obtain rfl : e = .fuel := Except.error.inj h
    exact bracketGo_ne_fuel _ _ _ _ hgo
  | ok r => exact nofun

/-- **A bracket expression.** -/
theorem bracketCompile_compiles {t : Str} (hrem : ps.rem = '[' :: t) :
    MeetsDfa (do
      let (set, rest) ← bracketCompile fl t
      (ps.advance (ps.rem.length - rest.length)).emitSet set) (ps.Compiles fl) := by
  cases hset : bracketCompile fl t with
  | error e =>
    refine .error ?_
    rintro rfl
    exact bracketCompile_ne_fuel t hset
  | ok r =>
    obtain ⟨x, hx, hneut⟩ := neutral_bracket hset
    have hlen : ps.rem.length - r.2.length = ('[' :: x).length := by
      rw [hrem, hx]
      simp
      omega
    have hsplit : ps.rem = '[' :: x ++ r.2 := by rw [hrem, hx, List.cons_append]
    exact Straight.compiles (k := ps.rem.length - r.2.length) (emitSet_emits _) hsplit hlen.symm
      (List.cons_ne_nil _ _) hneut

/-- **An atom.** -/
theorem parseAtom_compiles {alt : DfaParser → Except DfaErr DfaParser} (hspec : AltSpec fl n alt)
    (hok : ps.code.Ok) (hn : n ≤ ps.nest + 1) (halt : altLen fl ps.rem = 0)
    (hclose : closeLen fl ps.rem = 0) : MeetsDfa (ps.parseAtom fl alt) (ps.Compiles fl) := by
  unfold parseAtom
  split
  · exact .error (fun h => by cases h)
  next c t hrem =>
  have hsingle : c ≠ '\\' → c ≠ '[' → openLen fl ps.rem = 0 →
      ∀ r, (ps.advance 1).Straight r → MeetsDfa r (ps.Compiles fl) := fun hbs hbr hopen r h => by
    rw [hrem] at halt hopen hclose
    exact Straight.compiles h (u := [c]) hrem rfl (List.cons_ne_nil _ _)
      (neutral_single hbs hbr halt hopen hclose)
  have hno : ∀ {d : Char}, d ≠ '\\' → d ≠ '(' → c = d → openLen fl ps.rem = 0 := fun hbs hpar hcd => by
    rw [hrem, hcd, openLen_cons hbs]
    simp [hpar]
  split_ifs with hdot hbr hopen hbol heol hbs
  · obtain rfl : c = '.' := by simpa using hdot
    exact hsingle (by decide) (by decide) (hno (by decide) (by decide) rfl) _
      (emit_emits rfl True.intro)
  · obtain rfl : c = '[' := by simpa using hbr
    exact bracketCompile_compiles hrem
  · exact parseGroup_compiles hspec hok hn hopen
  · simp only [Bool.and_eq_true, beq_iff_eq] at hbol
    obtain rfl := hbol.1
    exact hsingle (by decide) (by decide) (Nat.eq_zero_of_not_pos hopen) _ (emit_emits rfl True.intro)
  · simp only [Bool.and_eq_true, beq_iff_eq] at heol
    obtain rfl := heol.1
    exact hsingle (by decide) (by decide) (Nat.eq_zero_of_not_pos hopen) _ (emit_emits rfl True.intro)
  · obtain rfl : c = '\\' := by simpa using hbs
    exact parseEscape_compiles hrem halt (Nat.eq_zero_of_not_pos hopen) hclose
  · exact hsingle (by simpa using hbs) (by simpa using hbr) (Nat.eq_zero_of_not_pos hopen) _
      (literal_straight ..)

/-! ## Repetition -/

theorem repeatOp_eq {t : Str} {op : Char} {len : ℕ} (h : repeatOp fl t = some (op, len)) :
    ∃ u r, t = u ++ r ∧ u.length = len ∧ Neutral fl u false := by
  unfold repeatOp at h
  split at h
  · next t =>
    obtain ⟨rfl, rfl⟩ := Prod.mk.inj (Option.some.inj h)
    exact ⟨['*'], t, rfl, rfl, neutral_plain (by simp [isPlain])⟩
  · next c t _ =>
    split_ifs at h with hfl hop hbs
    · obtain ⟨rfl, rfl⟩ := Prod.mk.inj (Option.some.inj h)
      refine ⟨[c], t, rfl, rfl, neutral_plain (List.forall_mem_singleton.2 ?_)⟩
      simp only [Bool.or_eq_true, beq_iff_eq] at hop
      rcases hop with rfl | rfl <;> rfl
    · obtain ⟨e, he, hpair⟩ := Option.map_eq_some_iff.1 h
      obtain ⟨rfl, rfl⟩ := Prod.mk.inj hpair
      obtain ⟨hhead, hmem⟩ := Option.filter_eq_some_iff.1 he
      obtain ⟨t, rfl⟩ : ∃ t', t = e :: t' := by
        cases t with
        | nil => cases hhead
        | cons d t => exact ⟨t, by rw [Option.some.inj hhead]⟩
      obtain rfl : c = '\\' := by simpa using hbs
      refine ⟨['\\', e], t, rfl, rfl, neutral_escape e fun _ => ?_⟩
      simp only [List.mem_cons, List.not_mem_nil, or_false, decide_eq_true_eq] at hmem
      rcases hmem with rfl | rfl <;> decide
  · cases h

variable {c : Code} {b : Bool}

theorem applyRepeat_emits (hc : c.Ok) (op : Char) (h : c.Emits ps.code b) :
    MeetsDfa (ps.applyRepeat c.prog.length op) fun ps' => ps.SameText ps' ∧ c.Emits ps'.code b := by
  unfold applyRepeat
  split_ifs
  · exact wrapStar_emits hc h
  · exact wrapPlus_emits h
  · exact wrapOptional_emits hc h false

/-- **The stacked operators.** -/
theorem repeats_emits (hc : c.Ok) : ∀ (k : ℕ) (ps : DfaParser), c.Emits ps.code b →
    MeetsDfa (repeats fl c.prog.length k ps) fun ps' =>
      ∃ u, ps.rem = u ++ ps'.rem ∧ Neutral fl u false ∧ c.Emits ps'.code b
  | 0, ps, h => .ok ⟨[], rfl, neutral_nil, h⟩
  | k + 1, ps, h => by
      rw [repeats]
      split
      · exact .ok ⟨[], rfl, neutral_nil, h⟩
      next op len hop =>
      obtain ⟨u, r, hrem, hlen, hneut⟩ := repeatOp_eq hop
      have hstep : MeetsDfa ((ps.advance len).applyRepeat c.prog.length op) fun ps' =>
          (ps.advance len).SameText ps' ∧ c.Emits ps'.code b := applyRepeat_emits hc op h
      refine hstep.bind fun ps₁ ⟨htext, hemits⟩ => ?_
      refine (repeats_emits hc k ps₁ hemits).mono fun ps' ⟨u', hrem', hneut', hemits'⟩ => ?_
      refine ⟨u ++ u', ?_, hneut.append hneut', hemits'⟩
      have hr : ps₁.rem = r := by
        rw [htext.rem]
        change ps.rem.drop len = r
        rw [hrem, ← hlen, List.drop_left]
      rw [hrem, ← hr, hrem', List.append_assoc]

theorem isdigit_isPlain {c : Char} (h : Byteset.isdigit c) : isPlain c := by
  refine digitValue_isPlain ?_
  simp only [Byteset.isdigit, Bool.and_eq_true, decide_eq_true_eq] at h
  have hhi : c.toNat ≤ '9'.toNat := h.2
  have h57 : '9'.toNat = 57 := rfl
  simp only [digitValue, h.1, h.2, decide_true, Bool.and_self, if_true]
  omega

theorem dupNumber_eq : ∀ (a : ℕ) (t : Str), Meets (· = DfaErr.fuel) (dupNumber a t) fun r =>
    ∃ u, t = u ++ r.2 ∧ ∀ c ∈ u, isPlain c
  | a, [] => .ok ⟨[], rfl, nofun⟩
  | a, c :: t => by
      rw [dupNumber]
      dsimp only
      by_cases hc : Byteset.isdigit c = true
      · rw [if_pos hc]
        split_ifs
        · exact .error nofun
        · exact (dupNumber_eq _ t).mono fun r ⟨u, ht, hu⟩ =>
            ⟨c :: u, congrArg (c :: ·) ht, List.forall_mem_cons.2 ⟨isdigit_isPlain hc, hu⟩⟩
      · rw [if_neg hc]
        exact .ok ⟨[], rfl, nofun⟩

theorem intervalSpec_eq (t : Str) : Meets (· = DfaErr.fuel) (intervalSpec t) fun r =>
    ∃ u, t = u ++ r.2.2 ∧ ∀ c ∈ u, isPlain c := by
  unfold intervalSpec
  refine (dupNumber_eq 0 t).bind fun r₁ ⟨u, ht, hu⟩ => ?_
  obtain ⟨a, t₁⟩ := r₁
  dsimp only at ht ⊢
  by_cases hbad : (!t.head?.any Byteset.isdigit && t₁.head? != some ',') = true
  · rw [if_pos hbad]
    exact .error nofun
  rw [if_neg hbad]
  by_cases hcomma : (t₁.head? == some ',') = true
  · rw [if_pos hcomma]
    obtain ⟨r, rfl⟩ : ∃ r, t₁ = ',' :: r := by
      rw [beq_iff_eq] at hcomma
      cases t₁ with
      | nil => exact absurd hcomma nofun
      | cons d r => exact ⟨r, by rw [Option.some.inj hcomma]⟩
    refine (dupNumber_eq 0 r).bind fun r₂ ⟨v, hv, hvplain⟩ => ?_
    have ht' : t = (u ++ ',' :: v) ++ r₂.2 := by
      rw [ht, hv, List.append_assoc, List.cons_append]
    have hplain : ∀ c ∈ u ++ ',' :: v, isPlain c :=
      List.forall_mem_append.2 ⟨hu, List.forall_mem_cons.2 ⟨rfl, hvplain⟩⟩
    obtain ⟨d, t₂⟩ := r₂
    dsimp only at ht' ⊢
    split_ifs
    · exact .error nofun
    · exact .ok ⟨_, ht', hplain⟩
    · exact .ok ⟨_, ht', hplain⟩
  · rw [if_neg hcomma]
    exact .ok ⟨u, ht, hu⟩

/-- What is asked of the parser of an atom that is compiled once more: it leaves nothing unknown that
was not so before. -/
abbrev AgainSpec (c : Code) (b : Bool) (atom : DfaParser → Except DfaErr DfaParser) : Prop :=
  ∀ ps : DfaParser, c.Emits ps.code b → MeetsDfa (atom ps) fun ps' =>
    ps.SameText ps' ∧ ∃ b', ps.code.Emits ps'.code b' ∧ (b' = true → b = true)

theorem emits_absorb {c c₁ c₂ : Code} {b' : Bool} (h : c.Emits c₁ b) (h' : c₁.Emits c₂ b')
    (hb : b' = true → b = true) : c.Emits c₂ b := by
  have : (b || b') = b := by cases b <;> cases b' <;> simp_all
  exact this ▸ h.trans h'

theorem times_emits {f : DfaParser → Except DfaErr DfaParser}
    (hf : ∀ ps : DfaParser, c.Emits ps.code b → MeetsDfa (f ps) fun ps' =>
      ps.SameText ps' ∧ c.Emits ps'.code b) : ∀ (k : ℕ) (ps : DfaParser), c.Emits ps.code b →
    MeetsDfa (times f k ps) fun ps' => ps.SameText ps' ∧ c.Emits ps'.code b
  | 0, ps, h => .ok ⟨.refl ps, h⟩
  | k + 1, ps, h => by
      refine (hf ps h).bind fun ps₁ ⟨htext, h₁⟩ => ?_
      exact (times_emits hf k ps₁ h₁).mono fun ps' ⟨htext', h'⟩ => ⟨htext.trans htext', h'⟩

/-- **`apply_interval`**, behind the copies that there must be. -/
theorem applyMore_emits {atom : DfaParser → Except DfaErr DfaParser} (hc : c.Ok)
    (hatom : AgainSpec c b atom) (m : ℕ) (h : c.Emits ps.code b) : ∀ n : Option ℕ,
    MeetsDfa (ps.applyMore atom m n) fun ps' => ps.SameText ps' ∧ c.Emits ps'.code b
  | none => by
      refine (hatom ps h).bind fun ps₁ ⟨htext, b', h', hb⟩ => ?_
      exact (wrapStar_emits (h.ok hc) h').mono fun ps' ⟨htext', h''⟩ =>
        ⟨htext.trans htext', emits_absorb h h'' hb⟩
  | some n => by
      refine times_emits (fun ps h => ?_) _ ps h
      refine (hatom ps h).bind fun ps₁ ⟨htext, b', h', hb⟩ => ?_
      exact (wrapOptional_emits (h.ok hc) h' false).mono fun ps' ⟨htext', h''⟩ =>
        ⟨htext.trans htext', emits_absorb h h'' hb⟩

/-- **`apply_interval`.** -/
theorem applyInterval_emits {atom : DfaParser → Except DfaErr DfaParser} (hc : c.Ok)
    (hatom : AgainSpec c b atom) (m : ℕ) (n : Option ℕ) (h : c.Emits ps.code b) :
    MeetsDfa (ps.applyInterval atom c.prog.length m n) fun ps' =>
      ps.SameText ps' ∧ c.Emits ps'.code b := by
  have hagain : ∀ ps : DfaParser, c.Emits ps.code b → MeetsDfa (atom ps) fun ps' =>
      ps.SameText ps' ∧ c.Emits ps'.code b := fun ps h =>
    (hatom ps h).mono fun ps' ⟨htext, b', h', hb⟩ => ⟨htext, emits_absorb h h' hb⟩
  have hmore : ∀ ps₁ : DfaParser, ps.SameText ps₁ ∧ c.Emits ps₁.code b →
      MeetsDfa (ps₁.applyMore atom m n) fun ps' => ps.SameText ps' ∧ c.Emits ps'.code b :=
    fun ps₁ ⟨htext, h₁⟩ => (applyMore_emits hc hatom m h₁ n).mono fun ps' ⟨htext', h'⟩ =>
      ⟨htext.trans htext', h'⟩
  unfold applyInterval
  split_ifs
  · exact wrapOptional_emits hc h true
  · exact (wrapOptional_emits hc h false).bind hmore
  · exact (times_emits hagain _ ps h).bind hmore

/-- A brace in front, in an ERE or a BRE. -/
theorem brace_eq {d : Char} {t : Str} {k : ℕ} (hplain : isPlain d) (hno : d ≠ '|' ∧ d ≠ '(' ∧ d ≠ ')')
    (h : k = 1 ∧ t.head? = some d ∨ k = 2 ∧ t.take 2 = ['\\', d]) :
    ∃ u, t = u ++ t.drop k ∧ Neutral fl u false := by
  rcases h with ⟨rfl, hhead⟩ | ⟨rfl, htake⟩
  · refine ⟨[d], ?_, neutral_plain (List.forall_mem_singleton.2 hplain)⟩
    cases t with
    | nil => exact absurd hhead nofun
    | cons e r => rw [Option.some.inj hhead, List.drop_one, List.tail_cons, List.singleton_append]
  · refine ⟨['\\', d], ?_, neutral_escape d fun _ => hno⟩
    conv_lhs => rw [← List.take_append_drop 2 t, htake]

theorem intervalLen_eq {t : Str} (h : intervalLen fl t ≠ 0) :
    ∃ u, t = u ++ t.drop (intervalLen fl t) ∧ Neutral fl u false := by
  refine brace_eq (d := '{') rfl (by decide) ?_
  unfold intervalLen at h ⊢
  split_ifs at h ⊢ with hfl hhead htake
  · exact .inl ⟨rfl, by simpa using (Bool.and_eq_true_iff.1 hhead).1⟩
  · exact absurd rfl h
  · exact .inr ⟨rfl, by simpa using htake⟩
  · exact absurd rfl h

theorem intervalEnd_eq {t : Str} (h : intervalEnd fl t ≠ 0) :
    ∃ u, t = u ++ t.drop (intervalEnd fl t) ∧ Neutral fl u false := by
  refine brace_eq (d := '}') rfl (by decide) ?_
  unfold intervalEnd at h ⊢
  split_ifs at h ⊢ with hfl hhead htake
  · exact .inl ⟨rfl, by simpa using hhead⟩
  · exact absurd rfl h
  · exact .inr ⟨rfl, by simpa using htake⟩
  · exact absurd rfl h

/-- **An interval behind an atom**, if there is one. -/
theorem parseInterval_emits {atom : DfaParser → Except DfaErr DfaParser} (hc : c.Ok)
    (hatom : AgainSpec c b atom) (h : c.Emits ps.code b) :
    MeetsDfa (ps.parseInterval fl atom c.prog.length) fun ps' =>
      ∃ u, ps.rem = u ++ ps'.rem ∧ Neutral fl u false ∧ c.Emits ps'.code b := by
  unfold parseInterval
  split_ifs with hno
  · exact .ok ⟨[], rfl, neutral_nil, h⟩
  obtain ⟨u, hu, hneut⟩ := intervalLen_eq hno
  refine (intervalSpec_eq _).bind fun r ⟨v, hv, hvplain⟩ => ?_
  obtain ⟨m, n, rest⟩ := r
  dsimp only at hv ⊢
  split_ifs with hend
  · exact .error nofun
  obtain ⟨w, hw, hneut'⟩ := intervalEnd_eq hend
  have hdrop : (ps.advance (intervalLen fl ps.rem)).rem.drop
      ((ps.advance (intervalLen fl ps.rem)).rem.length - rest.length) = rest := by
    rw [hv]
    simp
  set ps₁ := (ps.advance (intervalLen fl ps.rem)).advance
    ((ps.advance (intervalLen fl ps.rem)).rem.length - rest.length) with hps₁
  have hrest : ps₁.rem = rest := hdrop
  have happly : MeetsDfa ((ps₁.advance (intervalEnd fl ps₁.rem)).applyInterval atom c.prog.length m n)
      fun ps' => (ps₁.advance (intervalEnd fl ps₁.rem)).SameText ps' ∧ c.Emits ps'.code b :=
    applyInterval_emits hc hatom m n h
  refine happly.mono fun ps' ⟨htext, hemits⟩ => ?_
  refine ⟨u ++ v ++ w, ?_, (hneut.append (neutral_plain hvplain)).append hneut', hemits⟩
  have hrem' : ps'.rem = ps₁.rem.drop (intervalEnd fl ps₁.rem) := htext.rem
  have hv : ps.rem.drop (intervalLen fl ps.rem) = v ++ rest := hv
  rw [hu, hv, ← hrest, hw, ← hrem', List.append_assoc, List.append_assoc]

/-! ## Pieces and branches -/

/-- What is asked of the parser of an atom. -/
abbrev AtomSpec (fl : DfaFlags) (n : ℕ) (atom : DfaParser → Except DfaErr DfaParser) : Prop :=
  ∀ ps : DfaParser, ps.code.Ok → n ≤ ps.nest + 1 → altLen fl ps.rem = 0 → closeLen fl ps.rem = 0 →
    MeetsDfa (atom ps) (ps.Compiles fl)

/-- No separator and no parenthesis is in front of a part from the front. -/
theorem token_of_front {d : Char} {u v : Str} (h : 0 < if fl.ere then if u.head? == some d then 1 else 0
      else if u.take 2 == ['\\', d] then 2 else 0) :
    0 < if fl.ere then if (u ++ v).head? == some d then 1 else 0
      else if (u ++ v).take 2 == ['\\', d] then 2 else 0 := by
  obtain ⟨hu, -⟩ := token_eq h
  rw [hu]
  unfold token
  cases hfl : fl.ere <;> simp

theorem altLen_of_front {u v : Str} (h : altLen fl (u ++ v) = 0) : altLen fl u = 0 :=
  Nat.eq_zero_of_not_pos fun hpos => Nat.ne_of_gt (token_of_front hpos) h

theorem closeLen_of_front {u v : Str} (h : closeLen fl (u ++ v) = 0) : closeLen fl u = 0 :=
  Nat.eq_zero_of_not_pos fun hpos => Nat.ne_of_gt (token_of_front hpos) h

/-- **The atom once more**: its text is a part of what it was from the front. -/
theorem again_spec {atom : DfaParser → Except DfaErr DfaParser} {atomText : Str} {src : ℕ}
    (hatom : AtomSpec fl n atom) (hc : c.Ok) (hn : n ≤ c.nest + 1) (hneut : Neutral fl atomText b)
    (halt : altLen fl atomText = 0) (hclose : closeLen fl atomText = 0) :
    AgainSpec c b (again atom atomText src) := by
  intro ps h
  have hok : ps.code.Ok := h.ok hc
  have hnest : ps.nest = c.nest := h.nest
  have hcompiles := hatom { ps with rem := atomText, pos := src } hok (by rw [hnest]; exact hn) halt
    hclose
  refine hcompiles.bind fun ps' ⟨u, b', _, hrem, hneut', hemits⟩ => .pure ⟨⟨rfl, rfl⟩, b', hemits, ?_⟩
  intro hb'
  have hrem : atomText = u ++ ps'.rem := hrem
  rw [hrem] at hneut
  exact hneut.of_front hneut' hb'

/-- **A piece.** -/
theorem parsePiece_compiles {atom : DfaParser → Except DfaErr DfaParser} (hatom : AtomSpec fl n atom)
    (hok : ps.code.Ok) (hn : n ≤ ps.nest + 1) (halt : altLen fl ps.rem = 0)
    (hclose : closeLen fl ps.rem = 0) : MeetsDfa (ps.parsePiece fl atom) (ps.Compiles fl) := by
  unfold parsePiece
  refine (hatom ps hok hn halt hclose).bind fun ps₁ ⟨u, b, hne, hu, hneut, hemits⟩ => ?_
  split_ifs
  · exact .ok ⟨u, b, hne, hu, hneut, hemits⟩
  have htext : ps.rem.take (ps.rem.length - ps₁.rem.length) = u := by
    rw [hu]
    simp
  dsimp only
  rw [htext]
  refine (repeats_emits hok _ ps₁ hemits).bind fun ps₂ ⟨v, hv, hneut₂, hemits₂⟩ => ?_
  rw [hu] at halt hclose
  have hagain : AgainSpec ps.code b (again atom u ps.pos) :=
    again_spec hatom hok hn hneut (altLen_of_front halt) (closeLen_of_front hclose)
  refine (parseInterval_emits hok hagain hemits₂).mono fun ps₃ ⟨w, hw, hneut₃, hemits₃⟩ => ?_
  refine ⟨u ++ v ++ w, b, ?_, ?_, ?_, hemits₃⟩
  · simp [hne]
  · rw [hu, hv, hw]
    simp
  · have := (hneut.append hneut₂).append hneut₃
    rwa [Bool.or_false, Bool.or_false] at this

/-- What is asked of the parser of a branch. -/
abbrev SeqSpec (fl : DfaFlags) (n : ℕ) (seq : DfaParser → Except DfaErr DfaParser) : Prop :=
  ∀ ps : DfaParser, ps.code.Ok → n ≤ ps.nest + 1 → MeetsDfa (seq ps) fun ps' =>
    ∃ u b, ps.rem = u ++ ps'.rem ∧ Neutral fl u b ∧ ps.code.Emits ps'.code b

/-- **A branch.** -/
theorem parseSeq_spec {piece : DfaParser → Except DfaErr DfaParser} (hpiece : AtomSpec fl n piece) :
    ∀ (k : ℕ) (ps : DfaParser), ps.code.Ok → n ≤ ps.nest + 1 → ps.rem.length ≤ k →
      MeetsDfa (parseSeq fl piece k ps) fun ps' =>
        ∃ u b, ps.rem = u ++ ps'.rem ∧ Neutral fl u b ∧ ps.code.Emits ps'.code b := by
  intro k
  induction k with
  | zero =>
    intro ps hok hn hk
    have hnil : ps.rem = [] := List.eq_nil_of_length_eq_zero (Nat.le_zero.1 hk)
    unfold parseSeq
    rw [if_pos (by simp [hnil])]
    exact .ok ⟨[], false, rfl, neutral_nil, .refl _⟩
  | succ k ih =>
    intro ps hok hn hk
    unfold parseSeq
    split_ifs with hend
    · exact .ok ⟨[], false, rfl, neutral_nil, .refl _⟩
    simp only [Bool.or_eq_true, decide_eq_true_eq, not_or, Nat.not_lt, Nat.le_zero] at hend
    refine (hpiece ps hok hn hend.1.2 hend.2).bind fun ps₁ ⟨u, b, hne, hu, hneut, hemits⟩ => ?_
    have hlen : ps₁.rem.length ≤ k := by
      have := congrArg List.length hu
      have hpos := List.length_pos_iff.2 hne
      rw [List.length_append] at this
      omega
    have hnest : ps₁.nest = ps.nest := hemits.nest
    refine (ih ps₁ (hemits.ok hok) (by omega) hlen).mono fun ps₂ ⟨v, b', hv, hneut', hemits'⟩ => ?_
    exact ⟨u ++ v, b || b', by rw [hu, hv, List.append_assoc], hneut.append hneut',
      hemits.trans hemits'⟩

/-! ## Alternations -/

theorem take_room (pend : List ℕ) (jp : ℕ) :
    (if (pend.take 64).length < 64 then pend.take 64 ++ [jp] else pend.take 64) =
      (pend ++ [jp]).take 64 := by
  rw [List.length_take]
  split_ifs with h
  · have hle : pend.length ≤ 63 := by omega
    rw [List.take_of_length_le (by omega), List.take_of_length_le (by simp; omega)]
  · rw [List.take_append_of_le_length (by omega)]

/-- The jump behind a branch, and the target of the `SPLIT` in front of it. -/
theorem jump_pending {c₁ : Code} {body : List Inst} {pend : List ℕ} {b' : Bool} {x : ℕ}
    (hpend : c.Pending c₁ pend b) (hx : c₁.prog.length ≤ x ∧ x ≤ ps.prog.length)
    (hadds : c₁.Adds ps.code (.split (some x) none :: body)) (hopen : Open body ↔ b' = true) :
    MeetsDfa (ps.emit (.jmp none)) fun ps' => ps.SameText ps' ∧
      c.Pending (ps'.modify c₁.prog.length (Inst.setY ps'.prog.length)).code
        (pend ++ [ps.prog.length]) (b || b') := by
  refine (emit_eq _).mono fun ps' ⟨htext, hcode⟩ => ⟨htext, ?_⟩
  have hprog : ps.prog = c₁.prog ++ .split (some x) none :: body := hadds.prog
  have hprog' : ps'.prog = c₁.prog ++ .split (some x) none :: (body ++ [.jmp none]) := by
    rw [show ps'.prog = ps.prog ++ [.jmp none] from congrArg Code.prog hcode, hprog]
    simp
  have hmod : ∀ f : Inst → Inst, ps'.prog.modify c₁.prog.length f =
      c₁.prog ++ f (.split (some x) none) :: (body ++ [.jmp none]) := fun f => by
    rw [hprog', modify_append]
  have hlen : ps.prog.length = c₁.prog.length + (body.length + 1) := by
    rw [hprog]
    simp
  have hlen' : ps'.prog.length = ps.prog.length + 1 := by
    rw [hprog', hlen]
    simp
    omega
  refine Code.Pending.jump hpend (.split (some x) (some ps'.prog.length) :: body) ?_ ?_ ?_
  · rw [code_modify, hmod, hcode]
    have hend : (ps.code.withProg (c₁.prog ++ .split (some x) (some ps'.prog.length) ::
        (body ++ [.jmp none]))).prog.length = ps'.prog.length := by
      rw [hlen', hlen]
      simp [Code.withProg]
      omega
    refine ⟨rfl, fun i hi t ht => ?_, fun i hi => ?_, hadds.nsets, hadds.ngroup, hadds.nest⟩
    · change _ ≤ _ ∧ t ≤ (ps.code.withProg (c₁.prog ++ .split (some x) (some ps'.prog.length) ::
        (body ++ [.jmp none]))).prog.length
      rw [hend]
      rcases List.mem_append.1 hi with hi | hi
      · rcases List.mem_cons.1 hi with rfl | hi
        · simp only [Inst.targets, List.mem_cons, Option.some.injEq, List.not_mem_nil, or_false] at ht
          omega
        · have : c₁.prog.length ≤ t ∧ t ≤ ps.prog.length :=
            hadds.targets i (List.mem_cons_of_mem _ hi) t ht
          omega
      · rw [List.mem_singleton.1 hi] at ht
        simp [Inst.targets] at ht
    · rcases List.mem_append.1 hi with hi | hi
      · rcases List.mem_cons.1 hi with rfl | hi
        · exact True.intro
        · exact hadds.names i (List.mem_cons_of_mem _ hi)
      · rw [List.mem_singleton.1 hi]
        exact True.intro
  · simp [Inst.targets, hopen]
  · rw [hlen]
    rfl

/-- **The loop of `parse_alt`**, behind a branch with a `SPLIT` in front. -/
theorem altGo_spec {seq : DfaParser → Except DfaErr DfaParser} (hseq : SeqSpec fl n seq) (hc : c.Ok)
    (hn : n ≤ c.nest + 1) : ∀ (k : ℕ) (ps : DfaParser) (c₁ : Code) (body : List Inst) (pend : List ℕ)
    (b b' : Bool), c.Pending c₁ pend b →
    c₁.Adds ps.code (.split (some (c₁.prog.length + 1)) none :: body) → (Open body ↔ b' = true) →
    0 < altLen fl ps.rem → ps.rem.length < k →
    MeetsDfa (altGo fl seq k c₁.prog.length (pend.take 64) ps) fun ps' => ∃ u m b'',
      ps.rem = u ++ ps'.rem ∧ Branches fl u m b'' ∧
        c.Emits ps'.code (b || b' || b'' || decide (64 < pend.length + m)) := by
  intro k
  induction k with
  | zero => exact fun ps c₁ body pend b b' hpend hadds hopen halt hk => absurd hk (Nat.not_lt_zero _)
  | succ k ih =>
    intro ps c₁ body pend b b' hpend hadds hopen halt hk
    rw [altGo]
    dsimp only
    rw [take_room]
    have hx : c₁.prog.length ≤ c₁.prog.length + 1 ∧ c₁.prog.length + 1 ≤ ps.prog.length := by
      have : ps.prog.length = c₁.prog.length + (body.length + 1) := hadds.length
      omega
    refine (jump_pending hpend hx hadds hopen).bind fun ps₁ ⟨htext₁, hpend₁⟩ => ?_
    set ps₂ := ps₁.modify c₁.prog.length (Inst.setY ps₁.prog.length) with hps₂
    have hrem₂ : ps₂.rem = ps.rem := htext₁.rem
    rw [hrem₂, if_neg (Nat.ne_of_gt halt)]
    obtain ⟨hsep, hlen⟩ := altLen_eq halt
    have hok₂ : ps₂.code.Ok := by
      obtain ⟨code, hadds⟩ := hpend₁.adds
      exact hadds.ok hc
    have hnest₂ : ps₂.nest = c.nest := by
      obtain ⟨code, hadds⟩ := hpend₁.adds
      exact hadds.nest
    refine (hseq (ps₂.advance (altLen fl ps.rem)) hok₂ (by rw [← hnest₂] at hn; exact hn)).bind
      fun ps₃ ⟨v, b₃, hv, hneut, code₃, hadds₃, hopen₃⟩ => ?_
    have hrem : ps.rem = (token fl '|' ++ v) ++ ps₃.rem := by
      have hv : ps₂.rem.drop (altLen fl ps.rem) = v ++ ps₃.rem := hv
      rw [hrem₂] at hv
      rw [hsep, hv, List.append_assoc]
    have hbranch : Branches fl (token fl '|' ++ v) 1 b₃ := by
      have := branches_separator.append hneut.branches
      rwa [Bool.false_or] at this
    split_ifs with hlast
    · have hpatch := patch_emits (hpend₁.add hadds₃ hopen₃)
      refine .ok ⟨token fl '|' ++ v, 1, b₃, ?_, hbranch, ?_⟩
      · rw [hpatch.1.rem]
        exact hrem
      · have hlen' : (pend ++ [ps.prog.length]).length = pend.length + 1 := by simp
        rw [← hlen']
        exact hpatch.2
    · have hins := insertSplit_adds (c := ps₂.code) hok₂ hadds₃
      refine hins.bind fun ps₄ ⟨htext₄, body', hadds₄, hopen₄⟩ => ?_
      have hshort : ps₄.rem.length < k := by
        have hlen₁ := congrArg List.length hrem
        have hpos : 0 < (token fl '|').length := hlen ▸ halt
        rw [htext₄.rem]
        rw [List.length_append, List.length_append] at hlen₁
        omega
      have halt₄ : 0 < altLen fl ps₄.rem := by
        rw [htext₄.rem]
        exact Nat.pos_of_ne_zero hlast
      refine (ih ps₄ ps₂.code body' _ _ b₃ hpend₁ hadds₄ (hopen₄.trans hopen₃) halt₄ hshort).mono
        fun ps' ⟨w, m, b₅, hw, hbranch', hemits⟩ => ?_
      refine ⟨token fl '|' ++ v ++ w, 1 + m, b₃ || b₅, ?_, hbranch.append hbranch', ?_⟩
      · rw [hrem, ← htext₄.rem, hw, List.append_assoc (token fl '|' ++ v)]
      · have hcount : (pend ++ [ps.prog.length]).length + m = pend.length + (1 + m) := by
          simp
          omega
        rw [hcount] at hemits
        simpa only [Bool.or_assoc] using hemits

/-- **An alternation**, in a group or the whole pattern: `d` is enough for the groups in it. -/
theorem parseAlt_spec : ∀ d n : ℕ, 257 ≤ n + d → AltSpec fl n (parseAlt fl d)
  | 0, n, hd => fun ps hok hn => by
      have hle : ps.nest ≤ 256 := hok.nest
      omega
  | d + 1, n, hd => fun ps hok hn => by
      have hatom : AtomSpec fl (n + 1) (parseAtom fl (parseAlt fl d)) := fun ps hok hn halt hclose =>
        parseAtom_compiles (parseAlt_spec d (n + 1) (by omega)) hok hn halt hclose
      have hpiece : AtomSpec fl (n + 1) (parsePiece fl (parseAtom fl (parseAlt fl d))) :=
        fun ps hok hn halt hclose => parsePiece_compiles hatom hok hn halt hclose
      have hseq : SeqSpec fl (n + 1) fun ps : DfaParser =>
          parseSeq fl (parsePiece fl (parseAtom fl (parseAlt fl d))) ps.rem.length ps :=
        fun ps hok hn => parseSeq_spec hpiece _ ps hok hn (Nat.le_refl _)
      rw [parseAlt]
      dsimp only
      refine (hseq ps hok (by omega)).bind fun ps₁ ⟨u, b, hu, hneut, code, hadds, hopen⟩ => ?_
      split_ifs with hlast
      · refine .ok ⟨u, 0, b, hu, hneut.branches, ?_⟩
        rw [show (b || decide (64 < 0)) = b by simp]
        exact ⟨code, hadds, hopen⟩
      · refine (insertSplit_adds hok hadds).bind fun ps₂ ⟨htext₂, body, hadds₂, hopen₂⟩ => ?_
        have halt : 0 < altLen fl ps₂.rem := by
          rw [htext₂.rem]
          exact Nat.pos_of_ne_zero hlast
        have hfuel : ps₂.rem.length < ps₁.rem.length + 1 := by
          rw [htext₂.rem]
          exact Nat.lt_succ_self _
        have hnest : n + 1 ≤ ps.code.nest + 1 := Nat.succ_le_succ hn
        refine (altGo_spec hseq hok hnest _ ps₂ ps.code body [] false b (.refl _) hadds₂
          (hopen₂.trans hopen) halt hfuel).mono fun ps' ⟨w, m, b', hw, hbranch, hemits⟩ => ?_
        refine ⟨u ++ w, 0 + m, b || b', ?_, hneut.branches.append hbranch, ?_⟩
        · rw [hu, ← htext₂.rem, hw, List.append_assoc]
        · rw [Nat.zero_add]
          simpa only [Bool.false_or, List.length_nil, Nat.zero_add] using hemits

end DfaParser

/-! ## The whole pattern -/

theorem Inst.mem_next_of_targets {pc : ℕ} {i : Inst} {t : Option ℕ} (h : t ∈ i.targets) :
    t ∈ i.next pc := by
  cases i <;> first | exact h | exact absurd h List.not_mem_nil

theorem Inst.mem_next {pc : ℕ} {i : Inst} {t : Option ℕ} (h : t ∈ i.next pc) :
    t ∈ i.targets ∨ t = some (pc + 1) ∧ i ≠ .done := by
  cases i with
  | split x y => exact .inl h
  | jmp x => exact .inl h
  | done => exact absurd h List.not_mem_nil
  | _ => exact .inr ⟨List.mem_singleton.1 h, nofun⟩

/-- **A program with `DFA_MATCH` behind its code**. -/
theorem wellFormed_iff {d : Dfa} {code : List Inst} (hprog : d.prog = code ++ [.done])
    (htargets : ∀ i ∈ code, ∀ t, some t ∈ i.targets → t ≤ code.length)
    (hnames : ∀ i ∈ code, i.Names d.sets.length d.ngroup) : d.WellFormed ↔ ¬ Open code := by
  have hlen : d.prog.length = code.length + 1 := by
    rw [hprog]
    simp
  constructor
  · rintro hwf ⟨i, hi, hnone⟩
    obtain ⟨pc, hpc⟩ := List.mem_iff_getElem?.1 (show i ∈ d.prog by rw [hprog]; simp [hi])
    obtain ⟨t, ht, -⟩ := hwf.next pc i hpc none (Inst.mem_next_of_targets hnone)
    exact absurd ht nofun
  · intro hopen
    refine ⟨by omega, fun pc i hi t ht => ?_, fun i hi => ?_⟩
    · rw [hprog] at hi
      have hpc : pc < (code ++ [Inst.done]).length := (List.getElem?_eq_some_iff.1 hi).1
      rcases Nat.lt_or_ge pc code.length with hlt | hge
      · rw [List.getElem?_append_left hlt] at hi
        have hmem := List.mem_of_getElem? hi
        rcases Inst.mem_next ht with ht | ⟨rfl, -⟩
        · cases t with
          | none => exact absurd ⟨i, hmem, ht⟩ hopen
          | some t => exact ⟨t, rfl, by have := htargets i hmem t ht; omega⟩
        · exact ⟨pc + 1, rfl, by omega⟩
      · rw [List.getElem?_append_right hge] at hi
        rw [List.length_append, List.length_singleton] at hpc
        obtain rfl : i = .done := by
          rw [show pc - code.length = 0 by omega] at hi
          exact (Option.some.inj hi).symm
        exact absurd ht List.not_mem_nil
    · rw [hprog] at hi
      rcases List.mem_append.1 hi with hi | hi
      · exact hnames i hi
      · rw [List.mem_singleton.1 hi]
        exact True.intro

/-- What the compiler comes to: code with `DFA_MATCH` behind it. -/
theorem dfaCompile_spec (fl : DfaFlags) (pat : Str) : Meets (· = DfaErr.fuel) (dfaCompile fl pat)
    fun d => d.WellFormed ↔ crowded fl pat = false := by
  have hok : DfaParser.code { rem := pat } |>.Ok := ⟨nofun, nofun, Nat.zero_le _⟩
  unfold dfaCompile
  refine (DfaParser.parseAlt_spec 257 0 (Nat.le_refl _) _ hok (Nat.zero_le _)).bind
    fun ps ⟨u, k, b, hu, hbranches, code, hadds, hopen⟩ => ?_
  split_ifs with hrem
  · exact .error nofun
  have hnil : ps.rem = [] := by simpa using hrem
  have hpat : pat = u := by
    rw [hnil, List.append_nil] at hu
    exact hu
  have hcrowded : crowded fl pat = (b || decide (64 < k)) := by
    have h := hbranches [] 0 []
    rw [List.append_nil, ← hpat, Nat.zero_add, skim_nil, Bool.or_false] at h
    rw [crowded, h]
    congr 1
    rw [decide_eq_decide]
    omega
  have hprog : ps.prog = code := hadds.prog
  refine (DfaParser.emit_eq _).bind fun ps' ⟨_, hcode⟩ => .ok ?_
  have hprog' : ps'.prog = code ++ [.done] := by
    rw [← hprog]
    exact congrArg Code.prog hcode
  have hsets : ps'.sets.length = ps.sets.length := congrArg Code.nsets hcode
  have hgroup : ps'.gsrc.length = ps.gsrc.length := congrArg Code.ngroup hcode
  rw [wellFormed_iff hprog' ?_ ?_, hopen, ← hcrowded, Bool.not_eq_true]
  · intro i hi t ht
    rw [← hprog]
    exact (hadds.targets i hi t ht).2
  · intro i hi
    change i.Names ps'.sets.length ps'.gsrc.length
    rw [hsets, hgroup]
    exact hadds.names i hi

/-- **The compiled program is well formed** unless an alternation has more than 64 separators, and then
it is not. -/
theorem compiled_wellFormed_iff (fl : DfaFlags) (pat : Str) (d : Dfa)
    (h : dfaCompile fl pat = .ok d) : d.WellFormed ↔ crowded fl pat = false :=
  (dfaCompile_spec fl pat).of_ok h

/-- `(a|b)*c`, compiled. -/
def compiledSample : Dfa :=
  ⟨[.split (some 1) (some 8), .save 0, .split (some 3) (some 5), .char 'a', .jmp (some 6), .char 'b',
    .save 1, .jmp (some 0), .char 'c', .done], [], 1, false, false⟩

/-- A group with two branches, repeated. -/
theorem compiled_wellFormed_sample : compiledSample.WellFormed :=
  (compiled_wellFormed_iff { ere := true } ['(', 'a', '|', 'b', ')', '*', 'c'] compiledSample
    (by decide +kernel)).2 (by decide +kernel)

/-- With 65 separators a jump is left without its target. -/
theorem crowded_not_wellFormed : ∃ d, dfaCompile { ere := true } (List.replicate 65 '|') = .ok d ∧
    ¬ d.WellFormed := by
  have hok : (dfaCompile { ere := true } (List.replicate 65 '|')).isOk = true := by decide +kernel
  cases hd : dfaCompile { ere := true } (List.replicate 65 '|') with
  | error e =>
    rw [hd] at hok
    exact absurd hok nofun
  | ok d =>
    refine ⟨d, rfl, fun hwf => ?_⟩
    have hno := ((dfaCompile_spec _ _).of_ok hd).1 hwf
    exact absurd hno (by decide +kernel)

end Shish
