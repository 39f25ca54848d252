import Mathlib
import Shish.Dfa.Run

/-!
# Dfa/Threads — the simulation finds the leftmost match, and its longest end

The lists of `dfaRun` are visits of `Lib/Visit` over the instructions (`addthread_eq`).  A `Level` is
such a list at one position: every thread on it has come there along a path, and every instruction
that a path comes to is marked, so that one that reads a byte is on the list.  The next position keeps
this (`Level.next`), hence no end is lost (`runPos_spec`), and no start (`runFrom_spec`).
-/

namespace Shish

namespace Dfa
variable {d : Dfa} {t : Subject}

/-! ## One instruction -/

/-- The instructions that threads stand at. -/
def Stands (d : Dfa) (pc : ℕ) : Prop :=
  match d.prog[pc]? with
  | some (.char _) | some .any | some (.set _) | some (.backref _) | some .done => True
  | _ => False

/-- The instruction at `pc` reads the byte at `pos`. -/
def reads (d : Dfa) (t : Subject) (pos pc : ℕ) : Bool :=
  match d.prog[pc]?, t.read pos with
  | some (.char x), some c => c == x
  | some .any, some _ => true
  | some (.set i), some c => (d.sets[i]?.map (·.has c)).getD false
  | _, _ => false

/-- Without a read a path goes on from `pc` at `w`. -/
def Slips (d : Dfa) (t : Subject) (pos pc w : ℕ) : Prop :=
  ∃ sv sv', Goes d t ⟨pc, pos, sv⟩ ⟨w, pos, sv'⟩

/-- No instruction is a back-reference. -/
def Regular (d : Dfa) : Prop := ∀ g, Inst.backref g ∉ d.prog

theorem WellFormed.lt (w : d.WellFormed) {p p' : Point} (h : Goes d t p p') : p'.pc < d.prog.length := by
  have key : ∀ {i} {x : ℕ}, d.prog[p.pc]? = some i → some x ∈ i.next p.pc → x < d.prog.length := by
    intro i x hi hx
    obtain ⟨y, hy, hlt⟩ := w.next p.pc i hi _ hx
    exact Option.some.inj hy ▸ hlt
  cases h with
  | split hi hz => exact key hi (by simpa [Inst.next] using hz)
  | _ => exact key (by assumption) (by simp [Inst.next])

theorem WellFormed.comes_lt (w : d.WellFormed) {start : ℕ} {p : Point} (h : Comes d t start p) :
    p.pc < d.prog.length := by
  induction h with
  | refl => exact w.start
  | tail _ hg _ => exact w.lt hg

/-- **An instruction either reads the byte or leaves the position**, if there are no back-references. -/
theorem Goes.cases_pos (hr : d.Regular) {p p' : Point} (h : Goes d t p p') :
    p'.pos = p.pos ∧ Slips d t p.pos p.pc p'.pc ∨
      p' = ⟨p.pc + 1, p.pos + 1, p.save⟩ ∧ reads d t p.pos p.pc ∧ d.Stands p.pc := by
  have hG := h
  cases h with
  | char hi hn hc => exact .inr ⟨rfl, by simp [reads, hi, Subject.read, hn, hc], by simp [Stands, hi]⟩
  | any hi hn => exact .inr ⟨rfl, by simp [reads, hi, Subject.read, hn], by simp [Stands, hi]⟩
  | set hi hs hn hc => exact .inr ⟨rfl, by simp [reads, hi, Subject.read, hn, hs, hc], by simp [Stands, hi]⟩
  | backref hi => exact absurd (List.mem_of_getElem? hi) (hr _)
  | _ => exact .inl ⟨rfl, _, _, hG⟩

theorem goes_of_reads {pos pc : ℕ} {sv : Saves} (h : reads d t pos pc) :
    Goes d t ⟨pc, pos, sv⟩ ⟨pc + 1, pos + 1, sv⟩ := by
  by_cases hn : pos < t.n
  · have hread : t.read pos = some (t.byte pos) := if_pos hn
    cases hi : d.prog[pc]? with
    | none => simp [reads, hi] at h
    | some i =>
      cases i with
      | char x => exact .char hi hn (by simpa [reads, hi, hread] using h)
      | any => exact .any hi hn
      | set i =>
        cases hs : d.sets[i]? with
        | none => simp [reads, hi, hread, hs] at h
        | some set => exact .set hi hs hn (by simpa [reads, hi, hread, hs] using h)
      | _ => simp [reads, hi] at h
  · have hread : t.read pos = none := if_neg hn
    rw [reads, hread] at h
    split at h <;> simp_all

/-! ## Lists as visits -/

/-- The marks of one generation. -/
def marking (gen : ℕ) : Marking (ℕ → Option ℕ) ℕ where
  seen m pc := m pc = some gen
  mark m pc := Function.update m pc (some gen)
  seen_mark m v w := by
    by_cases h : w = v
    · subst h
      simp
    · simp [h]

instance (gen : ℕ) : ∀ m v, Decidable ((marking gen).seen m v) :=
  fun m v => inferInstanceAs (Decidable (m v = some gen))

/-- What `addthread` does at an instruction. -/
def arrive (d : Dfa) (t : Subject) (pos pc : ℕ) (save : Saves) : Option (Arrival ℕ Saves) :=
  let on (ok : Bool) : Option (Arrival ℕ Saves) := some (.onward (if ok then [(pc + 1, save)] else []))
  match d.prog[pc]? with
  | none => none
  | some (.jmp x) => x.map fun x => .onward [(x, save)]
  | some (.split x y) => x.bind fun x => y.map fun y => .onward [(x, save), (y, save)]
  | some (.save slot) =>
    if d.ngroup = 0 then on true
    else if slot < save.length then some (.onward [(pc + 1, save.set slot (some pos))])
    else none
  | some .bol => on (t.bolok d.multi pos)
  | some .eol => on (t.eolok d.multi pos)
  | some (.word kind) => on (t.dfaWordok kind pos)
  | some _ => some .listed

/-- Where a path goes on behind an instruction that reads nothing. -/
def slipTo (d : Dfa) (t : Subject) (pos pc : ℕ) : Inst → ℕ → Prop
  | .jmp x, w => x = some w
  | .split x y, w => some w = x ∨ some w = y
  | .save _, w => w = pc + 1
  | .bol, w => t.bolok d.multi pos ∧ w = pc + 1
  | .eol, w => t.eolok d.multi pos ∧ w = pc + 1
  | .word kind, w => t.dfaWordok kind pos ∧ w = pc + 1
  | _, _ => False

theorem Slips.to (hr : d.Regular) {pos pc w : ℕ} {i : Inst} (hi : d.prog[pc]? = some i)
    (h : Slips d t pos pc w) : slipTo d t pos pc i w := by
  obtain ⟨sv, sv', hg⟩ := h
  generalize hp : (⟨pc, pos, sv⟩ : Point) = p at hg
  generalize hq : (⟨w, pos, sv'⟩ : Point) = q at hg
  cases hg with
  | jmp hb | save hb =>
    cases hp
    cases hq
    obtain rfl := Option.some.inj (hi.symm.trans hb)
    rfl
  | split hb hz =>
    cases hp
    cases hq
    obtain rfl := Option.some.inj (hi.symm.trans hb)
    exact hz
  | bol hb hok | eol hb hok | word hb hok =>
    cases hp
    cases hq
    obtain rfl := Option.some.inj (hi.symm.trans hb)
    exact ⟨hok, rfl⟩
  | backref hb => exact absurd (List.mem_of_getElem? hb) (hr _)
  | _ =>
    cases hp
    exact absurd (congrArg Point.pos hq) (by simp)

/-- An arrival that goes on takes every instruction from there that reads nothing. -/
structure Onward (d : Dfa) (t : Subject) (pos pc : ℕ) (sv : Saves) (l : List Thread) : Prop where
  goes : ∀ p ∈ l, Goes d t ⟨pc, pos, sv⟩ ⟨p.1, pos, p.2⟩
  leads : ∀ w, Slips d t pos pc w → ∃ c, (w, c) ∈ l

/-- **What an arrival at an instruction leads to.** -/
theorem arrive_spec (w : d.WellFormed) (hr : d.Regular) (pos : ℕ) {pc : ℕ} {sv : Saves}
    (hpc : pc < d.prog.length) (hlen : sv.length = 2 * d.ngroup) :
    d.Stands pc ∧ arrive d t pos pc sv = some .listed ∧ (∀ x, ¬Slips d t pos pc x) ∨
      ¬d.Stands pc ∧ ∃ l, arrive d t pos pc sv = some (.onward l) ∧ Onward d t pos pc sv l := by
  obtain ⟨i, hi⟩ : ∃ i, d.prog[pc]? = some i := ⟨_, List.getElem?_eq_getElem hpc⟩
  have hnext := w.next pc i hi
  have hnames := w.names i (List.mem_of_getElem? hi)
  have hto : ∀ {x}, Slips d t pos pc x → slipTo d t pos pc i x := Slips.to hr hi
  -- an assertion, which the path passes or does not
  have htest : ∀ ok : Bool, (ok → ∀ sv, Goes d t ⟨pc, pos, sv⟩ ⟨pc + 1, pos, sv⟩) →
      (∀ x, slipTo d t pos pc i x → ok ∧ x = pc + 1) →
      Onward d t pos pc sv (if ok then [(pc + 1, sv)] else []) := by
    intro ok hgo hslip
    refine ⟨fun p hp => ?_, fun x hx => ?_⟩
    · cases ok with
      | true =>
        obtain rfl := List.mem_singleton.mp hp
        exact hgo rfl sv
      | false => exact absurd hp List.not_mem_nil
    · obtain ⟨hok, rfl⟩ := hslip x (hto hx)
      exact ⟨sv, by simp [hok]⟩
  cases i with
  | jmp x =>
    obtain ⟨x, rfl, -⟩ := hnext x (by simp [Inst.next])
    refine .inr ⟨by simp [Stands, hi], [(x, sv)], by simp [arrive, hi], fun p hp => ?_, fun y hy => ?_⟩
    · obtain rfl := List.mem_singleton.mp hp
      exact .jmp hi
    · obtain rfl := Option.some.inj (hto hy)
      exact ⟨sv, List.mem_singleton.mpr rfl⟩
  | split x y =>
    obtain ⟨x, rfl, -⟩ := hnext x (by simp [Inst.next])
    obtain ⟨y, rfl, -⟩ := hnext y (by simp [Inst.next])
    refine .inr ⟨by simp [Stands, hi], [(x, sv), (y, sv)], by simp [arrive, hi], fun p hp => ?_,
      fun z hz => ?_⟩
    · simp only [List.mem_cons, List.not_mem_nil, or_false] at hp
      obtain rfl | rfl := hp
      · exact .split hi (.inl rfl)
      · exact .split hi (.inr rfl)
    · rcases hto hz with h | h
      · obtain rfl := Option.some.inj h
        exact ⟨sv, List.mem_cons_self⟩
      · obtain rfl := Option.some.inj h
        exact ⟨sv, List.mem_cons_of_mem _ List.mem_cons_self⟩
  | save slot =>
    have hsl : slot < 2 * d.ngroup := hnames
    have h0 : d.ngroup ≠ 0 := by omega
    refine .inr ⟨by simp [Stands, hi], [(pc + 1, sv.set slot (some pos))],
      by simp [arrive, hi, h0, hlen, hsl], fun p hp => ?_, fun x hx => ?_⟩
    · obtain rfl := List.mem_singleton.mp hp
      exact .save hi
    · obtain rfl : x = pc + 1 := hto hx
      exact ⟨_, List.mem_singleton.mpr rfl⟩
  | bol =>
    exact .inr ⟨by simp [Stands, hi], _, by rw [arrive, hi], htest _ (fun h _ => .bol hi h) fun _ h => h⟩
  | eol =>
    exact .inr ⟨by simp [Stands, hi], _, by rw [arrive, hi], htest _ (fun h _ => .eol hi h) fun _ h => h⟩
  | word kind =>
    exact .inr ⟨by simp [Stands, hi], _, by rw [arrive, hi], htest _ (fun h _ => .word hi h) fun _ h => h⟩
  | backref g => exact absurd (List.mem_of_getElem? hi) (hr g)
  | _ => exact .inl ⟨by simp [Stands, hi], by rw [arrive, hi], fun x hx => hto hx⟩

/-- **The graph of the instructions at one position**: where a thread leads does not depend on its
slots. -/
theorem arrivals (w : d.WellFormed) (hr : d.Regular) (start pos : ℕ) :
    Arrivals (arrive d t pos) (Finset.range d.prog.length)
      (fun pc sv => Comes d t start ⟨pc, pos, sv⟩) (Slips d t pos) d.Stands where
  inside h := Finset.mem_range.mpr (w.comes_lt h)
  defined h := by
    rcases arrive_spec (t := t) w hr _ (w.comes_lt h) h.length with ⟨-, ha, -⟩ | ⟨-, l, ha, -⟩
    · exact ⟨_, ha⟩
    · exact ⟨_, ha⟩
  allowed {pc sv a} h ha p hp := by
    rcases arrive_spec (t := t) w hr _ (w.comes_lt h) h.length with ⟨-, hl, -⟩ | ⟨-, l, hl, ho⟩
    · obtain rfl := Option.some.inj (ha.symm.trans hl)
      exact absurd hp List.not_mem_nil
    · obtain rfl := Option.some.inj (ha.symm.trans hl)
      exact .tail h (ho.goes p hp)
  leads h ha x hx := by
    rcases arrive_spec (t := t) w hr _ (w.comes_lt h) h.length with ⟨-, -, hno⟩ | ⟨-, l, hl, ho⟩
    · exact absurd hx (hno x)
    · obtain rfl := Option.some.inj (ha.symm.trans hl)
      exact ho.leads x hx
  stops h ha hs := by
    rcases arrive_spec (t := t) w hr _ (w.comes_lt h) h.length with ⟨-, hl, -⟩ | ⟨hn, -⟩
    · exact Option.some.inj (ha.symm.trans hl)
    · exact absurd hs hn

/-! ## One thread after the other -/

/-- Where the threads that read the byte stand then. -/
def moved (d : Dfa) (t : Subject) (pos : ℕ) (clist : List Thread) : List Thread :=
  (clist.filter fun th => reads d t pos th.1).map fun th => (th.1 + 1, th.2)

/-- The best match behind the threads of a list. -/
def bestAfter (d : Dfa) (pos : ℕ) (clist : List Thread) (best : Option (ℕ × Saves)) :
    Option (ℕ × Saves) :=
  clist.foldl (fun b th => if d.prog[th.1]? = some .done then longer b pos th.2 else b) best

theorem bestAfter_some (pos : ℕ) (sv : Saves) : ∀ clist : List Thread,
    bestAfter d pos clist (some (pos, sv)) = some (pos, sv)
  | [] => rfl
  | th :: clist => by
      rw [bestAfter, List.foldl_cons, longer, if_neg (Nat.lt_irrefl pos), ite_self]
      exact bestAfter_some pos sv clist

/-- A thread at the end of the match replaces what was found at an earlier position. -/
theorem bestAfter_spec {pos : ℕ} {best : Option (ℕ × Saves)} (hb : ∀ b ∈ best, b.1 < pos) :
    ∀ clist : List Thread,
      (∃ th ∈ clist, d.prog[th.1]? = some .done ∧ bestAfter d pos clist best = some (pos, th.2)) ∨
        (∀ th ∈ clist, d.prog[th.1]? ≠ some .done) ∧ bestAfter d pos clist best = best
  | [] => .inr ⟨fun _ h => absurd h List.not_mem_nil, rfl⟩
  | th :: clist => by
      by_cases hd : d.prog[th.1]? = some .done
      · have hl : longer best pos th.2 = some (pos, th.2) := by
          cases best with
          | none => rfl
          | some b => exact if_pos (hb b rfl)
        refine .inl ⟨th, List.mem_cons_self, hd, ?_⟩
        rw [bestAfter, List.foldl_cons, if_pos hd, hl]
        exact bestAfter_some pos th.2 clist
      · have hstep : bestAfter d pos (th :: clist) best = bestAfter d pos clist best := by
          rw [bestAfter, List.foldl_cons, if_neg hd, ← bestAfter]
        rw [hstep]
        rcases bestAfter_spec hb clist with ⟨th', h', hr⟩ | ⟨hn, hr⟩
        · exact .inl ⟨th', List.mem_cons_of_mem _ h', hr⟩
        · refine .inr ⟨?_, hr⟩
          rintro th' (_ | ⟨_, h'⟩)
          · exact hd
          · exact hn th' h'

/-! ## Levels -/

/-- **The list at a position**: its threads have come there, and every instruction a path comes to has
been visited. -/
structure Level (d : Dfa) (t : Subject) (start pos gen : ℕ) (s : (ℕ → Option ℕ) × List Thread) : Prop where
  came : ∀ th ∈ s.2, Comes d t start ⟨th.1, pos, th.2⟩
  marked : ∀ p, Comes d t start p → p.pos = pos → s.1 p.pc = some gen
  listed : ∀ pc, s.1 pc = some gen → d.Stands pc → pc ∈ s.2.map Prod.fst
  old : ∀ pc g, s.1 pc = some g → g ≤ gen

/-- The marks that are older than a generation. -/
def Before (gen : ℕ) (mark : ℕ → Option ℕ) : Prop := ∀ pc g, mark pc = some g → g < gen

theorem marks_old {gen : ℕ} (vs : List ℕ) {m : ℕ → Option ℕ} (hm : ∀ pc g, m pc = some g → g ≤ gen) :
    ∀ pc g, vs.foldl (marking gen).mark m pc = some g → g ≤ gen := by
  induction vs generalizing m with
  | nil => exact hm
  | cons v vs ih =>
    refine ih fun pc g h => ?_
    have h : Function.update m v (some gen) pc = some g := h
    by_cases hpc : pc = v
    · subst hpc
      rw [Function.update_self] at h
      exact (Option.some.inj h).symm.le
    · rw [Function.update_of_ne hpc] at h
      exact hm pc g h

/-- **Visits from the right places build a level**: from points a path comes to, the entry among them
if the level is the first, and what is behind every instruction that has read the byte before. -/
theorem Level.build (w : d.WellFormed) (hr : d.Regular) {start pos gen fuel : ℕ} {mark : ℕ → Option ℕ}
    (hb : Before gen mark) (hf : d.prog.length < fuel) {l : List Thread}
    (hcame : ∀ th ∈ l, Comes d t start ⟨th.1, pos, th.2⟩) (hentry : start = pos → 0 ∈ l.map Prod.fst)
    (hmoved : ∀ q, Comes d t start q → q.pos + 1 = pos → reads d t q.pos q.pc → d.Stands q.pc →
      q.pc + 1 ∈ l.map Prod.fst) :
    ∃ s, visitAll (marking gen) (arrive d t pos) d.prog.length fuel l (mark, []) = some s ∧
      Level d t start pos gen s := by
  have hclear : ∀ pc, mark pc ≠ some gen := fun pc h => Nat.lt_irrefl gen (hb pc gen h)
  have htidy : Tidy (marking gen) (Finset.range d.prog.length) (mark, ([] : List Thread)) :=
    ⟨List.nodup_nil, fun _ h => absurd h List.not_mem_nil⟩
  have hroom : (unseen (marking gen) (Finset.range d.prog.length) mark).card < fuel :=
    Nat.lt_of_le_of_lt ((Finset.card_filter_le _ _).trans (Finset.card_range _).le) hf
  obtain ⟨s, hs, -, hg, hseen⟩ := visitAll_spec (arrivals (t := t) w hr start pos)
    (Finset.card_range d.prog.length).le hcame htidy hroom
  have hdone : ∀ pc, s.1 pc = some gen → Finished (marking gen) (Slips d t pos) d.Stands s pc := fun pc h =>
    (hg.done pc h).resolve_left (hclear pc)
  have hroot : ∀ pc ∈ l.map Prod.fst, s.1 pc = some gen := by
    intro pc hpc
    obtain ⟨th, hth, rfl⟩ := List.mem_map.mp hpc
    exact hseen th hth
  refine ⟨s, hs, fun th hth => ?_, fun p hp => ?_, fun pc h hst => (hdone pc h).listed hst, ?_⟩
  · exact ((hg.fresh th hth).resolve_left List.not_mem_nil).1
  · induction hp with
    | refl => exact fun h => hroot 0 (hentry h)
    | @tail q p hq hgo ih =>
      intro hpos
      rcases hgo.cases_pos hr with ⟨hsame, hslip⟩ | ⟨rfl, hread, hst⟩
      · have hqpos : q.pos = pos := hsame.symm.trans hpos
        exact (hdone q.pc (ih hqpos)).behind p.pc (hqpos ▸ hslip)
      · exact hroot _ (hmoved q hq hpos hread hst)
  · obtain ⟨vs, hvs⟩ := hg.marks
    rw [hvs]
    exact marks_old vs fun pc g h => (hb pc g h).le

theorem Level.before {start pos gen : ℕ} {s : (ℕ → Option ℕ) × List Thread}
    (h : Level d t start pos gen s) : Before (gen + 1) s.1 := fun pc g hg => Nat.lt_succ_of_le (h.old pc g hg)

/-- **A path that reads a byte does so in a thread of the level.** -/
theorem Level.mem_moved {start pos gen : ℕ} {s : (ℕ → Option ℕ) × List Thread}
    (h : Level d t start pos gen s) {q : Point} (hq : Comes d t start q) (hpos : q.pos = pos)
    (hread : reads d t q.pos q.pc) (hst : d.Stands q.pc) : q.pc + 1 ∈ (moved d t pos s.2).map Prod.fst := by
  subst hpos
  obtain ⟨th, hth, hpc⟩ := List.mem_map.mp (h.listed q.pc (h.marked q hq rfl) hst)
  rw [← hpc] at hread ⊢
  exact List.mem_map.mpr ⟨_, List.mem_map.mpr ⟨th, List.mem_filter.mpr ⟨hth, hread⟩, rfl⟩, rfl⟩

/-- **The next level**: the threads of a level that read the byte lead to it. -/
theorem Level.next (w : d.WellFormed) (hr : d.Regular) {start pos gen fuel : ℕ}
    {s : (ℕ → Option ℕ) × List Thread} (h : Level d t start pos gen s) (hle : start ≤ pos)
    (hf : d.prog.length < fuel) :
    ∃ s', visitAll (marking (gen + 1)) (arrive d t (pos + 1)) d.prog.length fuel (moved d t pos s.2)
        (s.1, []) = some s' ∧ Level d t start (pos + 1) (gen + 1) s' := by
  refine Level.build w hr h.before hf (fun th hth => ?_) (fun he => by omega) fun q hq hpos => ?_
  · obtain ⟨th', hth', rfl⟩ := List.mem_map.mp hth
    obtain ⟨hmem, hread⟩ := List.mem_filter.mp hth'
    exact .tail (h.came th' hmem) (goes_of_reads hread)
  · exact h.mem_moved hq (by omega)

/-- **Where no thread reads the byte, every path ends.** -/
theorem Level.last (hr : d.Regular) {start pos gen : ℕ} {s : (ℕ → Option ℕ) × List Thread}
    (h : Level d t start pos gen s) (hle : start ≤ pos) (hno : moved d t pos s.2 = []) {p : Point}
    (hp : Comes d t start p) : p.pos ≤ pos := by
  induction hp with
  | refl => exact hle
  | @tail q p hq hgo ih =>
    rcases hgo.cases_pos hr with ⟨hsame, -⟩ | ⟨rfl, hread, hst⟩
    · exact hsame ▸ ih
    · by_contra hgt
      have hpos : q.pos = pos := Nat.le_antisymm ih (Nat.lt_succ_iff.mp (Nat.lt_of_not_le hgt))
      have hmem := h.mem_moved hq hpos hread hst
      rw [hno] at hmem
      exact absurd hmem List.not_mem_nil

/-! ## The longest end -/

/-- The longest match with an end in front of `bound`. -/
def BestBelow (d : Dfa) (t : Subject) (start bound : ℕ) : Option (ℕ × Saves) → Prop
  | none => ∀ e sv, Accepts d t start e sv → bound ≤ e
  | some b => Accepts d t start b.1 b.2 ∧ b.1 < bound ∧ ∀ e sv, Accepts d t start e sv → e ≤ b.1 ∨ bound ≤ e

/-- The longest match. -/
def Best (d : Dfa) (t : Subject) (start : ℕ) : Option (ℕ × Saves) → Prop
  | none => ∀ e sv, ¬Accepts d t start e sv
  | some b => Accepts d t start b.1 b.2 ∧ ∀ e sv, Accepts d t start e sv → e ≤ b.1

theorem BestBelow.best {start bound : ℕ} {best : Option (ℕ × Saves)} (h : BestBelow d t start bound best)
    (hlast : ∀ e sv, Accepts d t start e sv → e < bound) : Best d t start best := by
  cases best with
  | none => exact fun e sv ha => absurd (hlast e sv ha) (Nat.not_lt.mpr (h e sv ha))
  | some b => exact ⟨h.1, fun e sv ha => (h.2.2 e sv ha).resolve_right (Nat.not_le.mpr (hlast e sv ha))⟩

/-- **The threads of a level show the ends at its position.** -/
theorem Level.best {start pos gen : ℕ} {s : (ℕ → Option ℕ) × List Thread} (h : Level d t start pos gen s)
    {best : Option (ℕ × Saves)} (hb : BestBelow d t start pos best) :
    BestBelow d t start (pos + 1) (bestAfter d pos s.2 best) := by
  have hlt : ∀ b ∈ best, b.1 < pos := by
    rintro b rfl
    exact hb.2.1
  rcases bestAfter_spec hlt s.2 with ⟨th, hth, hd, hres⟩ | ⟨hno, hres⟩
  · rw [hres]
    exact ⟨⟨th.1, hd, h.came th hth⟩, Nat.lt_succ_self pos, fun e sv _ => by omega⟩
  · rw [hres]
    have hhere : ∀ e sv, Accepts d t start e sv → e ≠ pos := by
      rintro e sv ⟨pc, hd, hc⟩ rfl
      have hst : d.Stands pc := by simp [Stands, hd]
      obtain ⟨th, hth, rfl⟩ := List.mem_map.mp (h.listed pc (h.marked _ hc rfl) hst)
      exact hno th hth hd
    cases best with
    | none =>
      intro e sv ha
      exact Nat.lt_of_le_of_ne (hb e sv ha) (hhere e sv ha).symm
    | some b =>
      refine ⟨hb.1, Nat.lt_succ_of_lt hb.2.1, fun e sv ha => ?_⟩
      rcases hb.2.2 e sv ha with h1 | h1
      · exact .inl h1
      · exact .inr (Nat.lt_of_le_of_ne h1 (hhere e sv ha).symm)

/-- `a*`. -/
def star : Dfa := ⟨[.split (some 1) (some 3), .char 'a', .jmp (some 0), .done], [], 0, false, false⟩

end Dfa

end Shish
