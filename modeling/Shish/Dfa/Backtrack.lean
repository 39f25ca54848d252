import Shish.Dfa.Run

/-!
# Dfa/Backtrack — the backtracking matcher

A pattern with a back-reference is matched along one path at a time: a `SPLIT` leaves a choice, a
`SAVE` notes the old slot, and a failure rewinds both stacks.  Every state is a point that a path comes
to, and so is every choice once it is rewound to (`Onpath`).
-/

namespace Shish

/-! ## The matcher -/

/-- `DFA_MAXSTEPS`. -/
def dfaMaxsteps : ℕ := 10000000

/-- A state of `bt_match`: the instruction (`none` is a target that is not known), the position, the
slots, the choices (`struct dfa_choice`) and the undo stack (`struct dfa_undo`), tops first. -/
structure Bt where
  pc : Option ℕ
  pos : ℕ
  save : Saves
  choices : List (Option ℕ × ℕ × ℕ)
  undo : List (ℕ × Option ℕ)
  deriving DecidableEq

/-- The undo stack down to a height, and the slots as they were then. -/
def rewind (top : ℕ) : List (ℕ × Option ℕ) → Saves → List (ℕ × Option ℕ) × Saves
  | [], sv => ([], sv)
  | u :: us, sv => if top < us.length + 1 then rewind top us (sv.set u.1 u.2) else (u :: us, sv)

/-- The last choice, or the end of the search. -/
def btBack (s : Bt) : Bt ⊕ Option (ℕ × Saves) :=
  match s.choices with
  | [] => .inr none
  | c :: cs =>
    let r := rewind c.2.2 s.undo s.save
    .inl ⟨c.1, c.2.1, r.2, cs, r.1⟩

namespace Dfa
variable (d : Dfa) (t : Subject)

/-- One turn of the loop of `bt_match`: a new state, or the result.  `none` is an error: an
instruction, a set or a slot out of bounds, or a byte behind the subject that is read.

A length of `ge - gs` with the end in front of the start wraps around, `pos + len` is in the subject
again, and bytes are compared until two differ. -/
def btNext (s : Bt) : Option (Bt ⊕ Option (ℕ × Saves)) :=
  match s.pc with
  | none => none
  | some pc =>
    let on (ok : Bool) (pos : ℕ) : Bt ⊕ Option (ℕ × Saves) :=
      if ok then .inl { s with pc := some (pc + 1), pos := pos } else btBack s
    match d.prog[pc]? with
    | none => none
    | some (.char x) => some (on (t.read s.pos == some x) (s.pos + 1))
    | some .any => some (on (t.read s.pos).isSome (s.pos + 1))
    | some (.set i) =>
      match t.read s.pos with
      | none => some (btBack s)
      | some c => d.sets[i]?.map fun set => on (set.has c) (s.pos + 1)
    | some (.jmp x) => some (.inl { s with pc := x })
    | some (.split x y) => some (.inl { s with pc := x, choices := (y, s.pos, s.undo.length) :: s.choices })
    | some (.save slot) =>
      s.save[slot]?.map fun old =>
        .inl { s with pc := some (pc + 1), save := s.save.set slot (some s.pos), undo := (slot, old) :: s.undo }
    | some .bol => some (on (t.bolok d.multi s.pos) s.pos)
    | some .eol => some (on (t.eolok d.multi s.pos) s.pos)
    | some (.word kind) => some (on (t.dfaWordok kind s.pos) s.pos)
    | some (.backref g) =>
      match s.save[2 * (g - 1)]?, s.save[2 * (g - 1) + 1]? with
      | some (some gs), some (some ge) =>
        if gs ≤ ge then
          some (on (decide (s.pos + (ge - gs) ≤ t.n ∧ ∀ k < ge - gs, t.byte (s.pos + k) = t.byte (gs + k)))
            (s.pos + (ge - gs)))
        else if ∃ k < t.n - s.pos, t.byte (s.pos + k) ≠ t.byte (gs + k) then some (btBack s)
        else none
      | some _, some _ => some (btBack s)
      | _, _ => none
    | some .done => some (.inr (some (s.pos, s.save)))

/-- The loop of `bt_match`, with a number of steps; without any left there is no match. -/
def btLoop : ℕ → Bt → Option (Option (ℕ × Saves))
  | 0, _ => some none
  | k + 1, s =>
    match btNext d t s with
    | none => none
    | some (.inl s') => btLoop k s'
    | some (.inr r) => some r

/-- The state that `bt_match` begins with. -/
def btInit (start : ℕ) : Bt := ⟨some 0, start, noSaves d, [], []⟩

/-- `bt_match`: the end of the first match found from `start`, and the slots. -/
def btMatch (start : ℕ) : Option (Option (ℕ × Saves)) := btLoop d t dfaMaxsteps (btInit d start)

/-- `dfa_bt_run`, with a bound on the turns of its loop. -/
def dfaBtRun (anchored : Bool) (ng : ℕ) : ℕ → ℕ → Option (Option (Span × List (Option Span)))
  | 0, _ => none
  | fuel + 1, start =>
    match btMatch d t start with
    | none => none
    | some (some r) => some (some (⟨start, r.1⟩, spans d r.2 ng))
    | some none => if anchored || decide (t.n ≤ start) then some none else dfaBtRun anchored ng fuel (start + 1)

/-- **A state of the matcher**, in the search from `start`. -/
def BtReached (start : ℕ) : Bt → Prop :=
  Relation.ReflTransGen (fun s s' => btNext d t s = some (.inl s')) (btInit d start)

/-! ## The stacks -/

/-- Every choice, once the slots are rewound to it, is a point that a path comes to. -/
def Choices (start : ℕ) : List (Option ℕ × ℕ × ℕ) → List (ℕ × Option ℕ) → Saves → Prop
  | [], _, _ => True
  | c :: cs, us, sv =>
    c.2.2 ≤ us.length ∧ (∀ pc, c.1 = some pc → Comes d t start ⟨pc, c.2.1, (rewind c.2.2 us sv).2⟩) ∧
      Choices start cs (rewind c.2.2 us sv).1 (rewind c.2.2 us sv).2

/-- **A state on a path.** -/
structure Onpath (start : ℕ) (s : Bt) : Prop where
  here : ∀ pc, s.pc = some pc → Comes d t start ⟨pc, s.pos, s.save⟩
  choices : Choices d t start s.choices s.undo s.save

variable {d t} {start : ℕ}

theorem rewind_length : ∀ (us : List (ℕ × Option ℕ)) (sv : Saves), rewind us.length us sv = (us, sv)
  | [], _ => rfl
  | _ :: _, _ => if_neg (Nat.lt_irrefl _)

/-- A slot that was written since is put back. -/
theorem rewind_push {top : ℕ} {us : List (ℕ × Option ℕ)} {sv : Saves} (htop : top ≤ us.length) {slot : ℕ}
    {old : Option ℕ} (hold : sv[slot]? = some old) (new : Option ℕ) :
    rewind top ((slot, old) :: us) (sv.set slot new) = rewind top us sv := by
  have hback : (sv.set slot new).set slot old = sv := by
    rw [List.set_set]
    refine List.ext_getElem? fun k => ?_
    rw [List.getElem?_set]
    split_ifs with hk hlt
    · rw [← hk, hold]
    · rw [← hk, List.getElem?_eq_none (Nat.not_lt.1 hlt)]
    · rfl
  rw [rewind, if_pos (Nat.lt_succ_of_le htop), hback]

theorem Choices.push {us : List (ℕ × Option ℕ)} {sv : Saves} {slot : ℕ} {old : Option ℕ}
    (hold : sv[slot]? = some old) (new : Option ℕ) :
    ∀ {cs : List (Option ℕ × ℕ × ℕ)}, Choices d t start cs us sv →
      Choices d t start cs ((slot, old) :: us) (sv.set slot new)
  | [], _ => trivial
  | c :: cs, ⟨htop, hc, hcs⟩ => by
      rw [Choices, rewind_push htop hold new]
      exact ⟨Nat.le_succ_of_le htop, hc, hcs⟩

/-- The state behind a failure. -/
theorem Onpath.back {s s' : Bt} (h : Onpath d t start s) (hs : btBack s = .inl s') : Onpath d t start s' := by
  have hch := h.choices
  unfold btBack at hs
  split at hs
  · exact absurd hs nofun
  next c cs hcs =>
  rw [hcs] at hch
  obtain rfl := Sum.inl.inj hs
  exact ⟨hch.2.1, hch.2.2⟩

/-- **One turn stays on paths**, and a match ends one. -/
theorem Onpath.next {s : Bt} (h : Onpath d t start s) {r : Bt ⊕ Option (ℕ × Saves)}
    (hr : btNext d t s = some r) :
    (∀ s', r = .inl s' → Onpath d t start s') ∧ ∀ m, r = .inr (some m) → Accepts d t start m.1 m.2 := by
  have hback : btBack s = r → (∀ s', r = .inl s' → Onpath d t start s') ∧
      ∀ m, r = .inr (some m) → Accepts d t start m.1 m.2 := by
    rintro rfl
    refine ⟨fun s' hs' => h.back hs', fun m hm => ?_⟩
    unfold btBack at hm
    split at hm <;> simp at hm
  unfold btNext at hr
  split at hr
  · cases hr
  next pc hpc =>
  have hcome := h.here pc hpc
  -- an instruction that is passed, or fails
  have hon : ∀ {ok : Bool} {pos : ℕ}, (ok = true → Goes d t ⟨pc, s.pos, s.save⟩ ⟨pc + 1, pos, s.save⟩) →
      (if ok then Sum.inl { s with pc := some (pc + 1), pos := pos } else btBack s) = r →
      (∀ s', r = .inl s' → Onpath d t start s') ∧ ∀ m, r = .inr (some m) → Accepts d t start m.1 m.2 := by
    intro ok pos hgo hr
    cases ok with
    | true =>
      obtain rfl : Sum.inl { s with pc := some (pc + 1), pos := pos } = r := hr
      refine ⟨fun s' hs' => ?_, (fun _ h => by cases h)⟩
      obtain rfl := Sum.inl.inj hs'
      refine ⟨fun pc' hpc' => ?_, h.choices⟩
      obtain rfl := Option.some.inj hpc'
      exact .tail hcome (hgo rfl)
    | false => exact hback hr
  have hread : ∀ {c}, t.read s.pos = some c → s.pos < t.n ∧ t.byte s.pos = c := by
    intro c hc
    unfold Subject.read at hc
    split_ifs at hc with hn
    exact ⟨hn, Option.some.inj hc⟩
  split at hr
  · cases hr
  · next x hi =>
    refine hon (fun hok => ?_) (Option.some.inj hr)
    obtain ⟨hn, hc⟩ := hread (by simpa using hok)
    exact .char hi hn hc
  · next hi =>
    refine hon (fun hok => ?_) (Option.some.inj hr)
    obtain ⟨c, hc⟩ := Option.isSome_iff_exists.1 hok
    exact .any hi (hread hc).1
  · next i hi =>
    split at hr
    · exact hback (Option.some.inj hr)
    · next c hc =>
      obtain ⟨set, hset, hr⟩ := Option.map_eq_some_iff.1 hr
      obtain ⟨hn, hbyte⟩ := hread hc
      exact hon (fun hok => .set hi hset hn (hbyte ▸ hok)) hr
  · next x hi =>
    obtain rfl := Option.some.inj hr
    refine ⟨fun s' hs' => ?_, (fun _ h => by cases h)⟩
    obtain rfl := Sum.inl.inj hs'
    refine ⟨fun pc' hpc' => ?_, h.choices⟩
    obtain rfl : x = some pc' := hpc'
    exact .tail hcome (.jmp hi)
  · next x y hi =>
    obtain rfl := Option.some.inj hr
    refine ⟨fun s' hs' => ?_, (fun _ h => by cases h)⟩
    obtain rfl := Sum.inl.inj hs'
    refine ⟨fun pc' hpc' => ?_, Nat.le_refl _, fun pc' hpc' => ?_, ?_⟩
    · exact .tail hcome (.split hi (.inl hpc'.symm))
    · rw [rewind_length]
      exact .tail hcome (.split hi (.inr hpc'.symm))
    · rw [rewind_length]
      exact h.choices
  · next slot hi =>
    obtain ⟨old, hold, rfl⟩ := Option.map_eq_some_iff.1 hr
    refine ⟨fun s' hs' => ?_, (fun _ h => by cases h)⟩
    obtain rfl := Sum.inl.inj hs'
    refine ⟨fun pc' hpc' => ?_, h.choices.push hold _⟩
    obtain rfl := Option.some.inj hpc'
    exact .tail hcome (.save hi)
  · next hi => exact hon (fun hok => .bol hi hok) (Option.some.inj hr)
  · next hi => exact hon (fun hok => .eol hi hok) (Option.some.inj hr)
  · next kind hi => exact hon (fun hok => .word hi hok) (Option.some.inj hr)
  · next g hi =>
    split at hr
    · next gs ge hgs hge =>
      split_ifs at hr with hle hdiff
      · refine hon (fun hok => ?_) (Option.some.inj hr)
        obtain ⟨hn, heq⟩ := of_decide_eq_true hok
        exact .backref hi hgs hge hle hn heq
      · exact hback (Option.some.inj hr)
    · exact hback (Option.some.inj hr)
    · cases hr
  · next hi =>
    obtain rfl := Option.some.inj hr
    refine ⟨(fun _ h => by cases h), fun m hm => ?_⟩
    obtain rfl := Option.some.inj (Sum.inr.inj hm)
    exact ⟨pc, hi, hcome⟩

theorem Onpath.init : Onpath d t start (btInit d start) where
  here pc hpc := by
    obtain rfl := Option.some.inj hpc
    exact .refl
  choices := trivial

theorem BtReached.onpath {s : Bt} (h : BtReached d t start s) : Onpath d t start s := by
  induction h with
  | refl => exact .init
  | tail _ hs ih => exact (ih.next hs).1 _ rfl

/-- **What the backtracker finds is a match.** -/
theorem btLoop_accepts : ∀ (k : ℕ) {s : Bt} {m : ℕ × Saves}, Onpath d t start s →
    btLoop d t k s = some (some m) → Accepts d t start m.1 m.2
  | 0, _, _, _, hm => absurd hm nofun
  | k + 1, s, m, h, hm => by
      rw [btLoop] at hm
      split at hm
      · exact absurd hm nofun
      · next s' hs' => exact btLoop_accepts k ((h.next hs').1 s' rfl) hm
      · next r hr =>
        obtain rfl := Option.some.inj hm
        exact (h.next hr).2 m rfl

end Dfa

end Shish
