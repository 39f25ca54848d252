import Mathlib.Logic.Function.Basic
import Shish.Awk.SplitRe

/-!
# Awk/Sub — `sub` and `gsub`

`do_sub` reads the text that a cell has, and takes a cell without one to be empty.  A cell that was never assigned
is empty, but a number has no text either: its string is made by `awk_tostr` under `CONVFMT`.  So `sub` and `gsub`
do what they would do to the string of their target if and only if the target is no number, or the expression and
the replacement give for an empty text what they give for that string (`sub_agrees_iff`).
-/

namespace Shish

variable {κ ν : Type}

/-! ## Targets -/

/-- `struct awk_lvalue`: a cell or a field; `FS`, `OFS` and `NF` are the cells that the record goes by. -/
inductive AwkTarget (κ : Type) where
  | cell (k : κ)
  | fs
  | ofs
  | nf
  | field (n : ℕ)

/-- The cells — variables and elements of arrays — and the record. -/
structure AwkState (κ ν : Type) where
  cells : κ → AwkValue ν
  record : AwkRec ν

/-- What a program is run with: the numbers, as a format prints them, the cell of `CONVFMT`, and the split at the
matches of an expression. -/
structure AwkSetting (κ ν : Type) where
  nums : Str → AwkNums ν
  convfmt : κ
  ere : Str → Str → List Str

/-- `cell->str ? cell->str : ""`. -/
def strOrEmpty : AwkValue ν → Str
  | .str s => s
  | .strnum s => s
  | _ => []

/-- A cell that holds a number and no text. -/
def AwkValue.isNum : AwkValue ν → Bool
  | .num _ => true
  | _ => false

/-- A number has no text, and any other cell has its string value. -/
theorem strOrEmpty_eq (N : AwkNums ν) (v : AwkValue ν) :
    strOrEmpty v = if v.isNum then [] else awkTostr N v := by
  cases v <;> rfl

namespace AwkState
variable [DecidableEq κ] (E : AwkSetting κ ν) (st : AwkState κ ν)

/-- Numbers under the `CONVFMT` of now. -/
def now : AwkNums ν :=
  E.nums (match st.cells E.convfmt with
    | .str s => s
    | .strnum s => s
    | _ => "%.6g".toList)

/-- `awk_lvalue_get`, and what the cell says. -/
def get : AwkTarget κ → AwkState κ ν × AwkValue ν
  | .cell k => (st, st.cells k)
  | .fs => (st, st.record.fs)
  | .ofs => (st, st.record.ofs)
  | .nf =>
      let record := st.record.ensureSplit (st.now E) E.ere
      ({ st with record }, record.cellNF)
  | .field n =>
      let r := st.record.field (st.now E) E.ere n
      ({ st with record := r.1 }, r.2)

/-- `awk_lvalue_set_str`, of a text that is no number. -/
def setStr (target : AwkTarget κ) (s : Str) : AwkState κ ν :=
  match target with
  | .cell k => { st with cells := Function.update st.cells k (.str s) }
  | .fs => { st with record := { st.record with fs := .str s } }
  | .ofs => { st with record := { st.record with ofs := .str s } }
  | .nf => { st with record := st.record.assignNF (st.now E) E.ere (.str s) }
  | .field n => { st with record := st.record.assign (st.now E) E.ere n (.str s) }

/-- `do_sub`, with a bound on the loops, and the number it returns; an expression that is not valid replaces
nothing. -/
def doSub (pat repl : Str) (target : AwkTarget κ) (glob : Bool) (fuel : ℕ) : Option (AwkState κ ν × ℕ) :=
  match dfaCompile { ere := true } pat with
  | .error _ => some (st, 0)
  | .ok re =>
      (dfaReplCompile false repl fuel).bind fun rc =>
        let got := st.get E target
        (dfaReplace re (subjectOf (strOrEmpty got.2)) rc 1 glob fuel).map fun r =>
          (if r.2 ≠ 0 then got.1.setStr E target r.1 else got.1, r.2)

/-! ## What is to happen -/

/-- The string value of a target: `awk_tostr` of its cell. -/
def strValue (target : AwkTarget κ) : Str := awkTostr (st.now E) (st.get E target).2

end AwkState

/-- A text with what an expression matches replaced, and how often. -/
def awkReplace (pat repl : Str) (glob : Bool) (s : Str) (fuel : ℕ) : Option (Str × ℕ) :=
  match dfaCompile { ere := true } pat with
  | .error _ => some (s, 0)
  | .ok re => (dfaReplCompile false repl fuel).bind fun rc => dfaReplace re (subjectOf s) rc 1 glob fuel

namespace AwkState
variable [DecidableEq κ] (E : AwkSetting κ ν) (st : AwkState κ ν)

/-- **The target is assigned its string value**, and then what is replaced in that. -/
def subOfString (pat repl : Str) (target : AwkTarget κ) (glob : Bool) (fuel : ℕ) : Option (AwkState κ ν × ℕ) :=
  let st' := (st.get E target).1.setStr E target (st.strValue E target)
  (awkReplace pat repl glob (st.strValue E target) fuel).map fun r =>
    (if r.2 ≠ 0 then st'.setStr E target r.1 else st', r.2)

/-- What is seen of a substitution: the new string value of the target, and the number. -/
def seen (target : AwkTarget κ) (r : AwkState κ ν × ℕ) : Str × ℕ := (r.1.strValue E target, r.2)

/-- **The substitution gives what it is to give**, and `&` leaves the target as it is. -/
def SubAgrees (pat repl : Str) (target : AwkTarget κ) (glob : Bool) : Prop :=
  (∀ r, Halts (fun fuel => (st.doSub E pat repl target glob fuel).map (seen E target)) r ↔
    Halts (fun fuel => (st.subOfString E pat repl target glob fuel).map (seen E target)) r) ∧
  (repl = ['&'] → ∀ r, Halts (st.doSub E pat repl target glob) r →
    r.1.strValue E target = st.strValue E target)

end AwkState

/-- The string value of a target that is assigned a text: `NF` becomes the number that the text says. -/
def readBack (N : AwkNums ν) (target : AwkTarget κ) (s : Str) : Str :=
  match target with
  | .nf => N.num2str (N.ofNat (longOf N (.str s)).toNat)
  | _ => s

/-- **The empty text gives what `s` gives**: as many replacements, and if there is one what is read of the
result. -/
def EmptyLike (pat repl : Str) (glob : Bool) (read : Str → Str) (s : Str) : Prop :=
  ∀ n t, (∃ out, Halts (awkReplace pat repl glob []) (out, n) ∧ (n ≠ 0 → read out = t)) ↔
    ∃ out, Halts (awkReplace pat repl glob s) (out, n) ∧ (n ≠ 0 → read out = t)

/-! ## Reading and assigning -/

namespace AwkRec
variable {N : AwkNums ν} {ere : Str → Str → List Str}

theorem ensureSplit_done (s : AwkRec ν) : (s.ensureSplit N ere).splitDone = true := by
  unfold ensureSplit
  split
  · assumption
  · rfl

theorem ensureSplit_of_done {s : AwkRec ν} (h : s.splitDone = true) : s.ensureSplit N ere = s := if_pos h

/-- A field that was read reads the same again. -/
theorem field_field (s : AwkRec ν) (n : ℕ) : ((s.field N ere n).1.field N ere n).2 = (s.field N ere n).2 := by
  unfold field
  split
  · cases hd : s.dirty with
    | true => rfl
    | false => simp [hd]
  · exact congrArg (fun r : AwkRec ν => r.f.getD (n - 1) .uninit) (ensureSplit_of_done s.ensureSplit_done)

/-- **A field that is assigned a text** reads as the text. -/
theorem field_assign (s : AwkRec ν) (n : ℕ) (t : Str) : ((s.assign N ere n (.str t)).field N ere n).2 = .str t := by
  unfold assign field
  split
  · rfl
  · next hn =>
    have hlen : n - 1 < (fillGap (ensureCap (s.ensureSplit N ere).f n) (s.ensureSplit N ere).nf (n - 1)).length := by
      simp only [fillGap, ensureCap, List.length_append, List.length_take, List.length_replicate, List.length_drop]
      omega
    rw [ensureSplit_of_done (show (s.setField N ere n (stored (.str t))).splitDone = true from s.ensureSplit_done)]
    simp only [setField, List.getD_eq_getElem?_getD, List.getElem?_set_self hlen, Option.getD_some]
    rfl

end AwkRec

namespace AwkState
variable {E : AwkSetting κ ν} (st : AwkState κ ν) (target : AwkTarget κ)

theorem now_get : (st.get E target).1.now E = st.now E := by
  cases target <;> rfl

/-- A target that was read reads the same again. -/
theorem strValue_get : (st.get E target).1.strValue E target = st.strValue E target := by
  cases target with
  | nf =>
    exact congrArg (fun r : AwkRec ν => awkTostr (st.now E) r.cellNF)
      (AwkRec.ensureSplit_of_done st.record.ensureSplit_done)
  | field n => exact congrArg (awkTostr (st.now E)) (st.record.field_field n)
  | _ => rfl

variable [DecidableEq κ]

/-- **A target that is assigned a text.** -/
theorem strValue_setStr (s : Str) : (st.setStr E target s).strValue E target = readBack (st.now E) target s := by
  cases target with
  | cell k =>
    change awkTostr _ (Function.update st.cells k (.str s) k) = s
    rw [Function.update_self]
    rfl
  | nf =>
    have hdone : (st.record.assignNF (st.now E) E.ere (.str s)).splitDone = true := st.record.ensureSplit_done
    exact congrArg (fun r : AwkRec ν => awkTostr (st.now E) r.cellNF) (AwkRec.ensureSplit_of_done hdone)
  | field n => exact congrArg (awkTostr (st.now E)) (st.record.field_assign n s)
  | _ => rfl

/-- What is seen of a result: the string value of before, if nothing was replaced. -/
def shown (N : AwkNums ν) (target : AwkTarget κ) (s : Str) (r : Str × ℕ) : Str × ℕ :=
  (if r.2 ≠ 0 then readBack N target r.1 else s, r.2)

/-- **What `do_sub` replaces in** is the text that the cell has. -/
theorem doSub_seen (pat repl : Str) (glob : Bool) (fuel : ℕ) :
    (st.doSub E pat repl target glob fuel).map (seen E target) =
      (awkReplace pat repl glob (strOrEmpty (st.get E target).2) fuel).map
        (shown (st.now E) target (st.strValue E target)) := by
  unfold doSub awkReplace
  cases dfaCompile { ere := true } pat with
  | error e => rfl
  | ok re =>
    cases dfaReplCompile false repl fuel with
    | none => rfl
    | some rc =>
      simp only [Option.bind_some, Option.map_map]
      refine congrArg₂ Option.map (funext fun r => ?_) rfl
      by_cases hr : r.2 = 0
      · simp [seen, shown, hr, strValue_get]
      · simp [seen, shown, hr, strValue_setStr, now_get]

/-- A text is read back the same behind another assignment. -/
theorem readBack_setStr (s t : Str) :
    readBack ((st.setStr E target s).now E) target t = readBack (st.now E) target t := by
  cases target <;> rfl

/-- What is to happen replaces in the string value. -/
theorem subOfString_seen (hself : readBack (st.now E) target (st.strValue E target) = st.strValue E target)
    (pat repl : Str) (glob : Bool) (fuel : ℕ) :
    (st.subOfString E pat repl target glob fuel).map (seen E target) =
      (awkReplace pat repl glob (st.strValue E target) fuel).map
        (shown (st.now E) target (st.strValue E target)) := by
  unfold subOfString
  rw [Option.map_map]
  refine congrArg₂ Option.map (funext fun r => ?_) rfl
  by_cases hr : r.2 = 0
  · simp [seen, shown, hr, strValue_setStr, now_get, hself]
  · simp [seen, shown, hr, strValue_setStr, now_get, readBack_setStr]

end AwkState

section Shown
variable {pat repl : Str} {glob : Bool} {N : AwkNums ν} {target : AwkTarget κ} {s : Str}

theorem halts_shown {u t : Str} {n : ℕ} :
    Halts (fun fuel => (awkReplace pat repl glob u fuel).map (AwkState.shown N target s)) (t, n) ↔
      (n = 0 → t = s) ∧ ∃ out, Halts (awkReplace pat repl glob u) (out, n) ∧ (n ≠ 0 → readBack N target out = t) := by
  rw [halts_map]
  constructor
  · rintro ⟨⟨out, m⟩, hout, hr⟩
    obtain ⟨ht, rfl⟩ := Prod.mk.inj hr
    refine ⟨fun hm => ?_, out, hout, fun hm => ?_⟩
    · obtain rfl : m = 0 := hm
      exact ht.symm
    · rwa [if_pos hm] at ht
  · rintro ⟨hzero, out, hout, hread⟩
    refine ⟨(out, n), hout, Prod.ext ?_ rfl⟩
    by_cases hn : n = 0
    · subst hn
      exact (hzero rfl).symm
    · exact (if_pos hn).trans (hread hn)

/-- **What is seen of the empty text and of `s` is the same** if one is as good as the other. -/
theorem halts_shown_iff :
    (∀ r, Halts (fun fuel => (awkReplace pat repl glob [] fuel).map (AwkState.shown N target s)) r ↔
      Halts (fun fuel => (awkReplace pat repl glob s fuel).map (AwkState.shown N target s)) r) ↔
    EmptyLike pat repl glob (readBack N target) s := by
  constructor
  · intro h n t
    by_cases hn : n = 0
    · subst hn
      have hs := h (s, 0)
      rw [halts_shown, halts_shown] at hs
      simpa using hs
    · have ht := h (t, n)
      rw [halts_shown, halts_shown] at ht
      simpa [hn] using ht
  · rintro h ⟨t, n⟩
    rw [halts_shown, halts_shown, h n t]

end Shown

/-- `&` leaves the text as it is. -/
theorem awkReplace_amp {pat : Str} {glob : Bool} {s : Str} {fuel : ℕ} {r : Str × ℕ}
    (h : awkReplace pat ['&'] glob s fuel = some r) : r.1 = s := by
  unfold awkReplace at h
  split at h
  · obtain rfl := Option.some.inj h
    rfl
  · obtain ⟨rc, hrc, h⟩ := Option.bind_eq_some_iff.1 h
    rw [Dfa.dfaReplace_amp hrc h]
    exact slice_subjectOf s

/-! ## When they agree -/

section Agree
variable [DecidableEq κ]

/-- **`sub` and `gsub` do what they would do to the string of their target** if and only if the target is no number,
or the empty text gives what that string gives.  The digits of `NF` are read back as they are. -/
theorem sub_agrees_iff (E : AwkSetting κ ν) (st : AwkState κ ν) (pat repl : Str) (target : AwkTarget κ) (glob : Bool)
    (hself : target = .nf → readBack (st.now E) target (st.strValue E target) = st.strValue E target) :
    st.SubAgrees E pat repl target glob ↔
      (st.get E target).2.isNum = false ∨
        EmptyLike pat repl glob (readBack (st.now E) target) (st.strValue E target) := by
  have hback : readBack (st.now E) target (st.strValue E target) = st.strValue E target := by
    cases target with
    | nf => exact hself rfl
    | _ => rfl
  have hcode := fun fuel => AwkState.doSub_seen (E := E) st target pat repl glob fuel
  have hwant := fun fuel => st.subOfString_seen target hback pat repl glob fuel
  have hsame : (∀ r, Halts (fun fuel => (st.doSub E pat repl target glob fuel).map (AwkState.seen E target)) r ↔
      Halts (fun fuel => (st.subOfString E pat repl target glob fuel).map (AwkState.seen E target)) r) ↔
      ((st.get E target).2.isNum = false ∨
        EmptyLike pat repl glob (readBack (st.now E) target) (st.strValue E target)) := by
    simp only [hcode, hwant]
    rw [strOrEmpty_eq (st.now E)]
    cases hnum : (st.get E target).2.isNum with
    | true => simpa using halts_shown_iff
    | false => simp [AwkState.strValue]
  constructor
  · exact fun h => hsame.1 h.1
  · refine fun h => ⟨hsame.2 h, ?_⟩
    rintro rfl r ⟨fuel, hr⟩
    -- what `&` leaves is what is to be left
    obtain ⟨fuel', hwanted⟩ := (hsame.2 h (AwkState.seen E target r)).1 ⟨fuel, congrArg (Option.map _) hr⟩
    dsimp only at hwanted
    rw [hwant] at hwanted
    obtain ⟨out, hout, hshown⟩ := Option.map_eq_some_iff.1 hwanted
    have hvalue : (if out.2 ≠ 0 then readBack (st.now E) target out.1 else st.strValue E target) =
      r.1.strValue E target := congrArg Prod.fst hshown
    rw [← hvalue, awkReplace_amp hout, hback, ite_self]

end Agree

/-! ## A number that is taken to be empty -/

/-- Whole numbers. -/
def wholeNums : AwkNums ℕ where
  ofNat := id
  toLong := Int.ofNat
  num2str := Nat.toDigits 10
  looksNumeric s :=
    if s ≠ [] ∧ s.all Char.isDigit then some (s.foldl (fun x c => 10 * x + (c.toNat - 48)) 0) else none

/-- Variables by their names. -/
def wholeSetting : AwkSetting Str ℕ := ⟨fun _ => wholeNums, "CONVFMT".toList, awkSplitEre⟩

/-- The record `a b` is read. -/
def twoFields : AwkState Str ℕ := ⟨fun _ => .uninit, (AwkRec.start ℕ [' ']).setline "a b".toList⟩

/-- `sub(/2/, "1", NF)`: the two of `NF` is not found, and should be. -/
theorem sub_agrees_nf : twoFields.SubAgrees wholeSetting ['2'] ['1'] .nf false ↔
    (twoFields.get wholeSetting .nf).2.isNum = false ∨
      EmptyLike ['2'] ['1'] false (readBack (twoFields.now wholeSetting) (.nf : AwkTarget Str))
        (twoFields.strValue wholeSetting .nf) :=
  sub_agrees_iff wholeSetting twoFields ['2'] ['1'] .nf false fun _ => by decide

/-- `x = 12`. -/
def twelve : AwkState Str ℕ := ⟨Function.update (fun _ => .uninit) ['x'] (.num 12), AwkRec.start ℕ [' ']⟩

/-- The compiled `1`. -/
def compiledOne : Dfa := ⟨[.char '1', .done], [], 0, false, false⟩

/-- There is no `1` in an empty text. -/
theorem one_not_found {fuel : ℕ} {m : Span} : compiledOne.dfaSearch (subjectOf []) 0 fuel ≠ some (some m) := by
  intro h
  have hn : m.start ≤ m.stop ∧ m.stop ≤ 0 := (Dfa.dfaSearch_bounds (Nat.le_refl 0) h).2
  obtain ⟨sv, ⟨pc, hdone, hcome⟩, -⟩ := Dfa.submatch_again h 0
  rcases Relation.ReflTransGen.cases_head hcome with heq | ⟨p, hstep, hrest⟩
  · obtain ⟨rfl, -, -⟩ := Dfa.Point.mk.inj heq
    exact absurd hdone (by decide)
  · cases hstep with
    | char hi hlt _ => exact absurd hlt (Nat.not_lt_zero _)
    | any hi hlt => exact absurd hlt (Nat.not_lt_zero _)
    | set hi _ hlt _ => exact absurd hlt (Nat.not_lt_zero _)
    | _ hi => exact absurd hi (by simp [compiledOne])

/-- **`x = 12; sub(/1/, "9", x)`** replaces nothing: a number has no text. -/
theorem sub_number_lost : ¬∀ (st : AwkState Str ℕ) (pat repl : Str) (target : AwkTarget Str) (glob : Bool),
    (target = .nf → readBack (st.now wholeSetting) target (st.strValue wholeSetting target) =
      st.strValue wholeSetting target) → st.SubAgrees wholeSetting pat repl target glob := by
  intro hall
  have hwant : Halts (fun fuel => (twelve.subOfString wholeSetting ['1'] ['9'] (.cell ['x']) false fuel).map
      (AwkState.seen wholeSetting (.cell ['x']))) (['9', '2'], 1) := ⟨9, by decide⟩
  obtain ⟨fuel, hcode⟩ := ((hall twelve ['1'] ['9'] (.cell ['x']) false (fun h => by cases h)).1 _).2 hwant
  dsimp only at hcode
  rw [AwkState.doSub_seen] at hcode
  obtain ⟨⟨out, n⟩, hout, hr⟩ := Option.map_eq_some_iff.1 hcode
  obtain rfl : n = 1 := congrArg Prod.snd hr
  have hcompiled : dfaCompile { ere := true } ['1'] = .ok compiledOne := by decide
  unfold awkReplace at hout
  rw [hcompiled] at hout
  obtain ⟨rc, -, hloop⟩ := Option.bind_eq_some_iff.1 hout
  cases fuel with
  | zero => cases hloop
  | succ k =>
    rw [dfaReplace, replaceLoop, if_neg (Nat.not_lt_zero _)] at hloop
    split at hloop
    · cases hloop
    · cases congrArg Prod.snd (Option.some.inj hloop)
    next m hm => exact one_not_found hm

end Shish
