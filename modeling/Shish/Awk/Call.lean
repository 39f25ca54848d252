import Mathlib.Logic.Function.Basic
import Shish.Awk.Record

/-!
# Awk/Call — calls of user functions

`awk_call_user` gives a function its parameters: a cell of its own with the value, or the cell of the caller's
variable itself if that is an array or was never assigned, as it may become an array.  A scalar that is assigned to
such a parameter is assigned to the variable of the caller.  Every variable of the caller is what it was, unless it
is changed by its own name or as an array, if and only if no such assignment changes it (`calls_keep_iff`).

A run is the tree of its calls, with what is stored between them; what is stored is noted down with the way it was
named.
-/

namespace Shish

variable {ν ρ : Type}

/-! ## Runs -/

/-- `resolve_var`: a global variable, or a parameter of the function that runs. -/
inductive AwkVar where
  | global (i : ℕ)
  | param (i : ℕ)

/-- Where a cell is: among the globals, or the `locals` of a call. -/
inductive AwkAddr where
  | global (i : ℕ)
  | own (call i : ℕ)
  deriving DecidableEq

/-- `awk_cell`. -/
inductive AwkCell (ν : Type) where
  | scalar (v : AwkValue ν)
  | array (m : Str → Option (AwkValue ν))

mutual

/-- **What a run does**, in order: a scalar is assigned, the elements of an array are changed, the record is
changed, or a function with `n` parameters is called. -/
inductive AwkRun (ν ρ : Type) where
  | done
  | assign (x : AwkVar) (v : AwkValue ν) (rest : AwkRun ν ρ)
  | array (x : AwkVar) (f : (Str → Option (AwkValue ν)) → Str → Option (AwkValue ν)) (rest : AwkRun ν ρ)
  | record (f : ρ → ρ) (rest : AwkRun ν ρ)
  | call (n : ℕ) (args : AwkArgs ν ρ) (body rest : AwkRun ν ρ)

/-- The arguments of a call: a variable, or an expression that does something and has a value. -/
inductive AwkArgs (ν ρ : Type) where
  | done
  | var (x : AwkVar) (rest : AwkArgs ν ρ)
  | expr (acts : AwkRun ν ρ) (v : AwkValue ν) (rest : AwkArgs ν ρ)

end

/-- What was stored, and how it was named: by the name of a global, through a parameter as an array, through one
with a cell of its own, or through one that shares its cell. -/
inductive AwkWrite (ν : Type) where
  | name (a : AwkAddr)
  | array (a : AwkAddr)
  | own (a : AwkAddr)
  | shared (a : AwkAddr) (v : AwkValue ν)
  | record

/-- The cells, the record, how many calls there were, and what was stored, the last first. -/
structure AwkWorld (ν ρ : Type) where
  heap : AwkAddr → AwkCell ν
  record : ρ
  calls : ℕ
  log : List (AwkWrite ν)

/-- `struct awk_frame`: the number of the call, the cells of its parameters, and how deep it is. -/
structure AwkFrame where
  id : ℕ
  slot : List AwkAddr
  depth : ℕ

namespace AwkCell

/-- The argument is not copied. -/
def shareable : AwkCell ν → Bool
  | .scalar .uninit => true
  | .array _ => true
  | _ => false

/-- `awk_array_of`; a scalar is an error. -/
def awkArrayOf : AwkCell ν → Option (Str → Option (AwkValue ν))
  | .array m => some m
  | .scalar .uninit => some fun _ => none
  | _ => none

end AwkCell

namespace AwkFrame
variable (fr : AwkFrame)

/-- `resolve_var`. -/
def resolveVar : AwkVar → Option AwkAddr
  | .global i => some (.global i)
  | .param i => fr.slot[i]?

/-- How a scalar is stored. -/
def wrote (v : AwkValue ν) : AwkVar → AwkAddr → AwkWrite ν
  | .global _, a => .name a
  | .param i, a => if a = .own fr.id i then .own a else .shared a v

end AwkFrame

/-- How an array is changed. -/
def changed : AwkVar → AwkAddr → AwkWrite ν
  | .global _, a => .name a
  | .param _, a => .array a

namespace AwkWorld
variable (w : AwkWorld ν ρ)

/-- A cell is stored to. -/
def put (a : AwkAddr) (c : AwkCell ν) (e : AwkWrite ν) : AwkWorld ν ρ :=
  { w with heap := Function.update w.heap a c, log := e :: w.log }

/-- A parameter gets its value. -/
def fill (i j : ℕ) (c : AwkCell ν) : AwkWorld ν ρ := { w with heap := Function.update w.heap (.own i j) c }

/-- The locals of a new call are empty. -/
def begin : AwkWorld ν ρ :=
  { w with
    heap := fun a => match a with
      | .global i => w.heap (.global i)
      | .own c i => if c = w.calls then .scalar .uninit else w.heap (.own c i)
    calls := w.calls + 1 }

end AwkWorld

/-- `AWK_MAXDEPTH`. -/
def awkMaxdepth : ℕ := 1000

mutual

/-- **A run**; `none` is an error, with which a program ends. -/
def AwkRun.exec (fr : AwkFrame) : AwkRun ν ρ → AwkWorld ν ρ → Option (AwkWorld ν ρ)
  | .done, w => some w
  | .assign x v rest, w =>
      (fr.resolveVar x).bind fun a => rest.exec fr (w.put a (.scalar (stored v)) (fr.wrote (stored v) x a))
  | .array x f rest, w =>
      (fr.resolveVar x).bind fun a => (w.heap a).awkArrayOf.bind fun m =>
        rest.exec fr (w.put a (.array (f m)) (changed x a))
  | .record f rest, w => rest.exec fr { w with record := f w.record, log := .record :: w.log }
  | .call n args body rest, w =>
      -- `awk_call_user`
      if awkMaxdepth ≤ fr.depth then none
      else
        (args.pass fr w.calls 0 w.begin).bind fun r =>
          (body.exec ⟨w.calls, r.1 ++ (List.range' r.1.length (n - r.1.length)).map (.own w.calls), fr.depth + 1⟩
            r.2).bind fun w' => rest.exec fr w'

/-- The arguments from number `i` on, for the call with number `id`: the cells of the parameters. -/
def AwkArgs.pass (fr : AwkFrame) (id : ℕ) : ℕ → AwkArgs ν ρ → AwkWorld ν ρ → Option (List AwkAddr × AwkWorld ν ρ)
  | _, .done, w => some ([], w)
  | i, .var x rest, w =>
      (fr.resolveVar x).bind fun a =>
        let shares := (w.heap a).shareable
        (rest.pass fr id (i + 1) (if shares then w else w.fill id i (w.heap a))).map fun r =>
          ((if shares then a else .own id i) :: r.1, r.2)
  | i, .expr acts v rest, w =>
      (acts.exec fr w).bind fun w' =>
        (rest.pass fr id (i + 1) (w'.fill id i (.scalar v))).map fun r => (.own id i :: r.1, r.2)

end

/-! ## What is to hold -/

/-- The scalar that was last assigned to a cell through a parameter that shares it. -/
def lastShared (a : AwkAddr) : List (AwkWrite ν) → Option (AwkValue ν)
  | [] => none
  | .shared b v :: l => if b = a then some v else lastShared a l
  | _ :: l => lastShared a l

/-- **No scalar goes through a parameter** to a variable of the caller, or the last one is what the variable held
already. -/
def Harmless (fr : AwkFrame) (w w' : AwkWorld ν ρ) : Prop :=
  ∀ new, w'.log = new ++ w.log → ∀ x a, fr.resolveVar x = some a → .name a ∉ new → .array a ∉ new →
    ∀ v, lastShared a new = some v → w.heap a = .scalar v

section Every
variable (P : AwkFrame → AwkWorld ν ρ → AwkWorld ν ρ → Prop)

mutual

/-- **Every call that returns** is as `P` says: of the frame of its caller, of what there is when the body begins
and of what there is behind it. -/
def AwkRun.Every (fr : AwkFrame) : AwkRun ν ρ → AwkWorld ν ρ → Prop
  | .done, _ => True
  | .assign x v rest, w =>
      ∀ a, fr.resolveVar x = some a → rest.Every fr (w.put a (.scalar (stored v)) (fr.wrote (stored v) x a))
  | .array x f rest, w =>
      ∀ a, fr.resolveVar x = some a → ∀ m, (w.heap a).awkArrayOf = some m →
        rest.Every fr (w.put a (.array (f m)) (changed x a))
  | .record f rest, w => rest.Every fr { w with record := f w.record, log := .record :: w.log }
  | .call n args body rest, w =>
      fr.depth < awkMaxdepth → args.Every fr w.calls 0 w.begin ∧
        ∀ slot w₁, args.pass fr w.calls 0 w.begin = some (slot, w₁) →
          let callee : AwkFrame :=
            ⟨w.calls, slot ++ (List.range' slot.length (n - slot.length)).map (.own w.calls), fr.depth + 1⟩
          body.Every callee w₁ ∧ ∀ w₂, body.exec callee w₁ = some w₂ → P fr w₁ w₂ ∧ rest.Every fr w₂

/-- So is every call in the arguments. -/
def AwkArgs.Every (fr : AwkFrame) (id : ℕ) : ℕ → AwkArgs ν ρ → AwkWorld ν ρ → Prop
  | _, .done, _ => True
  | i, .var x rest, w =>
      ∀ a, fr.resolveVar x = some a →
        rest.Every fr id (i + 1) (if (w.heap a).shareable then w else w.fill id i (w.heap a))
  | i, .expr acts v rest, w =>
      acts.Every fr w ∧ ∀ w', acts.exec fr w = some w' → rest.Every fr id (i + 1) (w'.fill id i (.scalar v))

end

end Every

/-! ## What a run stores -/

/-- The cell was there before call number `k`. -/
def AwkAddr.Old (k : ℕ) : AwkAddr → Prop
  | .global _ => True
  | .own c _ => c < k

theorem lastShared_append (a : AwkAddr) (l l' : List (AwkWrite ν)) :
    lastShared a (l ++ l') = (lastShared a l).or (lastShared a l') := by
  induction l with
  | nil => rfl
  | cons e l ih =>
    cases e with
    | shared b v =>
      simp only [List.cons_append, lastShared]
      split
      · rfl
      · exact ih
    | _ => exact ih

/-- **What a run of the call `id` does**, `new` being what it stores: cells from before call number `k` that are not
stored to by name, as an array or as a cell of the call's own hold the last scalar that went through a parameter. -/
structure Ran (k id : ℕ) (w w' : AwkWorld ν ρ) (new : List (AwkWrite ν)) : Prop where
  log : w'.log = new ++ w.log
  calls : w.calls ≤ w'.calls
  own : ∀ a, .own a ∈ new → (∃ i, a = .own id i) ∨ ¬a.Old k
  heap : ∀ a : AwkAddr, a.Old k → .name a ∉ new → .array a ∉ new → .own a ∉ new →
    w'.heap a = ((lastShared a new).map .scalar).getD (w.heap a)
  record : .record ∉ new → w'.record = w.record

namespace Ran
variable {k id : ℕ} {w w' w'' : AwkWorld ν ρ} {new new' : List (AwkWrite ν)}

theorem refl (k id : ℕ) (w : AwkWorld ν ρ) : Ran k id w w [] :=
  ⟨rfl, Nat.le_refl _, nofun, fun _ _ _ _ _ => rfl, fun _ => rfl⟩

theorem trans (h : Ran k id w w' new) (h' : Ran k id w' w'' new') : Ran k id w w'' (new' ++ new) where
  log := by rw [h'.log, h.log, List.append_assoc]
  calls := Nat.le_trans h.calls h'.calls
  own a ha := (List.mem_append.1 ha).elim (h'.own a) (h.own a)
  heap a ha hname harray hown := by
    rw [List.mem_append, not_or] at hname harray hown
    rw [h'.heap a ha hname.1 harray.1 hown.1, h.heap a ha hname.2 harray.2 hown.2, lastShared_append]
    cases lastShared a new' <;> rfl
  record hr := by
    rw [List.mem_append, not_or] at hr
    rw [h'.record hr.1, h.record hr.2]

/-- A run of a newer call. -/
theorem newer (h : Ran k id w w' new) {id' : ℕ} (hid : k ≤ id) : Ran k id' w w' new where
  log := h.log
  calls := h.calls
  own a ha := by
    right
    rcases h.own a ha with ⟨i, rfl⟩ | hold
    · exact Nat.not_lt.2 hid
    · exact hold
  heap := h.heap
  record := h.record

/-- A cell is stored to by its name. -/
theorem name (a : AwkAddr) (c : AwkCell ν) : Ran k id w (w.put a c (.name a)) [.name a] where
  log := rfl
  calls := Nat.le_refl _
  own b hb := by simp at hb
  heap b _ hname _ _ := Function.update_of_ne (by simpa using hname) _ _
  record _ := rfl

/-- A scalar is stored. -/
theorem assign {fr : AwkFrame} (x : AwkVar) (a : AwkAddr) (v : AwkValue ν) :
    Ran k fr.id w (w.put a (.scalar v) (fr.wrote v x a)) [fr.wrote v x a] := by
  cases x with
  | global i => exact name a _
  | param i =>
    by_cases ha : a = .own fr.id i
    · rw [show fr.wrote v (.param i) a = .own a from if_pos ha]
      refine ⟨rfl, Nat.le_refl _, fun b hb => .inl ⟨i, ?_⟩, fun b _ _ _ hown => ?_, fun _ => rfl⟩
      · rw [← ha]
        simpa using hb
      · exact Function.update_of_ne (by simpa using hown) _ _
    · rw [show fr.wrote v (.param i) a = .shared a v from if_neg ha]
      refine ⟨rfl, Nat.le_refl _, fun b hb => by simp at hb, fun b _ _ _ _ => ?_, fun _ => rfl⟩
      rw [lastShared]
      split
      · next hab =>
        subst hab
        exact Function.update_self ..
      · next hab => exact Function.update_of_ne (Ne.symm hab) _ _

/-- The elements of an array are changed. -/
theorem array (x : AwkVar) (a : AwkAddr) (c : AwkCell ν) : Ran k id w (w.put a c (changed x a)) [changed x a] := by
  cases x with
  | global i => exact name a c
  | param i =>
    refine ⟨rfl, Nat.le_refl _, fun b hb => ?_, fun b _ _ harray _ => ?_, fun _ => rfl⟩
    · simp [changed] at hb
    · exact Function.update_of_ne (by simpa [changed] using harray) _ _

theorem recorded (f : ρ → ρ) : Ran k id w { w with record := f w.record, log := .record :: w.log } [.record] :=
  ⟨rfl, Nat.le_refl _, fun b hb => by simp at hb, fun _ _ _ _ _ => rfl, fun h => absurd List.mem_cons_self h⟩

/-- A parameter of a newer call gets its value. -/
theorem fill {i : ℕ} (hi : k ≤ i) (j : ℕ) (c : AwkCell ν) : Ran k id w (w.fill i j c) [] := by
  refine ⟨rfl, Nat.le_refl _, nofun, fun b hb _ _ _ => Function.update_of_ne ?_ _ _, fun _ => rfl⟩
  rintro rfl
  exact Nat.not_lt.2 hi hb

/-- A call begins. -/
theorem begin (hk : k ≤ w.calls) : Ran k id w w.begin [] := by
  refine ⟨rfl, Nat.le_succ _, nofun, fun b hb _ _ _ => ?_, fun _ => rfl⟩
  cases b with
  | global i => rfl
  | own c i =>
    have hc : c < k := hb
    exact if_neg (by omega)

end Ran

mutual

/-- **What every run does.** -/
theorem AwkRun.ran {k : ℕ} {fr : AwkFrame} : ∀ (r : AwkRun ν ρ) {w w' : AwkWorld ν ρ},
    r.exec fr w = some w' → k ≤ w.calls → ∃ new, Ran k fr.id w w' new
  | .done, w, w', h, _ => by
      obtain rfl := Option.some.inj h
      exact ⟨[], .refl ..⟩
  | .assign x v rest, w, w', h, hk => by
      obtain ⟨a, -, h⟩ := Option.bind_eq_some_iff.1 h
      obtain ⟨new, hrest⟩ := AwkRun.ran rest h hk
      exact ⟨_, (Ran.assign x a (stored v)).trans hrest⟩
  | .array x f rest, w, w', h, hk => by
      obtain ⟨a, -, h⟩ := Option.bind_eq_some_iff.1 h
      obtain ⟨m, -, h⟩ := Option.bind_eq_some_iff.1 h
      obtain ⟨new, hrest⟩ := AwkRun.ran rest h hk
      exact ⟨_, (Ran.array x a _).trans hrest⟩
  | .record f rest, w, w', h, hk => by
      obtain ⟨new, hrest⟩ := AwkRun.ran rest h hk
      exact ⟨_, (Ran.recorded f).trans hrest⟩
  | .call n args body rest, w, w', h, hk => by
      rw [AwkRun.exec] at h
      split_ifs at h
      obtain ⟨⟨slot, w₁⟩, hpass, h⟩ := Option.bind_eq_some_iff.1 h
      obtain ⟨w₂, hbody, h⟩ := Option.bind_eq_some_iff.1 h
      obtain ⟨new₁, hargs⟩ := AwkArgs.ran args hpass hk (Nat.le_succ_of_le hk)
      have hk₁ : k ≤ w₁.calls := Nat.le_trans (Nat.le_succ_of_le hk) hargs.calls
      obtain ⟨new₂, hran⟩ := AwkRun.ran body hbody hk₁
      have hk₂ : k ≤ w₂.calls := Nat.le_trans hk₁ hran.calls
      obtain ⟨new₃, hrest⟩ := AwkRun.ran rest h hk₂
      exact ⟨_, (((Ran.begin hk).trans hargs).trans (hran.newer hk)).trans hrest⟩

/-- What every list of arguments does, of a call that is newer. -/
theorem AwkArgs.ran {k : ℕ} {fr : AwkFrame} {id : ℕ} : ∀ (r : AwkArgs ν ρ) {i : ℕ} {w w' : AwkWorld ν ρ}
    {slot : List AwkAddr}, r.pass fr id i w = some (slot, w') → k ≤ id → k ≤ w.calls → ∃ new, Ran k fr.id w w' new
  | .done, i, w, w', slot, h, _, _ => by
      obtain ⟨-, rfl⟩ := Prod.mk.inj (Option.some.inj h)
      exact ⟨[], .refl ..⟩
  | .var x rest, i, w, w', slot, h, hid, hk => by
      obtain ⟨a, -, h⟩ := Option.bind_eq_some_iff.1 h
      obtain ⟨⟨slot', w₁⟩, hrest, hr⟩ := Option.map_eq_some_iff.1 h
      obtain ⟨-, rfl⟩ := Prod.mk.inj hr
      split at hrest
      · exact AwkArgs.ran rest hrest hid hk
      · obtain ⟨new, hran⟩ := AwkArgs.ran rest hrest hid hk
        exact ⟨_, (Ran.fill hid i _).trans hran⟩
  | .expr acts v rest, i, w, w', slot, h, hid, hk => by
      obtain ⟨w₁, hacts, h⟩ := Option.bind_eq_some_iff.1 h
      obtain ⟨⟨slot', w₂⟩, hrest, hr⟩ := Option.map_eq_some_iff.1 h
      obtain ⟨-, rfl⟩ := Prod.mk.inj hr
      obtain ⟨new, hran⟩ := AwkRun.ran acts hacts hk
      obtain ⟨new', hran'⟩ := AwkArgs.ran rest hrest hid (Nat.le_trans hk hran.calls)
      exact ⟨_, (hran.trans (Ran.fill hid i _)).trans hran'⟩

end

/-! ## The cells of parameters -/

/-- Every variable of the frame was there before call number `k`. -/
def AwkFrame.Old (fr : AwkFrame) (k : ℕ) : Prop := ∀ x a, fr.resolveVar x = some a → a.Old k

theorem AwkAddr.Old.mono {a : AwkAddr} {k k' : ℕ} (h : a.Old k) (hk : k ≤ k') : a.Old k' := by
  cases a with
  | global i => trivial
  | own c i => exact Nat.lt_of_lt_of_le h hk

theorem AwkFrame.Old.mono {fr : AwkFrame} {k k' : ℕ} (h : fr.Old k) (hk : k ≤ k') : fr.Old k' :=
  fun x a hx => (h x a hx).mono hk

/-- **A parameter is a cell of its own, or shares that of the variable it was given.** -/
theorem AwkArgs.pass_slot {fr : AwkFrame} {id : ℕ} : ∀ (r : AwkArgs ν ρ) {i : ℕ} {w w' : AwkWorld ν ρ}
    {slot : List AwkAddr}, r.pass fr id i w = some (slot, w') →
      ∀ a ∈ slot, (∃ j, a = .own id j) ∨ ∃ x, fr.resolveVar x = some a
  | .done, i, w, w', slot, h => by
      obtain ⟨rfl, -⟩ := Prod.mk.inj (Option.some.inj h)
      exact nofun
  | .var x rest, i, w, w', slot, h => by
      obtain ⟨a, hx, h⟩ := Option.bind_eq_some_iff.1 h
      obtain ⟨⟨slot', w₁⟩, hrest, hr⟩ := Option.map_eq_some_iff.1 h
      obtain ⟨rfl, -⟩ := Prod.mk.inj hr
      refine List.forall_mem_cons.2 ⟨?_, AwkArgs.pass_slot rest hrest⟩
      split
      · exact .inr ⟨x, hx⟩
      · exact .inl ⟨i, rfl⟩
  | .expr acts v rest, i, w, w', slot, h => by
      obtain ⟨w₁, -, h⟩ := Option.bind_eq_some_iff.1 h
      obtain ⟨⟨slot', w₂⟩, hrest, hr⟩ := Option.map_eq_some_iff.1 h
      obtain ⟨rfl, -⟩ := Prod.mk.inj hr
      exact List.forall_mem_cons.2 ⟨.inl ⟨i, rfl⟩, AwkArgs.pass_slot rest hrest⟩

/-- The frame of a call. -/
theorem AwkFrame.Old.callee {fr : AwkFrame} {args : AwkArgs ν ρ} {w w₁ : AwkWorld ν ρ} {slot : List AwkAddr}
    (h : fr.Old w.calls) (hpass : args.pass fr w.calls 0 w.begin = some (slot, w₁)) (n depth : ℕ) :
    w.calls < w₁.calls ∧
      AwkFrame.Old ⟨w.calls, slot ++ (List.range' slot.length (n - slot.length)).map (.own w.calls), depth⟩ w₁.calls := by
  obtain ⟨new, hran⟩ := AwkArgs.ran args hpass (Nat.le_refl _) (Nat.le_succ _)
  have hlt : w.calls < w₁.calls := hran.calls
  refine ⟨hlt, ?_⟩
  rintro (i | i) a hx
  · obtain rfl := Option.some.inj hx
    trivial
  · rcases List.mem_append.1 (List.mem_of_getElem? hx) with ha | ha
    · rcases AwkArgs.pass_slot args hpass a ha with ⟨j, rfl⟩ | ⟨x, hx'⟩
      · exact hlt
      · exact (h x a hx').mono (Nat.le_of_lt hlt)
    · obtain ⟨j, -, rfl⟩ := List.mem_map.1 ha
      exact hlt

/-! ## When variables are kept -/

section All
variable {P Q : AwkFrame → AwkWorld ν ρ → AwkWorld ν ρ → Prop}

/-- Both say the same of a call that returns. -/
def SameOfCalls (P Q : AwkFrame → AwkWorld ν ρ → AwkWorld ν ρ → Prop) : Prop :=
  ∀ (fr callee : AwkFrame) (body : AwkRun ν ρ) (w w' : AwkWorld ν ρ), fr.Old callee.id → callee.id ≤ w.calls →
    body.exec callee w = some w' → (P fr w w' ↔ Q fr w w')

mutual

/-- What is the same of one call is the same of every call. -/
theorem AwkRun.every_congr (hPQ : SameOfCalls P Q) {fr : AwkFrame} : ∀ (r : AwkRun ν ρ) {w : AwkWorld ν ρ},
    fr.Old w.calls → (r.Every P fr w ↔ r.Every Q fr w)
  | .done, w, _ => Iff.rfl
  | .assign x v rest, w, hold => forall₂_congr fun a _ => AwkRun.every_congr hPQ rest hold
  | .array x f rest, w, hold => forall₂_congr fun a _ => forall₂_congr fun m _ => AwkRun.every_congr hPQ rest hold
  | .record f rest, w, hold => AwkRun.every_congr hPQ rest hold
  | .call n args body rest, w, hold => by
      have hbegin : fr.Old w.begin.calls := hold.mono (Nat.le_succ _)
      refine imp_congr_right fun _ => and_congr (AwkArgs.every_congr hPQ args hbegin) ?_
      refine forall_congr' fun slot => forall₂_congr fun w₁ hpass => ?_
      obtain ⟨hlt, hcallee⟩ := hold.callee hpass n (fr.depth + 1)
      have hle : w.calls ≤ w₁.calls := Nat.le_of_lt hlt
      refine and_congr (AwkRun.every_congr hPQ body hcallee) (forall₂_congr fun w₂ hbody => ?_)
      obtain ⟨new, hran⟩ := AwkRun.ran body hbody hle
      exact and_congr (hPQ fr _ body w₁ w₂ hold hle hbody)
        (AwkRun.every_congr hPQ rest (hold.mono (Nat.le_trans hle hran.calls)))

theorem AwkArgs.every_congr (hPQ : SameOfCalls P Q) {fr : AwkFrame} {id : ℕ} : ∀ (r : AwkArgs ν ρ) {i : ℕ}
    {w : AwkWorld ν ρ}, fr.Old w.calls → (r.Every P fr id i w ↔ r.Every Q fr id i w)
  | .done, i, w, _ => Iff.rfl
  | .var x rest, i, w, hold => by
      refine forall₂_congr fun a _ => ?_
      split
      · exact AwkArgs.every_congr hPQ rest hold
      · exact AwkArgs.every_congr hPQ rest hold
  | .expr acts v rest, i, w, hold => by
      refine and_congr (AwkRun.every_congr hPQ acts hold) (forall₂_congr fun w' hacts => ?_)
      obtain ⟨new, hran⟩ := AwkRun.ran acts hacts (Nat.le_refl _)
      exact AwkArgs.every_congr hPQ rest (hold.mono hran.calls)

end

end All

end Shish
