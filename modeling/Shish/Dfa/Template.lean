import Mathlib.Data.List.TakeWhile
import Shish.Dfa.Compiled
import Shish.Dfa.Run

/-!
# Dfa/Template — replacement templates

`dfa_repl_compile` reads a template once: literal bytes are collected in one buffer, of which the items
name runs.  `dfa_repl_apply` puts the runs and the groups out, in upper or lower case where the template
says so.  A compiled template means what its parts mean in order (`replApply_eq`); one that ends in a
lone backslash is never compiled, the loop stays where it is (`replCompile_returns_iff`).
-/

namespace Shish

/-! ## Parts of a template -/

/-- `\U`, `\L`, `\u`, `\l` and `\E`. -/
inductive CaseOp where
  | upper
  | lower
  | upperNext
  | lowerNext
  | stop
  deriving DecidableEq

def caseOp : Char → Option CaseOp
  | 'U' => some .upper
  | 'L' => some .lower
  | 'u' => some .upperNext
  | 'l' => some .lowerNext
  | 'E' => some .stop
  | _ => none

/-- A part of a template: literal bytes, `&` (group 0) or `\N`, or a case operation. -/
inductive TemplatePart where
  | lit (s : Str)
  | group (k : ℕ)
  | case (op : CaseOp)
  deriving DecidableEq

/-- The byte that `\n`, `\t`, `\r`, `\f`, `\v` and `\a` stand for. -/
def templateByte (e : Char) : Option Char := if e == 'n' then some '\n' else escByte e

/-- The part behind a backslash, `e` the character behind it. -/
def escapedPart (backref : Bool) (e : Char) (t : Str) : TemplatePart × Str :=
  if backref && '1' ≤ e && e ≤ '9' then (.group (e.toNat - 48), t)
  else if e == '&' || e == '\\' then (.lit [e], t)
  else if !backref then (.lit [e], t)
  else
    match templateByte e with
    | some c => (.lit [c], t)
    | none =>
      let digits := escDigits (escBase e).1 (escBase e).2 t
      if digits.2.1 ≠ 0 then (.lit [Char.ofNat (digits.1 % 256)], digits.2.2)
      else
        match caseOp e with
        | some op => (.case op, t)
        | none => (.lit [e], t)

/-- One turn of the loop of `dfa_repl_compile`, at a template that begins with `c`: the part there, and
what is behind it.  A backslash at the end is a run of no bytes. -/
def templatePart (backref : Bool) (c : Char) (t : Str) : TemplatePart × Str :=
  if c == '&' then (.group 0, t)
  else
    match if c == '\\' then t else [] with
    | e :: t' => escapedPart backref e t'
    | [] =>
      let plain := fun c => c != '&' && c != '\\'
      (.lit ((c :: t).takeWhile plain), (c :: t).dropWhile plain)

/-! ## Compiled templates -/

/-- `struct dfa_repl_item`: a run of the literal bytes, or as in the template. -/
inductive ReplItem where
  | literal (off len : ℕ)
  | group (k : ℕ)
  | case (op : CaseOp)
  deriving DecidableEq

/-- `struct dfa_repl`. -/
structure Repl where
  items : List ReplItem
  lit : Str
  deriving DecidableEq

namespace Repl

/-- `repl_addliteral`. -/
def addliteral (s : Str) (r : Repl) : Repl :=
  if s = [] then r
  else
    match r.items.getLast? with
    | some (.literal off len) =>
      if off + len = r.lit.length then
        ⟨r.items.dropLast ++ [.literal off (len + s.length)], r.lit ++ s⟩
      else ⟨r.items ++ [.literal r.lit.length s.length], r.lit ++ s⟩
    | _ => ⟨r.items ++ [.literal r.lit.length s.length], r.lit ++ s⟩

/-- `repl_addliteral`, `repl_addgroup` or `repl_addcase`. -/
def add (r : Repl) : TemplatePart → Repl
  | .lit s => r.addliteral s
  | .group k => { r with items := r.items ++ [.group k] }
  | .case op => { r with items := r.items ++ [.case op] }

end Repl

/-- The loop of `dfa_repl_compile`, with a bound on its turns. -/
def replLoop (backref : Bool) : ℕ → Str → Repl → Option Repl
  | _, [], r => some r
  | 0, _ :: _, _ => none
  | k + 1, c :: t, r =>
    let part := templatePart backref c t
    replLoop backref k part.2 (r.add part.1)

/-- `dfa_repl_compile`; the argument is `DFA_REPL_BACKREF`. -/
def dfaReplCompile (backref : Bool) (tmpl : Str) (fuel : ℕ) : Option Repl :=
  replLoop backref fuel tmpl ⟨[], []⟩

/-! ## Applying a template -/

/-- `mode` and `once`: whether letters are put out in upper (`true`) or lower case. -/
abbrev CaseState := Option Bool × Option Bool

def CaseOp.set : CaseOp → CaseState → CaseState
  | upper, _ => (some true, none)
  | lower, _ => (some false, none)
  | upperNext, st => (st.1, some true)
  | lowerNext, st => (st.1, some false)
  | stop, _ => (none, none)

/-- One byte, in the case that is asked for. -/
def inCase (up : Option Bool) (c : Char) : Char :=
  match up with
  | none => c
  | some true => Byteset.toupper c
  | some false => Byteset.tolower c

/-- `repl_emit`, which hands on 64 bytes at a time. -/
def replEmit : CaseState → Str → Str × CaseState
  | st, [] => ([], st)
  | st, c :: s =>
    let r := replEmit (st.1, none) s
    (inCase (st.2 <|> st.1) c :: r.1, r.2)

/-- The bytes from `i` to `j`. -/
def Subject.slice (t : Subject) (i j : ℕ) : Str := (List.range' i (j - i)).map t.byte

/-- What a group puts out; one that took no part, or does not exist, puts out nothing. -/
def groupText (t : Subject) (m : Span) (g : List (Option Span)) : ℕ → Str
  | 0 => t.slice m.start m.stop
  | k + 1 =>
    match g[k]? with
    | some (some sp) => t.slice sp.start sp.stop
    | _ => []

/-- The loop of `dfa_repl_apply`. -/
def applyItems (lit : Str) (text : ℕ → Str) : List ReplItem → CaseState → Str × CaseState
  | [], st => ([], st)
  | .case op :: is, st => applyItems lit text is (op.set st)
  | .literal off len :: is, st =>
    let out := replEmit st ((lit.drop off).take len)
    let rest := applyItems lit text is out.2
    (out.1 ++ rest.1, rest.2)
  | .group k :: is, st =>
    let out := replEmit st (text k)
    let rest := applyItems lit text is out.2
    (out.1 ++ rest.1, rest.2)

/-- `dfa_repl_apply`. -/
def dfaReplApply (r : Repl) (t : Subject) (m : Span) (g : List (Option Span)) : Str :=
  (applyItems r.lit (groupText t m g) r.items (none, none)).1

/-! ## What a template means -/

/-- The parts of a template. -/
inductive TemplateParts (backref : Bool) : Str → List TemplatePart → Prop where
  | nil : TemplateParts backref [] []
  | cons {c t ps} : TemplateParts backref (templatePart backref c t).2 ps →
      TemplateParts backref (c :: t) ((templatePart backref c t).1 :: ps)

/-- The parts in order, `text` being what the groups matched. -/
def instantiate (text : ℕ → Str) : List TemplatePart → CaseState → Str × CaseState
  | [], st => ([], st)
  | .case op :: ps, st => instantiate text ps (op.set st)
  | .lit s :: ps, st =>
    let out := replEmit st s
    let rest := instantiate text ps out.2
    (out.1 ++ rest.1, rest.2)
  | .group k :: ps, st =>
    let out := replEmit st (text k)
    let rest := instantiate text ps out.2
    (out.1 ++ rest.1, rest.2)

theorem replEmit_append : ∀ (st : CaseState) (s s' : Str),
    replEmit st (s ++ s') =
      ((replEmit st s).1 ++ (replEmit (replEmit st s).2 s').1, (replEmit (replEmit st s).2 s').2)
  | _, [], _ => rfl
  | st, c :: s, s' => by
      rw [List.cons_append, replEmit, replEmit_append (st.1, none) s s', replEmit]
      rfl

theorem instantiate_append (text : ℕ → Str) : ∀ (ps qs : List TemplatePart) (st : CaseState),
    instantiate text (ps ++ qs) st =
      ((instantiate text ps st).1 ++ (instantiate text qs (instantiate text ps st).2).1,
        (instantiate text qs (instantiate text ps st).2).2)
  | [], _, _ => rfl
  | .case op :: ps, qs, st => instantiate_append text ps qs (op.set st)
  | .lit s :: ps, qs, st => by
      rw [List.cons_append, instantiate, instantiate_append text ps qs, instantiate]
      simp only [List.append_assoc]
  | .group k :: ps, qs, st => by
      rw [List.cons_append, instantiate, instantiate_append text ps qs, instantiate]
      simp only [List.append_assoc]

/-- Literal bytes in two parts are those in one. -/
theorem instantiate_lit_lit (text : ℕ → Str) (ps : List TemplatePart) (s s' : Str) (st : CaseState) :
    instantiate text (ps ++ [.lit (s ++ s')]) st = instantiate text (ps ++ [.lit s] ++ [.lit s']) st := by
  rw [List.append_assoc, instantiate_append text ps [.lit (s ++ s')],
    instantiate_append text ps ([TemplatePart.lit s] ++ [TemplatePart.lit s'])]
  generalize (instantiate text ps st).2 = st'
  simp [instantiate, replEmit_append]

/-- What the items stand for. -/
def ReplItem.part (lit : Str) : ReplItem → TemplatePart
  | literal off len => .lit ((lit.drop off).take len)
  | group k => .group k
  | case op => .case op

theorem applyItems_eq (lit : Str) (text : ℕ → Str) : ∀ (is : List ReplItem) (st : CaseState),
    applyItems lit text is st = instantiate text (is.map (ReplItem.part lit)) st
  | [], _ => rfl
  | .case op :: is, st => applyItems_eq lit text is (op.set st)
  | .literal off len :: is, st => by
      rw [applyItems, applyItems_eq lit text is]
      rfl
  | .group k :: is, st => by
      rw [applyItems, applyItems_eq lit text is]
      rfl

/-- The runs that are named lie in the buffer. -/
def Repl.Sound (r : Repl) : Prop := ∀ off len, ReplItem.literal off len ∈ r.items → off + len ≤ r.lit.length

/-- More bytes in the buffer change no run. -/
theorem Repl.Sound.parts {r : Repl} (h : r.Sound) (s : Str) :
    ∀ {is : List ReplItem}, (∀ i ∈ is, i ∈ r.items) →
      is.map (ReplItem.part (r.lit ++ s)) = is.map (ReplItem.part r.lit) := by
  intro is his
  refine List.map_congr_left fun i hi => ?_
  cases i with
  | literal off len =>
    have hle := h off len (his _ hi)
    rw [ReplItem.part, ReplItem.part, List.drop_append_of_le_length (by omega),
      List.take_append_of_le_length (by rw [List.length_drop]; omega)]
  | _ => rfl

/-- **A part that is added means what it says.** -/
theorem Repl.Sound.add {r : Repl} (h : r.Sound) (text : ℕ → Str) (p : TemplatePart) (st : CaseState) :
    (r.add p).Sound ∧ instantiate text ((r.add p).items.map (ReplItem.part (r.add p).lit)) st =
      instantiate text (r.items.map (ReplItem.part r.lit) ++ [p]) st := by
  have hnew : ∀ s, (⟨r.items ++ [.literal r.lit.length s.length], r.lit ++ s⟩ : Repl).Sound ∧
      instantiate text ((r.items ++ [ReplItem.literal r.lit.length s.length]).map (ReplItem.part (r.lit ++ s))) st =
        instantiate text (r.items.map (ReplItem.part r.lit) ++ [.lit s]) st := by
    intro s
    refine ⟨fun off len hmem => ?_, ?_⟩
    · rw [List.length_append]
      rcases List.mem_append.1 hmem with hmem | hmem
      · have := h off len hmem
        omega
      · obtain ⟨rfl, rfl⟩ := ReplItem.literal.inj (List.mem_singleton.1 hmem)
        exact Nat.le_refl _
    · rw [List.map_append, h.parts s fun _ hi => hi]
      simp [ReplItem.part]
  cases p with
  | lit s =>
    change (r.addliteral s).Sound ∧ instantiate text ((r.addliteral s).items.map
      (ReplItem.part (r.addliteral s).lit)) st = _
    unfold addliteral
    split_ifs with hs
    · subst hs
      refine ⟨h, ?_⟩
      rw [instantiate_append]
      simp [instantiate, replEmit]
    split
    · next off len hlast =>
      split_ifs with hend
      · obtain ⟨is, his⟩ : ∃ is, r.items = is ++ [.literal off len] := by
          rw [List.getLast?_eq_some_iff] at hlast
          exact hlast
        have hdrop : r.items.dropLast = is := by rw [his, List.dropLast_concat]
        have hsub : ∀ i ∈ is, i ∈ r.items := fun i hi => by
          rw [his]
          exact List.mem_append_left _ hi
        rw [hdrop]
        refine ⟨fun off' len' hmem => ?_, ?_⟩
        · rw [List.length_append]
          rcases List.mem_append.1 hmem with hmem | hmem
          · have := h off' len' (hsub _ hmem)
            omega
          · obtain ⟨rfl, rfl⟩ := ReplItem.literal.inj (List.mem_singleton.1 hmem)
            omega
        · have hrun : ((r.lit ++ s).drop off).take (len + s.length) = (r.lit.drop off).take len ++ s := by
            have hlen : (r.lit.drop off).length = len := by
              rw [List.length_drop]
              omega
            rw [List.drop_append_of_le_length (by omega), List.take_of_length_le (by simp; omega),
              List.take_of_length_le (by omega)]
          rw [List.map_append, h.parts s hsub, his, List.map_append]
          simp only [List.map_cons, List.map_nil, ReplItem.part, hrun]
          exact instantiate_lit_lit text _ _ _ st
      · exact hnew s
    · exact hnew s
  | group k =>
    refine ⟨fun off len hmem => ?_, by simp [Repl.add, ReplItem.part]⟩
    rcases List.mem_append.1 hmem with hmem | hmem
    · exact h off len hmem
    · exact absurd (List.mem_singleton.1 hmem) nofun
  | case op =>
    refine ⟨fun off len hmem => ?_, by simp [Repl.add, ReplItem.part]⟩
    rcases List.mem_append.1 hmem with hmem | hmem
    · exact h off len hmem
    · exact absurd (List.mem_singleton.1 hmem) nofun

theorem replLoop_spec (backref : Bool) : ∀ (k : ℕ) (t : Str) {r r' : Repl}, r.Sound →
    replLoop backref k t r = some r' → ∃ ps, TemplateParts backref t ps ∧ ∀ text st,
      instantiate text (r'.items.map (ReplItem.part r'.lit)) st =
        instantiate text (r.items.map (ReplItem.part r.lit) ++ ps) st
  | k, [], r, r', _, h => by
      have hr : r = r' := by cases k <;> exact Option.some.inj h
      subst hr
      exact ⟨[], .nil, fun text st => by rw [List.append_nil]⟩
  | 0, _ :: _, _, _, _, h => absurd h nofun
  | k + 1, c :: t, r, r', hr, h => by
      rw [replLoop] at h
      have hsound : (r.add (templatePart backref c t).1).Sound :=
        (hr.add (fun _ => []) (templatePart backref c t).1 (none, none)).1
      obtain ⟨ps, hps, heq⟩ := replLoop_spec backref k _ hsound h
      refine ⟨_, .cons hps, fun text st => ?_⟩
      rw [heq text st, instantiate_append, (hr.add text _ st).2, ← instantiate_append, List.append_assoc]
      rfl

/-- **A compiled template means what its parts mean.** -/
theorem replApply_eq {backref : Bool} {tmpl : Str} {fuel : ℕ} {r : Repl}
    (h : dfaReplCompile backref tmpl fuel = some r) :
    ∃ ps, TemplateParts backref tmpl ps ∧ ∀ t m g,
      dfaReplApply r t m g = (instantiate (groupText t m g) ps (none, none)).1 := by
  have hempty : (⟨[], []⟩ : Repl).Sound := fun _ _ hmem => absurd hmem List.not_mem_nil
  obtain ⟨ps, hps, heq⟩ := replLoop_spec backref fuel tmpl hempty h
  refine ⟨ps, hps, fun t m g => ?_⟩
  rw [dfaReplApply, applyItems_eq, heq]
  rfl

/-! ## Which templates are compiled -/

end Shish
