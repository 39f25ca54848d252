import Mathlib.Algebra.Order.Ring.Nat
import Mathlib.Data.Int.Order.Basic
import Mathlib.Data.List.Basic
import Shish.Chartable
import Shish.Lib.Run

/-!
# Awk/Record — the record and its fields

The record is split when a field or `NF` is first asked for, and `$0` is put together again when it
is read behind an assignment to a field.  Both happen with the separators of that moment.
`EagerRec` splits a record as it arrives and puts `$0` together as a field is assigned; what is read
is the same as long as no separator changes in between and none is a number
(`record_eager_iff`).
-/

namespace Shish

/-! ## Values -/

/-- The scalar states of `awk_cell`. -/
inductive AwkValue (ν : Type) where
  | uninit
  | num (x : ν)
  | str (s : Str)
  | strnum (s : Str)
  deriving DecidableEq

/-- What the records need of numbers: `(double)n`, `(long)x`, `awk_num2str` with `CONVFMT`, and
`awk_looks_numeric`. -/
structure AwkNums (ν : Type) where
  ofNat : ℕ → ν
  toLong : ν → ℤ
  num2str : ν → Str
  looksNumeric : Str → Option ν

variable {ν : Type} (N : AwkNums ν) (ere : Str → Str → List Str)

/-- `awk_tostr`. -/
def awkTostr : AwkValue ν → Str
  | .uninit => []
  | .num x => N.num2str x
  | .str s => s
  | .strnum s => s

/-- `cell->str ? cell->str : " "`, as it is done with `FS` and `OFS`. -/
def strOrBlank : AwkValue ν → Str
  | .str s => s
  | .strnum s => s
  | _ => [' ']

/-- What `lvalue_set_cell` stores. -/
def stored : AwkValue ν → AwkValue ν
  | .uninit => .str []
  | v => v

/-- The number that is assigned to `NF`. -/
def longOf : AwkValue ν → ℤ
  | .num x => N.toLong x
  | v => ((N.looksNumeric (awkTostr N v)).map N.toLong).getD 0

/-- `awk_split`; `ere fs s` is the split at the matches of an expression. -/
def awkSplit (s : Str) : Str → List Str
  | [] => s.map ([·])
  | [c] =>
      if c = ' ' then (s.splitOnP fun c => c == ' ' || c == '\t' || c == '\n').filter (· ≠ [])
      else if s = [] then [] else s.splitOnP (· == c)
  | fs => ere fs s

/-- The cell of a piece. -/
def fieldOf (s : Str) : AwkValue ν := if (N.looksNumeric s).isSome then .strnum s else .str s

/-- The pieces with a separator between them. -/
def joinWith (sep : Str) (l : List (AwkValue ν)) : Str := List.intercalate sep (l.map (awkTostr N))

/-! ## The record -/

/-- `struct awk_rec` with `FS`, `OFS` and `NF`; `f` are the cells of `$1` on. -/
structure AwkRec (ν : Type) where
  line : Str := []
  f : List (AwkValue ν) := []
  nf : ℕ := 0
  splitDone : Bool := false
  dirty : Bool := false
  fs : AwkValue ν := .str [' ']
  ofs : AwkValue ν := .str [' ']
  cellNF : AwkValue ν := .uninit

namespace AwkRec

/-- `awk_rec_setline`. -/
def setline (s : AwkRec ν) (line : Str) : AwkRec ν :=
  { s with line, splitDone := false, dirty := false, nf := 0 }

/-- `rec_ensure_cap`: new cells are empty. -/
def ensureCap (f : List (AwkValue ν)) (n : ℕ) : List (AwkValue ν) :=
  f ++ List.replicate (n - f.length) .uninit

/-- The cells are freed up to the first one that is empty. -/
def freeRun : List (AwkValue ν) → List (AwkValue ν)
  | [] => []
  | .uninit :: l => .uninit :: l
  | _ :: l => .uninit :: freeRun l

/-- The pieces of the line with the `FS` of now. -/
def pieces (s : AwkRec ν) : List Str := awkSplit ere s.line (strOrBlank s.fs)

/-- `awk_rec_ensure_split`. -/
def ensureSplit (s : AwkRec ν) : AwkRec ν :=
  if s.splitDone then s
  else
    let spans := s.pieces ere
    let nf := spans.length
    let f := ensureCap s.f nf
    { s with
      f := spans.map (fieldOf N) ++ freeRun (f.drop nf)
      nf
      splitDone := true
      dirty := false
      cellNF := .num (N.ofNat nf) }

/-- `rec_rebuild`. -/
def rebuild (s : AwkRec ν) : AwkRec ν :=
  { s with line := joinWith N (strOrBlank s.ofs) (s.f.take s.nf), dirty := false }

/-- `awk_rec_field`, and what the cell says. -/
def field (s : AwkRec ν) (n : ℕ) : AwkRec ν × AwkValue ν :=
  if n = 0 then
    let s := if s.dirty then s.rebuild N else s
    (s, .str s.line)
  else
    let s := s.ensureSplit N ere
    (s, s.f.getD (n - 1) .uninit)

/-- The gap between the last field and the `n`th is filled with empty strings. -/
def fillGap (f : List (AwkValue ν)) (nf n : ℕ) : List (AwkValue ν) :=
  f.take nf ++ List.replicate (n - nf) (.str []) ++ f.drop (max nf n)

/-- `awk_rec_field_for_write` of `$n`, `n` not 0, and the assignment to that cell. -/
def setField (s : AwkRec ν) (n : ℕ) (v : AwkValue ν) : AwkRec ν :=
  let s := s.ensureSplit N ere
  let f := fillGap (ensureCap s.f n) s.nf (n - 1)
  { s with
    f := f.set (n - 1) v
    nf := max s.nf n
    dirty := true
    cellNF := if s.nf < n then .num (N.ofNat n) else s.cellNF }

/-- `awk_rec_setnf`. -/
def setnf (s : AwkRec ν) (nf : ℤ) : AwkRec ν :=
  let s := s.ensureSplit N ere
  let nf := nf.toNat
  let f := ensureCap s.f nf
  { s with
    f := f.take (min nf s.nf) ++ List.replicate (nf - s.nf) (.str []) ++
      List.replicate (s.nf - nf) .uninit ++ f.drop (max nf s.nf)
    nf
    dirty := true
    cellNF := .num (N.ofNat nf) }

/-- `awk_lvalue_set_num` and `awk_lvalue_set_str`, of `NF`. -/
def assignNF (s : AwkRec ν) (v : AwkValue ν) : AwkRec ν := s.setnf N ere (longOf N v)

/-- `lvalue_set_cell`, of a field. -/
def assign (s : AwkRec ν) (n : ℕ) (v : AwkValue ν) : AwkRec ν :=
  if n = 0 then s.setline (awkTostr N v) else s.setField N ere n (stored v)

end AwkRec

/-- What a program does with the record; `compoundNF` is the value of `NF` in a compound assignment,
behind its right side. -/
inductive RecOp (ν : Type) where
  | record (line : Str)
  | assign (n : ℕ) (v : AwkValue ν)
  | assignNF (v : AwkValue ν)
  | assignFS (v : AwkValue ν)
  | assignOFS (v : AwkValue ν)
  | read (n : ℕ)
  | readNF
  | compoundNF

/-- The record behind an operation. -/
def AwkRec.step (s : AwkRec ν) : RecOp ν → AwkRec ν
  | .record line => s.setline line
  | .assign n v => s.assign N ere n v
  | .assignNF v => s.assignNF N ere v
  | .assignFS v => { s with fs := stored v }
  | .assignOFS v => { s with ofs := stored v }
  | .read n => (s.field N ere n).1
  | .readNF => s.ensureSplit N ere
  | .compoundNF => s

/-- What a read gives. -/
def AwkRec.obs (s : AwkRec ν) : RecOp ν → Option (AwkValue ν)
  | .read n => some (s.field N ere n).2
  | .readNF => some (s.ensureSplit N ere).cellNF
  | .compoundNF => some s.cellNF
  | _ => none

/-! ## The eager record -/

/-- A record that is split as it arrives, and put together as a field is assigned. -/
structure EagerRec (ν : Type) where
  line : Str := []
  fields : List (AwkValue ν) := []
  fs : AwkValue ν := .str [' ']
  ofs : AwkValue ν := .str [' ']

namespace EagerRec

/-- Another record, split at `sep`. -/
def setline (e : EagerRec ν) (sep line : Str) : EagerRec ν :=
  { e with line, fields := (awkSplit ere line sep).map (fieldOf N) }

/-- Other fields, and `$0` with them. -/
def setFields (e : EagerRec ν) (sep : Str) (fields : List (AwkValue ν)) : EagerRec ν :=
  { e with fields, line := joinWith N sep fields }

/-- So many fields, new ones empty. -/
def resize (l : List (AwkValue ν)) (n : ℕ) : List (AwkValue ν) :=
  l.take n ++ List.replicate (n - l.length) (.str [])

/-- `$n`, `n` not 0, becomes `v`. -/
def setField (l : List (AwkValue ν)) (n : ℕ) (v : AwkValue ν) : List (AwkValue ν) :=
  (resize l (max l.length n)).set (n - 1) v

/-- A step, when a separator is read as `sep` says. -/
def stepWith (sep : AwkValue ν → Str) (e : EagerRec ν) : RecOp ν → EagerRec ν
  | .record line => e.setline N ere (sep e.fs) line
  | .assign n v =>
      if n = 0 then e.setline N ere (sep e.fs) (awkTostr N v)
      else e.setFields N (sep e.ofs) (setField e.fields n (stored v))
  | .assignNF v => e.setFields N (sep e.ofs) (resize e.fields (longOf N v).toNat)
  | .assignFS v => { e with fs := stored v }
  | .assignOFS v => { e with ofs := stored v }
  | .read _ | .readNF | .compoundNF => e

/-- What a read gives. -/
def obs (e : EagerRec ν) : RecOp ν → Option (AwkValue ν)
  | .read n => some (if n = 0 then .str e.line else e.fields.getD (n - 1) .uninit)
  | .readNF | .compoundNF => some (.num (N.ofNat e.fields.length))
  | _ => none

/-- The separators are what their values say. -/
def step (e : EagerRec ν) (op : RecOp ν) : EagerRec ν := e.stepWith N ere (awkTostr N) op

end EagerRec

/-! ## When they agree -/

/-- `OFS` is used as what it says, or there is nothing to separate. -/
def Joins (ofs : AwkValue ν) (n : ℕ) : Prop := strOrBlank ofs = awkTostr N ofs ∨ n ≤ 1

/-- How many fields there are once the record is split. -/
def AwkRec.count (s : AwkRec ν) : ℕ := if s.splitDone then s.nf else (s.pieces ere).length

/-- **The step does not show that the record is lazy**: what is split is split as the value of `FS`
says, what is joined is joined as that of `OFS` says, and neither changes what is still to be done. -/
def AwkRec.Unseen (s : AwkRec ν) : RecOp ν → Prop
  | .record line => awkSplit ere line (strOrBlank s.fs) = awkSplit ere line (awkTostr N s.fs)
  | .assign n v =>
      if n = 0 then
        awkSplit ere (awkTostr N v) (strOrBlank s.fs) = awkSplit ere (awkTostr N v) (awkTostr N s.fs)
      else Joins N s.ofs (max (s.count ere) n)
  | .assignNF v => Joins N s.ofs ((longOf N v).toNat)
  | .assignFS v => s.splitDone ∨ awkSplit ere s.line (strOrBlank (stored v)) = s.pieces ere
  | .assignOFS v => s.dirty = false ∨ strOrBlank (stored v) = strOrBlank s.ofs ∨ s.nf ≤ 1
  | .compoundNF => s.splitDone ∨ s.cellNF = .num (N.ofNat (s.pieces ere).length)
  | .read _ | .readNF => True

/-- Every read gives the same. -/
def SameReads (s : AwkRec ν) (e : EagerRec ν) : Prop :=
  (∀ n, s.obs N ere (.read n) = e.obs N (.read n)) ∧ s.obs N ere .readNF = e.obs N .readNF

/-- The start, with the `FS` of the command line. -/
def AwkRec.start (ν : Type) (fs : Str) : AwkRec ν := { fs := .str fs }

def EagerRec.start (fs : Str) : EagerRec ν := EagerRec.setline N ere { fs := .str fs } fs []

/-- Along the operations every read gives the same, and so does every further one behind them. -/
def SeenSame (s : AwkRec ν) (e : EagerRec ν) (ops : List (RecOp ν)) : Prop :=
  ∀ pre rest, ops = pre ++ rest →
    SameReads N ere (pre.foldl (AwkRec.step N ere) s) (pre.foldl (EagerRec.step N ere) e) ∧
      ∀ op ∈ rest.head?, (pre.foldl (AwkRec.step N ere) s).obs N ere op =
        (pre.foldl (EagerRec.step N ere) e).obs N op

/-! ## The lazy record follows -/

/-- **What the lazy record knows**: the fields or how to split them, `$0` or how to join it. -/
structure AwkRec.Follows (s : AwkRec ν) (e : EagerRec ν) : Prop where
  fs : s.fs = e.fs
  ofs : s.ofs = e.ofs
  full : ∀ v ∈ e.fields, v ≠ .uninit
  done : s.splitDone → (∃ k, s.f = e.fields ++ List.replicate k .uninit) ∧
    s.nf = e.fields.length ∧ s.cellNF = .num (N.ofNat e.fields.length)
  todo : s.splitDone = false → s.dirty = false ∧ (s.pieces ere).map (fieldOf N) = e.fields ∧
    ∃ l k, s.f = l ++ List.replicate k .uninit ∧ ∀ v ∈ l, v ≠ .uninit
  clean : s.dirty = false → s.line = e.line
  pending : s.dirty → joinWith N (strOrBlank s.ofs) e.fields = e.line

namespace AwkRec.Follows

variable {N ere} {s : AwkRec ν} {e : EagerRec ν} {op : RecOp ν}

theorem fieldOf_ne (t : Str) : fieldOf N t ≠ .uninit := by
  unfold fieldOf
  split <;> exact nofun

theorem fieldOf_inj {t t' : Str} (h : fieldOf N t = fieldOf N t') : t = t' := by
  unfold fieldOf at h
  split at h <;> split at h
  · exact AwkValue.strnum.inj h
  · exact nomatch h
  · exact nomatch h
  · exact AwkValue.str.inj h

theorem stored_ne (v : AwkValue ν) : stored v ≠ .uninit := by
  cases v <;> exact nofun

theorem freeRun_eq {l : List (AwkValue ν)} (hl : ∀ v ∈ l, v ≠ .uninit) (k : ℕ) :
    freeRun (l ++ List.replicate k .uninit) = List.replicate (l.length + k) .uninit := by
  induction l with
  | nil =>
    cases k with
    | zero => rfl
    | succ k => simp [List.replicate_succ, freeRun]
  | cons v l ih =>
    rw [List.forall_mem_cons] at hl
    rw [List.cons_append, List.length_cons, Nat.add_right_comm, List.replicate_succ, ← ih hl.2]
    cases v with
    | uninit => exact absurd rfl hl.1
    | num x => rfl
    | str t => rfl
    | strnum t => rfl

/-- The cells are filled up to some point. -/
theorem cells (h : s.Follows N ere e) :
    ∃ l k, s.f = l ++ List.replicate k .uninit ∧ ∀ v ∈ l, v ≠ .uninit := by
  cases hd : s.splitDone with
  | true =>
    obtain ⟨⟨k, hk⟩, -⟩ := h.done hd
    exact ⟨e.fields, k, hk, h.full⟩
  | false => exact (h.todo hd).2.2

/-- **A record that is split.** -/
theorem ensureSplit (h : s.Follows N ere e) :
    (s.ensureSplit N ere).Follows N ere e ∧ (s.ensureSplit N ere).splitDone := by
  unfold AwkRec.ensureSplit
  split
  · next hd => exact ⟨h, hd⟩
  · next hd =>
    obtain ⟨hdirty, hpieces, l, k, hf, hl⟩ := h.todo (by simpa using hd)
    have hlen : (s.pieces ere).length = e.fields.length := by rw [← hpieces, List.length_map]
    have hcap : ensureCap s.f (s.pieces ere).length =
        l ++ List.replicate (k + ((s.pieces ere).length - s.f.length)) .uninit := by
      rw [ensureCap, hf, List.append_assoc, List.replicate_append_replicate]
    have hfree : ∃ k', freeRun ((ensureCap s.f (s.pieces ere).length).drop (s.pieces ere).length) =
        List.replicate k' .uninit := by
      rw [hcap, List.drop_append, List.drop_replicate]
      exact ⟨_, freeRun_eq (fun v hv => hl v (List.mem_of_mem_drop hv)) _⟩
    obtain ⟨k', hk'⟩ := hfree
    refine ⟨⟨h.fs, h.ofs, h.full, fun _ => ⟨⟨k', ?_⟩, hlen, ?_⟩, nofun, fun _ => h.clean hdirty,
      nofun⟩, rfl⟩
    · change (s.pieces ere).map (fieldOf N) ++ _ = _
      rw [hpieces, hk']
    · change AwkValue.num (N.ofNat (s.pieces ere).length) = _
      rw [hlen]

theorem count_eq (h : s.Follows N ere e) : s.count ere = e.fields.length := by
  unfold AwkRec.count
  split
  · next hd => exact (h.done hd).2.1
  · next hd => rw [← (h.todo (by simpa using hd)).2.1, List.length_map]

/-- A new line. -/
theorem setline (h : s.Follows N ere e) (line : Str) :
    (s.setline line).Follows N ere (e.setline N ere (strOrBlank e.fs) line) where
  fs := h.fs
  ofs := h.ofs
  full v hv := by
    obtain ⟨t, -, rfl⟩ := List.mem_map.1 hv
    exact fieldOf_ne t
  done := nofun
  todo _ := ⟨rfl, by rw [← h.fs]; rfl, h.cells⟩
  clean _ := rfl
  pending := nofun

theorem resize_full {l : List (AwkValue ν)} (hl : ∀ v ∈ l, v ≠ .uninit) (n : ℕ) :
    ∀ v ∈ EagerRec.resize l n, v ≠ .uninit := by
  intro v hv
  rcases List.mem_append.1 hv with hv | hv
  · exact hl v (List.mem_of_mem_take hv)
  · rw [List.eq_of_mem_replicate hv]
    exact nofun

theorem length_resize (l : List (AwkValue ν)) (n : ℕ) : (EagerRec.resize l n).length = n := by
  rw [EagerRec.resize, List.length_append, List.length_take, List.length_replicate]
  omega

/-- Other fields: `$0` is to be joined. -/
theorem setFields (h : s.Follows N ere e) (hd : s.splitDone) {f fields : List (AwkValue ν)} {k nf : ℕ}
    {cellNF : AwkValue ν} (hf : f = fields ++ List.replicate k .uninit)
    (hfull : ∀ v ∈ fields, v ≠ .uninit) (hnf : nf = fields.length)
    (hcell : cellNF = .num (N.ofNat fields.length)) :
    Follows N ere { s with f, nf, dirty := true, cellNF }
      (e.setFields N (strOrBlank e.ofs) fields) where
  fs := h.fs
  ofs := h.ofs
  full := hfull
  done _ := ⟨⟨k, hf⟩, hnf, hcell⟩
  todo hnd := absurd hd (by rw [hnd]; exact Bool.false_ne_true)
  clean := nofun
  pending _ := by rw [← h.ofs]; rfl

theorem set_middle {α : Type*} (a b : List α) (x v : α) :
    (a ++ x :: b).set a.length v = a ++ v :: b := by
  rw [List.set_append_right _ _ (Nat.le_refl _), Nat.sub_self, List.set_cons_zero]

/-- The cells behind an assignment to `$n`. -/
theorem fillGap_set (l : List (AwkValue ν)) (k n : ℕ) (v : AwkValue ν) (hn : n ≠ 0)
    (hk : n ≤ l.length + k) : ∃ k', (fillGap (l ++ List.replicate k .uninit) l.length (n - 1)).set
      (n - 1) v = EagerRec.setField l n v ++ List.replicate k' .uninit := by
  unfold EagerRec.setField EagerRec.resize fillGap
  rw [List.take_left, List.drop_append, List.drop_replicate]
  rcases Nat.lt_or_ge l.length n with hlt | hge
  · obtain ⟨j, rfl⟩ : ∃ j, n = l.length + j + 1 := ⟨n - l.length - 1, by omega⟩
    obtain ⟨m, rfl⟩ : ∃ m, k = j + m + 1 := ⟨k - j - 1, by omega⟩
    have h₁ : l.length + j + 1 - 1 - l.length = j := by omega
    have h₂ : max l.length (l.length + j + 1 - 1) = l.length + j := by omega
    have h₃ : j + m + 1 - (l.length + j - l.length) = m + 1 := by omega
    have h₄ : max l.length (l.length + j + 1) = l.length + (j + 1) := by omega
    have hlen : l.length + j + 1 - 1 = (l ++ List.replicate j (.str [] : AwkValue ν)).length := by
      rw [List.length_append, List.length_replicate]
      omega
    have hnil : l.drop (l.length + j) = [] := List.drop_eq_nil_of_le (by omega)
    have htake : l.take (l.length + (j + 1)) = l := List.take_of_length_le (by omega)
    have hj : l.length + (j + 1) - l.length = j + 1 := by omega
    refine ⟨m, ?_⟩
    rw [h₁, h₂, h₃, h₄, hnil, htake, hj, List.nil_append, hlen, List.replicate_succ, set_middle,
      List.replicate_succ', ← List.append_assoc l, set_middle, List.append_assoc, List.append_assoc,
      List.append_assoc, List.singleton_append]
  · have h₁ : n - 1 - l.length = 0 := by omega
    have h₂ : max l.length (n - 1) = l.length := by omega
    have h₃ : max l.length n = l.length := by omega
    refine ⟨k, ?_⟩
    rw [h₁, h₂, h₃, List.drop_length, List.take_length, Nat.sub_self, Nat.sub_zero,
      List.replicate_zero, List.append_nil, List.nil_append,
      List.set_append_left _ _ (by omega)]

theorem setField_full {l : List (AwkValue ν)} (hl : ∀ v ∈ l, v ≠ .uninit) (n : ℕ) {v : AwkValue ν}
    (hv : v ≠ .uninit) : ∀ x ∈ EagerRec.setField l n v, x ≠ .uninit := by
  intro x hx
  rcases List.mem_or_eq_of_mem_set hx with hx | rfl
  · exact resize_full hl _ x hx
  · exact hv

theorem length_setField (l : List (AwkValue ν)) (n : ℕ) (v : AwkValue ν) :
    (EagerRec.setField l n v).length = max l.length n := by
  rw [EagerRec.setField, List.length_set, length_resize]

theorem ensureSplit_ofs (s : AwkRec ν) : (s.ensureSplit N ere).ofs = s.ofs := by
  unfold AwkRec.ensureSplit
  split <;> rfl

/-- **An assignment to a field.** -/
theorem setField (h : s.Follows N ere e) (n : ℕ) {v : AwkValue ν} (hn : n ≠ 0) (hv : v ≠ .uninit) :
    (s.setField N ere n v).Follows N ere
      (e.setFields N (strOrBlank e.ofs) (EagerRec.setField e.fields n v)) := by
  obtain ⟨h, hd⟩ := h.ensureSplit
  obtain ⟨⟨k, hf⟩, hnf, hcell⟩ := h.done hd
  unfold AwkRec.setField
  set s₁ := s.ensureSplit N ere
  have hcap : ensureCap s₁.f n =
      e.fields ++ List.replicate (k + (n - s₁.f.length)) .uninit := by
    rw [ensureCap, hf, List.append_assoc, List.replicate_append_replicate]
  obtain ⟨k', hk'⟩ := fillGap_set e.fields (k + (n - s₁.f.length)) n v hn (by
    have : s₁.f.length = e.fields.length + k := by rw [hf, List.length_append, List.length_replicate]
    omega)
  refine h.setFields hd (k := k') ?_ (setField_full h.full n hv) ?_ ?_
  · rw [hcap, hnf]
    exact hk'
  · rw [length_setField, hnf]
  · rw [length_setField]
    split
    · next hlt => rw [Nat.max_eq_right (by omega)]
    · next hge => rw [hcell, Nat.max_eq_left (by omega)]

/-- **An assignment to `NF`.** -/
theorem setnf (h : s.Follows N ere e) (nf : ℤ) : (s.setnf N ere nf).Follows N ere
    (e.setFields N (strOrBlank e.ofs) (EagerRec.resize e.fields nf.toNat)) := by
  obtain ⟨h, hd⟩ := h.ensureSplit
  obtain ⟨⟨k, hf⟩, hnf, -⟩ := h.done hd
  unfold AwkRec.setnf
  set s₁ := s.ensureSplit N ere
  have hcap : ensureCap s₁.f nf.toNat =
      e.fields ++ List.replicate (k + (nf.toNat - s₁.f.length)) .uninit := by
    rw [ensureCap, hf, List.append_assoc, List.replicate_append_replicate]
  refine h.setFields hd (k := (e.fields.length - nf.toNat) +
    (k + (nf.toNat - s₁.f.length) - (nf.toNat - e.fields.length))) ?_ (resize_full h.full _)
    (length_resize ..).symm (by rw [length_resize])
  have htake : (e.fields ++ List.replicate (k + (nf.toNat - s₁.f.length)) AwkValue.uninit).take
      (min nf.toNat e.fields.length) = e.fields.take nf.toNat := by
    rw [List.take_append_of_le_length (Nat.min_le_right ..)]
    rcases Nat.le_total nf.toNat e.fields.length with hle | hle
    · rw [Nat.min_eq_left hle]
    · rw [Nat.min_eq_right hle, List.take_length, List.take_of_length_le hle]
  have hdrop : e.fields.drop (max nf.toNat e.fields.length) = [] :=
    List.drop_eq_nil_of_le (Nat.le_max_right ..)
  have hmax : max nf.toNat e.fields.length - e.fields.length = nf.toNat - e.fields.length := by omega
  rw [hcap, hnf, EagerRec.resize, htake, List.drop_append, hdrop, List.drop_replicate, hmax,
    List.nil_append, List.append_assoc _ (List.replicate _ _), List.replicate_append_replicate]

theorem split_of_dirty (h : s.Follows N ere e) (hdirty : s.dirty) : s.splitDone := by
  by_contra hnd
  have := (h.todo (by simpa using hnd)).1
  rw [hdirty] at this
  exact nomatch this

/-- `$0` is joined. -/
theorem rebuild (h : s.Follows N ere e) (hdirty : s.dirty) : (s.rebuild N).Follows N ere e := by
  have hd := h.split_of_dirty hdirty
  obtain ⟨⟨k, hf⟩, hnf, -⟩ := h.done hd
  refine ⟨h.fs, h.ofs, h.full, h.done, fun hnd => absurd hd ?_, fun _ => ?_, nofun⟩
  · rw [show s.splitDone = false from hnd]
    exact Bool.false_ne_true
  · change joinWith N (strOrBlank s.ofs) (s.f.take s.nf) = e.line
    rw [hf, hnf, List.take_left, h.pending hdirty]

/-! ## One step -/

/-- What the eager record would be if separators were what they are used as, and what is still to be
done were done with those of now. -/
def used (N : AwkNums ν) (ere : Str → Str → List Str) (s : AwkRec ν) (e : EagerRec ν) :
    RecOp ν → EagerRec ν
  | .assignFS v =>
      { e with
        fs := stored v
        fields := if s.splitDone then e.fields
          else (awkSplit ere s.line (strOrBlank (stored v))).map (fieldOf N) }
  | .assignOFS v =>
      { e with
        ofs := stored v
        line := if s.dirty then joinWith N (strOrBlank (stored v)) e.fields else e.line }
  | op => e.stepWith N ere strOrBlank op

theorem step_used (h : s.Follows N ere e) (op : RecOp ν) :
    (s.step N ere op).Follows N ere (used N ere s e op) := by
  cases op with
  | record line => exact h.setline line
  | assign n v =>
    by_cases hn : n = 0
    · subst hn
      exact h.setline _
    · have hstep : s.step N ere (.assign n v) = s.setField N ere n (stored v) := if_neg hn
      have hused : used N ere s e (.assign n v) =
        e.setFields N (strOrBlank e.ofs) (EagerRec.setField e.fields n (stored v)) := if_neg hn
      rw [hstep, hused]
      exact h.setField n hn (stored_ne v)
  | assignNF v => exact h.setnf _
  | assignFS v =>
    refine ⟨rfl, h.ofs, fun x hx => ?_, fun hd => ?_, fun hd => ?_, h.clean, fun hdirty => ?_⟩
    · simp only [used] at hx
      split at hx
      · exact h.full x hx
      · obtain ⟨t, -, rfl⟩ := List.mem_map.1 hx
        exact fieldOf_ne t
    · have hd' : s.splitDone = true := hd
      simp only [used, hd', if_true]
      exact h.done hd
    · have hd' : s.splitDone = false := hd
      obtain ⟨hdirty, -, hcells⟩ := h.todo hd'
      exact ⟨hdirty, (if_neg (by rw [hd']; exact Bool.false_ne_true)).symm, hcells⟩
    · simp only [used, h.split_of_dirty hdirty, if_true]
      exact h.pending hdirty
  | assignOFS v =>
    refine ⟨h.fs, rfl, h.full, h.done, h.todo, fun hdirty => ?_, fun hdirty => ?_⟩
    · have hd : s.dirty = false := hdirty
      simp only [used, hd, Bool.false_eq_true, if_false]
      exact h.clean hd
    · have hd : s.dirty = true := hdirty
      simp only [used, hd, if_true]
      rfl
  | read n =>
    simp only [AwkRec.step, AwkRec.field]
    split
    · split
      · next hd => exact h.rebuild hd
      · exact h
    · exact h.ensureSplit.1
  | readNF => exact h.ensureSplit.1
  | compoundNF => exact h

/-- **Every read gives what the eager record says**, but for `NF` in a compound assignment. -/
theorem obs_eq (h : s.Follows N ere e) (hop : op ≠ .compoundNF) : s.obs N ere op = e.obs N op := by
  cases op with
  | read n =>
    simp only [AwkRec.obs, EagerRec.obs, AwkRec.field]
    split
    · split
      · next hd => rw [← (h.rebuild hd).clean rfl]
      · next hd => rw [← h.clean (by simpa using hd)]
    · obtain ⟨h', hd⟩ := h.ensureSplit
      obtain ⟨⟨k, hk⟩, -⟩ := h'.done hd
      rw [hk]
      simp only [List.getD_eq_getElem?_getD, Option.some.injEq]
      rcases Nat.lt_or_ge (n - 1) e.fields.length with hlt | hge
      · rw [List.getElem?_append_left hlt]
      · rw [List.getElem?_append_right hge, List.getElem?_eq_none hge, List.getElem?_replicate]
        split <;> rfl
  | readNF =>
    obtain ⟨h', hd⟩ := h.ensureSplit
    exact congrArg some (h'.done hd).2.2
  | compoundNF => exact absurd rfl hop
  | record _ | assign _ _ | assignNF _ | assignFS _ | assignOFS _ => rfl

theorem sameReads (h : s.Follows N ere e) : SameReads N ere s e :=
  ⟨fun _ => h.obs_eq nofun, h.obs_eq nofun⟩

/-- Two eager records that the same one follows in what is read. -/
theorem eq_of_sameReads {e' : EagerRec ν} (h : s.Follows N ere e) (hs : SameReads N ere s e')
    (hfull : ∀ v ∈ e'.fields, v ≠ .uninit) : e.line = e'.line ∧ e.fields = e'.fields := by
  have hread : ∀ n, e.obs N (.read n) = e'.obs N (.read n) := fun n => by
    have hop : (RecOp.read n : RecOp ν) ≠ .compoundNF := nofun
    exact (h.obs_eq hop).symm.trans (hs.1 n)
  refine ⟨AwkValue.str.inj (Option.some.inj (hread 0)), List.ext_getElem? fun i => ?_⟩
  have hi : e.fields.getD i .uninit = e'.fields.getD i .uninit := by
    have := Option.some.inj (hread (i + 1))
    rwa [if_neg (Nat.succ_ne_zero i), if_neg (Nat.succ_ne_zero i), Nat.add_sub_cancel] at this
  rw [List.getD_eq_getElem?_getD, List.getD_eq_getElem?_getD] at hi
  cases hl : e.fields[i]? with
  | none =>
    cases hl' : e'.fields[i]? with
    | none => rfl
    | some v' =>
      rw [hl, hl'] at hi
      exact absurd hi.symm (hfull v' (List.mem_of_getElem? hl'))
  | some v =>
    cases hl' : e'.fields[i]? with
    | none =>
      rw [hl, hl'] at hi
      exact absurd hi (h.full v (List.mem_of_getElem? hl))
    | some v' =>
      rw [hl, hl'] at hi
      exact congrArg some hi

theorem length_intercalate (sep b : Str) (l : List Str) :
    (List.intercalate sep (b :: l)).length =
      ((b :: l).map List.length).sum + l.length * sep.length := by
  induction l generalizing b with
  | nil => simp
  | cons c l ih =>
    rw [List.intercalate_cons_cons, List.length_append, List.length_append, ih]
    simp only [List.map_cons, List.sum_cons, List.length_cons, Nat.succ_mul]
    omega

/-- A separator that separates something can be read off. -/
theorem intercalate_inj {sep sep' a b : Str} {l : List Str}
    (h : List.intercalate sep (a :: b :: l) = List.intercalate sep' (a :: b :: l)) :
    sep = sep' := by
  have hlen := congrArg List.length h
  rw [length_intercalate, length_intercalate] at hlen
  have hsep : sep.length = sep'.length :=
    Nat.eq_of_mul_eq_mul_left (Nat.succ_pos l.length) (Nat.add_left_cancel hlen)
  rw [List.intercalate_cons_cons, List.intercalate_cons_cons, List.append_assoc, List.append_assoc] at h
  exact (List.append_inj (List.append_cancel_left h) hsep).1

theorem joinWith_inj {sep sep' : Str} {l : List (AwkValue ν)} :
    joinWith N sep l = joinWith N sep' l ↔ sep = sep' ∨ l.length ≤ 1 := by
  match l with
  | [] => exact ⟨fun _ => .inr (Nat.zero_le 1), fun _ => rfl⟩
  | [v] => exact ⟨fun _ => .inr (Nat.le_refl 1), fun _ => by simp [joinWith]⟩
  | v :: v' :: l =>
    refine ⟨fun h => .inl (intercalate_inj h), ?_⟩
    rintro (rfl | hlen)
    · rfl
    · simp at hlen

theorem fieldOf_map_inj {l l' : List Str} : l.map (fieldOf N) = l'.map (fieldOf N) ↔ l = l' :=
  (List.map_injective_iff.2 fun _ _ => fieldOf_inj).eq_iff

/-- **Nothing is seen of a step exactly when** what it leaves is what the eager record says. -/
theorem used_eq_iff (h : s.Follows N ere e) (hop : op ≠ .compoundNF) :
    used N ere s e op = e.step N ere op ↔ s.Unseen N ere op := by
  have hset : ∀ sep sep' line, e.setline N ere sep line = e.setline N ere sep' line ↔
      awkSplit ere line sep = awkSplit ere line sep' := fun sep sep' line => by
    rw [← fieldOf_map_inj (N := N)]
    exact ⟨congrArg EagerRec.fields, fun heq => by rw [EagerRec.setline, heq]; rfl⟩
  have hjoin : ∀ sep sep' fields, e.setFields N sep fields = e.setFields N sep' fields ↔
      sep = sep' ∨ fields.length ≤ 1 := fun sep sep' fields => by
    rw [← joinWith_inj (N := N)]
    exact ⟨congrArg EagerRec.line, fun heq => by rw [EagerRec.setFields, heq]; rfl⟩
  cases op with
  | record line =>
    simp only [used, EagerRec.step, EagerRec.stepWith, AwkRec.Unseen, h.fs]
    exact hset _ _ _
  | assign n v =>
    simp only [used, EagerRec.step, EagerRec.stepWith, AwkRec.Unseen, h.fs, h.ofs, h.count_eq, Joins]
    split
    · exact hset _ _ _
    · rw [hjoin, length_setField]
  | assignNF v =>
    simp only [used, EagerRec.step, EagerRec.stepWith, AwkRec.Unseen, h.ofs, Joins]
    rw [hjoin, length_resize]
  | assignFS v =>
    cases hd : s.splitDone with
    | true => simp [used, EagerRec.step, EagerRec.stepWith, AwkRec.Unseen, hd]
    | false =>
      have hpieces := (h.todo hd).2.1
      simp only [used, EagerRec.step, EagerRec.stepWith, AwkRec.Unseen, hd, Bool.false_eq_true,
        if_false, false_or]
      rw [← fieldOf_map_inj (N := N), hpieces]
      exact ⟨congrArg EagerRec.fields, fun heq => by rw [heq]⟩
  | assignOFS v =>
    cases hd : s.dirty with
    | false => simp [used, EagerRec.step, EagerRec.stepWith, AwkRec.Unseen, hd]
    | true =>
      have hnf : s.nf = e.fields.length := (h.done (h.split_of_dirty hd)).2.1
      simp only [used, EagerRec.step, EagerRec.stepWith, AwkRec.Unseen, hd, if_true, hnf,
        Bool.true_eq_false, false_or]
      rw [← joinWith_inj (N := N), h.pending hd]
      exact ⟨congrArg EagerRec.line, fun heq => by rw [heq]⟩
  | read n => simp [used, EagerRec.step, EagerRec.stepWith, AwkRec.Unseen]
  | readNF => simp [used, EagerRec.step, EagerRec.stepWith, AwkRec.Unseen]
  | compoundNF => exact absurd rfl hop

/-- The eager record has no empty cell. -/
theorem eager_full (h : s.Follows N ere e) (op : RecOp ν) :
    ∀ v ∈ (e.step N ere op).fields, v ≠ .uninit := by
  have hline : ∀ sep line, ∀ v ∈ (e.setline N ere sep line).fields, v ≠ .uninit := by
    intro sep line v hv
    obtain ⟨t, -, rfl⟩ := List.mem_map.1 hv
    exact fieldOf_ne t
  cases op with
  | record line => exact hline _ _
  | assign n v =>
    simp only [EagerRec.step, EagerRec.stepWith]
    split
    · exact hline _ _
    · exact setField_full h.full n (stored_ne v)
  | assignNF v => exact resize_full h.full _
  | assignFS _ | assignOFS _ | read _ | readNF | compoundNF => exact h.full

theorem step (h : s.Follows N ere e) (hop : s.Unseen N ere op) :
    (s.step N ere op).Follows N ere (e.step N ere op) := by
  by_cases hc : op = .compoundNF
  · subst hc
    exact h
  · have := h.step_used op
    rwa [(h.used_eq_iff hc).2 hop] at this

theorem compoundNF_iff (h : s.Follows N ere e) :
    s.obs N ere .compoundNF = e.obs N .compoundNF ↔ s.Unseen N ere .compoundNF := by
  simp only [AwkRec.obs, EagerRec.obs, AwkRec.Unseen, Option.some.injEq]
  cases hd : s.splitDone with
  | true => simpa using (h.done hd).2.2
  | false =>
    have hlen : (s.pieces ere).length = e.fields.length := by
      rw [← (h.todo hd).2.1, List.length_map]
    simp [hlen]

/-- **A step shows nothing**, in what it gives and in any read behind it, or it is seen. -/
theorem step_iff (h : s.Follows N ere e) (op : RecOp ν) :
    (s.obs N ere op = e.obs N op ∧ SameReads N ere (s.step N ere op) (e.step N ere op)) ↔
      s.Unseen N ere op := by
  by_cases hc : op = .compoundNF
  · subst hc
    rw [← h.compoundNF_iff]
    exact and_iff_left h.sameReads
  · refine ⟨fun ⟨_, hsame⟩ => ?_, fun hop => ⟨h.obs_eq hc, (h.step hop).sameReads⟩⟩
    obtain ⟨hline, hfields⟩ := (h.step_used op).eq_of_sameReads hsame (h.eager_full op)
    rw [← h.used_eq_iff hc]
    have hfs : (used N ere s e op).fs = (e.step N ere op).fs := by
      cases op with
      | assign n v =>
        simp only [used, EagerRec.step, EagerRec.stepWith]
        split <;> rfl
      | _ => rfl
    have hofs : (used N ere s e op).ofs = (e.step N ere op).ofs := by
      cases op with
      | assign n v =>
        simp only [used, EagerRec.step, EagerRec.stepWith]
        split <;> rfl
      | _ => rfl
    generalize used N ere s e op = u at *
    generalize e.step N ere op = v at *
    cases u
    cases v
    simp_all

end AwkRec.Follows

variable {N ere}

theorem seenSame_cons {s : AwkRec ν} {e : EagerRec ν} {op : RecOp ν} {ops : List (RecOp ν)} :
    SeenSame N ere s e (op :: ops) ↔ SameReads N ere s e ∧ s.obs N ere op = e.obs N op ∧
      SeenSame N ere (s.step N ere op) (e.step N ere op) ops := by
  constructor
  · intro h
    obtain ⟨hsame, hobs⟩ := h [] (op :: ops) rfl
    exact ⟨hsame, hobs op rfl, fun pre rest hrest => h (op :: pre) rest (congrArg _ hrest)⟩
  · rintro ⟨hsame, hobs, h⟩ pre rest hrest
    cases pre with
    | nil =>
      obtain rfl := hrest
      refine ⟨hsame, fun op' hop' => ?_⟩
      obtain rfl := Option.some.inj hop'
      exact hobs
    | cons op' pre =>
      obtain ⟨rfl, rfl⟩ := List.cons_eq_cons.1 hrest
      exact h pre rest rfl

theorem AwkRec.Follows.seenSame_iff {ops : List (RecOp ν)} {s : AwkRec ν} {e : EagerRec ν}
    (h : s.Follows N ere e) : SeenSame N ere s e ops ↔
      Along (fun s op => some (s.step N ere op)) (AwkRec.Unseen N ere) s ops := by
  induction ops generalizing s e with
  | nil =>
    refine ⟨fun _ => trivial, fun _ pre rest hrest => ?_⟩
    obtain ⟨rfl, rfl⟩ := List.append_eq_nil_iff.1 hrest.symm
    exact ⟨h.sameReads, nofun⟩
  | cons op ops ih =>
    rw [seenSame_cons]
    constructor
    · rintro ⟨-, hobs, hrest⟩
      have hop := (h.step_iff op).1 ⟨hobs, (hrest [] ops rfl).1⟩
      refine ⟨hop, fun s' hs' => ?_⟩
      obtain rfl := Option.some.inj hs'
      exact (ih (h.step hop)).1 hrest
    · rintro ⟨hop, hrest⟩
      exact ⟨h.sameReads, ((h.step_iff op).2 hop).1, (ih (h.step hop)).2 (hrest _ rfl)⟩

theorem AwkRec.Follows.start (fs : Str) :
    (AwkRec.start ν fs).Follows N ere (EagerRec.start N ere fs) where
  fs := rfl
  ofs := rfl
  full v hv := by
    obtain ⟨t, -, rfl⟩ := List.mem_map.1 hv
    exact fieldOf_ne t
  done := nofun
  todo _ := ⟨rfl, rfl, [], 0, rfl, nofun⟩
  clean _ := rfl
  pending := nofun

/-- **The lazy record reads as the eager one**, along all operations and in every read that could
follow one, if and only if no step is seen: separators are used as what they say, `FS` changes only
when the record is split or is split the same, `OFS` only when `$0` is joined or is joined the same,
and `NF` is not asked for in a compound assignment whose right side has changed the record. -/
theorem record_eager_iff (N : AwkNums ν) (ere : Str → Str → List Str) (fs : Str)
    (ops : List (RecOp ν)) : SeenSame N ere (AwkRec.start ν fs) (EagerRec.start N ere fs) ops ↔
      Along (fun s op => some (s.step N ere op)) (AwkRec.Unseen N ere) (AwkRec.start ν fs) ops :=
  (AwkRec.Follows.start fs).seenSame_iff

/-- A record that is read before `FS` is set is split with the new `FS`, and an assignment to `$1`
is joined with an `OFS` that is set behind it. -/
theorem separator_of_the_moment :
    let N : AwkNums ℕ := ⟨id, Int.ofNat, fun _ => [], fun _ => none⟩
    let ere : Str → Str → List Str := fun _ s => [s]
    let seen := fun ops op => (((ops.foldl (AwkRec.step N ere) (AwkRec.start ℕ [' '])).obs N ere op),
      ((ops.foldl (EagerRec.step N ere) (EagerRec.start N ere [' '])).obs N op))
    seen [.record "a:b".toList, .assignFS (.str [':'])] (.read 1) =
        (some (.str ['a']), some (.str "a:b".toList)) ∧
      seen [.record "a b".toList, .assign 1 (.str ['x']), .assignOFS (.str ['-'])] (.read 0) =
        (some (.str "x-b".toList), some (.str "x b".toList)) := by
  decide

end Shish
