import Mathlib.Algebra.Order.Ring.Nat
import Mathlib.Data.Int.Notation
import Shish.Source

/-!
# Source/Buffer — the buffer behind a source

`source_peekn` and `source_skip` work on a buffer: some memory, of which the bytes from `p` to `n`
are data, and what its descriptor has still to give.  A buffer on a string or a mapped file has all
its data from the beginning.  The bytes behind the data are whatever was there before.
-/

namespace Shish

/-- Why a function of C has no result: it reads outside of its memory; or the model stops early. -/
inductive Stop where
  | outside
  | fuel
  deriving DecidableEq

/-- `struct buffer`.  `dummy` says that the read operation is one that never reads; otherwise the
descriptor gives `file`, and `sizes` are how many bytes each read gives at most. -/
structure Buffer where
  x : ℕ → Char
  p : ℕ
  n : ℕ
  a : ℕ
  dummy : Bool
  file : Str := []
  sizes : List ℕ := []

/-- A number as an `int`. -/
def cint (n : ℕ) : ℤ := (BitVec.ofNat 32 n).toInt

/-- An `int` as an `unsigned`. -/
def unsigned (i : ℤ) : ℕ := (i % 2 ^ 32).toNat

theorem cint_of_lt {n : ℕ} (h : n < 2 ^ 31) : cint n = n := by
  rw [cint, BitVec.toInt_eq_toNat_of_lt]
  · simp only [BitVec.toNat_ofNat]
    omega
  · simp only [BitVec.toNat_ofNat]
    omega

theorem unsigned_of_lt {n : ℕ} (h : n < 2 ^ 32) : unsigned n = n := by
  rw [unsigned]
  omega

namespace Buffer

/-- `buffer_LEN`. -/
def len (b : Buffer) : ℕ := b.n - b.p

/-- The data. -/
def data (b : Buffer) : Str := (List.range b.len).map fun i => b.x (b.p + i)

/-- What there is still to read. -/
def rest (b : Buffer) : Str := b.data ++ b.file

/-- The byte `i` places behind `p`. -/
def byte (b : Buffer) (i : ℕ) : Except Stop Char :=
  if b.p + i < b.a then .ok (b.x (b.p + i)) else .error .outside

/-- Is it this byte? -/
def isByte (b : Buffer) (i : ℕ) (c : Char) : Except Stop Bool := (b.byte i).map (· == c)

/-- `!esc && x[pi] == '\\'`. -/
def backslash (b : Buffer) (pi : ℕ) (esc : Bool) : Except Stop Bool :=
  if esc then .ok false else b.isByte pi '\\'

/-- `buffer_LEN(b) > i && x[i] == '\n'`. -/
def newline (b : Buffer) (i : ℕ) : Except Stop Bool :=
  if i < unsigned b.len then b.isByte i '\n' else .ok false

/-- `buffer_stubborn_read` into the room behind the data; at least a byte, if there is one. -/
def read (b : Buffer) : Buffer × ℕ :=
  let room := b.a - b.n
  let got := if b.dummy then [] else b.file.take (min room (max 1 (b.sizes.headD room)))
  ({ b with
      x := fun i => if b.n ≤ i then (got[i - b.n]?).getD (b.x i) else b.x i
      n := b.n + got.length
      file := b.file.drop got.length
      sizes := b.sizes.tail }, got.length)

/-- The loop of `buffer_prefetch`. -/
def fill (k : ℕ) : ℕ → Buffer → Buffer
  | 0, b => b
  | m + 1, b =>
      if b.n < b.p + k then
        let (b', w) := b.read
        if w = 0 then b' else fill k m b'
      else b

/-- The data moves to the front. -/
def compact (b : Buffer) : Buffer :=
  { b with x := fun i => if i < b.len then b.x (b.p + i) else b.x i, p := 0, n := b.len }

/-- `buffer_prefetch`. -/
def prefetch (b : Buffer) (k : ℕ) : ℤ × Buffer :=
  let full := decide (b.p ≠ 0) && decide (b.a ≤ b.p + k)
  if full && b.dummy then (cint b.len, b)
  else
    let b := if full then b.compact else b
    let k := if b.a ≤ b.p + k then b.a - b.p else k
    if k = 0 then (-1, b)
    else
      let b := fill k (b.file.length + 1) b
      (cint b.len, b)

end Buffer

/-- A source on a buffer, with `source_bs`, `source_squoted` and `source_comment`. -/
structure Reader where
  b : Buffer
  bs : Bool := false
  squoted : Bool := false
  comment : Bool := false

namespace Reader

/-- The loop of `source_peekn`: `pi` bytes are `k` characters, `esc` says that a backslash went
before. -/
def peeknGo (n : ℕ) : ℕ → Buffer → ℤ → ℕ → ℕ → Bool → Except Stop (ℤ × Option Char × Buffer)
  | 0, _, _, _, _, _ => .error .fuel
  | fuel + 1, b, ret, pi, k, esc => do
      let asked := decide (unsigned ret ≤ pi)
      let (ret, b) := if asked then b.prefetch (pi + 1) else (ret, b)
      if asked && decide (ret ≤ 0) && (decide (ret < 0) || decide (unsigned b.len ≤ pi)) then
        return (ret, none, b)
      let ret := if asked && decide (ret ≤ 0) then cint b.len else ret
      let backslash ← b.backslash pi esc
      if backslash then
        let asked := decide (unsigned ret ≤ pi + 1)
        let (ret, b) := if asked then b.prefetch (pi + 2) else (ret, b)
        if asked && decide (ret < 0) then
          return (ret, none, b)
        let ret := if asked && decide (ret ≤ 0) then cint b.len else ret
        let newline ← b.newline (pi + 1)
        if newline then
          if pi = 0 then
            let b := { b with p := b.p + 2 }
            peeknGo n fuel b (cint b.len) 0 k esc
          else peeknGo n fuel b ret (pi + 2) k esc
        else if k = n then return (ret, some (← b.byte pi), b)
        else peeknGo n fuel b ret (pi + 1) (k + 1) true
      else if k = n then return (ret, some (← b.byte pi), b)
      else peeknGo n fuel b ret (pi + 1) (k + 1) false

/-- `source_peekn`: what it returns, the character it gives, and the source. -/
def peekn (s : Reader) (n : ℕ) : Except Stop (ℤ × Option Char × Reader) := do
  if s.squoted || s.comment then
    let ret := cint s.b.len
    let asked := decide (unsigned ret ≤ n)
    let (ret, b) := if asked then s.b.prefetch (n + 1) else (ret, s.b)
    if asked && decide (ret ≤ 0) then
      return (ret, none, { s with b })
    return (ret, some (← b.byte n), { s with b })
  else
    let (ret, c, b) ← peeknGo n (n + s.b.rest.length + 1) s.b (cint s.b.len) 0 0 s.bs
    return (ret, c, { s with b })

/-- `source_skip`. -/
def skip (s : Reader) : Except Stop (Bool × Reader) := do
  let (_, _, s) ← s.peekn 0
  if s.b.p < s.b.n then
    let c := s.b.x s.b.p
    let s := { s with b := { s.b with p := s.b.p + 1 } }
    if c == '\\' && !s.bs && !s.squoted && !s.comment then
      let (ret, c, s) ← { s with bs := true }.peekn 0
      if decide (0 < ret) && c == some '\n' then
        return (true, { s with b := { s.b with p := s.b.p + 1 }, bs := false })
      return (true, s)
    return (true, { s with bs := false })
  return (false, s)

end Reader

/-! ## Prefetching -/

namespace Buffer

/-- **A buffer in order**: its data is inside of it, and small enough for an `int`. -/
structure Ok (b : Buffer) : Prop where
  le_n : b.p ≤ b.n
  le_a : b.n ≤ b.a
  small : b.n < 2 ^ 31
  file : b.dummy → b.file = []
  room : b.dummy = false → 2 ≤ b.a ∧ b.a < 2 ^ 31

/-- Behind an operation that only looks there is the same to read. -/
structure Looks (b b' : Buffer) : Prop where
  ok : b'.Ok
  rest : b'.rest = b.rest
  a : b'.a = b.a
  dummy : b'.dummy = b.dummy

variable {b b' b'' : Buffer}

theorem Looks.refl (h : b.Ok) : b.Looks b := ⟨h, rfl, rfl, rfl⟩

theorem Looks.trans (h : b.Looks b') (h' : b'.Looks b'') : b.Looks b'' :=
  ⟨h'.ok, h'.rest.trans h.rest, h'.a.trans h.a, h'.dummy.trans h.dummy⟩

@[simp] theorem length_data (b : Buffer) : b.data.length = b.len := by
  simp [data]

theorem length_rest (b : Buffer) : b.rest.length = b.len + b.file.length := by
  simp [rest]

/-- A byte of the data is what there is to read there. -/
theorem byte_of_lt (h : b.Ok) {i : ℕ} (hi : i < b.len) :
    ∃ c, b.byte i = .ok c ∧ b.rest[i]? = some c := by
  have hlt : b.p + i < b.a := by
    have := h.le_a
    unfold len at hi
    omega
  refine ⟨_, if_pos hlt, ?_⟩
  rw [rest, List.getElem?_append_left (by simpa using hi)]
  simp [data, hi]

/-- **A read** leaves as much to read. -/
theorem read_eq (h : b.Ok) : b.Looks b.read.1 ∧ b.read.1.p = b.p ∧
    b.read.1.file.length + b.read.2 = b.file.length ∧
    (b.read.2 = 0 → b.read.1.file = [] ∨ b.read.1.n = b.a) := by
  unfold read
  dsimp only
  generalize hgot : (if b.dummy then [] else
    b.file.take (min (b.a - b.n) (max 1 (b.sizes.headD (b.a - b.n))))) = got
  have hpre : got <+: b.file := by
    rw [← hgot]
    split_ifs
    · exact List.nil_prefix
    · exact List.take_prefix ..
  have hroom : got.length ≤ b.a - b.n := by
    rw [← hgot]
    split_ifs
    · exact Nat.zero_le _
    · rw [List.length_take]
      omega
  have hdummy : b.dummy → got = [] := fun hd => by rw [← hgot, if_pos hd]
  have hle_n := h.le_n
  have hle_a := h.le_a
  refine ⟨⟨⟨by dsimp only; omega, by dsimp only; omega, ?_, fun hd => ?_, h.room⟩, ?_, rfl, rfl⟩,
    rfl, ?_, fun hw => ?_⟩
  · have hsmall := h.small
    dsimp only
    cases hd : b.dummy with
    | true => simpa [hdummy hd] using hsmall
    | false =>
      have := (h.room hd).2
      omega
  · dsimp only
    rw [h.file hd, List.drop_nil]
  · obtain ⟨file, hfile⟩ := hpre
    have hlen : b.n + got.length - b.p = b.len + got.length := by
      unfold len
      omega
    have hdata : data { b with
        x := fun i => if b.n ≤ i then (got[i - b.n]?).getD (b.x i) else b.x i
        n := b.n + got.length
        file := b.file.drop got.length
        sizes := b.sizes.tail } = b.data ++ got := by
      simp only [data, len, hlen]
      refine List.ext_getElem (by simp) fun i hi hi' => ?_
      rw [List.getElem_map, List.getElem_range, List.getElem_append]
      split_ifs with h₁ h₂ h₂
      · simp only [List.length_map, List.length_range] at h₂
        omega
      · simp only [List.length_map, List.length_range] at h₂
        have hin : b.p + i - b.n = i - (b.n - b.p) := by omega
        have hlt : i - (b.n - b.p) < got.length := by
          simp only [List.length_append, List.length_map, List.length_range] at hi'
          omega
        simp [hin, hlt]
      · rw [List.getElem_map, List.getElem_range]
      · simp only [List.length_map, List.length_range] at h₂
        omega
    rw [rest, hdata, rest]
    dsimp only
    rw [← hfile, List.drop_left, List.append_assoc]
  · have := hpre.length_le
    rw [List.length_drop]
    omega
  · have hnil : got = [] := List.length_eq_zero_iff.1 hw
    rw [hnil, List.length_nil, List.drop_zero, Nat.add_zero]
    cases hd : b.dummy with
    | true => exact .inl (h.file hd)
    | false =>
      rw [hd, if_neg Bool.false_ne_true] at hgot
      rw [hnil, List.take_eq_nil_iff] at hgot
      rcases hgot with hz | hnil
      · right
        omega
      · exact .inl hnil

/-- **The loop of `buffer_prefetch`** reads until there is enough, or no more, or no room. -/
theorem fill_eq {k : ℕ} : ∀ {m : ℕ} {b : Buffer}, b.Ok → b.file.length < m →
    b.Looks (fill k m b) ∧ (fill k m b).p = b.p ∧
      (b.p + k ≤ (fill k m b).n ∨ (fill k m b).file = [] ∨ (fill k m b).n = b.a)
  | m + 1, b, h, hm => by
      rw [fill]
      split_ifs with hlt
      · obtain ⟨hlook, hp, hlen, hend⟩ := read_eq h
        dsimp only
        split_ifs with hw
        · exact ⟨hlook, hp, .inr (hend hw)⟩
        · have hm' : b.read.1.file.length < m := by omega
          obtain ⟨hlook', hp', hend'⟩ := fill_eq (k := k) hlook.ok hm'
          exact ⟨hlook.trans hlook', hp'.trans hp, by rwa [hp, hlook.a] at hend'⟩
      · exact ⟨.refl h, rfl, .inl (by omega)⟩

theorem compact_eq (h : b.Ok) : b.Looks b.compact := by
  have := h.le_n
  have := h.le_a
  have hsmall := h.small
  refine ⟨⟨Nat.zero_le _, ?_, ?_, h.file, h.room⟩, ?_, rfl, rfl⟩
  · simp only [compact, len]
    omega
  · simp only [compact, len]
    omega
  · have hdata : b.compact.data = b.data := by
      refine List.ext_getElem (by simp [compact, len]) fun i hi hi' => ?_
      have hlt : i < b.len := by simpa using hi'
      simp [data, compact, hlt]
    rw [rest, hdata]
    rfl

theorem cint_len (h : b.Ok) : cint b.len = b.len := by
  have := h.small
  refine cint_of_lt ?_
  unfold len
  omega

/-- **`buffer_prefetch`**: there is enough now, or no more, or the buffer is full; a failure means
that there is nothing. -/
theorem prefetch_eq (h : b.Ok) {k : ℕ} (hk : 0 < k) : b.Looks (b.prefetch k).2 ∧
    ((b.prefetch k).1 = (b.prefetch k).2.len ∨ ((b.prefetch k).1 = -1 ∧ b.rest = [])) ∧
    (k ≤ (b.prefetch k).2.len ∨ (b.prefetch k).2.file = [] ∨ (b.prefetch k).2.len = b.a) := by
  -- what happens once there is room
  have hend : ∀ {b₁ : Buffer}, b.Looks b₁ → (b₁.p = 0 ∨ b₁.p + k < b₁.a) →
      let k' := if b₁.a ≤ b₁.p + k then b₁.a - b₁.p else k
      let r : ℤ × Buffer := if k' = 0 then (-1, b₁) else
        let b₂ := fill k' (b₁.file.length + 1) b₁
        (cint b₂.len, b₂)
      b.Looks r.2 ∧ (r.1 = r.2.len ∨ (r.1 = -1 ∧ b.rest = [])) ∧
        (k ≤ r.2.len ∨ r.2.file = [] ∨ r.2.len = b.a) := by
    intro b₁ hlook hp
    have hle_n := hlook.ok.le_n
    have hle_a := hlook.ok.le_a
    have ha := hlook.a
    dsimp only
    generalize hk' : (if b₁.a ≤ b₁.p + k then b₁.a - b₁.p else k) = k'
    split_ifs with h0
    · have ha0 : b₁.a = 0 := by
        split_ifs at hk' <;> omega
      have hfile : b₁.file = [] := by
        cases hd : b₁.dummy with
        | true => exact hlook.ok.file hd
        | false =>
          have := (hlook.ok.room hd).1
          omega
      refine ⟨hlook, .inr ⟨rfl, ?_⟩, .inr (.inl hfile)⟩
      rw [← hlook.rest, ← List.length_eq_zero_iff, length_rest, hfile, List.length_nil, len]
      omega
    · obtain ⟨hfill, hp', henough⟩ := fill_eq (k := k') hlook.ok (Nat.lt_add_one _)
      refine ⟨hlook.trans hfill, .inl (cint_len hfill.ok), ?_⟩
      have hfill_a : (fill k' (b₁.file.length + 1) b₁).n ≤ b₁.a := hfill.a ▸ hfill.ok.le_a
      have hlen : (fill k' (b₁.file.length + 1) b₁).len =
          (fill k' (b₁.file.length + 1) b₁).n - b₁.p := by
        rw [len, hp']
      dsimp only
      rw [hlen]
      rcases henough with henough | hfile | hfull
      · split_ifs at hk' <;> omega
      · exact .inr (.inl hfile)
      · omega
  unfold prefetch
  dsimp only
  by_cases hfull : (decide (b.p ≠ 0) && decide (b.a ≤ b.p + k)) = true
  · rw [hfull]
    cases hd : b.dummy with
    | true => exact ⟨.refl h, .inl (cint_len h), .inr (.inl (h.file hd))⟩
    | false => exact hend (compact_eq h) (.inl rfl)
  · simp only [hfull, Bool.false_and, Bool.false_eq_true, if_false]
    refine hend (.refl h) ?_
    simp only [ne_eq, Bool.and_eq_true, decide_eq_true_eq] at hfull
    omega

end Buffer

end Shish
