import Shish.Utf8.Decode

/-!
# Filter/TrSets — the strings of `tr`

`tr_expand` reads a string into its code points: characters, escapes, ranges, classes and repetitions.  Without
UTF-8 all of them are bytes (`trExpand_low`), which is what a `Sets` keeps.
-/

namespace Shish.Tr

open Utf8

/-- The letters of `tr_atom`'s escapes, and what they stand for. -/
def escapes : List (UInt8 × UInt8) :=
  [('a'.toUInt8, 0x07), ('b'.toUInt8, 0x08), ('f'.toUInt8, 0x0c), ('n'.toUInt8, 0x0a), ('r'.toUInt8, 0x0d),
    ('t'.toUInt8, 0x09), ('v'.toUInt8, 0x0b)]

/-- An octal digit. -/
def isOctal (b : UInt8) : Bool := '0'.toUInt8 ≤ b && b ≤ '7'.toUInt8

/-- At most `n` octal digits, and what is behind them. -/
def octal : ℕ → UInt32 → Bytes → UInt32 × Bytes
  | 0, c, s => (c, s)
  | _, c, [] => (c, [])
  | n + 1, c, b :: s => if isOctal b then octal n (c * 8 + (b - '0'.toUInt8).toUInt32) s else (c, b :: s)

/-- The code point of a byte or of the character that starts with it, and what is behind it. -/
def character (utf8 : Bool) (b : UInt8) (s : Bytes) : UInt32 × Bytes :=
  if utf8 && 0x80 ≤ b then
    match u8decode (b :: s) with
    | .char cp len => if 1 < len then (cp, s.drop (len - 1)) else (b.toUInt32, s)
    | _ => (b.toUInt32, s)
  else (b.toUInt32, s)

/-- `tr_atom`, for a string that starts with `b`. -/
def trAtom (utf8 : Bool) (b : UInt8) (s : Bytes) : UInt32 × Bytes :=
  match s with
  | [] => character utf8 b []
  | e :: s' =>
      if b = '\\'.toUInt8 then
        if isOctal e then ((octal 3 0 s).1 &&& 255, (octal 3 0 s).2)
        else
          match escapes.lookup e with
          | some x => (x.toUInt32, s')
          | none => character utf8 e s'
      else character utf8 b s

/-- What `tr_expand` makes: the code points, and what `[c*]` stands for and where. -/
structure Expanded where
  codes : List UInt32 := []
  fill : Option (UInt32 × ℕ) := none

/-- Code points are added. -/
def Expanded.add (x : Expanded) (cs : List UInt32) : Expanded := { x with codes := x.codes ++ cs }

/-- The text of a bracket up to `:]`, and what is behind it. -/
def className : Bytes → Option (Bytes × Bytes)
  | [] => none
  | [_] => none
  | a :: b :: s =>
      if a = ':'.toUInt8 ∧ b = ']'.toUInt8 then some ([], s)
      else (className (b :: s)).map fun x => (a :: x.1, x.2)

/-- The digits of a repetition, with the base given; an `unsigned long`. -/
def number (base : UInt8) : UInt64 → Bytes → UInt64 × Bytes
  | n, [] => (n, [])
  | n, b :: s =>
      if '0'.toUInt8 ≤ b ∧ b < '0'.toUInt8 + base then
        number base (n * base.toUInt64 + (b - '0'.toUInt8).toUInt64) s
      else (n, b :: s)

/-- What stands in brackets behind `*`: whether there are digits, the number and what is behind the bracket. -/
def repetition (d : Bytes) : Option (Bool × UInt64 × Bytes) :=
  let base : UInt8 := if d.head? = some '0'.toUInt8 then 8 else 10
  match (number base 0 d).2 with
  | b :: s => if b = ']'.toUInt8 then some (decide ((number base 0 d).2 ≠ d), (number base 0 d).1, s) else none
  | [] => none

/-- The code points of a range. -/
def range (c hi : UInt32) : List UInt32 := (List.range (hi.toNat + 1 - c.toNat)).map fun i => c + UInt32.ofNat i

/-- A character or a range. -/
def trRange (utf8 : Bool) (b : UInt8) (s : Bytes) (x : Expanded) : Except String (Expanded × Bytes) :=
  let c := (trAtom utf8 b s).1
  match (trAtom utf8 b s).2 with
  | m :: e :: s' =>
      if m = '-'.toUInt8 then
        let hi := (trAtom utf8 e s').1
        if hi < c then .error "range-endpoints are in reverse collating sequence order"
        else .ok (x.add (range c hi), (trAtom utf8 e s').2)
      else .ok (x.add [c], m :: e :: s')
  | s' => .ok (x.add [c], s')

/-- A repetition: the character, and `[c*]` or `[c*n]`. -/
def trRepeat (utf8 : Bool) (s : Bytes) (x : Expanded) : Option (Expanded × Bytes) :=
  match s with
  | [] => none
  | b :: s =>
      match (trAtom utf8 b s).2 with
      | [] => none
      | m :: d =>
          if m = '*'.toUInt8 then
            (repetition d).map fun r =>
              if r.1 then (x.add (List.replicate r.2.1.toNat (trAtom utf8 b s).1), r.2.2)
              else ({ x with fill := some ((trAtom utf8 b s).1, x.codes.length) }, r.2.2)
          else none

/-- The names `byteset_class` knows; what bytes are in a class is for the C library to say. -/
def classNames : List Bytes :=
  ["upper", "lower", "alpha", "digit", "alnum", "punct", "graph", "print", "cntrl", "blank", "space", "xdigit"].map ascii

/-- `byteset_class`: the bytes in a class, in order. -/
def bytesetClass (ctype : Bytes → UInt8 → Bool) (name : Bytes) : Option (List UInt8) :=
  if name ∈ classNames then some (((List.range 256).map UInt8.ofNat).filter (ctype name)) else none

/-- A step of `tr_expand`'s loop, for a string that starts with `b`. -/
def trItem (ctype : Bytes → UInt8 → Bool) (utf8 : Bool) (b : UInt8) (s : Bytes) (x : Expanded) :
    Except String (Expanded × Bytes) :=
  if b = '['.toUInt8 then
    match s with
    | [] => trRange utf8 b s x
    | e :: s' =>
        if e = ':'.toUInt8 then
          match className s' with
          | none => .error "invalid character class"
          | some (name, rest) =>
              match bytesetClass ctype name with
              | none => .error "invalid character class"
              | some set => .ok (x.add (set.map UInt8.toUInt32), rest)
        else if e = '='.toUInt8 ∧ (s'.drop 1).take 2 = ['='.toUInt8, ']'.toUInt8] then
          .ok (x.add ((s'.take 1).map UInt8.toUInt32), s'.drop 3)
        else
          match trRepeat utf8 s x with
          | some r => .ok r
          | none => trRange utf8 b s x
  else trRange utf8 b s x

/-! ## Every step takes something -/

variable {ctype : Bytes → UInt8 → Bool} {utf8 : Bool} {b : UInt8} {s : Bytes} {x : Expanded} {r : Expanded × Bytes}

theorem octal_length (n : ℕ) (c : UInt32) (s : Bytes) : (octal n c s).2.length ≤ s.length := by
  fun_induction octal n c s with
  | case1 => exact Nat.le_refl _
  | case2 => exact Nat.le_refl _
  | case3 n c b s hb ih => exact Nat.le_succ_of_le ih
  | case4 => exact Nat.le_refl _

theorem character_length (b : UInt8) (s : Bytes) : (character utf8 b s).2.length ≤ s.length := by
  unfold character
  split_ifs
  · split
    · split_ifs
      · exact (List.length_drop (l := s) ▸ Nat.sub_le _ _)
      · exact Nat.le_refl _
    · exact Nat.le_refl _
  · exact Nat.le_refl _

theorem trAtom_length (b : UInt8) (s : Bytes) : (trAtom utf8 b s).2.length ≤ s.length := by
  cases s with
  | nil => exact character_length b []
  | cons e s =>
    rw [trAtom]
    split_ifs
    · exact octal_length 3 0 (e :: s)
    · split
      · exact Nat.le_succ _
      · exact Nat.le_succ_of_le (character_length e s)
    · exact character_length b (e :: s)

theorem className_length : ∀ {s : Bytes} {y : Bytes × Bytes}, className s = some y → y.2.length ≤ s.length
  | [], _, h => by cases h
  | [_], _, h => by cases h
  | a :: b :: s, y, h => by
      rw [className] at h
      split_ifs at h
      · obtain rfl := Option.some.inj h
        exact Nat.le_add_right s.length 2
      · obtain ⟨z, hz, rfl⟩ := Option.map_eq_some_iff.1 h
        have hlen := className_length hz
        exact Nat.le_succ_of_le hlen

theorem number_length (base : UInt8) (n : UInt64) (s : Bytes) : (number base n s).2.length ≤ s.length := by
  fun_induction number base n s with
  | case1 => exact Nat.le_refl _
  | case2 n b s hb ih => exact Nat.le_succ_of_le ih
  | case3 => exact Nat.le_refl _

theorem repetition_length {d : Bytes} {y : Bool × UInt64 × Bytes} (h : repetition d = some y) :
    y.2.2.length ≤ d.length := by
  unfold repetition at h
  extract_lets base at h
  have hlen := number_length base 0 d
  split at h
  · split_ifs at h
    obtain rfl := Option.some.inj h
    rename_i heq _
    rw [heq] at hlen
    exact Nat.le_of_succ_le hlen
  · cases h

theorem trRange_length (h : trRange utf8 b s x = .ok r) : r.2.length ≤ s.length := by
  unfold trRange at h
  extract_lets c at h
  have hlen := @trAtom_length utf8 b s
  split at h
  · rename_i m e s' heq
    rw [heq] at hlen
    split_ifs at h
    · extract_lets hi at h
      split_ifs at h
      obtain rfl := Except.ok.inj h
      have := @trAtom_length utf8 e s'
      exact Nat.le_trans this (Nat.le_of_succ_le (Nat.le_of_succ_le hlen))
    · obtain rfl := Except.ok.inj h
      exact hlen
  · obtain rfl := Except.ok.inj h
    exact hlen

theorem trRepeat_length (h : trRepeat utf8 s x = some r) : r.2.length ≤ s.length := by
  unfold trRepeat at h
  cases s with
  | nil => cases h
  | cons b s =>
    have hlen := @trAtom_length utf8 b s
    simp only at h
    split at h
    · cases h
    · rename_i m d heq
      rw [heq] at hlen
      obtain ⟨-, h⟩ := Option.ite_none_right_eq_some.1 h
      obtain ⟨y, hy, rfl⟩ := Option.map_eq_some_iff.1 h
      have := repetition_length hy
      rw [List.length_cons] at hlen ⊢
      split_ifs <;> exact Nat.le_trans this (by omega)

/-- **A step takes at least a byte.** -/
theorem trItem_length (h : trItem ctype utf8 b s x = .ok r) : r.2.length ≤ s.length := by
  unfold trItem at h
  split_ifs at h
  · cases s with
    | nil => exact trRange_length h
    | cons e s' =>
      simp only at h
      split_ifs at h
      · split at h
        · cases h
        · rename_i name rest heq
          split at h
          · cases h
          · obtain rfl := Except.ok.inj h
            exact Nat.le_succ_of_le (className_length heq)
      · obtain rfl := Except.ok.inj h
        simp
        omega
      · split at h
        · obtain rfl := Except.ok.inj h
          exact trRepeat_length ‹_›
        · exact trRange_length h
  · exact trRange_length h

/-- `tr_expand`. -/
def trExpand (ctype : Bytes → UInt8 → Bool) (utf8 : Bool) (s : Bytes) (x : Expanded) : Except String Expanded :=
  match s with
  | [] => .ok x
  | b :: s =>
      match _h : trItem ctype utf8 b s x with
      | .error e => .error e
      | .ok r => trExpand ctype utf8 r.2 r.1
termination_by s.length
decreasing_by exact Nat.lt_succ_of_le (trItem_length _h)

/-! ## Without UTF-8 there are only bytes -/

/-- All the code points are bytes. -/
structure Expanded.Low (x : Expanded) : Prop where
  codes : ∀ c ∈ x.codes, c < 256
  fill : ∀ f ∈ x.fill, f.1 < 256

theorem low_empty : ({} : Expanded).Low :=
  ⟨fun _ h => absurd h List.not_mem_nil, fun _ h => by cases h⟩

theorem low_byte (b : UInt8) : b.toUInt32 < 256 := by
  rw [UInt32.lt_iff_toNat_lt, UInt8.toNat_toUInt32]
  exact b.toNat_lt

theorem trAtom_low (b : UInt8) (s : Bytes) : (trAtom false b s).1 < 256 := by
  cases s with
  | nil => exact low_byte b
  | cons e s =>
    rw [trAtom]
    split_ifs
    · rw [UInt32.lt_iff_toNat_lt, UInt32.toNat_and]
      exact Nat.lt_of_le_of_lt Nat.and_le_right (by decide)
    · split
      · exact low_byte _
      · exact low_byte e
    · exact low_byte b

theorem Expanded.Low.add (h : x.Low) {cs : List UInt32} (hcs : ∀ c ∈ cs, c < 256) : (x.add cs).Low :=
  ⟨fun c hc => (List.mem_append.1 hc).elim (h.codes c) (hcs c), h.fill⟩

theorem range_low {c hi : UInt32} (hhi : hi < 256) : ∀ d ∈ range c hi, d < 256 := by
  intro d hd
  obtain ⟨i, hi', rfl⟩ := List.mem_map.1 hd
  have hlt := List.mem_range.1 hi'
  have h256 : (256 : UInt32).toNat = 256 := rfl
  rw [UInt32.lt_iff_toNat_lt] at hhi ⊢
  rw [UInt32.toNat_add, UInt32.toNat_ofNat', Nat.mod_eq_of_lt (by omega : i < 2 ^ 32), Nat.mod_eq_of_lt (by omega)]
  omega

theorem trRange_low (hx : x.Low) (h : trRange false b s x = .ok r) : r.1.Low := by
  unfold trRange at h
  extract_lets c at h
  have hone : ∀ d ∈ [c], d < 256 := by
    intro d hd
    rw [List.mem_singleton.1 hd]
    exact trAtom_low b s
  split at h
  · split_ifs at h
    · extract_lets hi at h
      split_ifs at h
      obtain rfl := Except.ok.inj h
      exact hx.add (range_low (trAtom_low _ _))
    · obtain rfl := Except.ok.inj h
      exact hx.add hone
  · obtain rfl := Except.ok.inj h
    exact hx.add hone

theorem trRepeat_low (hx : x.Low) (h : trRepeat false s x = some r) : r.1.Low := by
  unfold trRepeat at h
  cases s with
  | nil => cases h
  | cons b s =>
    simp only at h
    split at h
    · cases h
    · obtain ⟨-, h⟩ := Option.ite_none_right_eq_some.1 h
      obtain ⟨y, hy, rfl⟩ := Option.map_eq_some_iff.1 h
      split_ifs
      · exact hx.add fun c hc => (List.mem_replicate.1 hc).2 ▸ trAtom_low b s
      · exact ⟨hx.codes, fun f hf => Option.some.inj hf ▸ trAtom_low b s⟩

theorem trItem_low (hx : x.Low) (h : trItem ctype false b s x = .ok r) : r.1.Low := by
  have hbytes : ∀ (set : Bytes), ∀ c ∈ set.map UInt8.toUInt32, c < 256 := by
    intro set c hc
    obtain ⟨b, -, rfl⟩ := List.mem_map.1 hc
    exact low_byte b
  unfold trItem at h
  split_ifs at h
  · cases s with
    | nil => exact trRange_low hx h
    | cons e s' =>
      simp only at h
      split_ifs at h
      · split at h
        · cases h
        · split at h
          · cases h
          · obtain rfl := Except.ok.inj h
            exact hx.add (hbytes _)
      · obtain rfl := Except.ok.inj h
        exact hx.add (hbytes _)
      · split at h
        · obtain rfl := Except.ok.inj h
          exact trRepeat_low hx ‹_›
        · exact trRange_low hx h
  · exact trRange_low hx h

/-- **All of them are bytes.** -/
theorem trExpand_low {y : Expanded} (hx : x.Low) (h : trExpand ctype false s x = .ok y) : y.Low := by
  induction hn : s.length using Nat.strongRecOn generalizing s x with
  | ind n ih =>
    cases s with
    | nil =>
      rw [trExpand] at h
      exact Except.ok.inj h ▸ hx
    | cons b s =>
      rw [trExpand] at h
      split at h
      · cases h
      · rename_i r hr
        have := trItem_length hr
        rw [List.length_cons] at hn
        exact ih r.2.length (by omega) (trItem_low hx hr) h rfl

/-! ## The operands -/

/-- The options. -/
structure Options where
  c : Bool := false
  d : Bool := false
  s : Bool := false
  utf8 : Bool := false

/-- What `tr_setup` knows of its operands: the code points of `string1` and of `string2`, if there is one, with
what `[c*]` adds. -/
structure Sets where
  o : Options
  l1 : List UInt32
  l2 : Option (List UInt32)
  low : o.utf8 = false → (∀ c ∈ l1, c < 256) ∧ ∀ l ∈ l2, ∀ c ∈ l, c < 256

/-- The complement of `string1` below 256. -/
def complement (l1 : List UInt32) : List UInt32 := ((List.range 256).map UInt32.ofNat).filter (· ∉ l1)

/-- `[c*]` pads `string2` out to the length of `string1`. -/
def pad (o : Options) (l1 : List UInt32) (x : Expanded) : List UInt32 :=
  match x.fill with
  | none => x.codes
  | some (f, fpos) =>
      let m1 := if o.c then complement l1 else l1
      if x.codes.length < m1.length ∧ x.codes.length < l1.length + (if o.c then (complement l1).length else 0) then
        x.codes.take fpos ++ List.replicate (m1.length - x.codes.length) f ++ x.codes.drop fpos
      else x.codes

theorem pad_low (o : Options) (l1 : List UInt32) (hx : x.Low) : ∀ c ∈ pad o l1 x, c < 256 := by
  unfold pad
  split
  · exact hx.codes
  · rename_i f fpos hf
    extract_lets m1
    by_cases hlt : x.codes.length < m1.length ∧
        x.codes.length < l1.length + (if o.c then (complement l1).length else 0)
    · rw [if_pos hlt]
      intro c hc
      rcases List.mem_append.1 hc with hc | hc
      · rcases List.mem_append.1 hc with hc | hc
        · exact hx.codes c (List.mem_of_mem_take hc)
        · exact (List.mem_replicate.1 hc).2 ▸ hx.fill _ hf
      · exact hx.codes c (List.mem_of_mem_drop hc)
    · rw [if_neg hlt]
      exact hx.codes

/-- Why `tr_setup` fails: the argument and the message. -/
abbrev Fail := Bytes × String

/-- `string2`, if it is there. -/
def trSecond (ctype : Bytes → UInt8 → Bool) (o : Options) (l1 : List UInt32) :
    Option Bytes → Except Fail (Option { l : List UInt32 // o.utf8 = false → ∀ c ∈ l, c < 256 })
  | none => .ok none
  | some s2 =>
      match h : trExpand ctype o.utf8 s2 {} with
      | .error e => .error ([], e)
      | .ok x => .ok (some ⟨pad o l1 x, fun hu => pad_low o l1 (trExpand_low low_empty (hu ▸ h))⟩)

/-- The checks of `tr_setup`. -/
def trSets (ctype : Bytes → UInt8 → Bool) (o : Options) (a : List Bytes) : Except Fail Sets :=
  match a with
  | [] => .error ([], "missing operand")
  | s1 :: a =>
      match a.tail with
      | a2 :: _ => .error (a2, "extra operand")
      | [] =>
          if !o.d && !o.s && a.isEmpty then .error (s1, "missing operand after string1")
          else if o.d && !a.isEmpty && !o.s then .error (a.headD [], "extra operand")
          else
            match h : trExpand ctype o.utf8 s1 {} with
            | .error e => .error ([], e)
            | .ok x =>
                match trSecond ctype o x.codes a.head? with
                | .error e => .error e
                | .ok l2 =>
                    if !a.isEmpty && !o.d && (l2.any fun l => l.1.isEmpty) then
                      .error ([], "string2 must not be empty")
                    else
                      .ok ⟨o, x.codes, l2.map (·.1), fun hu =>
                        ⟨(trExpand_low low_empty (hu ▸ h)).codes, fun l hl c hc => by
                          obtain ⟨l, -, rfl⟩ := Option.map_eq_some_iff.1 hl
                          exact l.2 hu c hc⟩⟩

end Shish.Tr
