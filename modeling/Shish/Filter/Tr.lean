import Mathlib.Algebra.Order.Ring.Nat
import Mathlib.Logic.Function.Basic
import Shish.Filter.TrSets
import Shish.Filter.TrTable

/-!
# Filter/Tr — characters mapped, deleted and squeezed

`tr_setup` makes tables of its strings, and `tr_step` takes what there is to read, character by character: it
keeps a character that the end of the window cuts off, and the last one that it wrote of those to squeeze.  So
the windows do not matter: what comes out is what the strings say about the characters of the whole input
(`run_eq`).
-/

namespace Shish

open Utf8

/-- `struct tr`: the tables, and what is carried over from one window to the next. -/
structure Tr where
  o : Tr.Options
  /-- Translation of code points below 256. -/
  map : UInt32 → UInt32
  del : List UInt32
  sq : List UInt32
  /-- Code points from 256 on: `string1`, and the squeeze set. -/
  hi : List Tr.Ent
  sqhi : List Tr.Ent
  /-- The last code point of `string2`. -/
  last2 : UInt32
  tr2 : Bool
  sqcomp : Bool
  /-- The last code point written while squeezing. -/
  last : Option UInt32 := none
  /-- A character cut off by the end of the window. -/
  carry : Bytes := []

namespace Tr

/-- The map of the code points below 256 among `m1`. -/
def mapOf (m1 l2 : List UInt32) : UInt32 → UInt32 :=
  m1.zipIdx.foldl (fun map e => if e.1 < 256 then Function.update map e.1 (orLast l2 e.2) else map) id

/-- What is mapped or deleted below 256: `string1` or its complement. -/
def Sets.m1 (x : Sets) : List UInt32 := if x.o.c then complement x.l1 else x.l1

/-- The tables that `tr_setup` makes. -/
def Sets.tr (x : Sets) : Tr :=
  let l2 := x.l2.getD []
  let tr2 := x.l2.isSome && !x.o.d
  let sqcomp := x.o.c && x.l2.isNone
  { o := x.o
    map := if !x.o.d && tr2 then mapOf x.m1 l2 else id
    del := if x.o.d then x.m1.filter (· < 256) else []
    sq := if x.o.s then (x.l2.getD x.m1).filter (· < 256) else []
    hi := if x.o.utf8 then entHigh x.l1 (if tr2 && !x.o.c then l2 else []) else []
    sqhi := if x.o.utf8 && (x.o.s && !sqcomp) then entHigh (x.l2.getD x.l1) [] else []
    last2 := l2.getLastD 0
    tr2
    sqcomp }

/-- `tr_setup`. -/
def trSetup (ctype : Bytes → UInt8 → Bool) (o : Options) (a : List Bytes) : Except Fail Tr :=
  (trSets ctype o a).map Sets.tr

variable (t : Tr)

/-- `tr_char`. -/
def trChar (c : UInt32) : Option UInt32 :=
  if c < 256 then if t.o.d && t.del.contains c then none else some (t.map c)
  else
    let e := entFind t.hi c
    let found := if t.o.c then e.isNone else e.isSome
    if found && t.o.d then none
    else if found && t.tr2 then some (if t.o.c then t.last2 else (e.map Ent.dst).getD 0)
    else some c

/-- `tr_squeeze`. -/
def trSqueeze (c : UInt32) : Bool :=
  if c < 256 then t.sq.contains c
  else if t.sqcomp then (entFind t.hi c).isNone
  else (entFind t.sqhi c).isSome

/-- The bytes of a code point that goes out. -/
def encode (utf8 : Bool) (c : UInt32) : Bytes := if utf8 && 0x80 ≤ c then u8encode c else [c.toUInt8]

/-- `tr_put`. -/
def trPut (c : UInt32) : Tr × Bytes :=
  if t.o.s && t.trSqueeze c then
    if t.last = some c then (t, []) else ({ t with last := some c }, encode t.o.utf8 c)
  else ({ t with last := none }, encode t.o.utf8 c)

/-- A code point through `tr_char` and `tr_put`. -/
def code (c : UInt32) : Tr × Bytes :=
  match t.trChar c with
  | some c => t.trPut c
  | none => (t, [])

/-- The loop of `tr_step`. -/
def trLoop (t : Tr) (p : Bytes) : Tr × Bytes :=
  match p with
  | [] => (t, [])
  | b :: s =>
      if t.o.utf8 && 0x80 ≤ b then
        match _h : u8decode (b :: s) with
        | .char cp len =>
            let r := trLoop (t.code cp).1 ((b :: s).drop len)
            (r.1, (t.code cp).2 ++ r.2)
        | .short => ({ t with carry := b :: s }, [])
        | _ =>
            let r := trLoop { t with last := none } s
            (r.1, b :: r.2)
      else
        let r := trLoop (t.code b.toUInt32).1 s
        (r.1, (t.code b.toUInt32).2 ++ r.2)
termination_by p.length
decreasing_by
  · have := u8decode_char _h
    rw [List.length_drop]
    omega
  all_goals exact Nat.lt_succ_self _

/-- What `tr_step` takes at most. -/
def window : ℕ := 65536

/-- `tr_step` until the end of the input, which comes in chunks: the units it makes. -/
def run (t : Tr) (chunks : List Bytes) : List Bytes :=
  match chunks with
  | [] => if t.carry = [] then [] else [t.carry]
  | p :: ps =>
      if p = [] then run t ps
      else
        let r := trLoop { t with carry := [] } (t.carry ++ p.take window)
        r.2 :: run r.1 (if p.length ≤ window then ps else p.drop window :: ps)
termination_by (chunks.map (·.length + 1)).sum
decreasing_by
  · simp
  · have := List.length_pos_iff.2 ‹p ≠ []›
    split_ifs
    · simp
    · simp [window]
      omega

/-! ## What the strings say -/

/-- A character of the input, or a byte that is none. -/
inductive Sym
  | code (cp : UInt32)
  | raw (b : UInt8)
  deriving DecidableEq

/-- The characters of an input, and a last one that is cut off. -/
def syms (utf8 : Bool) (p : Bytes) : List Sym × Bytes :=
  match p with
  | [] => ([], [])
  | b :: s =>
      if utf8 && 0x80 ≤ b then
        match _h : u8decode (b :: s) with
        | .char cp len => (syms utf8 ((b :: s).drop len)).map (.code cp :: ·) id
        | .short => ([], b :: s)
        | _ => (syms utf8 s).map (.raw b :: ·) id
      else (syms utf8 s).map (.code b.toUInt32 :: ·) id
termination_by p.length
decreasing_by
  · have := u8decode_char _h
    rw [List.length_drop]
    omega
  all_goals exact Nat.lt_succ_self _

namespace Sets

variable (x : Sets)

/-- Whether a code point is in `string1`, or with `-c` in its complement. -/
def inFirst (cp : UInt32) : Bool := x.l1.contains cp != x.o.c

/-- What `string2` has for a code point of `string1`: what stands at the last place of it, or at the end of
`string2`.  With `-c` the places are those of the complement, and all code points from 256 on are at its end. -/
def image (cp : UInt32) : UInt32 :=
  let l2 := x.l2.getD []
  match lastPos cp x.m1 with
  | some k => orLast l2 k
  | none => l2.getLastD 0

/-- **A code point is deleted, mapped or left.** -/
def translate (cp : UInt32) : Option UInt32 :=
  if x.inFirst cp then
    if x.o.d then none
    else if x.l2.isSome then some (x.image cp)
    else some cp
  else some cp

/-- **The squeeze set**: the last string. -/
def squeezed (cp : UInt32) : Bool :=
  x.o.s && match x.l2 with
    | some l2 => l2.contains cp
    | none => x.inFirst cp

/-- Characters translated. -/
def translated (ss : List Sym) : List Sym :=
  ss.filterMap fun
    | .code cp => (x.translate cp).map .code
    | .raw b => some (.raw b)

/-- Whether a character of the squeeze set stands behind the same one. -/
def repeated (prev : Option Sym) : Sym → Bool
  | .code cp => x.squeezed cp && prev == some (.code cp)
  | .raw _ => false

/-- Runs of a character of the squeeze set become one. -/
def squeeze : Option Sym → List Sym → List Sym
  | _, [] => []
  | prev, y :: ss => (if x.repeated prev y then [] else [y]) ++ squeeze (some y) ss

/-- The bytes of a character. -/
def bytes : Sym → Bytes
  | .code cp => encode x.o.utf8 cp
  | .raw b => [b]

/-- **The output for an input**: its characters mapped, deleted and squeezed, and a cut off end. -/
def output (p : Bytes) : Bytes :=
  (x.squeeze none (x.translated (syms x.o.utf8 p).1)).flatMap x.bytes ++ (syms x.o.utf8 p).2

end Sets

/-! ## The tables say what the strings say -/

theorem orLast_low {l : List UInt32} (h : ∀ c ∈ l, c < 256) (k : ℕ) : orLast l k < 256 := by
  rw [orLast, List.getD_eq_getElem?_getD]
  cases hget : l[if k < l.length then k else l.length - 1]? with
  | none => exact (by decide : (0 : UInt32) < 256)
  | some c => exact h c (List.mem_of_getElem? hget)

theorem mem_complement {l1 : List UInt32} {cp : UInt32} : cp ∈ complement l1 ↔ cp < 256 ∧ cp ∉ l1 := by
  simp only [complement, List.mem_filter, List.mem_map, List.mem_range, decide_eq_true_eq]
  refine and_congr_left fun _ => ⟨?_, fun h => ⟨cp.toNat, UInt32.lt_iff_toNat_lt.1 h, UInt32.ofNat_toNat⟩⟩
  rintro ⟨n, hn, rfl⟩
  rw [UInt32.lt_iff_toNat_lt, UInt32.toNat_ofNat', Nat.mod_eq_of_lt (by omega)]
  exact hn

theorem foldl_map (l2 m1 : List UInt32) : ∀ (n : ℕ) (map : UInt32 → UInt32) {cp : UInt32}, cp < 256 →
    (m1.zipIdx n).foldl (fun map e => if e.1 < 256 then Function.update map e.1 (orLast l2 e.2) else map) map cp =
      match lastPos cp m1 with
      | some k => orLast l2 (n + k)
      | none => map cp := by
  induction m1 with
  | nil => exact fun _ _ _ _ => rfl
  | cons f m1 ih =>
    intro n map cp hcp
    rw [List.zipIdx_cons, List.foldl_cons, ih (n + 1) _ hcp, lastPos]
    cases lastPos cp m1 with
    | some k => exact congrArg (orLast l2) (by omega)
    | none =>
      by_cases hf : f = cp
      · subst hf
        simp [hcp]
      · simp only [hf, if_false]
        split_ifs
        · exact Function.update_of_ne (Ne.symm hf) _ _
        · rfl

/-- **What the map has for a code point.** -/
theorem mapOf_eq (m1 l2 : List UInt32) {cp : UInt32} (hcp : cp < 256) : mapOf m1 l2 cp =
    match lastPos cp m1 with
    | some k => orLast l2 k
    | none => cp := by
  rw [mapOf, foldl_map l2 m1 0 id hcp]
  cases lastPos cp m1 with
  | some k => exact congrArg (orLast l2) (Nat.zero_add k)
  | none => rfl

variable (x : Sets)

/-- A code point that can come: without UTF-8 it is a byte. -/
def Sets.Comes (cp : UInt32) : Prop := x.o.utf8 = false → cp < 256

variable {x} {cp : UInt32}

theorem lastPos_isSome {l : List UInt32} : (lastPos cp l).isSome = l.contains cp := by
  rw [Bool.eq_iff_iff, List.contains_iff_mem, Option.isSome_iff_ne_none, Ne, lastPos_eq_none, not_not]

theorem inFirst_low (hcp : cp < 256) : x.inFirst cp = x.m1.contains cp := by
  unfold Sets.inFirst Sets.m1
  rw [Bool.eq_iff_iff]
  cases x.o.c <;> simp [mem_complement, hcp]

/-- From 256 on, the table of `string1` says what is in it. -/
theorem inFirst_high (hcp : 256 ≤ cp) (dst : List UInt32) :
    (if x.o.c then (entFind (entHigh x.l1 dst) cp).isNone else (entFind (entHigh x.l1 dst) cp).isSome) =
      x.inFirst cp := by
  rw [find_high _ _ hcp, Option.isNone_map, Option.isSome_map, ← Option.not_isSome, lastPos_isSome]
  unfold Sets.inFirst
  cases x.o.c <;> simp

theorem image_high (hcp : 256 ≤ cp) (hc : x.o.c = true) : x.image cp = (x.l2.getD []).getLastD 0 := by
  have hno : lastPos cp x.m1 = none := by
    rw [lastPos_eq_none, Sets.m1, if_pos hc, mem_complement]
    exact fun h => UInt32.not_lt.2 hcp h.1
  unfold Sets.image
  rw [hno]

/-- **`tr_char` deletes and maps as the strings say.** -/
theorem trChar_eq (hcp : x.Comes cp) : x.tr.trChar cp = x.translate cp := by
  by_cases hlow : cp < 256
  · have hfirst := inFirst_low (x := x) hlow
    rw [trChar, if_pos hlow, Sets.translate, hfirst]
    cases hd : x.o.d with
    | true =>
      have hdel : x.tr.del.contains cp = x.m1.contains cp := by
        rw [Bool.eq_iff_iff]
        simp [Sets.tr, hd, hlow]
      have hmap : x.tr.map cp = cp := by simp [Sets.tr, hd]
      rw [hdel, hmap]
      have ho : x.tr.o.d = true := hd
      simp [ho]
    | false =>
      have ho : x.tr.o.d = false := hd
      rw [ho, Bool.false_and, if_neg Bool.false_ne_true]
      cases hl : x.l2 with
      | none =>
        have hmap : x.tr.map cp = cp := by simp [Sets.tr, hl]
        rw [hmap]
        simp
      | some l2 =>
        have hmap : x.tr.map cp = mapOf x.m1 l2 cp := by simp [Sets.tr, hl, hd]
        rw [hmap, mapOf_eq _ _ hlow, Sets.image, hl, ← lastPos_isSome]
        cases lastPos cp x.m1 <;> simp
  · have hhigh : 256 ≤ cp := UInt32.not_lt.1 hlow
    have hutf : x.o.utf8 = true := by
      by_contra h
      exact hlow (hcp (by simpa using h))
    have hhi : x.tr.hi = entHigh x.l1 (if (x.l2.isSome && !x.o.d) && !x.o.c then x.l2.getD [] else []) := by
      simp [Sets.tr, hutf]
    rw [trChar, if_neg hlow, Sets.translate]
    extract_lets e found
    have hfound : found = x.inFirst cp := by
      rw [← inFirst_high hhigh (if (x.l2.isSome && !x.o.d) && !x.o.c then x.l2.getD [] else []), ← hhi]
      rfl
    have htr2 : x.tr.tr2 = (x.l2.isSome && !x.o.d) := rfl
    have ho : x.tr.o = x.o := rfl
    rw [hfound, htr2, ho]
    cases hin : x.inFirst cp with
    | false => simp
    | true =>
      cases hd : x.o.d with
      | true => simp
      | false =>
        cases hl : x.l2 with
        | none => simp
        | some l2 =>
          cases hc : x.o.c with
          | true =>
            rw [image_high hhigh hc]
            simp [Sets.tr]
          | false =>
            have he : e = (lastPos cp x.l1).map fun k => ⟨cp, orLast l2 k, k⟩ := by
              rw [← find_high _ _ hhigh]
              change entFind x.tr.hi cp = _
              rw [hhi, hl, hd, hc]
              rfl
            have hm1 : x.m1 = x.l1 := by simp [Sets.m1, hc]
            have hsome : (lastPos cp x.l1).isSome = true := by
              rw [lastPos_isSome, ← hin]
              simp [Sets.inFirst, hc]
            obtain ⟨k, hk⟩ := Option.isSome_iff_exists.1 hsome
            simp [Sets.image, hm1, hk, he, hl]

theorem translate_comes (hcp : x.Comes cp) {c : UInt32} (h : x.translate cp = some c) : x.Comes c := by
  intro hutf
  obtain ⟨-, hl2⟩ := x.low hutf
  have hsecond : ∀ c ∈ x.l2.getD [], c < 256 := by
    cases hl : x.l2 with
    | none => exact fun _ h => absurd h List.not_mem_nil
    | some l => exact hl2 l hl
  unfold Sets.translate at h
  split_ifs at h
  · obtain rfl := Option.some.inj h
    unfold Sets.image
    extract_lets l2
    cases lastPos cp x.m1 with
    | some k => exact orLast_low hsecond k
    | none =>
      change l2.getLastD 0 < 256
      rw [List.getLastD_eq_getLast?]
      cases hlast : l2.getLast? with
      | none => exact (by decide : (0 : UInt32) < 256)
      | some c => exact hsecond c (List.mem_of_getLast? hlast)
  · exact Option.some.inj h ▸ hcp hutf
  · exact Option.some.inj h ▸ hcp hutf

/-- **`tr_squeeze` knows the squeeze set.** -/
theorem trSqueeze_eq (hcp : x.Comes cp) : (x.o.s && x.tr.trSqueeze cp) = x.squeezed cp := by
  unfold Sets.squeezed
  cases hs : x.o.s with
  | false => simp
  | true =>
    rw [Bool.true_and, Bool.true_and]
    by_cases hlow : cp < 256
    · have hsq : x.tr.trSqueeze cp = (x.l2.getD x.m1).contains cp := by
        rw [trSqueeze, if_pos hlow, Bool.eq_iff_iff]
        simp [Sets.tr, hs, hlow]
      rw [hsq]
      cases x.l2 with
      | none => exact (inFirst_low hlow).symm
      | some l2 => rfl
    · have hhigh : 256 ≤ cp := UInt32.not_lt.1 hlow
      have hutf : x.o.utf8 = true := by
        by_contra h
        exact hlow (hcp (by simpa using h))
      rw [trSqueeze, if_neg hlow]
      cases hl : x.l2 with
      | some l2 =>
        have hsqcomp : x.tr.sqcomp = false := by simp [Sets.tr, hl]
        have hsqhi : x.tr.sqhi = entHigh l2 [] := by simp [Sets.tr, hl, hutf, hs]
        rw [hsqcomp, if_neg Bool.false_ne_true, hsqhi, find_high _ _ hhigh, Option.isSome_map, lastPos_isSome]
      | none =>
        change _ = x.inFirst cp
        cases hc : x.o.c with
        | true =>
          have hsqcomp : x.tr.sqcomp = true := by simp [Sets.tr, hl, hc]
          have hhi : x.tr.hi = entHigh x.l1 [] := by simp [Sets.tr, hl, hutf]
          rw [hsqcomp, if_pos rfl, hhi, ← inFirst_high hhigh [], hc]
          rfl
        | false =>
          have hsqcomp : x.tr.sqcomp = false := by simp [Sets.tr, hc]
          have hsqhi : x.tr.sqhi = entHigh x.l1 [] := by simp [Sets.tr, hl, hutf, hs, hc]
          rw [hsqcomp, if_neg Bool.false_ne_true, hsqhi, ← inFirst_high hhigh [], hc]
          rfl

/-! ## One character after the other -/

variable (x) in
/-- The state between two characters. -/
def Sets.state (last : Option UInt32) (carry : Bytes) : Tr := { x.tr with last, carry }

variable (x) in
/-- The code point that must not be written again behind a character. -/
def Sets.held : Option Sym → Option UInt32
  | some (.code cp) => if x.squeezed cp then some cp else none
  | _ => none

theorem held_eq {prev : Option Sym} {c : UInt32} (hc : x.squeezed c = true) :
    x.held prev = some c ↔ prev = some (.code c) := by
  match prev with
  | none => simp [Sets.held]
  | some (.raw b) => simp [Sets.held]
  | some (.code c') =>
    by_cases h : c' = c
    · simp [Sets.held, h, hc]
    · simp [Sets.held, h]

/-- **`tr_put` squeezes.** -/
theorem trPut_eq {c : UInt32} (hc : x.Comes c) (prev : Option Sym) (carry : Bytes) :
    (x.state (x.held prev) carry).trPut c =
      (x.state (x.held (some (.code c))) carry, (x.squeeze prev [.code c]).flatMap x.bytes) := by
  have hsq : ((x.state (x.held prev) carry).o.s && (x.state (x.held prev) carry).trSqueeze c) = x.squeezed c :=
    trSqueeze_eq hc
  rw [trPut, hsq]
  cases h : x.squeezed c with
  | false => simp [Sets.squeeze, Sets.repeated, Sets.held, Sets.state, h, Sets.bytes, Sets.tr]
  | true =>
    have hlast : (x.state (x.held prev) carry).last = x.held prev := rfl
    rw [if_pos rfl, hlast]
    by_cases hprev : prev = some (.code c)
    · rw [if_pos ((held_eq h).2 hprev)]
      simp [hprev, Sets.squeeze, Sets.repeated, h]
    · rw [if_neg ((held_eq h).not.2 hprev)]
      simp [hprev, Sets.squeeze, Sets.repeated, Sets.held, Sets.state, h, Sets.bytes, Sets.tr]

/-- **A code point.** -/
theorem code_eq (hcp : x.Comes cp) (prev : Option Sym) (carry : Bytes) :
    ∃ prev', (x.state (x.held prev) carry).code cp =
      (x.state (x.held prev') carry, (x.squeeze prev (x.translated [.code cp])).flatMap x.bytes) ∧
      ∀ ss, x.squeeze prev (x.translated (.code cp :: ss)) =
        x.squeeze prev (x.translated [.code cp]) ++ x.squeeze prev' (x.translated ss) := by
  have hchar : (x.state (x.held prev) carry).trChar cp = x.translate cp := trChar_eq hcp
  unfold Tr.code
  rw [hchar]
  cases htr : x.translate cp with
  | none =>
    have hnone : ∀ ss, x.translated (.code cp :: ss) = x.translated ss := fun ss => by
      simp [Sets.translated, htr]
    refine ⟨prev, ?_, fun ss => ?_⟩
    · rw [hnone]
      rfl
    · rw [hnone, hnone]
      rfl
  | some c =>
    have hcons : ∀ ss, x.translated (.code cp :: ss) = .code c :: x.translated ss := fun ss => by
      simp [Sets.translated, htr]
    refine ⟨some (.code c), ?_, fun ss => ?_⟩
    · rw [hcons]
      exact trPut_eq (translate_comes hcp htr) prev carry
    · rw [hcons, hcons]
      simp [Sets.squeeze, Sets.translated]

/-- A byte that is no character goes out as it is. -/
theorem raw_eq (prev : Option Sym) (b : UInt8) (ss : List Sym) :
    x.squeeze prev (x.translated (.raw b :: ss)) = .raw b :: x.squeeze (some (.raw b)) (x.translated ss) := rfl

section Equations

variable {utf8 : Bool} {b : UInt8} {s : Bytes} {len : ℕ}

theorem syms_low (hb : (utf8 && decide (0x80 ≤ b)) = false) :
    syms utf8 (b :: s) = (.code b.toUInt32 :: (syms utf8 s).1, (syms utf8 s).2) := by
  rw [syms, if_neg (by simp [hb])]
  rfl

theorem syms_char (hb : (utf8 && decide (0x80 ≤ b)) = true) (h : u8decode (b :: s) = .char cp len) :
    syms utf8 (b :: s) =
      (.code cp :: (syms utf8 ((b :: s).drop len)).1, (syms utf8 ((b :: s).drop len)).2) := by
  rw [syms, if_pos hb]
  split
  · rename_i cp' len' h'
    obtain ⟨rfl, rfl⟩ := Decoded.char.inj (h.symm.trans h')
    rfl
  · rename_i h'
    rw [h] at h'
    cases h'
  · rename_i h₁ h₂
    exact absurd h (h₁ cp len)

theorem syms_short (hb : (utf8 && decide (0x80 ≤ b)) = true) (h : u8decode (b :: s) = .short) :
    syms utf8 (b :: s) = ([], b :: s) := by
  rw [syms, if_pos hb]
  split
  · rename_i h'
    rw [h] at h'
    cases h'
  · rfl
  · rename_i h₁ h₂
    exact absurd h h₂

theorem syms_raw (hb : (utf8 && decide (0x80 ≤ b)) = true) (h₁ : ∀ cp len, u8decode (b :: s) ≠ .char cp len)
    (h₂ : u8decode (b :: s) ≠ .short) : syms utf8 (b :: s) = (.raw b :: (syms utf8 s).1, (syms utf8 s).2) := by
  rw [syms, if_pos hb]
  split
  · rename_i cp len h
    exact absurd h (h₁ cp len)
  · exact absurd ‹_› h₂
  · rfl

end Equations

/-- **A window.**  What is written is what the characters say behind those before, and the end that is cut off
is carried over. -/
theorem trLoop_eq (p : Bytes) : ∀ prev : Option Sym, ∃ prev',
    trLoop (x.state (x.held prev) []) p =
      (x.state (x.held prev') (syms x.o.utf8 p).2,
        (x.squeeze prev (x.translated (syms x.o.utf8 p).1)).flatMap x.bytes) ∧
      ∀ ss, x.squeeze prev (x.translated ((syms x.o.utf8 p).1 ++ ss)) =
        x.squeeze prev (x.translated (syms x.o.utf8 p).1) ++ x.squeeze prev' (x.translated ss) := by
  induction hn : p.length using Nat.strongRecOn generalizing p with
  | ind n ih =>
    intro prev
    have ho : ∀ last, (x.state last []).o.utf8 = x.o.utf8 := fun _ => rfl
    match p with
    | [] =>
      rw [trLoop, syms]
      exact ⟨prev, rfl, fun ss => rfl⟩
    | b :: s =>
      -- a code point, and what is behind it
      have hcode : ∀ {cp : UInt32} {rest : Bytes}, x.Comes cp → rest.length < n → ∃ prev',
          ((trLoop ((x.state (x.held prev) []).code cp).1 rest).1,
              ((x.state (x.held prev) []).code cp).2 ++ (trLoop ((x.state (x.held prev) []).code cp).1 rest).2) =
            (x.state (x.held prev') (syms x.o.utf8 rest).2,
              (x.squeeze prev (x.translated (.code cp :: (syms x.o.utf8 rest).1))).flatMap x.bytes) ∧
          ∀ ss, x.squeeze prev (x.translated (.code cp :: (syms x.o.utf8 rest).1 ++ ss)) =
            x.squeeze prev (x.translated (.code cp :: (syms x.o.utf8 rest).1)) ++
              x.squeeze prev' (x.translated ss) := by
        intro cp rest hcp hlt
        obtain ⟨prev₁, h₁, h₂⟩ := code_eq hcp prev []
        obtain ⟨prev₂, h₃, h₄⟩ := ih _ hlt rest rfl prev₁
        refine ⟨prev₂, ?_, fun ss => ?_⟩
        · rw [h₁, h₃, h₂ (syms x.o.utf8 rest).1, List.flatMap_append]
        · rw [List.cons_append, h₂ ((syms x.o.utf8 rest).1 ++ ss), h₄, h₂ (syms x.o.utf8 rest).1, List.append_assoc]
      have hs : s.length < n := by
        rw [← hn]
        exact Nat.lt_succ_self _
      rw [trLoop, ho]
      cases hb : x.o.utf8 && decide (0x80 ≤ b) with
      | false =>
        rw [if_neg Bool.false_ne_true, syms_low hb]
        exact hcode (fun _ => low_byte b) hs
      | true =>
        have hutf : x.o.utf8 = true := (Bool.and_eq_true_iff.1 hb).1
        have hraw : ∃ prev', ((trLoop { x.state (x.held prev) [] with last := none } s).1,
              b :: (trLoop { x.state (x.held prev) [] with last := none } s).2) =
            (x.state (x.held prev') (syms x.o.utf8 s).2,
              (x.squeeze prev (x.translated (.raw b :: (syms x.o.utf8 s).1))).flatMap x.bytes) ∧
          ∀ ss, x.squeeze prev (x.translated (.raw b :: (syms x.o.utf8 s).1 ++ ss)) =
            x.squeeze prev (x.translated (.raw b :: (syms x.o.utf8 s).1)) ++ x.squeeze prev' (x.translated ss) := by
          obtain ⟨prev₁, h₁, h₂⟩ := ih _ hs s rfl (some (.raw b))
          refine ⟨prev₁, ?_, fun ss => ?_⟩
          · change ((trLoop (x.state (x.held (some (.raw b))) []) s).1,
              b :: (trLoop (x.state (x.held (some (.raw b))) []) s).2) = _
            rw [h₁, raw_eq]
            rfl
          · rw [List.cons_append, raw_eq, h₂, raw_eq]
            rfl
        rw [if_pos rfl]
        split
        · rename_i cp len h
          have hlen := u8decode_char h
          rw [syms_char hb h]
          refine hcode (fun hf => absurd (hutf.symm.trans hf) (by decide)) ?_
          rw [List.length_drop]
          omega
        · rename_i h
          rw [syms_short hb h]
          exact ⟨prev, rfl, fun ss => rfl⟩
        · rename_i h₁ h₂
          rw [syms_raw hb h₁ h₂]
          exact hraw

/-! ## The whole input -/

/-- **What is behind an end that is cut off does not matter for the characters in front.** -/
theorem syms_append (utf8 : Bool) (p q : Bytes) : syms utf8 (p ++ q) =
    ((syms utf8 p).1 ++ (syms utf8 ((syms utf8 p).2 ++ q)).1, (syms utf8 ((syms utf8 p).2 ++ q)).2) := by
  induction hn : p.length using Nat.strongRecOn generalizing p with
  | ind n ih =>
    match p with
    | [] =>
      have hnil : syms utf8 [] = ([], []) := by rw [syms]
      rw [hnil]
      rfl
    | b :: s =>
      have hs : s.length < n := by
        rw [← hn]
        exact Nat.lt_succ_self _
      have hne : b :: s ≠ [] := List.cons_ne_nil b s
      cases hb : utf8 && decide (0x80 ≤ b) with
      | false =>
        rw [List.cons_append, syms_low hb, syms_low hb, ih _ hs s rfl]
        rfl
      | true =>
        have hraw : (∀ cp len, u8decode (b :: s) ≠ .char cp len) → u8decode (b :: s) ≠ .short →
            syms utf8 (b :: s ++ q) = ((syms utf8 (b :: s)).1 ++ (syms utf8 ((syms utf8 (b :: s)).2 ++ q)).1,
              (syms utf8 ((syms utf8 (b :: s)).2 ++ q)).2) := by
          intro h₁ h₂
          have hsame := u8decode_append h₂ hne q
          rw [List.cons_append] at hsame ⊢
          rw [syms_raw hb (by rwa [hsame]) (by rwa [hsame]), syms_raw hb h₁ h₂, ih _ hs s rfl]
          rfl
        cases h : u8decode (b :: s) with
        | char cp len =>
          have hlen := u8decode_char h
          have h' : u8decode (b :: (s ++ q)) = .char cp len := by
            rw [← List.cons_append, u8decode_append (by simp [h]) hne, h]
          have hdrop : (b :: (s ++ q)).drop len = (b :: s).drop len ++ q := by
            rw [← List.cons_append, List.drop_append_of_le_length hlen.2.2]
          have hlt : ((b :: s).drop len).length < n := by
            rw [List.length_drop]
            omega
          rw [List.cons_append, syms_char hb h', syms_char hb h, hdrop, ih _ hlt _ rfl]
          rfl
        | short =>
          rw [syms_short hb h]
          rfl
        | empty => exact hraw (by simp [h]) (by simp [h])
        | invalid => exact hraw (by simp [h]) (by simp [h])

/-- An end that is cut off is no character yet. -/
theorem syms_rest (utf8 : Bool) (p : Bytes) : syms utf8 (syms utf8 p).2 = ([], (syms utf8 p).2) := by
  have hnil : syms utf8 [] = ([], []) := by rw [syms]
  induction hn : p.length using Nat.strongRecOn generalizing p with
  | ind n ih =>
    match p with
    | [] => rw [hnil, hnil]
    | b :: s =>
      have hs : s.length < n := by
        rw [← hn]
        exact Nat.lt_succ_self _
      cases hb : utf8 && decide (0x80 ≤ b) with
      | false =>
        rw [syms_low hb]
        exact ih _ hs s rfl
      | true =>
        cases h : u8decode (b :: s) with
        | char cp len =>
          have hlen := u8decode_char h
          rw [syms_char hb h]
          refine ih ((b :: s).drop len).length ?_ _ rfl
          rw [List.length_drop]
          omega
        | short => rw [syms_short hb h, syms_short hb h]
        | empty =>
          rw [syms_raw hb (by simp [h]) (by simp [h])]
          exact ih _ hs s rfl
        | invalid =>
          rw [syms_raw hb (by simp [h]) (by simp [h])]
          exact ih _ hs s rfl

/-- **The windows do not matter.** -/
theorem run_eq (chunks : List Bytes) (prev : Option Sym) (carry : Bytes)
    (hcarry : syms x.o.utf8 carry = ([], carry)) :
    (run (x.state (x.held prev) carry) chunks).flatten =
      (x.squeeze prev (x.translated (syms x.o.utf8 (carry ++ chunks.flatten)).1)).flatMap x.bytes ++
        (syms x.o.utf8 (carry ++ chunks.flatten)).2 := by
  induction hn : (chunks.map (·.length + 1)).sum using Nat.strongRecOn generalizing chunks prev carry with
  | ind n ih =>
    match chunks with
    | [] =>
      have hend : (x.state (x.held prev) carry).carry = carry := rfl
      rw [run, List.flatten_nil, List.append_nil, hcarry, hend]
      split_ifs with h
      · rw [h]
        rfl
      · simp [Sets.translated, Sets.squeeze]
    | p :: ps =>
      rw [List.map_cons, List.sum_cons] at hn
      rw [run]
      by_cases hp : p = []
      · rw [if_pos hp, ih (ps.map (·.length + 1)).sum (by omega) ps prev carry hcarry rfl, hp]
        rfl
      · rw [if_neg hp]
        have hpos := List.length_pos_iff.2 hp
        -- what is left of the input
        have hrest : p.take window ++ (if p.length ≤ window then ps else p.drop window :: ps).flatten =
            (p :: ps).flatten := by
          split_ifs with h
          · rw [List.take_of_length_le h, List.flatten_cons]
          · rw [List.flatten_cons, List.flatten_cons, ← List.append_assoc, List.take_append_drop]
        have hless : ((if p.length ≤ window then ps else p.drop window :: ps).map (·.length + 1)).sum < n := by
          split_ifs
          · omega
          · rw [List.map_cons, List.sum_cons, List.length_drop]
            have : 0 < window := by decide
            omega
        generalize (if p.length ≤ window then ps else p.drop window :: ps) = ps' at hrest hless
        obtain ⟨prev', h₁, h₂⟩ := trLoop_eq (x := x) (carry ++ p.take window) prev
        have hloop : trLoop { x.state (x.held prev) carry with carry := [] }
            ((x.state (x.held prev) carry).carry ++ p.take window) = _ := h₁
        simp only [hloop]
        rw [List.flatten_cons, ih _ hless ps' prev' _ (syms_rest _ _) rfl, ← hrest,
          ← List.append_assoc carry,
          syms_append x.o.utf8 (carry ++ p.take window) ps'.flatten, h₂, List.flatMap_append, List.append_assoc]

/-- **`tr` does not see how its input is cut.**  For any operands and options, what comes out is what the strings
say about the characters of the whole input. -/
theorem tr_output (ctype : Bytes → UInt8 → Bool) (o : Options) (a : List Bytes) (chunks : List Bytes) :
    (trSetup ctype o a).map (fun t => (run t chunks).flatten) =
        (trSets ctype o a).map (·.output chunks.flatten) ∧
      (trSetup ctype o a).map (fun t => (run t chunks).flatten) =
        (trSetup ctype o a).map fun t => (run t [chunks.flatten]).flatten := by
  have hrun : ∀ (x : Sets) (chunks : List Bytes), (run x.tr chunks).flatten = x.output chunks.flatten := by
    intro x chunks
    have hnil : syms x.o.utf8 [] = ([], []) := by rw [syms]
    exact @run_eq x chunks none [] hnil
  rw [trSetup]
  cases trSets ctype o a with
  | error e => exact ⟨rfl, rfl⟩
  | ok x =>
    have hone : [chunks.flatten].flatten = chunks.flatten := by simp
    refine ⟨congrArg Except.ok (hrun x chunks), congrArg Except.ok ?_⟩
    exact (hrun x chunks).trans ((congrArg x.output hone).symm.trans (hrun x [chunks.flatten]).symm)

end Tr

end Shish
