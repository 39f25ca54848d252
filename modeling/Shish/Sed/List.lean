import Mathlib.Data.List.Infix
import Mathlib.Tactic.IntervalCases
import Shish.Lib.Bytes

/-!
# Sed/List — the `l` command

`sed_do_list` writes the pattern space with an escape for every byte that is not printed as it is, and folds
the lines at a width.  A fold stands between what is written for two bytes, and what is written says what the
bytes were (`list_reads_back`).
-/

namespace Shish.Sed

/-- `'\\'`. -/
def backslash : UInt8 := '\\'.toUInt8

/-- The bytes with an escape of one letter. -/
def letters : List (UInt8 × UInt8) :=
  [(backslash, backslash), (0x07, 'a'.toUInt8), (0x08, 'b'.toUInt8), (0x0c, 'f'.toUInt8), (newline, 'n'.toUInt8),
    (0x0d, 'r'.toUInt8), (0x09, 't'.toUInt8), (0x0b, 'v'.toUInt8)]

/-- An octal digit of a byte. -/
def octal (c shift : UInt8) : UInt8 := '0'.toUInt8 + ((c >>> shift) &&& 7)

/-- `piece`: what is written for a byte. -/
def piece (c : UInt8) : Bytes :=
  match letters.lookup c with
  | some x => [backslash, x]
  | none => if c < 0x20 || 0x7f ≤ c then [backslash, octal c 6, octal c 3, octal c 0] else [c]

/-- `SED_LIST_WRAP`. -/
def listWrap : ℤ := 70

/-- The `N` of `l N`; `width` is 0 if there is none, and `N + 1` otherwise. -/
def wrapAt (width : ℤ) : ℤ := (if width = 0 then listWrap + 1 else width) - 1

/-- The loop of `sed_do_list`, at column `col`, and the end of its last line. -/
def listLoop (width : ℤ) : ℕ → Bytes → Bytes
  | _, [] => ['$'.toUInt8, newline]
  | col, c :: s =>
      if 0 < width ∧ width - 1 < col + (piece c).length then
        backslash :: newline :: (piece c ++ listLoop width (piece c).length s)
      else piece c ++ listLoop width (col + (piece c).length) s

/-- `sed_do_list`. -/
def doList (s : Bytes) (width : ℤ) : Bytes := listLoop (wrapAt width) 0 s

/-! ## Reading it back -/

/-- A `\` and a newline go away. -/
def removeFolds : Bytes → Bytes
  | [] => []
  | [c] => [c]
  | c :: d :: t => if c = backslash ∧ d = newline then removeFolds t else c :: removeFolds (d :: t)

/-- The byte of a letter. -/
def letterOf (x : UInt8) : Option UInt8 := (letters.find? (·.2 == x)).map Prod.fst

/-- An octal digit. -/
def isOctal (x : UInt8) : Bool := '0'.toUInt8 ≤ x && x ≤ '7'.toUInt8

/-- The byte of three octal digits. -/
def octalOf (x y z : UInt8) : UInt8 :=
  (x - '0'.toUInt8) * 64 + (y - '0'.toUInt8) * 8 + (z - '0'.toUInt8)

/-- Every escape is read as its byte, and any other byte as itself. -/
def decode : Bytes → Option Bytes
  | [] => some []
  | c :: t =>
      if c = backslash then
        match t with
        | [] => none
        | x :: u =>
            match letterOf x with
            | some b => (decode u).map (b :: ·)
            | none =>
                match u with
                | y :: z :: v =>
                    if isOctal x && isOctal y && isOctal z then (decode v).map (octalOf x y z :: ·) else none
                | _ => none
      else (decode t).map (c :: ·)

example : decode [backslash] = none ∧ removeFolds [backslash, newline] = [] := by simp [decode, removeFolds]

/-! ## What is written for a byte -/

/-- What `piece` makes of a byte: the byte, a letter or three digits. -/
inductive Written (c : UInt8) : Bytes → Prop
  | plain : c ≠ backslash → c ≠ newline → Written c [c]
  | letter {x : UInt8} : x ≠ newline → letterOf x = some c → Written c [backslash, x]
  | digits {x y z : UInt8} : letterOf x = none → (isOctal x && isOctal y && isOctal z) = true →
      octalOf x y z = c → Written c [backslash, x, y, z]

instance (c : UInt8) (p : Bytes) : Decidable (Written c p) :=
  match p with
  | [d] => decidable_of_iff (d = c ∧ c ≠ backslash ∧ c ≠ newline)
      ⟨fun h => by obtain ⟨rfl, h₁, h₂⟩ := h; exact .plain h₁ h₂, fun h => by cases h with | plain h₁ h₂ => exact ⟨rfl, h₁, h₂⟩⟩
  | [b, x] => decidable_of_iff (b = backslash ∧ x ≠ newline ∧ letterOf x = some c)
      ⟨fun h => by obtain ⟨rfl, h₁, h₂⟩ := h; exact .letter h₁ h₂, fun h => by cases h with | letter h₁ h₂ => exact ⟨rfl, h₁, h₂⟩⟩
  | [b, x, y, z] => decidable_of_iff (b = backslash ∧ letterOf x = none ∧
        (isOctal x && isOctal y && isOctal z) = true ∧ octalOf x y z = c)
      ⟨fun h => by obtain ⟨rfl, h₁, h₂, h₃⟩ := h; exact .digits h₁ h₂ h₃, fun h => by
        cases h with | digits h₁ h₂ h₃ => exact ⟨rfl, h₁, h₂, h₃⟩⟩
  | [] => .isFalse nofun
  | [_, _, _] => .isFalse nofun
  | _ :: _ :: _ :: _ :: _ :: _ => .isFalse nofun

theorem written_piece (c : UInt8) : Written c (piece c) := by
  have h : ∀ n < 256, Written (UInt8.ofNat n) (piece (UInt8.ofNat n)) := by decide +kernel
  have := h c.toNat c.toNat_lt
  rwa [UInt8.ofNat_toNat] at this

/-- What is written for some bytes. -/
def render (s : Bytes) : Bytes := s.flatMap piece

section Lines

variable {c : UInt8} {p t : Bytes}

theorem Written.length (h : Written c p) : 1 ≤ p.length ∧ p.length ≤ 4 := by
  cases h <;> simp

theorem Written.no_newline (h : Written c p) : newline ∉ p := by
  have hb : newline ≠ backslash := by decide
  have hdigit : ∀ {x : UInt8}, isOctal x = true → newline ≠ x := by
    rintro x hx rfl
    exact absurd hx (by decide)
  cases h with
  | plain _ hn => simpa using hn.symm
  | letter hn _ => simpa [hb] using hn.symm
  | digits _ hd _ =>
    simp only [Bool.and_eq_true] at hd
    simp [hb, hdigit hd.1.1, hdigit hd.1.2, hdigit hd.2]

theorem decode_plain (h : c ≠ backslash) : decode (c :: t) = (decode t).map (c :: ·) := by
  rw [decode.eq_def]
  exact if_neg h

theorem decode_letter {x : UInt8} (h : letterOf x = some c) :
    decode (backslash :: x :: t) = (decode t).map (c :: ·) := by
  rw [decode.eq_def]
  simp only [if_true, h]

theorem decode_digits {x y z : UInt8} (h : letterOf x = none) (hd : (isOctal x && isOctal y && isOctal z) = true) :
    decode (backslash :: x :: y :: z :: t) = (decode t).map (octalOf x y z :: ·) := by
  rw [decode.eq_def]
  simp only [if_true, h, hd]

theorem Written.decode (h : Written c p) (t : Bytes) : decode (p ++ t) = (decode t).map (c :: ·) := by
  cases h with
  | plain hb _ => exact decode_plain hb
  | letter _ hx => exact decode_letter hx
  | digits hx hd hv => exact hv ▸ decode_digits hx hd

/-- **What is written for bytes is read as them.** -/
theorem decode_render : ∀ s : Bytes, decode (render s) = some s
  | [] => rfl
  | c :: s => by
      rw [render, List.flatMap_cons, (written_piece c).decode]
      rw [show s.flatMap piece = render s from rfl, decode_render s]
      rfl

theorem newline_not_mem_render (s : Bytes) : newline ∉ render s := by
  simp only [render, List.mem_flatMap, not_exists, not_and]
  exact fun c _ => (written_piece c).no_newline

/-- Where there is no newline there is no fold. -/
theorem removeFolds_append : ∀ {p : Bytes}, newline ∉ p → t.head? ≠ some newline →
    removeFolds (p ++ t) = p ++ removeFolds t
  | [], _, _ => rfl
  | [c], _, ht => by
      cases t with
      | nil => rfl
      | cons d t =>
        have hd : d ≠ newline := fun h => ht (h ▸ rfl)
        rw [List.singleton_append, removeFolds, if_neg fun h => hd h.2]
        rfl
  | c :: d :: p, hp, ht => by
      have hd : d ≠ newline := fun h => hp (h ▸ .tail _ (.head _))
      have hrest : newline ∉ d :: p := fun h => hp (.tail _ h)
      rw [List.cons_append, List.cons_append, removeFolds, if_neg fun h => hd h.2, ← List.cons_append,
        removeFolds_append hrest ht]
      rfl

theorem removeFolds_fold (t : Bytes) : removeFolds (backslash :: newline :: t) = removeFolds t := by
  rw [removeFolds, if_pos ⟨rfl, rfl⟩]

theorem head_listLoop (w : ℤ) (col : ℕ) (s : Bytes) : (listLoop w col s).head? ≠ some newline := by
  have hend : ['$'.toUInt8, newline].head? ≠ some newline := by decide
  have hfold : backslash ≠ newline := by decide
  cases s with
  | nil => exact hend
  | cons c s =>
    have hpiece : ∀ t, (piece c ++ t).head? ≠ some newline := by
      intro t
      have hw := written_piece c
      cases hp : piece c with
      | nil =>
        rw [hp] at hw
        exact absurd hw.length.1 (by decide)
      | cons d p =>
        have hd : newline ≠ d := fun h => hw.no_newline (by rw [hp, h]; exact .head _)
        simpa using hd.symm
    rw [listLoop]
    split_ifs
    · simpa using hfold
    · exact hpiece _

/-- **Without the folds, the output is what is written for the bytes, and the end.** -/
theorem removeFolds_listLoop (w : ℤ) : ∀ (col : ℕ) (s : Bytes),
    removeFolds (listLoop w col s) = render s ++ ['$'.toUInt8, newline]
  | _, [] => by
      rw [listLoop]
      decide
  | col, c :: s => by
      have hpiece : ∀ col', removeFolds (piece c ++ listLoop w col' s) =
          render (c :: s) ++ ['$'.toUInt8, newline] := by
        intro col'
        rw [removeFolds_append (written_piece c).no_newline (head_listLoop w _ s), removeFolds_listLoop w col' s,
          ← List.append_assoc]
        rfl
      rw [listLoop]
      split_ifs
      · rw [removeFolds_fold, hpiece]
      · exact hpiece _

/-- **The lines of the output**, each of what is written for some of the bytes. -/
theorem listLoop_lines (w : ℤ) : ∀ (col : ℕ) (s : Bytes), ∃ (g : Bytes) (gs : List Bytes), g ++ gs.flatten = s ∧
    listLoop w col s = render g ++ (gs.flatMap fun g => backslash :: newline :: render g) ++ ['$'.toUInt8, newline] ∧
    (5 ≤ w → col + 1 ≤ w → col + (render g).length + 1 ≤ w ∧ ∀ h ∈ gs, (render h).length + 1 ≤ w)
  | col, [] => ⟨[], [], rfl, rfl, fun _ hcol => ⟨by simpa [render] using hcol, nofun⟩⟩
  | col, c :: s => by
      have hlen := (written_piece c).length
      rw [listLoop]
      split_ifs with hfold
      · obtain ⟨g, gs, hs, hout, hshort⟩ := listLoop_lines w (piece c).length s
        refine ⟨[], (c :: g) :: gs, by rw [← hs]; rfl, ?_, fun h5 hcol => ?_⟩
        · rw [hout]
          simp [render]
        · obtain ⟨hg, hgs⟩ := hshort h5 (by omega)
          refine ⟨by simpa [render] using hcol, List.forall_mem_cons.2 ⟨?_, hgs⟩⟩
          simp only [render, List.flatMap_cons, List.length_append] at hg ⊢
          omega
      · obtain ⟨g, gs, hs, hout, hshort⟩ := listLoop_lines w (col + (piece c).length) s
        refine ⟨c :: g, gs, by rw [← hs]; rfl, ?_, fun h5 hcol => ?_⟩
        · rw [hout]
          simp [render]
        · obtain ⟨hg, hgs⟩ := hshort h5 (by omega)
          refine ⟨?_, hgs⟩
          simp only [render, List.flatMap_cons, List.length_append] at hg ⊢
          omega

end Lines

/-- **The `l` command.**  Its lines end in `\` or, the last one, in `$`; each is what is written for some of the
bytes, so that no escape is folded, and for a width of at least 5 none is longer.  Without the folds and the end,
what is left is read as the pattern space. -/
theorem list_reads_back (s : Bytes) (width : ℤ) :
    (∃ (g : Bytes) (gs : List Bytes), g ++ gs.flatten = s ∧ doList s width =
        render g ++ (gs.flatMap fun g => backslash :: newline :: render g) ++ ['$'.toUInt8, newline] ∧
      (∀ h ∈ g :: gs, newline ∉ render h) ∧
      (5 ≤ wrapAt width → ∀ h ∈ g :: gs, (render h).length + 1 ≤ wrapAt width)) ∧
    ∃ t, removeFolds (doList s width) = t ++ ['$'.toUInt8, newline] ∧ decode t = some s := by
  obtain ⟨g, gs, hs, hout, hshort⟩ := listLoop_lines (wrapAt width) 0 s
  refine ⟨⟨g, gs, hs, hout, fun h _ => newline_not_mem_render h, fun h5 => ?_⟩, render s,
    removeFolds_listLoop _ 0 s, decode_render s⟩
  obtain ⟨hg, hgs⟩ := hshort h5 (by omega)
  exact List.forall_mem_cons.2 ⟨by simpa using hg, hgs⟩

/-- `l 5` of `a`, a tabulator and a byte above ASCII. -/
theorem list_reads_back_five :
    doList ['a'.toUInt8, 0x09, 0xe9] 6 = "a\\t\\\n\\351$\n".toList.map Char.toUInt8 ∧
    ∃ (g : Bytes) (gs : List Bytes), doList ['a'.toUInt8, 0x09, 0xe9] 6 =
        render g ++ (gs.flatMap fun g => backslash :: newline :: render g) ++ ['$'.toUInt8, newline] ∧
      ∀ h ∈ g :: gs, (render h).length + 1 ≤ wrapAt 6 := by
  refine ⟨by decide, ?_⟩
  obtain ⟨⟨g, gs, -, hout, -, hshort⟩, -⟩ := list_reads_back ['a'.toUInt8, 0x09, 0xe9] 6
  exact ⟨g, gs, hout, hshort (by decide)⟩

end Shish.Sed
