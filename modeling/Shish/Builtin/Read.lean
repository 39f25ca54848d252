import Shish.Wordlist.Fields

/-!
# Builtin/Read — the fields of a line

`read_assign` cuts a line itself: white space of `IFS` in front is skipped, each variable takes the
text up to a character of `IFS` and the delimiter behind it, and the last one takes the rest.  With
`-r` and more variables than fields it assigns what field splitting of the line gives.
-/

namespace Shish

/-- A line as `read_get` delivers it: its characters, and whether a backslash escapes them. -/
def readGet (raw : Bool) : Str → List (Char × Bool)
  | [] => []
  | '\\' :: c :: t => if raw then ('\\', false) :: readGet raw (c :: t) else (c, true) :: readGet raw t
  | c :: t => (c, false) :: readGet raw t

/-- `read_ifs`; `ws` asks for white space. -/
def readIfs (ifs : Str) (ws : Bool) (c : Char × Bool) : Bool :=
  !c.2 && (if ws then isWs ifs c.1 else isIfs ifs c.1)

/-- `read_skipws`. -/
def readSkipws (ifs : Str) (s : List (Char × Bool)) : List (Char × Bool) :=
  s.dropWhile (readIfs ifs true)

/-- What is left behind a delimiter: white space, and another character of `ifs` if that is how it
starts. -/
def readDelim (ifs : Str) : List (Char × Bool) → List (Char × Bool)
  | [] => []
  | c :: t =>
      let t := readSkipws ifs t
      if readIfs ifs true c && t.head?.any (readIfs ifs false) then readSkipws ifs t.tail else t

/-- The values of `n` variables. -/
def readVars (ifs : Str) : ℕ → List (Char × Bool) → List Str
  | 0, _ => []
  | n + 1, s =>
      let f := s.takeWhile (!readIfs ifs false ·)
      let r := readDelim ifs (s.dropWhile (!readIfs ifs false ·))
      -- the last variable takes the rest, minus trailing white space of `ifs`
      let f := if n = 0 ∧ r ≠ [] then s.rdropWhile (readIfs ifs true) else f
      f.map Prod.fst :: readVars ifs n r

/-- `read_assign`: the values it gives to the variables. -/
def readAssign (line ifs : Str) (raw : Bool) (vars : List Str) : List (Str × Str) :=
  vars.zip (readVars ifs vars.length (readSkipws ifs (readGet raw line)))

/-! ## Reading is cutting -/

section Vars

variable {ifs : Str} {s : List (Char × Bool)}

theorem readIfs_ws {c : Char × Bool} (h : readIfs ifs true c) : readIfs ifs false c := by
  simp only [readIfs, Bool.and_eq_true, if_true, Bool.false_eq_true, if_false] at h ⊢
  exact ⟨h.1, isWs_isIfs _ h.2⟩

/-- The pieces of a line. -/
def readPieces (ifs : Str) (s : List (Char × Bool)) : List (List (Char × Bool)) :=
  pieces (readIfs ifs false) (readIfs ifs true) s

/-- **A variable takes a piece and its delimiter.** -/
theorem readPieces_delim (h : s.dropWhile (!readIfs ifs false ·) ≠ []) :
    readPieces ifs s = s.takeWhile (!readIfs ifs false ·) ::
      readPieces ifs (readDelim ifs (s.dropWhile (!readIfs ifs false ·))) := by
  rcases cut_cases (readIfs ifs false) s with hs | ⟨x, r, y, rfl, hx, hr, hr', hy, -⟩
  · exact absurd (List.dropWhile_eq_nil_iff.2 (by simpa using hs)) h
  obtain ⟨c, r, rfl⟩ := List.exists_cons_of_ne_nil hr'
  have hc := hr c List.mem_cons_self
  have hr₁ : ∀ a ∈ r, readIfs ifs false a := fun a ha => hr a (List.mem_cons_of_mem _ ha)
  have hx' : ∀ a ∈ x, (!readIfs ifs false a) = true := by simpa using hx
  have hhead : ∀ a ∈ ((c :: r) ++ y).head?, (!readIfs ifs false a) = false := by simpa using hc
  rw [takeWhile_append_of hx' hhead, dropWhile_append_of hx' hhead, readPieces,
    pieces_run hx hr hr' hy]
  congr 1
  have hfront {r : List (Char × Bool)} (hr : ∀ a ∈ r, readIfs ifs false a) :
      readPieces ifs (readSkipws ifs (r ++ y)) =
        List.replicate (r.countP (!readIfs ifs true ·)) [] ++ readPieces ifs y :=
    pieces_front (fun a => readIfs_ws) hr hy
  rw [← readPieces, List.cons_append, readDelim]
  by_cases hw : readIfs ifs true c
  · rw [List.countP_cons, ← countP_dropWhile, hw]
    cases hr₂ : r.dropWhile (readIfs ifs true) with
    | nil =>
      -- white space alone
      have hyw : ∀ a ∈ y.head?, readIfs ifs true a = false := fun a ha => by
        by_contra hne
        exact absurd (readIfs_ws (by simpa using hne)) (by simp [hy a ha])
      have hskip : readSkipws ifs (r ++ y) = y :=
        dropWhile_append_of (List.dropWhile_eq_nil_iff.1 hr₂) hyw
      have hany : y.head?.any (readIfs ifs false) = false := by
        cases hh : y.head? with
        | none => rfl
        | some a => exact hy a hh
      simp [hskip, hany]
    | cons e r₂ =>
      have hsub : ∀ a ∈ e :: r₂, a ∈ r := fun a ha =>
        (List.dropWhile_sublist (readIfs ifs true)).subset (hr₂ ▸ ha)
      have he : readIfs ifs false e := hr₁ e (hsub e List.mem_cons_self)
      have hskip : readSkipws ifs (r ++ y) = e :: (r₂ ++ y) := by
        rw [readSkipws, List.dropWhile_append, hr₂]
        rfl
      have hfront₂ := hfront fun a ha => hr₁ a (hsub a (List.mem_cons_of_mem _ ha))
      simp only [hskip, List.head?_cons, Option.any_some, he, List.tail_cons, Bool.and_true,
        if_true, List.countP_cons, not_of_dropWhile_eq hr₂, hfront₂]
      simp
  · have hw : readIfs ifs true c = false := by simpa using hw
    rw [List.countP_cons]
    simp [hw, hfront hr₁]

/-- **Variables take the pieces in order**, and nothing once they are used up. -/
theorem readVars_eq : ∀ (n : ℕ) {s : List (Char × Bool)},
    (readPieces ifs s).length ≤ n ∨
      (readPieces ifs s).length = n + 1 ∧ (readPieces ifs s).getLast? = some [] →
    readVars ifs n s =
      ((readPieces ifs s ++ List.replicate n []).take n).map (List.map Prod.fst)
  | 0, _, _ => by simp [readVars]
  | n + 1, s, h => by
      by_cases hs : s.dropWhile (!readIfs ifs false ·) = []
      · -- no delimiter is left
        have htext : ∀ a ∈ s, readIfs ifs false a = false := by
          simpa using List.dropWhile_eq_nil_iff.1 hs
        have htake : s.takeWhile (!readIfs ifs false ·) = s :=
          List.takeWhile_eq_self_iff.2 (by simpa using htext)
        have hnil : readPieces ifs [] = [[]] := pieces_text nofun
        have ih := readVars_eq n (s := []) (by
          rw [hnil]
          rcases n with _ | n
          · exact .inr ⟨rfl, rfl⟩
          · exact .inl (by simp))
        have hp : readPieces ifs s = [s] := pieces_text htext
        simp only [readVars, hs, htake, readDelim, ih, hnil, hp]
        simp [← List.replicate_succ]
      · rw [readPieces_delim hs] at h ⊢
        set r := readDelim ifs (s.dropWhile (!readIfs ifs false ·)) with hr
        have hne : readPieces ifs r ≠ [] := pieces_ne_nil _
        have hlen := List.length_pos_iff.2 hne
        simp only [List.length_cons, Nat.add_le_add_iff_right, Nat.add_right_cancel_iff,
          List.getLast?_cons_of_ne_nil hne] at h
        have hrest : ¬(n = 0 ∧ r ≠ []) := by
          rintro ⟨rfl, hr'⟩
          obtain ⟨h₁, h₂⟩ := h.resolve_left (by omega)
          obtain ⟨f, hf⟩ := List.length_eq_one_iff.1 h₁
          rw [hf, List.getLast?_singleton, Option.some.injEq] at h₂
          exact hr' (eq_nil_of_pieces (hf.trans (congrArg (fun g => [g]) h₂)))
        simp only [readVars, ← hr, if_neg hrest, readVars_eq n h]
        have hmin : min (n - (readPieces ifs r).length) (n + 1) =
            min (n - (readPieces ifs r).length) n := by omega
        simp only [List.cons_append, List.take_succ_cons, List.take_append, List.take_replicate,
          hmin, List.map_cons]

/-- The fields are what the pieces are, but for empty ones at the end. -/
theorem readVars_fields {n : ℕ} (hn : (dropLone (dropEnd (readPieces ifs s))).length < n) :
    readVars ifs n s = ((dropLone (dropEnd (readPieces ifs s))).map (List.map Prod.fst)) ++
      List.replicate (n - (dropLone (dropEnd (readPieces ifs s))).length) [] := by
  obtain ⟨fs, f, hf⟩ := (List.eq_nil_or_concat' (readPieces ifs s)).resolve_left (pieces_ne_nil _)
  rcases eq_or_ne f [] with rfl | hne
  · have hend : dropEnd (readPieces ifs s) = fs := by
      rw [hf]
      simp [dropEnd]
    have hlen : (readPieces ifs s).length = fs.length + 1 := by simp [hf]
    have hlast : (readPieces ifs s).getLast? = some [] := by simp [hf]
    rw [hend] at hn ⊢
    have hpad : readPieces ifs s ++ List.replicate n [] = fs ++ List.replicate (n + 1) [] := by
      rw [hf, List.append_assoc]
      rfl
    by_cases hlone : fs = [[]]
    · rw [hlone] at hn hlen ⊢
      have hn : 0 < n := hn
      rw [readVars_eq n (by simp only [hlast, hlen]; simp; omega), hpad, hlone,
        show [[]] = List.replicate 1 ([] : List (Char × Bool)) from rfl,
        List.replicate_append_replicate, List.take_replicate, Nat.min_eq_left (by omega)]
      simp [dropLone]
    · rw [dropLone_of_ne hlone] at hn ⊢
      rw [readVars_eq n (.inl (hlen ▸ hn)), hpad, List.take_append, List.take_of_length_le hn.le,
        List.take_replicate, Nat.min_eq_left (by omega)]
      simp
  · have hend : dropLone (dropEnd (readPieces ifs s)) = readPieces ifs s := by
      have hkeep : dropEnd (fs ++ [f]) = fs ++ [f] := by simp [dropEnd, hne]
      rw [hf, hkeep, dropLone_of_ne]
      exact fun h => hne (by simpa using congrArg List.getLast? h)
    rw [hend] at hn ⊢
    rw [readVars_eq n (.inl hn.le), List.take_append, List.take_of_length_le hn.le]
    simp

end Vars

/-- With `-r` no character is escaped. -/
theorem readGet_raw : ∀ line : Str, readGet true line = line.map (·, false)
  | [] => rfl
  | [c] => by
      rw [readGet]
      · rfl
      · nofun
  | c :: d :: t => by
      have ih := readGet_raw (d :: t)
      by_cases hc : c = '\\'
      · rw [hc, readGet, if_pos rfl, ih]
        rfl
      · rw [readGet, ih]
        · rfl
        · rintro d' t' rfl -
          exact hc rfl

/-- **`read -r` assigns the fields of the line**, and nothing to the variables behind them. -/
theorem readAssign_fields (line ifs : Str) (vars : List Str) (noglob : Bool)
    (junk : ℕ → Option Str) (globbed : Str → Option (List Str)) (flags : XFlags)
    (hflags : flags.Expansion noglob) :
    let fs := ((Wordlist.init (some ifs) noglob junk globbed).cat line flags).close.1.fields
    fs.length < vars.length →
      (readAssign line ifs true vars).map Prod.fst = vars ∧
      (readAssign line ifs true vars).map Prod.snd =
        fs ++ List.replicate (vars.length - fs.length) [] := by
  intro fs hlt
  have hfs : fs = dropLone (dropEnd (pieces (isIfs ifs) (isWs ifs) (line.dropWhile (isWs ifs)))) := by
    have h := (Wordlist.init_upto (some ifs) noglob junk globbed).cat (b := line) hflags nofun
      fun hne => absurd rfl hne
    rw [← split_eq (fun a => isWs_isIfs a)]
    exact h.close
  have hmark : readIfs ifs false ∘ (·, false) = isIfs ifs := by
    funext c
    simp [readIfs]
  have hmark' : readIfs ifs true ∘ (·, false) = isWs ifs := by
    funext c
    simp [readIfs]
  have hpieces : dropLone (dropEnd (readPieces ifs (readSkipws ifs (readGet true line)))) =
      fs.map (List.map (·, false)) := by
    rw [readGet_raw, readSkipws, List.dropWhile_map, hmark', readPieces, pieces_map, hmark, hmark',
      dropEnd_map, dropLone_map, hfs]
  have hvars := @readVars_fields ifs (readSkipws ifs (readGet true line)) vars.length
    (by rwa [hpieces, List.length_map])
  have hid : List.map Prod.fst ∘ List.map (·, false) = (id : Str → Str) := by
    funext f
    simp [Function.comp_def]
  rw [hpieces, List.length_map, List.map_map, hid, List.map_id] at hvars
  have hlen : vars.length = (fs ++ List.replicate (vars.length - fs.length) ([] : Str)).length := by
    simp only [List.length_append, List.length_replicate]
    omega
  rw [readAssign, hvars]
  exact ⟨List.map_fst_zip hlen.le, List.map_snd_zip hlen.ge⟩

/-- `read -r x y z` of ` a=`, with a blank and `=` in `IFS`. -/
theorem readAssign_three :
    let line := [' ', 'a', '=']
    let ifs := [' ', '=']
    let fs := ((Wordlist.init (some ifs) false (fun _ => none) fun _ => none).cat line
      .default).close.1.fields
    XFlags.default.Expansion false ∧ fs = [['a']] ∧
      (readAssign line ifs true [['x'], ['y'], ['z']]).map Prod.snd = [['a'], [], []] := by
  intro line ifs fs
  have hflags : XFlags.default.Expansion false := ⟨⟨rfl, rfl, nofun, nofun⟩, rfl, rfl⟩
  have hfs : fs = [['a']] := by decide +kernel
  have h := readAssign_fields line ifs [['x'], ['y'], ['z']] false (fun _ => none) (fun _ => none)
    .default hflags (by
      change fs.length < 3
      rw [hfs]
      decide)
  refine ⟨hflags, hfs, ?_⟩
  rw [h.2]
  change fs ++ List.replicate (3 - fs.length) [] = _
  rw [hfs]
  rfl

end Shish
