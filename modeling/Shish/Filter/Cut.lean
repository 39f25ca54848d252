import Shish.Filter.Ranges
import Shish.Lib.Pick
import Shish.Utf8.Decode

/-!
# Filter/Cut — what `cut` takes of a line

`cut_chars` and `cut_fields` go through the line once and keep their place in the list of ranges, `cpos` and
`r`; the ranges are sorted and have gaps between them, so that is enough (`charsLoop_eq`, `fieldsLoop_eq`).  Both
take the characters or fields whose position is in one of the ranges (`cut_takes`).
-/

namespace Shish

open Utf8

/-- A line; its length is a `size_t`, and no buffer has all the bytes there are addresses for. -/
def Cut.Line : Type := { b : Bytes // b.length < cutMax.toNat }

/-- `-b`, `-c` and `-f`. -/
inductive Cut.Mode
  | b | c | f
  deriving DecidableEq

/-- `struct cut`, once it is set up. -/
structure Cut where
  /-- The ranges. -/
  r : List Cut.Range
  mode : Cut.Mode
  delim : Bytes
  /-- A delimiter is one character. -/
  dlen : delim ≠ []
  s : Bool := false
  utf8 : Bool := false
  nosplit : Bool := false

namespace Cut

variable (c : Cut)

/-! ## The loops of the source -/

/-- The inner loop of `cut_bytes_whole`: the ends move to the ends of characters. -/
def wholeEnds : ℕ → List Bytes → ℕ → ℕ → ℕ × ℕ
  | _, [], lo, hi => (lo, hi)
  | s, ch :: cs, lo, hi =>
      wholeEnds (s + ch.length) cs (if s < lo ∧ lo ≤ s + ch.length then s + 1 else lo)
        (if s < hi ∧ hi < s + ch.length then s else hi)

/-- `cut_bytes_whole`. -/
def bytesWhole (line : Bytes) : ℕ → List Range → Bytes
  | _, [] => []
  | done, r :: rs =>
      if line.length ≤ done then []
      else
        let hi := if r.hi.toNat < line.length then r.hi.toNat else line.length
        let ends := wholeEnds 0 (chars true line) r.lo.toNat hi
        let lo := if ends.1 ≤ done then done + 1 else ends.1
        if lo ≤ ends.2 then (line.drop (lo - 1)).take (ends.2 - lo + 1) ++ bytesWhole line ends.2 rs
        else bytesWhole line done rs

/-- The loop of `cut_chars`. -/
def charsLoop (utf8 : Bool) (line : Bytes) : ℕ → UInt64 → List Range → Bytes
  | _, _, [] => []
  | off, cpos, r :: rs =>
      if line.length ≤ off then []
      else
        let lo := r.lo - 1
        let off := off + textCharskip utf8 (line.drop off) (lo - cpos).toNat
        if line.length ≤ off then []
        else if r.hi = cutMax then
          let take := line.length - off
          (line.drop off).take take ++ charsLoop utf8 line (off + take) lo rs
        else
          let count := r.hi - lo
          let take := textCharskip utf8 (line.drop off) count.toNat
          (line.drop off).take take ++ charsLoop utf8 line (off + take) (lo + count) rs

/-- `cut_chars`. -/
def cutChars (line : Bytes) : Bytes :=
  if c.mode = .b ∧ c.nosplit ∧ c.utf8 then bytesWhole line 0 c.r
  else charsLoop (c.mode == .c && c.utf8) line 0 0 c.r

/-- What `cut_fields` writes at the end of a field. -/
def fieldOut (delim : Bytes) (first : Bool) (fld : Bytes) : Bytes := (if first then [] else delim) ++ fld

/-- The ranges that do not end in front of a field. -/
def rangesAt (field : ℕ) (rs : List Range) : List Range := rs.dropWhile (·.hi.toNat < field)

/-- Whether a field is in the range that is next. -/
def chosen (field : ℕ) (rs : List Range) : Bool := rs.head?.any (·.lo.toNat ≤ field)

/-- The loop of `cut_fields`: `fld` is the field so far, `line` is what is left, and `skip` bytes belong to a
delimiter. -/
def fieldsLoop (delim : Bytes) : ℕ → Bool → ℕ → List Range → Bytes → Bytes → Bytes
  | _, first, field, rs, fld, [] =>
      if chosen field (rangesAt field rs) then fieldOut delim first fld else []
  | skip + 1, first, field, rs, fld, _ :: line => fieldsLoop delim skip first field rs fld line
  | 0, first, field, rs, fld, b :: line =>
      if delim <+: b :: line then
        if chosen field (rangesAt field rs) then
          fieldOut delim first fld ++ fieldsLoop delim (delim.length - 1) false (field + 1) (rangesAt field rs) [] line
        else fieldsLoop delim (delim.length - 1) first (field + 1) (rangesAt field rs) [] line
      else fieldsLoop delim 0 first field rs (fld ++ [b]) line

/-- `cut_fields`. -/
def cutFields (line : Bytes) : Bytes := fieldsLoop c.delim 0 true 1 c.r [] line

/-- What `cut_step` makes of a line; `-s` skips one without a delimiter. -/
def cutLine (line : Bytes) : Option Bytes :=
  if c.mode = .f then
    if c.delim <:+: line then some (cutFields c line ++ [newline])
    else if c.s then none
    else some (line ++ [newline])
  else some (cutChars c line ++ [newline])

/-! ## Characters -/

variable {rs : List Range}

theorem charsLoop_done (utf8 : Bool) {line : Bytes} {off : ℕ} (h : line.length ≤ off) (cpos : UInt64)
    (rs : List Range) : charsLoop utf8 line off cpos rs = [] := by
  cases rs with
  | nil => rfl
  | cons r rs => rw [charsLoop, if_pos h]

/-- **The loop takes the characters that are selected**, from the place where it is. -/
theorem charsLoop_eq (utf8 : Bool) (line : Bytes) : ∀ {off : ℕ} {cpos : UInt64} {rs : List Range},
    rs.Pairwise Range.Before → (∀ r ∈ rs, cpos.toNat < r.lo.toNat) →
    charsLoop utf8 line off cpos rs =
      (pick (Selected rs) (cpos.toNat + 1) (chars utf8 (line.drop off))).flatten
  | off, cpos, [], _, _ => by
      rw [pick_none fun i _ h => by simp [Selected] at h]
      rfl
  | off, cpos, r :: rs, hrs, hcpos => by
      obtain ⟨hr, hrs⟩ := List.pairwise_cons.1 hrs
      have hlo := hcpos r (.head _)
      have hle := UInt64.le_iff_toNat_le.1 r.le
      have hone : (1 : UInt64).toNat = 1 := rfl
      have hpred : (r.lo - 1).toNat = r.lo.toNat - 1 :=
        UInt64.toNat_sub_of_le _ _ (UInt64.le_iff_toNat_le.2 (by omega))
      have hskip : (r.lo - 1 - cpos).toNat = r.lo.toNat - 1 - cpos.toNat := by
        rw [UInt64.toNat_sub_of_le _ _ (UInt64.le_iff_toNat_le.2 (by omega)), hpred]
      have hafter : ∀ r' ∈ rs, r.hi.toNat + 1 < r'.lo.toNat := hr
      -- nothing between `cpos` and the range is selected
      have hgap : ∀ i, cpos.toNat + 1 ≤ i → i < cpos.toNat + 1 + (r.lo - 1 - cpos).toNat → ¬ Selected (r :: rs) i := by
        rintro i - hi ⟨r', hr', hhas⟩
        have := hhas.1
        rcases List.mem_cons.1 hr' with rfl | hr'
        · omega
        · have := hafter r' hr'
          omega
      have hpos : cpos.toNat + 1 + (r.lo - 1 - cpos).toNat = r.lo.toNat := by omega
      rw [charsLoop, pick_skip _ hgap, ← (textCharskip_eq utf8 (line.drop off) _).2, List.drop_drop, hpos]
      extract_lets lo off' take count take'
      by_cases hoff : line.length ≤ off
      · rw [if_pos hoff, List.drop_eq_nil_of_le (Nat.le_add_right_of_le hoff), chars_nil]
        rfl
      rw [if_neg hoff]
      by_cases hoff' : line.length ≤ off'
      · rw [if_pos hoff', List.drop_eq_nil_of_le hoff', chars_nil]
        rfl
      rw [if_neg hoff']
      change _ = (pick (Selected (r :: rs)) r.lo.toNat (chars utf8 (line.drop off'))).flatten
      by_cases hmax : r.hi = cutMax
      · have hend : line.length ≤ off' + take := by omega
        rw [if_pos hmax, charsLoop_done utf8 hend, pick_all fun i hi => ⟨r, .head _, hi, .inr hmax⟩,
          flatten_chars, List.append_nil, List.take_of_length_le]
        rw [List.length_drop]
      · have hlo' : lo.toNat = r.lo.toNat - 1 := hpred
        have hle₂ : lo ≤ r.hi := by
          rw [UInt64.le_iff_toNat_le, hlo']
          omega
        have hcount : count.toNat = r.hi.toNat + 1 - r.lo.toNat := by
          rw [UInt64.toNat_sub_of_le _ _ hle₂, hlo']
          omega
        have hhi : lo + count = r.hi := by
          rw [UInt64.add_comm, UInt64.sub_add_cancel]
        have hsel : ∀ i, r.lo.toNat ≤ i → i < r.lo.toNat + count.toNat → Selected (r :: rs) i :=
          fun i hi hi' => ⟨r, .head _, hi, .inl (by omega)⟩
        have hend : r.lo.toNat + count.toNat = r.hi.toNat + 1 := by omega
        -- behind the range only the others matter
        have hrest : ∀ i, r.hi.toNat + 1 ≤ i → (Selected (r :: rs) i ↔ Selected rs i) := by
          intro i hi
          simp only [Selected, List.exists_mem_cons_iff, Range.Has, hmax, or_false]
          exact or_iff_right fun h => by omega
        rw [if_neg hmax, hhi, charsLoop_eq utf8 line hrs fun r' hr' => by have := hafter r' hr'; omega,
          take_textCharskip, pick_take _ hsel, List.flatten_append, hend, pick_congr hrest,
          ← (textCharskip_eq utf8 (line.drop off') _).2, List.drop_drop]

/-! ## Fields -/

theorem chosen_rangesAt {field : ℕ} (hfield : field ≤ cutMax.toNat) (hrs : rs.Pairwise Range.Before) :
    chosen field (rangesAt field rs) = true ↔ Selected rs field := by
  induction rs with
  | nil => simp [chosen, rangesAt, Selected]
  | cons r rs ih =>
    obtain ⟨hr, hrs⟩ := List.pairwise_cons.1 hrs
    rw [rangesAt, List.dropWhile_cons, Selected, List.exists_mem_cons_iff]
    by_cases hlt : r.hi.toNat < field
    · have hno : ¬ r.Has field := fun h => by
        rcases h.2 with h | h
        · omega
        · rw [h] at hlt
          omega
      rw [if_pos (by simpa using hlt), or_iff_right hno]
      exact ih hrs
    · have hle := UInt64.le_iff_toNat_le.1 r.le
      have hother : ¬ ∃ r' ∈ rs, r'.Has field := by
        rintro ⟨r', hr', h⟩
        have h₁ : r.hi.toNat + 1 < r'.lo.toNat := hr r' hr'
        have := h.1
        omega
      rw [if_neg (by simpa using hlt), or_iff_left hother]
      simp only [chosen, List.head?_cons, Option.any_some, decide_eq_true_eq, Range.Has]
      exact ⟨fun h => ⟨h, .inl (Nat.le_of_not_lt hlt)⟩, fun h => h.1⟩

theorem selected_rangesAt {field : ℕ} {i : ℕ} (hi : field ≤ i) (hfield : field ≤ cutMax.toNat) :
    Selected (rangesAt field rs) i ↔ Selected rs i := by
  induction rs with
  | nil => rfl
  | cons r rs ih =>
    rw [rangesAt, List.dropWhile_cons]
    by_cases hlt : r.hi.toNat < field
    · have hno : ¬ r.Has i := fun h => by
        rcases h.2 with h | h
        · omega
        · rw [h] at hlt
          omega
      rw [if_pos (by simpa using hlt)]
      simp only [Selected, List.exists_mem_cons_iff, hno, false_or]
      exact ih
    · rw [if_neg (by simpa using hlt)]

theorem pairwise_rangesAt (field : ℕ) (h : rs.Pairwise Range.Before) : (rangesAt field rs).Pairwise Range.Before :=
  h.sublist (List.dropWhile_sublist _)

/-- Chosen fields behind others that have been written, or not. -/
def joined (delim : Bytes) (first : Bool) : List Bytes → Bytes
  | [] => []
  | w :: ws => fieldOut delim first w ++ ws.flatMap (delim ++ ·)

theorem joined_true (delim : Bytes) (ws : List Bytes) : joined delim true ws = delim.intercalate ws := by
  cases ws with
  | nil => rfl
  | cons w ws => exact (intercalate_cons_flatMap delim w ws).symm

theorem joined_false (delim : Bytes) (ws : List Bytes) : joined delim false ws = ws.flatMap (delim ++ ·) := by
  cases ws with
  | nil => rfl
  | cons w ws => rfl

theorem fieldsLoop_skip (delim x line : Bytes) (first : Bool) (field : ℕ) (rs : List Range) (fld : Bytes) :
    fieldsLoop delim x.length first field rs fld (x ++ line) = fieldsLoop delim 0 first field rs fld line := by
  induction x with
  | nil => rfl
  | cons b x ih => exact ih

/-- The end of a field. -/
theorem fieldsLoop_delim {delim line t : Bytes} {b : UInt8} (hd : delim ≠ []) (h : delim ++ line = b :: t)
    (first : Bool) (field : ℕ) (rs : List Range) (fld : Bytes) :
    fieldsLoop delim 0 first field rs fld (b :: t) =
      if chosen field (rangesAt field rs) then
        fieldOut delim first fld ++ fieldsLoop delim 0 false (field + 1) (rangesAt field rs) [] line
      else fieldsLoop delim 0 first (field + 1) (rangesAt field rs) [] line := by
  have hp : delim <+: b :: t := ⟨line, h⟩
  obtain ⟨b', d, rfl⟩ := List.exists_cons_of_ne_nil hd
  obtain ⟨rfl, rfl⟩ := List.cons.inj h
  rw [← fieldsLoop_skip (b' :: d) d line, ← fieldsLoop_skip (b' :: d) d line]
  exact if_pos hp

/-- **The loop takes the fields that are selected**, from the field in which it is. -/
theorem fieldsLoop_eq {delim : Bytes} (hd : delim ≠ []) (line : Bytes) (first : Bool) (field : ℕ)
    (rs : List Range) (fld : Bytes) (hrs : rs.Pairwise Range.Before)
    (hfits : field + line.length ≤ cutMax.toNat) :
    fieldsLoop delim 0 first field rs fld line =
      joined delim first (pick (Selected rs) field ((delimited delim line).modifyHead (fld ++ ·))) := by
  induction hn : line.length using Nat.strongRecOn generalizing line first field rs fld with
  | ind n ih =>
    cases line with
    | nil =>
      change (if chosen field (rangesAt field rs) then fieldOut delim first fld else []) =
        joined delim first (pick (Selected rs) field [fld ++ []])
      have hc := chosen_rangesAt (Nat.le_of_add_right_le hfits) hrs
      rw [pick_cons, List.append_nil]
      by_cases h : Selected rs field
      · rw [if_pos (hc.2 h), if_pos h]
        simp [joined]
      · rw [if_neg (hc.not.2 h), if_neg h]
        rfl
    | cons b t =>
      by_cases hp : delim <+: b :: t
      · obtain ⟨line, hline⟩ := hp
        have hlen : delim.length + line.length = t.length + 1 := by
          rw [← List.length_append, hline, List.length_cons]
        have hpos := List.length_pos_iff.2 hd
        rw [List.length_cons] at hfits hn
        have hc := chosen_rangesAt (Nat.le_of_add_right_le hfits) hrs
        have hsel : ∀ i, field + 1 ≤ i → (Selected (rangesAt field rs) i ↔ Selected rs i) :=
          fun i hi => selected_rangesAt (Nat.le_of_succ_le hi) (Nat.le_of_add_right_le hfits)
        have hfront : (delimited delim (b :: t)).modifyHead (fld ++ ·) = fld :: delimited delim line := by
          rw [← hline, delimited_delim hd]
          simp
        have hrest : ∀ first', fieldsLoop delim 0 first' (field + 1) (rangesAt field rs) [] line =
            joined delim first' (pick (Selected rs) (field + 1) (delimited delim line)) := by
          intro first'
          rw [ih line.length (by omega) line first' (field + 1) (rangesAt field rs) [] (pairwise_rangesAt field hrs)
            (by omega) rfl, pick_congr hsel]
          congr 2
          cases delimited delim line <;> rfl
        rw [fieldsLoop_delim hd hline, hrest, hrest, hfront, pick_cons]
        by_cases h : Selected rs field
        · rw [if_pos (hc.2 h), if_pos h, joined_false]
          rfl
        · rw [if_neg (hc.not.2 h), if_neg h]
      · have hlt : t.length < n := by
          rw [← hn]
          exact Nat.lt_succ_self _
        have hstep : fieldsLoop delim 0 first field rs fld (b :: t) =
            fieldsLoop delim 0 first field rs (fld ++ [b]) t := if_neg hp
        rw [List.length_cons] at hfits
        rw [hstep, ih _ hlt t first field rs (fld ++ [b]) hrs (by omega) rfl, delimited_cons hp]
        congr 2
        cases delimited delim t <;> simp

/-! ## The whole line -/

/-- **`cut` takes what the list names.**  For a list that is accepted, the ranges have gaps between them and the
positions that the items name; `-b` and `-c` take the bytes or characters there, and `-f` the fields of a line
with a delimiter. -/
theorem cut_takes {list : Bytes} {rs : List Range} (h : cutList list = some rs) :
    (rs.Pairwise Range.Before ∧ ∃ Ss, List.Forall₂ Names (items list) Ss ∧
      ∀ k, Selected rs k ↔ ∃ S ∈ Ss, k ∈ S) ∧
    ∀ c : Cut, c.r = rs → ∀ line : Line,
      (c.mode = .b → c.nosplit = false →
        cutLine c line.1 = some (pick (Selected rs) 1 line.1 ++ [newline])) ∧
      (c.mode = .c →
        cutLine c line.1 = some ((pick (Selected rs) 1 (chars c.utf8 line.1)).flatten ++ [newline])) ∧
      (c.mode = .f → c.delim <:+: line.1 →
        ∃ ws, Delimited c.delim line.1 ws ∧
          cutLine c line.1 = some (c.delim.intercalate (pick (Selected rs) 1 ws) ++ [newline])) := by
  have hranges := cutList_ranges h
  refine ⟨hranges, ?_⟩
  rintro c rfl ⟨line, hline⟩
  have hall : ∀ r ∈ c.r, (0 : UInt64).toNat < r.lo.toNat := fun r _ =>
    Nat.pos_of_ne_zero fun h => r.pos (UInt64.toNat_inj.1 h)
  have hchars := fun utf8 => @charsLoop_eq utf8 line 0 0 _ hranges.1 hall
  refine ⟨fun hmode hsplit => ?_, fun hmode => ?_, fun hmode hin => ?_⟩
  · have hb : cutChars c line = pick (Selected c.r) 1 line := by
      have hbytes : ∀ l : Bytes, (l.map ([·])).flatten = l := fun l => by
        rw [← List.flatMap_def, List.flatMap_singleton']
      rw [cutChars, if_neg (by simp [hsplit]), hmode, ← hbytes (pick _ 1 line), ← pick_map, ← chars_false]
      exact hchars false
    simp [cutLine, hmode, hb]
  · have hc : cutChars c line = (pick (Selected c.r) 1 (chars c.utf8 line)).flatten := by
      rw [cutChars, if_neg (by simp [hmode]), hmode]
      exact hchars c.utf8
    simp [cutLine, hmode, hc]
  · refine ⟨_, delimited_spec c.dlen line, ?_⟩
    rw [cutLine, if_pos hmode, if_pos hin, cutFields, fieldsLoop_eq c.dlen line true 1 c.r [] hranges.1 (by omega),
      joined_true]
    congr 4
    cases delimited c.delim line <;> rfl

/-- Bytes 1 and 3 on. -/
theorem cut_takes_bytes : ∃ rs, cutList (ascii "3-,1") = some rs ∧
    cutLine ⟨rs, .b, [newline], by decide, false, false, false⟩ (ascii "abcd") = some (ascii "acd" ++ [newline]) := by
  have h : cutList (ascii "3-,1") = some [⟨1, 1, by decide, by decide⟩, ⟨3, cutMax, by decide, by decide⟩] := by
    decide
  have hout := ((cut_takes h).2 ⟨_, .b, [newline], by decide, false, false, false⟩ rfl ⟨ascii "abcd", by decide⟩).1 rfl rfl
  exact ⟨_, h, hout.trans (by decide)⟩

end Cut

end Shish
