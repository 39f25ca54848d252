import Mathlib.Algebra.Order.Ring.Nat
import Shish.Chartable
import Shish.Lib.Fuel
import Shish.Lib.Lines

/-!
# History/File — the lines of the history file, forwards and backwards

The history file holds one entry a line.  `history_file_next` reads it from its start;
`history_file_entry` reads it from its end, through a cache of the entries found so far.  Forwards
the lines come out (`historyFileNext_gives`).  Backwards they come out as long as the file does not
start with an empty line, which the scan takes for the start of the file, and has no more lines than
the cache's capacity can count (`historyFileEntry_reverses_iff`).
-/

namespace Shish

/-! ## Forwards -/

/-- `byte_chr`: where `c` first stands in `s`; the length when it does not. -/
def byteChr (s : Str) (c : Char) : ℕ := s.findIdx (· == c)

/-- The bytes the pair of an offset and a length stands for. -/
def slice (map : Str) (e : ℕ × ℕ) : Str := (map.drop e.1).take e.2

/-- `history_file_next`: the entry at `*pos` as offset and length, and the position behind it. -/
def historyFileNext (map : Str) (pos : ℕ) : Option (ℕ × ℕ) × ℕ :=
  if pos ≥ map.length then (none, pos)
  else
    let nl := byteChr (map.drop pos) '\n'
    if nl = map.length - pos then (some (pos, nl), map.length)
    else (some (pos, nl), pos + nl + 1)

/-- The loop of a caller of `history_file_next`. -/
def historyForward (map : Str) (n pos : ℕ) : Option (List Str) :=
  (walk (fun pos => some (historyFileNext map pos)) n pos).map (List.map (slice map))

theorem byteChr_line {w : Str} (hw : '\n' ∉ w) (b : Str) : byteChr (w ++ '\n' :: b) '\n' = w.length := by
  unfold byteChr
  rw [List.findIdx_append, List.findIdx_eq_length.2]
  · simp [List.findIdx_cons]
  · intro c hc
    rw [beq_eq_false_iff_ne]
    rintro rfl
    exact hw hc

theorem byteChr_text {w : Str} (hw : '\n' ∉ w) : byteChr w '\n' = w.length := by
  refine List.findIdx_eq_length.2 fun c hc => ?_
  rw [beq_eq_false_iff_ne]
  rintro rfl
  exact hw hc

theorem historyFileNext_end {map : Str} {pos : ℕ} (h : map.drop pos = []) :
    historyFileNext map pos = (none, pos) :=
  if_pos (List.drop_eq_nil_iff.1 h)

theorem historyFileNext_line {map w b : Str} {pos : ℕ} (hw : '\n' ∉ w)
    (h : map.drop pos = w ++ '\n' :: b) :
    historyFileNext map pos = (some (pos, w.length), pos + w.length + 1) := by
  have hlen := congrArg List.length h
  simp only [List.length_drop, List.length_append, List.length_cons] at hlen
  unfold historyFileNext
  rw [if_neg (by omega), h, byteChr_line hw, if_neg (by omega)]

theorem historyFileNext_text {map w : Str} {pos : ℕ} (hw : '\n' ∉ w) (hne : w ≠ [])
    (h : map.drop pos = w) : historyFileNext map pos = (some (pos, w.length), map.length) := by
  have hlen := congrArg List.length h
  have hpos := List.length_pos_iff.2 hne
  rw [List.length_drop] at hlen
  unfold historyFileNext
  rw [if_neg (by omega), h, byteChr_text hw, if_pos hlen.symm]

/-- **Forwards the lines come out**, from any position on. -/
theorem historyFileNext_gives (map : Str) (pos : ℕ) :
    Gives (historyForward map) pos (lines '\n' (map.drop pos)) := by
  induction hn : map.length - pos using Nat.strongRecOn generalizing pos with
  | ind k ih =>
    rcases eq_or_ne (map.drop pos) [] with hd | hd
    · refine Soon.of_succ fun n => ?_
      simp [historyForward, walk, historyFileNext_end hd, hd]
    have hpos : pos < map.length := by
      by_contra hle
      exact hd (List.drop_eq_nil_iff.2 (by omega))
    rcases line_cases '\n' (map.drop pos) with hw | ⟨w, b, hb, hw⟩
    · have ih := ih (map.length - map.length) (by omega) map.length rfl
      rw [List.drop_length, lines_nil] at ih
      refine ih.next fun n hn => ?_
      obtain ⟨ls, hls, hnil⟩ := Option.map_eq_some_iff.1 hn
      simp only [historyForward, walk, historyFileNext_text hw hd rfl, hls, Option.map_some,
        List.map_cons, hnil, slice, List.take_length, lines_text hw hd]
    · have hdrop : map.drop (pos + w.length + 1) = b := by
        rw [Nat.add_assoc, ← List.drop_drop, hb]
        simp
      have ih := ih (map.length - (pos + w.length + 1)) (by omega) (pos + w.length + 1) rfl
      rw [hdrop] at ih
      refine ih.next fun n hn => ?_
      obtain ⟨ls, hls, hb'⟩ := Option.map_eq_some_iff.1 hn
      simp only [historyForward, walk, historyFileNext_line hw hb, hls, Option.map_some,
        List.map_cons, hb', slice, hb, List.take_left, lines_line hw]

/-! ## Backwards -/

/-- The backward scan: `history_cache_off` and `history_cache_len`, newest first, their capacity,
and where the scan goes on. -/
structure HistoryCache where
  entries : List (ℕ × ℕ) := []
  cap : ℕ := 0
  scanpos : ℕ
  exhausted : Bool := false

/-- The loop of `rfind_nl`. -/
def rfindNlGo (map : Str) (before : ℕ) : ℕ → ℕ
  | 0 => before
  | i + 1 => if map[i]? = some '\n' then i else rfindNlGo map before i

/-- `rfind_nl`: where the last newline in front of `before` stands; `before` when there is none. -/
def rfindNl (map : Str) (before : ℕ) : ℕ := rfindNlGo map before before

/-- The capacity when an entry is to be added.  It is an `unsigned int`, so doubling can make it
0. -/
def HistoryCache.capFor (c : HistoryCache) : ℕ :=
  if c.entries.length = c.cap then if c.cap ≠ 0 then c.cap * 2 % 2 ^ 32 else 32 else c.cap

/-- An entry is stored behind the others; `none` when that is past the end of the arrays. -/
def HistoryCache.store (c : HistoryCache) (e : ℕ × ℕ) : Option HistoryCache :=
  if c.entries.length < c.capFor then some { c with entries := c.entries ++ [e], cap := c.capFor }
  else none

/-- `history_cache_extend`. -/
def historyCacheExtend (map : Str) (c : HistoryCache) : Option HistoryCache :=
  let c := if c.exhausted || c.scanpos == 0 then { c with exhausted := true } else c
  if c.exhausted then some c
  else
    let nl := rfindNl map c.scanpos
    if nl = c.scanpos then
      -- the first line of the file
      HistoryCache.store { c with scanpos := 0, exhausted := true } (0, c.scanpos)
    else HistoryCache.store { c with scanpos := nl } (nl + 1, c.scanpos - (nl + 1))

/-- What is left to scan. -/
def HistoryCache.left (c : HistoryCache) : ℕ := if c.exhausted then 0 else c.scanpos + 1

theorem rfindNlGo_le (map : Str) (before : ℕ) :
    ∀ i, i ≤ before → rfindNlGo map before i = before ∨ rfindNlGo map before i < i
  | 0, _ => .inl rfl
  | i + 1, hi => by
      unfold rfindNlGo
      split_ifs
      · exact .inr (Nat.lt_succ_self i)
      · exact (rfindNlGo_le map before i (by omega)).imp id (by omega)

theorem HistoryCache.store_eq {c c' : HistoryCache} {e : ℕ × ℕ} (h : c.store e = some c') :
    c'.scanpos = c.scanpos ∧ c'.exhausted = c.exhausted := by
  unfold HistoryCache.store at h
  split_ifs at h
  obtain rfl := Option.some.inj h
  exact ⟨rfl, rfl⟩

theorem left_historyCacheExtend {map : Str} {c c' : HistoryCache} (he : c.exhausted = false)
    (h : historyCacheExtend map c = some c') : c'.left < c.left := by
  have hlt := rfindNlGo_le map c.scanpos c.scanpos (Nat.le_refl _)
  unfold historyCacheExtend at h
  by_cases h0 : c.scanpos = 0
  · simp only [he, h0, Bool.false_or, beq_self_eq_true, if_true, Option.some.injEq] at h
    subst h
    simp [HistoryCache.left, he]
  · simp only [he, Bool.false_or, beq_iff_eq, if_neg h0, Bool.false_eq_true, if_false] at h
    split_ifs at h with hr
    · obtain ⟨-, hx⟩ := HistoryCache.store_eq h
      simp [HistoryCache.left, he, hx]
    · obtain ⟨hp, hx⟩ := HistoryCache.store_eq h
      simp only [HistoryCache.left, he, hx, hp, Bool.false_eq_true, if_false]
      exact Nat.succ_lt_succ (hlt.resolve_left hr)

/-- `history_file_entry`: the entry `index` lines back from the newest one. -/
def historyFileEntry (map : Str) (index : ℕ) (c : HistoryCache) :
    Option (Option (ℕ × ℕ) × HistoryCache) :=
  if index ≥ c.entries.length then
    if _he : c.exhausted then some (none, c)
    else
      match _hx : historyCacheExtend map c with
      | some c' => historyFileEntry map index c'
      | none => none
  else some (c.entries[index]?, c)
termination_by c.left
decreasing_by exact left_historyCacheExtend (by simpa using _he) _hx

/-- Where `history_init` has the scan start: one newline at the end of the file is skipped. -/
def historyInit (map : Str) : HistoryCache :=
  if map.length ≠ 0 ∧ map[map.length - 1]? = some '\n' then { scanpos := map.length - 1 }
  else { scanpos := map.length }

/-- The loop of a caller that asks for the entries 0, 1, 2 and so on. -/
def historyBackward (map : Str) (n : ℕ) (s : ℕ × HistoryCache) : Option (List Str) :=
  (walk (fun s => (historyFileEntry map s.1 s.2).map fun r => (r.1, s.1 + 1, r.2)) n s).map
    (List.map (slice map))

section Backward

variable {map : Str} {c : HistoryCache} {all : List Str} {p : ℕ}

theorem rfindNlGo_eq {before j : ℕ} (hj : map[j]? = some '\n') : ∀ i, j < i →
    (∀ k, j < k → k < i → map[k]? ≠ some '\n') → rfindNlGo map before i = j
  | i + 1, hi, h => by
      unfold rfindNlGo
      rcases Nat.eq_or_lt_of_le (Nat.le_of_lt_succ hi) with rfl | hlt
      · exact if_pos hj
      · rw [if_neg (h i hlt (Nat.lt_succ_self i))]
        exact rfindNlGo_eq hj i hlt fun k hk hki => h k hk (by omega)

theorem rfindNlGo_none {before : ℕ} : ∀ i, (∀ k, k < i → map[k]? ≠ some '\n') →
    rfindNlGo map before i = before
  | 0, _ => rfl
  | i + 1, h => by
      unfold rfindNlGo
      rw [if_neg (h i (Nat.lt_succ_self i))]
      exact rfindNlGo_none i fun k hk => h k (by omega)

theorem getElem?_of_lt {k : ℕ} (hk : k < p) : map[k]? = (map.take p)[k]? := by
  rw [List.getElem?_take, if_pos hk]

theorem rfindNl_line {b w : Str} (hw : '\n' ∉ w) (h : map.take p = b ++ '\n' :: w)
    (hp : p ≤ map.length) : rfindNl map p = b.length := by
  have hlen := congrArg List.length h
  simp only [List.length_take, List.length_append, List.length_cons] at hlen
  refine rfindNlGo_eq ?_ p (by omega) fun k hbk hkp hk => hw ?_
  · rw [getElem?_of_lt (p := p) (by omega), h]
    simp
  · rw [getElem?_of_lt hkp, h, List.getElem?_append_right (by omega)] at hk
    obtain ⟨m, hm⟩ : ∃ m, k - b.length = m + 1 := ⟨k - b.length - 1, by omega⟩
    rw [hm, List.getElem?_cons_succ] at hk
    exact List.mem_of_getElem? hk

theorem rfindNl_text (h : '\n' ∉ map.take p) : rfindNl map p = p := by
  refine rfindNlGo_none p fun k hk hkn => h ?_
  rw [getElem?_of_lt hk] at hkn
  exact List.mem_of_getElem? hkn

/-- The arrays have room for the entries they hold, and a capacity that doubling from 32 reaches. -/
structure HistoryCache.Room (c : HistoryCache) : Prop where
  fits : c.entries.length ≤ c.cap
  grown : c.cap = 0 ∨ ∃ j, j ≤ 26 ∧ c.cap = 32 * 2 ^ j

theorem HistoryCache.Room.le (h : c.Room) : c.entries.length ≤ 2 ^ 31 := by
  rcases h.grown with h0 | ⟨j, hj, hc⟩
  · have := h.fits
    omega
  · have hpow : 2 ^ j ≤ 2 ^ 26 := Nat.pow_le_pow_right (by decide) hj
    have := h.fits
    omega

/-- Doubling goes wrong once, behind `2 ^ 31` entries. -/
theorem HistoryCache.Room.capFor (h : c.Room) :
    (c.entries.length = 2 ^ 31 ∧ c.capFor = 0) ∨
      c.entries.length < c.capFor ∧ ∃ j, j ≤ 26 ∧ c.capFor = 32 * 2 ^ j := by
  unfold HistoryCache.capFor
  rcases Nat.lt_or_ge c.entries.length c.cap with hlt | hge
  · rw [if_neg (Nat.ne_of_lt hlt)]
    exact .inr ⟨hlt, h.grown.resolve_left (by omega)⟩
  have heq : c.entries.length = c.cap := Nat.le_antisymm h.fits hge
  rw [if_pos heq]
  rcases h.grown with h0 | ⟨j, hj, hc⟩
  · rw [if_neg (by simpa using h0)]
    exact .inr ⟨by omega, 0, by omega, rfl⟩
  have hpos : 0 < 2 ^ j := Nat.pow_pos (by decide)
  rw [if_pos (by omega)]
  rcases Nat.eq_or_lt_of_le hj with rfl | hlt
  · exact .inl ⟨heq.trans hc, (congrArg (· * 2 % 2 ^ 32) hc).trans (by decide)⟩
  · have hpow : 2 ^ (j + 1) ≤ 2 ^ 26 := Nat.pow_le_pow_right (by decide) hlt
    have hsucc : 2 ^ (j + 1) = 2 ^ j * 2 := Nat.pow_succ ..
    have hcap : c.cap * 2 % 2 ^ 32 = 32 * 2 ^ (j + 1) := by
      rw [Nat.mod_eq_of_lt] <;> omega
    exact .inr ⟨by omega, j + 1, hlt, hcap⟩

/-- **An entry is stored** unless there are `2 ^ 31` already. -/
theorem HistoryCache.Room.store (h : c.Room) (e : ℕ × ℕ) :
    (c.store e = none ∧ c.entries.length = 2 ^ 31) ∨
      ∃ c', c.store e = some c' ∧ c'.entries = c.entries ++ [e] ∧ c'.Room := by
  unfold HistoryCache.store
  rcases h.capFor with ⟨hlen, h0⟩ | ⟨hlt, hgrown⟩
  · exact .inl ⟨if_neg (by omega), hlen⟩
  · refine .inr ⟨_, if_pos hlt, rfl, ?_, .inr hgrown⟩
    rw [List.length_append]
    exact hlt

/-- The entries the scan has still to find. -/
def HistoryCache.rest (map : Str) (c : HistoryCache) : List Str :=
  if c.exhausted then [] else back '\n' (map.take c.scanpos)

/-- **What the scan keeps**: the entries found and those still to find are all of them. -/
structure HistoryCache.Scans (map : Str) (all : List Str) (c : HistoryCache) : Prop where
  pos : c.scanpos ≤ map.length
  found : c.entries.map (slice map) ++ c.rest map = all
  room : c.Room

/-- What stands behind the last newline in front of a point. -/
theorem slice_behind {b w : Str} (h : map.take p = b ++ '\n' :: w) :
    slice map (b.length + 1, p - (b.length + 1)) = w := by
  rw [slice, ← List.drop_take, h, Nat.add_comm b.length, ← List.drop_drop]
  simp

/-- **One entry more is found**, or the scan ends, or there is no room for the entry. -/
theorem HistoryCache.Scans.extend (h : c.Scans map all) (he : c.exhausted = false) :
    (historyCacheExtend map c = none ∧ 2 ^ 31 < all.length) ∨
      ∃ c', historyCacheExtend map c = some c' ∧ c'.Scans map all := by
  have hrest : c.rest map = back '\n' (map.take c.scanpos) := by simp [HistoryCache.rest, he]
  have hfound := h.found
  unfold historyCacheExtend
  by_cases h0 : c.scanpos = 0
  · right
    simp only [h0, he, Bool.false_or, beq_self_eq_true, if_true]
    refine ⟨_, rfl, Nat.zero_le _, ?_, h.room.fits, h.room.grown⟩
    rw [hrest, h0] at hfound
    simpa [HistoryCache.rest] using hfound
  simp only [he, Bool.false_or, beq_iff_eq, if_neg h0, Bool.false_eq_true, if_false]
  rcases last_cases '\n' (map.take c.scanpos) with hw | ⟨b, w, hb, hw⟩
  · -- the first line
    rw [if_pos (rfindNl_text hw)]
    have hne : map.take c.scanpos ≠ [] := by
      rw [Ne, List.take_eq_nil_iff]
      rintro (h' | h')
      · exact h0 h'
      · exact h0 (Nat.le_zero.1 (by simpa [h'] using h.pos))
    rw [hrest, back_text hw hne] at hfound
    have hroom : HistoryCache.Room { c with scanpos := 0, exhausted := true } :=
      ⟨h.room.fits, h.room.grown⟩
    rcases hroom.store (0, c.scanpos) with ⟨hn, hlen⟩ | ⟨c', hs, hent, hroom'⟩
    · refine .inl ⟨hn, ?_⟩
      rw [← hfound, List.length_append, List.length_map, hlen]
      exact Nat.lt_succ_self _
    · obtain ⟨hp, hx⟩ := HistoryCache.store_eq hs
      refine .inr ⟨c', hs, by simp [hp], ?_, hroom'⟩
      rw [hent, List.map_append, HistoryCache.rest, if_pos (by rw [hx]), List.append_nil]
      exact hfound
  · -- a line behind another
    have hpos := rfindNl_line hw hb h.pos
    have hlen := congrArg List.length hb
    simp only [List.length_take, List.length_append, List.length_cons] at hlen
    have hp := h.pos
    rw [hpos, if_neg (by omega)]
    rw [hrest, hb, back_line hw] at hfound
    have hroom : HistoryCache.Room { c with scanpos := b.length, exhausted := false } :=
      ⟨h.room.fits, h.room.grown⟩
    rcases hroom.store (b.length + 1, c.scanpos - (b.length + 1)) with
      ⟨hn, hfull⟩ | ⟨c', hs, hent, hroom'⟩
    · refine .inl ⟨hn, ?_⟩
      rw [← hfound, List.length_append, List.length_map, hfull, List.length_cons]
      omega
    · obtain ⟨hsp, hx⟩ := HistoryCache.store_eq hs
      have hbt : map.take b.length = b := by
        rw [← Nat.min_eq_left (show b.length ≤ c.scanpos by omega), ← List.take_take, hb,
          List.take_left]
      refine .inr ⟨c', hs, by rw [hsp]; exact (by omega : b.length ≤ map.length), ?_, hroom'⟩
      rw [hent, List.map_append, HistoryCache.rest, hx, hsp, if_neg Bool.false_ne_true, hbt,
        ← hfound, List.append_assoc]
      simp [slice_behind hb]

/-- **An entry is found by its index**, and the scan is in order behind it; but a file may have more
entries than there is room for. -/
theorem HistoryCache.Scans.entry (h : c.Scans map all) (index : ℕ) :
    (historyFileEntry map index c = none ∧ 2 ^ 31 < all.length) ∨
      ∃ r c', historyFileEntry map index c = some (r, c') ∧ c'.Scans map all ∧
        r.map (slice map) = all[index]? ∧ (r = none → all.length ≤ 2 ^ 31) := by
  fun_induction historyFileEntry map index c with
  | case1 c hi he =>
    right
    have hall : c.entries.map (slice map) = all := by simpa [HistoryCache.rest, he] using h.found
    have hlen := congrArg List.length hall
    rw [List.length_map] at hlen
    refine ⟨none, c, rfl, h, ?_, fun _ => hlen ▸ h.room.le⟩
    rw [List.getElem?_eq_none (by omega)]
    rfl
  | case2 c hi he c' hx ih =>
    rcases h.extend (by simpa using he) with ⟨hn, -⟩ | ⟨c₁, hs, h₁⟩
    · exact absurd (hx.symm.trans hn) (by simp)
    · obtain rfl := Option.some.inj (hx.symm.trans hs)
      exact ih h₁
  | case3 c hi he hx =>
    rcases h.extend (by simpa using he) with ⟨-, hlen⟩ | ⟨c₁, hs, -⟩
    · exact .inl ⟨rfl, hlen⟩
    · exact absurd (hx.symm.trans hs) (by simp)
  | case4 c hi =>
    right
    have hi' : index < c.entries.length := by omega
    refine ⟨_, c, rfl, h, ?_, fun hnone => ?_⟩
    · rw [← h.found, List.getElem?_append_left (by simpa using hi'), List.getElem?_map]
    · rw [List.getElem?_eq_none_iff] at hnone
      omega

theorem historyInit_scans (map : Str) :
    (historyInit map).Scans map (back '\n' (chomp '\n' map)) := by
  have hroom : ∀ k, HistoryCache.Room { scanpos := k } := fun k => ⟨Nat.le_refl _, .inl rfl⟩
  unfold historyInit chomp
  rw [List.getLast?_eq_getElem?]
  rcases eq_or_ne map [] with rfl | hne
  · exact ⟨Nat.le_refl _, rfl, hroom _⟩
  have hpos := List.length_pos_iff.2 hne
  by_cases hn : map[map.length - 1]? = some '\n'
  · rw [if_pos hn, if_pos ⟨by omega, hn⟩]
    exact ⟨Nat.sub_le _ _, by simp [HistoryCache.rest, List.dropLast_eq_take], hroom _⟩
  · rw [if_neg hn, if_neg fun h => hn h.2]
    exact ⟨Nat.le_refl _, by simp [HistoryCache.rest], hroom _⟩

/-- **Backwards the entries come out** when there is room for them. -/
theorem HistoryCache.Scans.gives (hall : all.length ≤ 2 ^ 31) (i : ℕ) (h : c.Scans map all) :
    Gives (historyBackward map) (i, c) (all.drop i) := by
  induction hk : all.length - i using Nat.strongRecOn generalizing i c with
  | ind k ih =>
    rcases h.entry i with ⟨-, hlt⟩ | ⟨r, c', hr, h', hri, -⟩
    · omega
    cases r with
    | none =>
      have hi : all.length ≤ i := List.getElem?_eq_none_iff.1 hri.symm
      refine Soon.of_succ fun n => ?_
      simp [historyBackward, walk, hr, List.drop_eq_nil_iff.2 hi]
    | some e =>
      have hi : i < all.length := by
        by_contra hge
        rw [List.getElem?_eq_none (by omega)] at hri
        exact absurd hri (by simp)
      rw [List.getElem?_eq_getElem hi] at hri
      have hdrop : all.drop i = slice map e :: all.drop (i + 1) := by
        rw [List.drop_eq_getElem_cons hi, ← Option.some.inj hri]
      refine (ih (all.length - (i + 1)) (by omega) (i + 1) h' rfl).next fun n hn => ?_
      obtain ⟨es, hes, hmap⟩ := Option.map_eq_some_iff.1 hn
      simp only [historyBackward, walk, hr, Option.map_some, hes, List.map_cons, hmap, hdrop]

/-- Without room for them the scan never ends well. -/
theorem HistoryCache.Scans.overruns (hall : 2 ^ 31 < all.length) :
    ∀ (n i : ℕ) {c : HistoryCache}, c.Scans map all → historyBackward map n (i, c) = none
  | 0, _, _, _ => rfl
  | n + 1, i, c, h => by
      rcases h.entry i with ⟨hn, -⟩ | ⟨r, c', hr, h', hri, hle⟩
      · simp [historyBackward, walk, hn]
      cases r with
      | none => exact absurd (hle rfl) (by omega)
      | some e =>
        have ih := HistoryCache.Scans.overruns hall n (i + 1) h'
        unfold historyBackward at ih
        rw [Option.map_eq_none_iff] at ih
        simp [historyBackward, walk, hr, ih]

/-- **When the two directions agree.**  Walking the file from its end delivers what walking it from
its start does, in reverse order, exactly when it does not start with an empty line and has no more
lines than the cache can hold. -/
theorem historyFileEntry_reverses_iff (map : Str) :
    (∃ es, Gives (historyForward map) 0 es ∧
      Gives (historyBackward map) (0, historyInit map) es.reverse) ↔
      map.head? ≠ some '\n' ∧ lineCount '\n' map ≤ 2 ^ 31 := by
  have hf : Gives (historyForward map) 0 (lines '\n' map) := historyFileNext_gives map 0
  have hscan := historyInit_scans map
  rw [← back_eq_reverse_iff, ← length_lines, ← List.length_reverse]
  constructor
  · rintro ⟨es, hes, hback⟩
    obtain rfl := hf.unique hes
    have hlen : (back '\n' (chomp '\n' map)).length ≤ 2 ^ 31 := by
      by_contra hgt
      obtain ⟨n, hn⟩ := hback.exists_of
      rw [hscan.overruns (by omega) n 0] at hn
      exact absurd hn (by simp)
    have heq := (hscan.gives hlen 0).unique hback
    exact ⟨heq, heq ▸ hlen⟩
  · rintro ⟨heq, hlen⟩
    exact ⟨_, hf, heq ▸ hscan.gives (heq ▸ hlen) 0⟩

/-- **The first entry of a file that starts with an empty line is not visited** backwards. -/
theorem historyFileEntry_misses : Gives (historyForward "\nls\n".toList) 0 [[], "ls".toList] ∧
    Gives (historyBackward "\nls\n".toList) (0, historyInit "\nls\n".toList) ["ls".toList] ∧
    ["ls".toList] ≠ [[], "ls".toList].reverse := by
  have hscan := historyInit_scans "\nls\n".toList
  exact ⟨historyFileNext_gives _ 0, hscan.gives (by decide) 0, by decide⟩

end Backward

end Shish
