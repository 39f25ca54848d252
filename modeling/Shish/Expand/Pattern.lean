import Shish.Expand.Literal

/-!
# Expand/Pattern — the pattern a field is globbed with

A word is read into characters of which each is quoted or not (`Mark`), and that is what the pattern
of a field should say.  What `glob` gets is a text in which quoting is a backslash.  A field is put
together from segments; `Draft` follows the text of a field through `wordlist_cat`, with the
characters it stands for and which of them still have their backslash.  `fieldOk` says when the text
that is globbed means these characters, and then the field becomes what it should (`Draft.result_eq`).
-/

namespace Shish

/-! ## Patterns -/

/-- A character of a word or of a pattern, and whether it is quoted. -/
abbrev Mark := Char × Bool

/-- A text as `glob` reads it: a backslash quotes what follows it. -/
def patternOf : Str → List Mark
  | '\\' :: c :: t => (c, true) :: patternOf t
  | c :: t => (c, c == '\\') :: patternOf t
  | [] => []

/-- The quoting of a character counts: of a pattern character, and of what has a meaning in a
bracket expression behind the start of one. -/
def counts (bracket : Bool) (c : Char) : Bool :=
  c ∈ ['*', '?', '['] || (bracket && c ∈ [']', '-', '!', '^', ':', '.', '='])

/-- The pattern up to quoting that does not count. -/
def normalize : Bool → List Mark → List Mark
  | _, [] => []
  | bracket, (c, q) :: t =>
      (c, q || !counts bracket c) :: normalize (bracket || (c == '[' && !q)) t

/-- A pattern that may match more than itself: it has an unquoted `*` or `?`, or an unquoted `[` and
behind it a `]`. -/
def magic : Bool → List Mark → Bool
  | _, [] => false
  | bracket, (c, q) :: t =>
      (!q && (c == '*' || c == '?' || (bracket && c == ']'))) || magic (bracket || (c == '[' && !q)) t

/-- What `glob` answers: it does not depend on quoting that does not count, a text that is no pattern
matches at most itself, and there is no match or some, and none is empty. -/
structure Globbing (A : List Mark → Option (List Str)) : Prop where
  quoting : ∀ t, A (normalize false t) = A t
  plain : ∀ t ps, magic false t = false → A t = some ps → ps = [t.map Prod.fst]
  paths : ∀ t ps, A t = some ps → ps ≠ [] ∧ [] ∉ ps

/-- **What should become of a field**: the matches of its pattern, or its text. -/
def refField (A : List Mark → Option (List Str)) (t : List Mark) : List Str :=
  if magic false t then (A t).getD [t.map Prod.fst] else [t.map Prod.fst]

theorem refField_of_none {A : List Mark → Option (List Str)} {t : List Mark} (h : A t = none) :
    refField A t = [t.map Prod.fst] := by
  simp [refField, h]

theorem Globbing.refField_of_some {A : List Mark → Option (List Str)} (hA : Globbing A)
    {t : List Mark} {ps : List Str} (h : A t = some ps) : refField A t = ps := by
  unfold refField
  split_ifs with hm
  · simp [h]
  · exact (hA.plain t ps (by simpa using hm) h).symm

/-! ## Written text -/

/-- The text that stands for characters of which some have a backslash. -/
def write (ms : List (Mark × Bool)) : Str :=
  ms.flatMap fun m => if m.2 then ['\\', m.1.1] else [m.1.1]

/-- The characters. -/
def plainText (ms : List (Mark × Bool)) : Str := ms.map fun m => m.1.1

/-- No backslash of its own stands in front of a character of `C_ESC`. -/
def settled : List (Mark × Bool) → Bool
  | [] => true
  | m :: ms => (m.2 || m.1.1 ≠ '\\' || !(write ms).head?.any parseIsesc) && settled ms

/-- Read as a pattern, the text means the characters: what is quoted and counts has its backslash. -/
def means : Bool → List (Mark × Bool) → Bool
  | _, [] => true
  | bracket, ((c, q), k) :: ms =>
      (k || !q || !(c == '\\' || counts bracket c)) && means (bracket || (c == '[' && !q)) ms

/-- Only quoted characters of `C_ESC` have a backslash, and a backslash is always quoted. -/
def Escaped (ms : List (Mark × Bool)) : Prop :=
  ∀ m ∈ ms, (m.2 = true → m.1.2 = true ∧ parseIsesc m.1.1 = true) ∧ (m.1.1 = '\\' → m.1.2 = true)

section Write

variable {ms ns : List (Mark × Bool)} {m : Mark × Bool} {b : Bool}

theorem write_cons : write (m :: ms) = (if m.2 then ['\\', m.1.1] else [m.1.1]) ++ write ms := rfl

theorem write_append : write (ms ++ ns) = write ms ++ write ns := by
  simp [write]

theorem plainText_append : plainText (ms ++ ns) = plainText ms ++ plainText ns := by
  simp [plainText]

theorem write_bare (h : ms.all (!·.2) = true) : write ms = plainText ms := by
  induction ms with
  | nil => rfl
  | cons m ms ih =>
    simp only [List.all_cons, Bool.and_eq_true, Bool.not_eq_true'] at h
    rw [write_cons, h.1, ih h.2]
    rfl

theorem write_eq_nil : write ms = [] ↔ ms = [] := by
  cases ms with
  | nil => simp [write]
  | cons m ms =>
    rw [write_cons]
    split_ifs <;> simp

theorem unescape_cons_of_head {c : Char} {t : Str} (h : c = '\\' → t.head?.any parseIsesc = false) :
    unescape parseIsesc (c :: t) = c :: unescape parseIsesc t := by
  by_cases hc : c = '\\'
  · subst hc
    cases t with
    | nil => rfl
    | cons d t =>
      have : parseIsesc d = false := by simpa using h rfl
      simp [unescape, this]
  · exact unescape_cons hc

theorem unescape_write (he : Escaped ms) (hs : settled ms = true) :
    unescape parseIsesc (write ms) = plainText ms := by
  induction ms with
  | nil => rfl
  | cons m ms ih =>
    obtain ⟨⟨c, q⟩, k⟩ := m
    simp only [settled, Bool.and_eq_true, Bool.or_eq_true, decide_eq_true_eq,
      Bool.not_eq_true'] at hs
    have ih := ih (fun m hm => he m (.tail _ hm)) hs.2
    cases k with
    | true =>
      have hc := ((he _ (.head _)).1 rfl).2
      simp only at hc
      simp [write_cons, unescape, hc, ih, plainText]
    | false =>
      have hc : unescape parseIsesc (c :: write ms) = c :: unescape parseIsesc (write ms) := by
        refine unescape_cons_of_head fun hb => ?_
        rcases hs.1 with (h | h) | h
        · cases h
        · exact absurd hb h
        · exact h
      simp [write_cons, hc, ih, plainText]

/-- **A text that means its characters is a pattern for them.** -/
theorem normalize_patternOf_write (he : Escaped ms) (h : means b ms = true) :
    normalize b (patternOf (write ms)) = normalize b (ms.map Prod.fst) := by
  induction ms generalizing b with
  | nil => rfl
  | cons m ms ih =>
    obtain ⟨⟨c, q⟩, k⟩ := m
    obtain ⟨hk, hb⟩ := he _ (.head _)
    simp only [means, Bool.and_eq_true, Bool.or_eq_true, Bool.not_eq_true'] at h hk hb
    have ih := fun b' => @ih b' (fun m hm => he m (.tail _ hm))
    cases k with
    | true =>
      obtain ⟨rfl, -⟩ := hk rfl
      simpa [write_cons, patternOf, normalize] using ih _ (by simpa using h.2)
    | false =>
      have hc : c ≠ '\\' := by
        rintro rfl
        have := hb rfl
        simp [this] at h
      have hp : patternOf (c :: write ms) = (c, false) :: patternOf (write ms) := by
        rw [patternOf]
        · simp [hc]
        · rintro d t rfl
          exact absurd rfl hc
      simp only [write_cons, Bool.false_eq_true, if_false, List.singleton_append, hp, normalize,
        List.map_cons]
      cases q with
      | false => simpa using ih _ (by simpa using h.2)
      | true =>
        have hn : counts b c = false := by simpa [hc] using h.1
        have hbr : (c == '[') = false := by
          refine beq_false_of_ne ?_
          rintro rfl
          simp [counts] at hn
        simpa [hn, hbr] using ih b (by simpa using h.2)

end Write

/-! ## Segments of a field -/

/-- What a chunk of a word adds to a field: unquoted text, with the flag `S_GLOB` of its chunk;
quoted text; and the value of a parameter, or what the delimiters leave of it. -/
inductive Seg
  | lit (t : List Mark) (glob : Bool)
  | quo (x : Str)
  | val (quoted : Bool) (v : Str)
deriving DecidableEq, Repr

/-- Unquoted text as it is stored: an escaped character of `C_ESC` has its backslash. -/
def store (t : List Mark) : Str := t.flatMap fun m => if m.2 && parseIsesc m.1 then ['\\', m.1] else [m.1]

namespace Seg

/-- The characters of a segment.  In an unquoted value the pattern characters are active. -/
def marks : Seg → List Mark
  | lit t _ => t
  | quo x => x.map fun c => (c, true)
  | val quoted v => v.map fun c => (c, quoted || c == '\\')

/-- Unquoted text is not empty, and has a backslash only behind another one. -/
def Ok : Seg → Prop
  | lit t _ => t ≠ [] ∧ ∀ m ∈ t, m.1 = '\\' → m.2 = true
  | _ => True

end Seg

/-- A field while it is put together: its text, what that stands for, and the state bits.  `calm`
says that no backslash was taken away that was not an escape. -/
structure Draft where
  cur : Str
  marks : List (Mark × Bool)
  literal : Bool
  unescaped : Bool
  glob : Bool
  globres : Bool
  calm : Bool
deriving DecidableEq, Repr

namespace Draft

/-- A new field. -/
def init : Draft := ⟨[], [], false, false, false, false, true⟩

/-- `wordlist_cat` on an open field.  The first quoted text makes all text in front of it lose its
backslashes, and unquoted text behind it comes without; a chunk that is a pattern keeps them. -/
def add (globres : Bool) (d : Draft) : Seg → Draft
  | .lit t g =>
      let keeps := !d.unescaped || g
      { d with
        cur := d.cur ++ if keeps then store t else unescape parseIsesc (store t)
        marks := d.marks ++ t.map fun m => (m, keeps && m.2 && parseIsesc m.1)
        literal := true
        glob := d.glob || g }
  | .quo x =>
      let strips := d.literal && !(d.unescaped || d.glob)
      if x.isEmpty then d
      else
        { d with
          cur := (if strips then unescape parseIsesc d.cur else d.cur) ++ x
          marks := (if strips then d.marks.map fun m => (m.1, false) else d.marks) ++
            x.map fun c => ((c, true), false)
          calm := d.calm && (!strips || settled d.marks)
          literal := true
          unescaped := true }
  | .val quoted v =>
      { d with
        cur := d.cur ++ v
        marks := d.marks ++ v.map fun c => ((c, quoted || c == '\\'), false)
        globres := d.globres || (globres && !quoted) }

/-- The draft of a field. -/
def ofSegs (globres : Bool) (segs : List Seg) : Draft := segs.foldl (add globres) init

/-- `wordlist_glob`. -/
def globs (A : List Mark → Option (List Str)) (globres : Bool) (cur : Str) : List Str :=
  if globres && !cur.any fun c => c == '*' || c == '?' || c == '[' then [cur]
  else
    match A (patternOf cur) with
    | some paths => paths
    | none => if globres then [cur] else [unescape parseIsesc cur]

/-- The end of the word. -/
def complete (A : List Mark → Option (List Str)) (d : Draft) : List Str :=
  if d.glob then globs A d.globres d.cur
  else if d.globres then globs A true d.cur
  else if d.literal && !d.unescaped then [unescape parseIsesc d.cur]
  else [d.cur]

/-- A delimiter of `IFS`. -/
def cut (A : List Mark → Option (List Str)) (globres : Bool) (d : Draft) : List Str :=
  if globres then globs A true d.cur else [d.cur]

end Draft

/-- How a field ends: with the word; at a delimiter; at a delimiter that is the last thing in the
word, and then with the word; or between two positional parameters. -/
inductive Ending
  | word
  | cut
  | last
  | brk
deriving DecidableEq, Repr

namespace Draft

/-- No character has its backslash. -/
def bare (d : Draft) : Bool := d.marks.all (!·.2)

/-- There is a pattern character, quoted or not. -/
def special (d : Draft) : Bool := d.marks.any fun m => m.1.1 == '*' || m.1.1 == '?' || m.1.1 == '['

/-- The field is no pattern, and its text can stay as it is. -/
def asIs (d : Draft) : Bool := d.bare && !magic false (d.marks.map Prod.fst)

/-- The text can be globbed as it is, and stay as it is if there is no match. -/
def resultOk (d : Draft) : Bool := d.bare && (!d.special || means false d.marks)

/-- The end of the word does the right thing. -/
def wordOk (d : Draft) : Bool :=
  if d.glob then means false d.marks && (!d.globres || d.bare)
  else if d.globres then d.resultOk
  else if d.literal && !d.unescaped then
    settled d.marks && !magic false (d.marks.map Prod.fst)
  else d.asIs

end Draft

/-- **The field ends as it should.** -/
def fieldOk (globres : Bool) (ending : Ending) (segs : List Seg) : Bool :=
  let d := Draft.ofSegs globres segs
  d.calm &&
    match ending with
    | .word => d.wordOk
    | .cut => if globres then d.resultOk else d.asIs
    | .last => (!globres || !d.special) && d.wordOk
    | .brk => d.asIs

/-! ## Fields -/

section Fields

variable {A : List Mark → Option (List Str)} {d : Draft} {t : List Mark} {ms : List (Mark × Bool)}
  {b globres : Bool} {seg : Seg} {segs : List Seg}

/-- **The text of a draft stands for the characters `t`.** -/
structure Draft.Stands (d : Draft) (t : List Mark) : Prop where
  cur : d.calm = true → d.cur = write d.marks
  escaped : Escaped d.marks
  marks : d.marks.map Prod.fst = t

theorem Draft.stands_init : Draft.init.Stands [] := ⟨fun _ => rfl, nofun, rfl⟩

theorem escaped_append {ns : List (Mark × Bool)} (hm : Escaped ms) (hn : Escaped ns) :
    Escaped (ms ++ ns) := fun m h => (List.mem_append.1 h).elim (hm m) (hn m)

theorem write_unkept {α : Type*} (f : α → Mark) (x : List α) :
    write (x.map fun a => (f a, false)) = x.map fun a => (f a).1 := by
  induction x with
  | nil => rfl
  | cons a x ih => simpa [write] using ih

theorem write_store (x : List Mark) : write (x.map fun m => (m, m.2 && parseIsesc m.1)) = store x := by
  simp [write, store, List.flatMap_map]

theorem settled_store (h : ∀ m ∈ t, m.1 = '\\' → m.2 = true) :
    settled (t.map fun m => (m, m.2 && parseIsesc m.1)) = true := by
  induction t with
  | nil => rfl
  | cons m t ih =>
    have hb : parseIsesc '\\' = true := by decide
    have hm := h m (.head _)
    simp only [List.map_cons, settled, ih fun n hn => h n (.tail _ hn), Bool.and_true,
      Bool.or_eq_true, decide_eq_true_eq]
    by_cases hc : m.1 = '\\'
    · simp [hm hc, hc, hb]
    · simp [hc]

theorem unescape_store (h : ∀ m ∈ t, m.1 = '\\' → m.2 = true) :
    unescape parseIsesc (store t) = t.map Prod.fst := by
  rw [← write_store, unescape_write ?_ (settled_store h)]
  · simp [plainText]
  · intro m hm
    obtain ⟨n, hn, rfl⟩ := List.mem_map.1 hm
    exact ⟨by simp, h n hn⟩

/-- **A segment is appended.** -/
theorem Draft.Stands.add (globres : Bool) (h : d.Stands t) (hs : seg.Ok) :
    (d.add globres seg).Stands (t ++ seg.marks) := by
  obtain ⟨hcur, hesc, hmarks⟩ := h
  cases seg with
  | lit x g =>
    refine ⟨fun hc => ?_, escaped_append hesc ?_, ?_⟩
    · rw [Draft.add, write_append, hcur hc]
      cases hk : !d.unescaped || g with
      | true => simp [write_store]
      | false => simpa [unescape_store hs.2] using (write_unkept id x).symm
    · intro m hm
      obtain ⟨n, hn, rfl⟩ := List.mem_map.1 hm
      refine ⟨fun hk => ?_, hs.2 n hn⟩
      simp only [Bool.and_eq_true] at hk
      exact ⟨hk.1.2, hk.2⟩
    · simp [Draft.add, hmarks, Seg.marks, Function.comp_def]
  | quo x =>
    unfold Draft.add
    by_cases hx : x = []
    · simpa [hx, Seg.marks] using ⟨hcur, hesc, hmarks⟩
    · have hnew : Escaped (x.map fun c => ((c, true), false)) := by
        intro m hm
        obtain ⟨c, -, rfl⟩ := List.mem_map.1 hm
        simp
      have hwrite : write (x.map fun c => ((c, true), false)) = x := by
        simpa using write_unkept (fun c => (c, true)) x
      cases hst : d.literal && !(d.unescaped || d.glob) with
      | true =>
        simp only [hx, List.isEmpty_iff, if_false, if_true]
        refine ⟨fun hc => ?_, escaped_append ?_ hnew, ?_⟩
        · simp only [Bool.not_true, Bool.false_or, Bool.and_eq_true] at hc
          rw [write_append, hwrite, hcur hc.1, unescape_write hesc hc.2]
          rw [write_unkept Prod.fst]
          rfl
        · intro m hm
          obtain ⟨n, hn, rfl⟩ := List.mem_map.1 hm
          exact ⟨nofun, (hesc n hn).2⟩
        · simp [← hmarks, Seg.marks, Function.comp_def]
      | false =>
        simp only [hx, List.isEmpty_iff, if_false, Bool.false_eq_true]
        refine ⟨fun hc => ?_, escaped_append hesc hnew, ?_⟩
        · simp only [Bool.not_false, Bool.true_or, Bool.and_true] at hc
          rw [write_append, hwrite, hcur hc]
        · simp [← hmarks, Seg.marks, Function.comp_def]
  | val quoted v =>
    refine ⟨fun hc => ?_, escaped_append hesc ?_, ?_⟩
    · have hwrite : write (v.map fun c => ((c, quoted || c == '\\'), false)) = v := by
        simpa using write_unkept (fun c => (c, quoted || c == '\\')) v
      rw [Draft.add, write_append, hcur hc, hwrite]
    · intro m hm
      obtain ⟨c, -, rfl⟩ := List.mem_map.1 hm
      exact ⟨nofun, fun hc => by simp_all⟩
    · simp [Draft.add, hmarks, Seg.marks, Function.comp_def]

theorem Draft.stands_foldl (globres : Bool) : ∀ (segs : List Seg) {d : Draft} {t : List Mark}, d.Stands t →
    (∀ seg ∈ segs, seg.Ok) → (segs.foldl (Draft.add globres) d).Stands (t ++ segs.flatMap Seg.marks)
  | [], d, t, h, _ => by simpa using h
  | seg :: segs, d, t, h, hs => by
      have := Draft.stands_foldl globres segs (h.add globres (hs seg (.head _)))
        fun s hm => hs s (.tail _ hm)
      simpa using this

theorem Draft.stands_ofSegs (hs : ∀ seg ∈ segs, seg.Ok) :
    (Draft.ofSegs globres segs).Stands (segs.flatMap Seg.marks) := by
  have := Draft.stands_foldl globres segs Draft.stands_init hs
  rwa [List.nil_append] at this

theorem magic_of_not_special (h : ∀ m ∈ t, m.1 ≠ '*' ∧ m.1 ≠ '?' ∧ m.1 ≠ '[') :
    magic false t = false := by
  induction t with
  | nil => rfl
  | cons m t ih =>
    obtain ⟨h₁, h₂, h₃⟩ := h m (.head _)
    have h₃ : (m.1 == '[') = false := beq_false_of_ne h₃
    simpa [magic, h₁, h₂, h₃] using ih fun n hn => h n (.tail _ hn)

theorem settled_of_means (he : Escaped ms) (h : means b ms = true) : settled ms = true := by
  induction ms generalizing b with
  | nil => rfl
  | cons m ms ih =>
    obtain ⟨⟨c, q⟩, k⟩ := m
    have hb := (he _ (.head _)).2
    simp only [means, Bool.and_eq_true, Bool.or_eq_true, Bool.not_eq_true'] at h hb
    simp only [settled, ih (fun m hm => he m (.tail _ hm)) h.2, Bool.and_true, Bool.or_eq_true,
      decide_eq_true_eq]
    by_cases hc : c = '\\'
    · have hq := hb hc
      have hk : k = true := by simpa [hq, hc] using h.1
      exact .inl (.inl hk)
    · exact .inl (.inr hc)

namespace Draft.Stands

theorem plainText_eq (h : d.Stands t) : plainText d.marks = t.map Prod.fst := by
  rw [← h.marks, List.map_map]
  rfl

theorem cur_eq_of_bare (h : d.Stands t) (hc : d.calm = true) (hb : d.bare = true) :
    d.cur = t.map Prod.fst := by
  rw [h.cur hc, write_bare hb, h.plainText_eq]

theorem unescape_cur (h : d.Stands t) (hc : d.calm = true) (hs : settled d.marks = true) :
    unescape parseIsesc d.cur = t.map Prod.fst := by
  rw [h.cur hc, unescape_write h.escaped hs, h.plainText_eq]

/-- `glob` is asked about the pattern of the field. -/
theorem answer_eq (hA : Globbing A) (h : d.Stands t) (hc : d.calm = true)
    (hm : means false d.marks = true) : A (patternOf d.cur) = A t := by
  rw [← hA.quoting, h.cur hc, normalize_patternOf_write h.escaped hm, hA.quoting, h.marks]

theorem any_cur (h : d.Stands t) (hc : d.calm = true) :
    (d.cur.any fun c => c == '*' || c == '?' || c == '[') = d.special := by
  rw [h.cur hc, special]
  induction d.marks with
  | nil => rfl
  | cons m ms ih =>
    rw [write_cons, List.any_append, ih, List.any_cons]
    cases m.2 <;> simp

theorem magic_of_not_special (h : d.Stands t) (hs : d.special = false) : magic false t = false := by
  refine Shish.magic_of_not_special fun m hm => ?_
  rw [← h.marks] at hm
  obtain ⟨n, hn, rfl⟩ := List.mem_map.1 hm
  have := List.any_eq_false.1 hs n hn
  simpa [not_or, and_assoc] using this

/-- **Globbing a text that means the field.** -/
theorem globs_eq (hA : Globbing A) (h : d.Stands t) (hc : d.calm = true) {r : Bool}
    (hm : d.special = true ∨ r = false → means false d.marks = true)
    (hr : r = true → d.bare = true) : globs A r d.cur = refField A t := by
  unfold globs
  rw [h.any_cur hc]
  split
  · next hs =>
    simp only [Bool.and_eq_true, Bool.not_eq_true'] at hs
    simp [refField, h.magic_of_not_special hs.2, h.cur_eq_of_bare hc (hr hs.1)]
  · next hs =>
    have hm : means false d.marks = true := by
      refine hm ?_
      cases hr' : r with
      | true => simpa [hr'] using hs
      | false => exact .inr rfl
    rw [h.answer_eq hA hc hm]
    cases ht : A t with
    | some ps => simp [hA.refField_of_some ht]
    | none =>
      rw [refField_of_none ht]
      cases hr' : r with
      | true => simp [h.cur_eq_of_bare hc (hr hr')]
      | false => simp [h.unescape_cur hc (settled_of_means h.escaped hm)]

theorem asIs_eq (h : d.Stands t) (hc : d.calm = true) (ha : d.asIs = true) :
    [d.cur] = refField A t := by
  simp only [asIs, Bool.and_eq_true, Bool.not_eq_true', h.marks] at ha
  simp [refField, ha.2, h.cur_eq_of_bare hc ha.1]

theorem globs_eq_of_result (hA : Globbing A) (h : d.Stands t) (hc : d.calm = true)
    (hr : d.resultOk = true) : globs A true d.cur = refField A t := by
  simp only [resultOk, Bool.and_eq_true, Bool.or_eq_true, Bool.not_eq_true'] at hr
  refine h.globs_eq hA hc ?_ fun _ => hr.1
  rintro (hs | hs)
  · simpa [hs] using hr.2
  · cases hs

/-- **The field at the end of the word.** -/
theorem complete_eq (hA : Globbing A) (h : d.Stands t) (hc : d.calm = true)
    (hw : d.wordOk = true) : d.complete A = refField A t := by
  unfold wordOk at hw
  unfold complete
  split_ifs at hw ⊢ with hg hr hl
  · simp only [Bool.and_eq_true, Bool.or_eq_true, Bool.not_eq_true'] at hw
    exact h.globs_eq hA hc (fun _ => hw.1) fun hr => by simpa [hr] using hw.2
  · exact h.globs_eq_of_result hA hc hw
  · simp only [Bool.and_eq_true, Bool.not_eq_true', h.marks] at hw
    simp [refField, hw.2, h.unescape_cur hc hw.1]
  · exact h.asIs_eq hc hw

/-- **The field at a delimiter.** -/
theorem cut_eq (hA : Globbing A) (h : d.Stands t) (hc : d.calm = true)
    (hk : (if globres then d.resultOk else d.asIs) = true) : d.cut A globres = refField A t := by
  unfold cut
  split_ifs at hk ⊢ with hg
  · exact h.globs_eq_of_result hA hc hk
  · exact h.asIs_eq hc hk

/-- Nothing to glob at a delimiter: the text stays as it is. -/
theorem cut_of_not_special (h : d.Stands t) (hc : d.calm = true)
    (hs : (!globres || !d.special) = true) : d.cut A globres = [d.cur] := by
  unfold cut
  split_ifs with hg
  · have hs : d.special = false := by simpa [hg] using hs
    simp [globs, h.any_cur hc, hs]
  · rfl

end Draft.Stands

end Fields

end Shish
