import Shish.Word.Pieces

/-!
# Word/ReadPieces — reading a word piece by piece

`parse_word` makes the chunks of the pieces a word is written in (`reads_pieces`).  The parser behind
some of the pieces is that of a `Reading`, and each piece takes it to the next one.
-/

namespace Shish

open Source

variable {κ : Type}

/-! ## Unquoted text -/

section Unquoted

variable {E : Grammar κ} {F : PFlags} {r : Parser κ × Source} {tok : Tok} {R : Reading} {m : Mark}
  {c : Char} {x y t rest : Str}

/-- Unquoted text behind the chunk makes a chunk of its own. -/
def Chunk.Apart : Chunk → Prop
  | lit .. => False
  | quo quot .. => quot ≠ .unquoted
  | param _ => True

/-- The unquoted text belongs to no chunk yet. -/
def Reading.Fresh (R : Reading) : Prop := ∀ chunk ∈ R.chunks.head?, chunk.Apart

/-- The parser behind what was read. -/
def Reading.parser (R : Reading) (tok : Tok) : Parser κ :=
  ⟨.unquoted, tok, store R.text, R.chunks.map Chunk.part⟩

theorem Reading.Fresh.string (h : R.Fresh) (tok : Tok) (flag : SFlags) :
    (R.parser tok : Parser κ).string flag = ⟨.unquoted, tok, [], (R.stored flag).map Chunk.part⟩ := by
  obtain ⟨cs, u, flag', bracket⟩ := R
  cases u with
  | nil => simp [Reading.parser, Reading.stored, Parser.string, store]
  | cons m u =>
    have hne : (store (m :: u)).isEmpty = false := by simp [store_eq_nil]
    cases cs with
    | nil => simp [Reading.parser, Reading.stored, Parser.string, hne, Chunk.part]
    | cons chunk cs =>
      have hc : chunk.Apart := h chunk rfl
      cases chunk with
      | lit => exact absurd hc id
      | quo q => simp [Reading.parser, Reading.stored, Parser.string, hne, Chunk.part, show q ≠ .unquoted from hc]
      | param => simp [Reading.parser, Reading.stored, Parser.string, hne, Chunk.part]

/-- Quoted text is stored. -/
theorem string_joinQuo {quot : Quoting} (hq : quot ≠ .unquoted) (tok : Tok) (x : Str) : ∀ (cs : List Chunk),
    (⟨quot, tok, escape x, cs.map Chunk.part⟩ : Parser κ).string .none =
      ⟨quot, tok, [], (joinQuo quot x cs).map Chunk.part⟩
  | [] | .param _ :: _ => by simp [Parser.string, joinQuo, hq, Chunk.part]
  | .lit t flag :: cs => by simp [Parser.string, joinQuo, hq, hq.symm, Chunk.part]
  | .quo q flag y :: cs => by
      have hflag : flag.or .none = flag := SFlags.or_none flag
      by_cases h : q = quot
      · simp [Parser.string, joinQuo, hq, Chunk.part, h, hflag, escape_append]
      · simp [Parser.string, joinQuo, hq, Chunk.part, h]

theorem apart_joinQuo {quot : Quoting} (hq : quot ≠ .unquoted) (x : Str) (cs : List Chunk) :
    ∀ chunk ∈ (joinQuo quot x cs).head?, chunk.Apart := by
  intro chunk hm
  match cs with
  | [] | .param _ :: _ | .lit _ _ :: _ =>
    obtain rfl := Option.some.inj hm
    exact hq
  | .quo q flag y :: cs =>
    simp only [joinQuo] at hm
    split_ifs at hm with h
    all_goals
      obtain rfl := Option.some.inj hm
    · exact h ▸ hq
    · exact hq

/-- The first chunk of the word does not start with a tilde; it is the last one of the list. -/
def Untilded (cs : List Chunk) : Prop :=
  ∀ t flag, cs.getLast? = some (.lit t flag) → (store t).head? ≠ some '~'

theorem Untilded.cons {cs : List Chunk} (h : Untilded cs) {chunk : Chunk}
    (hc : ∀ t flag, chunk ≠ .lit t flag) : Untilded (chunk :: cs) := by
  cases cs with
  | nil =>
    intro t flag hl
    exact absurd (Option.some.inj hl) (hc t flag)
  | cons c cs =>
    intro t flag hl
    rw [List.getLast?_cons_cons] at hl
    exact h t flag hl

theorem Untilded.joinQuo {cs : List Chunk} (h : Untilded cs) (quot : Quoting) (x : Str) :
    Untilded (joinQuo quot x cs) := by
  match cs, h with
  | [], h | .param _ :: _, h | .lit _ _ :: _, h => exact h.cons nofun
  | .quo q flag y :: cs, h =>
    simp only [Shish.joinQuo]
    split_ifs
    · refine Untilded.cons ?_ nofun
      cases cs with
      | nil => exact nofun
      | cons c cs =>
        intro t flag hl
        refine h t flag ?_
        rwa [List.getLast?_cons_cons]
    · exact h.cons nofun

/-- What is known of a reading: its chunks are as the parser makes them, and no tilde-prefix stands
in the text. -/
structure Reading.Good (R : Reading) : Prop where
  fresh : R.Fresh
  tilde : R.chunks = [] → tildeFree ':' (store R.text) = true
  chunks : ∀ chunk ∈ R.chunks, chunk.Ok
  untilded : Untilded R.chunks
  text : ∀ m ∈ R.text, m.1 = '\\' → m.2 = true
  nosplit : R.flag.nosplit = false
  heredoc : R.flag.heredoc = false

theorem joinQuo_ne_nil {quot : Quoting} {cs : List Chunk} : joinQuo quot x cs ≠ [] := by
  unfold joinQuo
  split
  · split_ifs <;> simp
  · simp

theorem ok_joinQuo {quot : Quoting} (hq : quot ≠ .unquoted) {cs : List Chunk}
    (h : ∀ chunk ∈ cs, chunk.Ok) : ∀ chunk ∈ joinQuo quot x cs, chunk.Ok := by
  have hnew : (Chunk.quo quot .none x).Ok := ⟨hq, rfl, rfl, rfl⟩
  match cs, h with
  | [], _ => exact List.forall_mem_singleton.2 hnew
  | .param _ :: _, h | .lit _ _ :: _, h => exact List.forall_mem_cons.2 ⟨hnew, h⟩
  | .quo q flag y :: cs, h =>
    simp only [joinQuo]
    split_ifs with hqq
    · obtain ⟨hq', hcs⟩ := List.forall_mem_cons.1 h
      exact List.forall_mem_cons.2 ⟨hq', hcs⟩
    · exact List.forall_mem_cons.2 ⟨hnew, h⟩

/-- What a character can do. -/
theorem Reading.mark_cases (R : Reading) (m : Mark) :
    R.mark m = ⟨joinQuo .squoted [m.1] (R.stored { R.flag with escaped := true }), [],
      { R.flag with escaped := true }, R.bracket⟩ ∨
    ∃ glob escaped bracket, R.mark m = ⟨R.chunks, R.text ++ [m],
      { R.flag with glob := glob, escaped := escaped }, bracket⟩ := by
  by_cases hq : m.2 = true
  · by_cases hown : m.1 = '~' ∨ m.1 = '/'
    · exact .inl (by simp [Reading.mark, hq, hown])
    · exact .inr ⟨_, _, _, by simp only [Reading.mark, if_pos hq, if_neg hown]; rfl⟩
  · exact .inr ⟨_, _, _, by simp only [Reading.mark, if_neg hq]; rfl⟩

namespace Reading.Good

theorem stored (h : R.Good) {flag : SFlags} (hn : flag.nosplit = false) (hh : flag.heredoc = false) :
    ∀ chunk ∈ R.stored flag, chunk.Ok := by
  unfold Reading.stored
  split_ifs with ht
  · exact h.chunks
  · exact List.forall_mem_cons.2 ⟨⟨⟨by simpa using ht, h.text⟩, hn, hh⟩, h.chunks⟩

theorem untilded_stored (h : R.Good) (flag : SFlags) : Untilded (R.stored flag) := by
  unfold Reading.stored
  split_ifs with ht
  · exact h.untilded
  · cases hc : R.chunks with
    | nil =>
      rintro t flag ⟨⟩ htilde
      have hfree := h.tilde hc
      cases hs : store R.text with
      | nil => simp [hs] at htilde
      | cons c x =>
        obtain rfl : c = '~' := by simpa [hs] using htilde
        rw [hs] at hfree
        exact absurd hfree (by simp [tildeFree])
    | cons c cs =>
      intro t flag hl
      rw [List.getLast?_cons_cons, ← hc] at hl
      exact h.untilded t flag hl

theorem mark (h : R.Good) (hm : MarkOk m)
    (htilde : R.chunks = [] → tildeFree ':' (store (R.text ++ [m])) = true) : (R.mark m).Good := by
  have htext : ∀ n ∈ R.text ++ [m], n.1 = '\\' → n.2 = true := by
    intro n hn hb
    rcases List.mem_append.1 hn with hn | hn
    · exact h.text n hn hb
    · obtain rfl := List.mem_singleton.1 hn
      by_contra hq
      simp only [MarkOk, hq, if_false, hb] at hm
      exact absurd hm (by decide)
  rcases R.mark_cases m with heq | ⟨glob, escaped, bracket, heq⟩
  · rw [heq]
    exact ⟨apart_joinQuo (by decide) _ _, fun hnil => absurd hnil joinQuo_ne_nil,
      ok_joinQuo (by decide) (h.stored h.nosplit h.heredoc), (h.untilded_stored _).joinQuo _ _, nofun,
      h.nosplit, h.heredoc⟩
  · rw [heq]
    exact ⟨h.fresh, htilde, h.chunks, h.untilded, htext, h.nosplit, h.heredoc⟩

end Reading.Good

end Unquoted

/-! ## Quoted text -/

section Quoted

variable {E : Grammar κ} {F : PFlags} {r : Parser κ × Source} {tok : Tok} {p : Parser κ} {R : Reading}
  {cs : List Chunk} {x y t rest name : Str}

/-- Where quoted text goes. -/
theorem joinQuo_eq (quot : Quoting) (cs : List Chunk) :
    ∃ flag y cs', ∀ x, joinQuo quot x cs = .quo quot flag (y ++ x) :: cs' := by
  match cs with
  | [] => exact ⟨.none, [], [], fun _ => rfl⟩
  | .param p :: cs => exact ⟨.none, [], .param p :: cs, fun _ => rfl⟩
  | .lit u flag :: cs => exact ⟨.none, [], .lit u flag :: cs, fun _ => rfl⟩
  | .quo q flag y :: cs =>
    by_cases h : q = quot
    · exact ⟨flag, y, cs, fun x => by simp [joinQuo, h]⟩
    · exact ⟨.none, [], .quo q flag y :: cs, fun x => by simp [joinQuo, h]⟩

end Quoted

/-! ## Whole words -/

section Pieces

variable {E : Grammar κ} {F : PFlags} {r : Parser κ × Source} {tok : Tok} {R : Reading}
  {piece : Piece} {ps : List Piece} {cs : List Chunk} {x rest : Str}

theorem joinDouble_ne_nil {qs : List (Str × Str)} : joinDouble x qs cs ≠ [] := by
  obtain ⟨flag, y, cs', h⟩ := joinQuo_eq .dquoted cs
  unfold joinDouble
  rw [h]
  split_ifs <;> simp [markEmpty]

theorem apart_joinDouble {qs : List (Str × Str)} :
    ∀ chunk ∈ (joinDouble x qs cs).head?, chunk.Apart := by
  obtain ⟨flag, y, cs', h⟩ := joinQuo_eq .dquoted cs
  have hq : (Quoting.dquoted) ≠ .unquoted := by decide
  intro chunk hm
  rcases List.eq_nil_or_concat qs with rfl | ⟨qs, q, rfl⟩
  · simp only [joinDouble, h, markEmpty, List.isEmpty_nil, if_true, List.head?_cons] at hm
    obtain rfl := Option.some.inj hm
    exact hq
  · have hne : (qs.concat q).isEmpty = false := by simp
    simp [joinDouble, pairChunks] at hm
    subst hm
    exact hq

theorem ok_joinDouble {qs : List (Str × Str)} (h : ∀ chunk ∈ cs, chunk.Ok) :
    ∀ chunk ∈ joinDouble x qs cs, chunk.Ok := by
  have hjoin := @ok_joinQuo x .dquoted (by decide) cs h
  unfold joinDouble
  split_ifs with hqs
  · obtain ⟨flag, y, cs', heq⟩ := joinQuo_eq .dquoted cs
    rw [heq] at hjoin ⊢
    obtain ⟨⟨h₁, h₂, h₃, h₄⟩, hcs⟩ := List.forall_mem_cons.1 hjoin
    exact List.forall_mem_cons.2 ⟨⟨h₁, h₂, h₃, h₄⟩, hcs⟩
  · intro chunk hm
    rcases List.mem_append.1 hm with hm | hm
    · simp only [pairChunks, List.mem_reverse, List.mem_flatMap, List.mem_cons, List.not_mem_nil,
        or_false] at hm
      obtain ⟨q, -, rfl | rfl⟩ := hm
      · exact ⟨rfl, rfl⟩
      · exact ⟨by decide, rfl, rfl, rfl⟩
    · exact hjoin chunk hm

theorem Untilded.append (h : Untilded cs) : ∀ (cs' : List Chunk),
    (∀ chunk ∈ cs', ∀ t flag, chunk ≠ .lit t flag) → Untilded (cs' ++ cs)
  | [], _ => h
  | chunk :: cs', hc =>
      (h.append cs' fun c hm => hc c (.tail _ hm)).cons (hc chunk (.head _))

theorem Untilded.joinDouble (h : Untilded cs) {qs : List (Str × Str)} :
    Untilded (joinDouble x qs cs) := by
  have hjoin := h.joinQuo .dquoted x
  unfold Shish.joinDouble
  split_ifs
  · obtain ⟨flag, y, cs', heq⟩ := joinQuo_eq .dquoted cs
    rw [heq] at hjoin ⊢
    refine Untilded.cons ?_ (fun _ _ h => by cases h)
    cases cs' with
    | nil =>
      intro t flag hl
      cases hl
    | cons c cs' =>
      intro t flag hl
      refine hjoin t flag ?_
      rwa [List.getLast?_cons_cons]
  · refine hjoin.append _ fun chunk hm => ?_
    simp only [pairChunks, List.mem_reverse, List.mem_flatMap, List.mem_cons, List.not_mem_nil,
      or_false] at hm
    obtain ⟨q, -, rfl | rfl⟩ := hm
    all_goals
      intro t flag h
      cases h

namespace Reading.Good

theorem init : Reading.init.Good where
  fresh := by
    intro chunk h
    cases h
  tilde _ := rfl
  chunks := List.forall_mem_nil _
  untilded := by
    intro t flag h
    cases h
  text := List.forall_mem_nil _
  nosplit := rfl
  heredoc := rfl

/-- A quote was closed. -/
theorem quote (hcs : cs ≠ []) (hap : ∀ chunk ∈ cs.head?, chunk.Apart) (hok : ∀ chunk ∈ cs, chunk.Ok)
    (hun : Untilded cs) : ({ Reading.init with chunks := cs } : Reading).Good :=
  ⟨hap, fun hnil => absurd hnil hcs, hok, hun, nofun, rfl, rfl⟩

theorem single (h : R.Good) (x : Str) : (R.piece (.single x)).Good :=
  quote joinQuo_ne_nil (apart_joinQuo (by decide) _ _) (ok_joinQuo (by decide) (h.stored rfl rfl))
    ((h.untilded_stored _).joinQuo _ _)

theorem double (h : R.Good) (x : Str) (qs : List (Str × Str)) : (R.piece (.double x qs)).Good :=
  quote joinDouble_ne_nil apart_joinDouble (ok_joinDouble (h.stored rfl rfl))
    (h.untilded_stored _).joinDouble

theorem param (h : R.Good) (name : Str) : (R.piece (.param name)).Good where
  fresh := by
    intro chunk hm
    obtain rfl := Option.some.inj hm
    exact trivial
  tilde := nofun
  chunks := List.forall_mem_cons.2 ⟨⟨rfl, rfl⟩, h.stored rfl rfl⟩
  untilded := (h.untilded_stored _).cons nofun
  text := nofun
  nosplit := h.nosplit
  heredoc := h.heredoc

end Reading.Good

/-- An opening quote. -/
theorem Reading.Fresh.opened {quot : Quoting} (h : R.Fresh) (hq : quot ≠ .unquoted) :
    ({ (R.parser tok : Parser κ).string .none with quot := quot } : Parser κ).string .none =
      ⟨quot, tok, [], (joinQuo quot [] (R.stored .none)).map Chunk.part⟩ := by
  rw [h.string]
  exact string_joinQuo hq tok [] (R.stored .none)

end Pieces

end Shish
