import Shish.Lib.Fuel
import Shish.Word.Parse

/-!
# Word/Rules — what the word parser does, without bounds

`Reads E F p s r` says that `parse_word`, with the parser at `p` and the source at `s`, comes to
`r`; `Unq`, `Dq` and `Sq` say it from inside the three loops.  There is a rule for each kind of text:
what is read from in front of it, given what is read from behind it.
-/

namespace Shish

open Source

/-! ## Sources -/

namespace Source

/-- A source behind a backslash. -/
def escaped (buf : Str) : Source := ⟨buf, true, false, false⟩

/-- A source inside single quotes. -/
def quoted (buf : Str) : Source := ⟨buf, false, true, false⟩

variable {c d : Char} {t : Str}

theorem front_cons (h : c ≠ '\\') : front false (c :: t) = c :: t := by
  rw [front]
  rintro t' - heq
  exact h (List.cons.inj heq).1

theorem front_escape (h : d ≠ '\n') : front false ('\\' :: d :: t) = '\\' :: d :: t := by
  rw [front]
  rintro t' - heq
  simp only [List.cons.injEq, true_and] at heq
  exact h heq.1

@[simp] theorem front_true : front true t = t := by
  rw [front]
  simp

@[simp] theorem front_nil : front false [] = [] := rfl

@[simp] theorem settle_ofStr (buf : Str) : (ofStr buf).settle = ofStr (front false buf) := rfl

@[simp] theorem settle_escaped (buf : Str) : (escaped buf).settle = escaped buf := by
  simp [settle, escaped, raw]

@[simp] theorem settle_quoted (buf : Str) : (quoted buf).settle = quoted buf := rfl

@[simp] theorem buf_ofStr (buf : Str) : (ofStr buf).buf = buf := rfl

@[simp] theorem buf_escaped (buf : Str) : (escaped buf).buf = buf := rfl

@[simp] theorem peek_nil : (ofStr []).peek = none := rfl

theorem logical_escape (h : d ≠ '\n') :
    logical false ('\\' :: d :: t) = '\\' :: logical true (d :: t) := by
  rw [logical]
  · rfl
  · rintro t' - - heq
    exact h (List.cons.inj heq).1

theorem peek_escape (h : d ≠ '\n') : (ofStr ('\\' :: d :: t)).peek = some '\\' := by
  simp [peek, peekn, text, raw, ofStr, logical_escape h]

theorem skip_escape (h : d ≠ '\n') : (ofStr ('\\' :: d :: t)).skip = escaped (d :: t) := by
  simp only [skip, ofStr, raw, Bool.or_self, Bool.false_eq_true, if_false, front_escape h, escaped,
    beq_self_eq_true, Bool.not_false, Bool.and_self, if_true]
  split
  · next heq => exact absurd (List.cons.inj heq).1 h
  · rfl

/-- Induction over the continuations in front of a text. -/
theorem front_induction {P : Str → Prop} (nil : P []) (lone : P ['\\'])
    (plain : ∀ c t, c ≠ '\\' → P (c :: t)) (esc : ∀ d t, d ≠ '\n' → P ('\\' :: d :: t))
    (drop : ∀ t, P t → P ('\\' :: '\n' :: t)) : ∀ t, P t
  | [] => nil
  | [c] => if hc : c = '\\' then hc ▸ lone else plain c [] hc
  | c :: d :: t =>
      if hc : c = '\\' then
        if hd : d = '\n' then hc ▸ hd ▸ drop t (front_induction nil lone plain esc drop t)
        else hc ▸ esc d t hd
      else plain c (d :: t) hc

theorem peek_eq (t : Str) : (ofStr t).peek = (front false t).head? := by
  induction t using front_induction with
  | nil => rfl
  | lone => rfl
  | plain c t hc => rw [front_cons hc, peek_cons hc]; rfl
  | esc d t hd => rw [front_escape hd, peek_escape hd]; rfl
  | drop t ih => exact ih

theorem front_suffix (t : Str) : front false t <:+ t := by
  induction t using front_induction with
  | nil => exact List.suffix_rfl
  | lone => exact List.suffix_rfl
  | plain c t hc => simp [front_cons hc]
  | esc d t hd => simp [front_escape hd]
  | drop t ih => exact ih.trans ⟨['\\', '\n'], rfl⟩

theorem front_front (t : Str) : front false (front false t) = front false t := by
  induction t using front_induction with
  | nil => rfl
  | lone => rfl
  | plain c t hc => rw [front_cons hc, front_cons hc]
  | esc d t hd => rw [front_escape hd, front_escape hd]
  | drop t ih => exact ih

/-- A continuation does not reach into what follows, unless that starts with a newline. -/
theorem front_append (hd : d ≠ '\n') (hd' : d ≠ '\\') (x : Str) :
    front false (x ++ d :: t) = front false x ++ d :: t := by
  induction x using front_induction with
  | nil => exact front_cons hd'
  | lone => exact front_escape hd
  | plain c x hc => rw [List.cons_append, front_cons hc, front_cons hc]; rfl
  | esc e x he => rw [List.cons_append, List.cons_append, front_escape he, front_escape he]; rfl
  | drop x ih => exact ih

@[simp] theorem peek_escaped : (escaped (c :: t)).peek = some c := by
  simp [peek, peekn, text, raw, escaped, logical]

@[simp] theorem skip_escaped : (escaped (c :: t)).skip = ofStr t := by
  simp [skip, escaped, raw, ofStr]

@[simp] theorem peek_quoted : (quoted (c :: t)).peek = some c := rfl

@[simp] theorem skip_quoted : (quoted (c :: t)).skip = quoted t := by
  simp [skip, quoted, raw]

end Source

variable {κ : Type} {E : Grammar κ} {F : PFlags} {p q : Parser κ} {s : Source}
  {r : Parser κ × Source} {flags : SFlags} {b : Bool} {c d : Char} {t x : Str}

/-- The flags a word of a command is read with. -/
def PFlags.ofWord (nokeywd noredir bquote : Bool) : PFlags :=
  ⟨nokeywd, noredir, false, bquote, false, false⟩

/-! ## Readings -/

/-- `parse_word` goes on from here to `r`. -/
def Reads (E : Grammar κ) (F : PFlags) (p : Parser κ) (s : Source) (r : Parser κ × Source) : Prop :=
  Soon fun n => wordLoop E n F p s = some r

/-- `parse_word` goes on to `r` from what one of the three loops returns. -/
def Leads (E : Grammar κ) (F : PFlags) (r : Parser κ × Source) : Bool × Parser κ × Source → Prop
  | (true, p, s) => (p.finish F, s) = r
  | (false, p, s) => Reads E F p s r

/-- `parse_unquoted` goes on from here, and then `parse_word`. -/
def Unq (E : Grammar κ) (F : PFlags) (flags : SFlags) (inBracket : Bool) (p : Parser κ) (s : Source)
    (r : Parser κ × Source) : Prop :=
  ∃ r', (Soon fun n => parseUnquoted E n F flags inBracket p s = some r') ∧ Leads E F r r'

/-- `parse_dquoted` goes on from here, and then `parse_word`. -/
def Dq (E : Grammar κ) (F : PFlags) (p : Parser κ) (s : Source) (r : Parser κ × Source) : Prop :=
  ∃ r', (Soon fun n => parseDquoted E n F p s = some r') ∧ Leads E F r r'

/-- `parse_squoted` goes on from here, and then `parse_word`. -/
def Sq (E : Grammar κ) (F : PFlags) (p : Parser κ) (s : Source) (r : Parser κ × Source) : Prop :=
  ∃ r', (Soon fun n => squotedLoop F n p s = some r') ∧ Leads E F r r'

example (flags : SFlags) (inBracket : Bool) : wordLoop E 0 F p s = none ∧ parseDquoted E 0 F p s = none ∧
    squotedLoop F 0 p s = none ∧ parseUnquoted E 0 F flags inBracket p s = none := by
  rw [wordLoop, parseDquoted, squotedLoop, parseUnquoted]
  simp

theorem reads_nil : Reads E F p (ofStr []) (p.finish F, ofStr []) := by
  refine Soon.of_succ fun n => ?_
  simp [wordLoop]

/-- A round of `parse_word`. -/
theorem reads_round {f : ℕ → Option (Bool × Parser κ × Source)} {r' : Bool × Parser κ × Source}
    (h : Soon fun n => f n = some r') (hl : Leads E F r r')
    (hw : ∀ n, wordLoop E (n + 1) F p s = (f n).bind fun (stop, p, s) =>
      if stop then some (p.finish F, s) else wordLoop E n F p s) : Reads E F p s r := by
  obtain ⟨stop, p', s'⟩ := r'
  cases stop with
  | true =>
    refine h.next fun n hn => ?_
    rw [hw, hn]
    exact congrArg some hl
  | false =>
    have hl : Soon fun n => wordLoop E n F p' s' = some r := hl
    refine (h.and hl).next fun n ⟨hn, hm⟩ => ?_
    rw [hw, hn]
    exact hm

theorem reads_unquoted (hp : p.quot = .unquoted) (hs : s.settle.peek = some c)
    (h : Unq E F .none false p s.settle r) : Reads E F p s r := by
  obtain ⟨r', hr, hl⟩ := h
  refine reads_round hr hl fun n => ?_
  simp only [wordLoop, hs, hp]
  rfl

theorem reads_dquoted (hp : p.quot = .dquoted) (hs : s.settle.peek = some c)
    (h : Dq E F p s.settle r) : Reads E F p s r := by
  obtain ⟨r', hr, hl⟩ := h
  refine reads_round hr hl fun n => ?_
  simp only [wordLoop, hs, hp]
  rfl

theorem reads_squoted (hp : p.quot = .squoted) (hs : s.settle.peek = some c)
    (h : Sq E F p.noName { s.settle with squoted := true } r) : Reads E F p s r := by
  obtain ⟨r', hr, hl⟩ := h
  refine reads_round hr hl fun n => ?_
  have hq : { p.noName with quot := .squoted } = p.noName := by
    unfold Parser.noName
    split <;> simp [← hp]
  simp only [wordLoop, hs, hp, parseSquoted, hq]
  rfl

/-! ## Single quotes -/

section Squoted

theorem Parser.catEsc_eq : p.catEsc c = { p with sa := p.sa ++ escape [c] } := by
  unfold Parser.catEsc Parser.catc escape
  split_ifs <;> simp_all

@[simp] theorem Parser.sa_string : (p.string flags).sa = [] := by
  unfold Parser.string
  split_ifs with h
  · simp_all
  · split
    · split_ifs <;> rfl
    · rfl

theorem Parser.string_idle (hs : p.sa = []) (hq : p.quot = .unquoted) : p.string flags = p := by
  simp [Parser.string, hs, hq]

/-- Up to the closing quote. -/
theorem sq_close (hF : F.here = false) : ∀ {x : Str} {p : Parser κ}, '\'' ∉ x →
    Reads E F { { p with sa := p.sa ++ escape x }.string .none with quot := .unquoted }
      (ofStr t) r → Sq E F p (quoted (x ++ '\'' :: t)) r
  | [], p, _, h => by
      have hq : ({ p.string .none with quot := .unquoted } : Parser κ).string .none =
          { p.string .none with quot := .unquoted } := Parser.string_idle Parser.sa_string rfl
      refine ⟨(false, _, _), Soon.of_succ fun n => ?_, h⟩
      simp only [escape_nil, List.append_nil, List.nil_append, squotedLoop, peek_quoted, hF,
        skip_quoted, Bool.not_false, beq_self_eq_true, Bool.and_self, if_true, hq]
      rfl
  | c :: x, p, hx, h => by
      obtain ⟨hc, hx⟩ := not_or.1 (mt List.mem_cons.2 hx)
      have hc' : (c == '\'') = false := beq_false_of_ne (Ne.symm hc)
      obtain ⟨r', hr, hl⟩ := sq_close (p := p.catEsc c) hF hx (by
        simpa [Parser.catEsc_eq, escape_cons (x := x)] using h)
      refine ⟨r', hr.next fun n hn => ?_, hl⟩
      rw [List.cons_append, squotedLoop]
      simpa [hF, hc'] using hn

end Squoted

/-! ## Unquoted text -/

section Unquoted

/-- A character that `parse_unquoted` takes as it is, and that does not make the word a pattern. -/
def Inert (c : Char) : Prop :=
  c ∉ ['\\', '"', '\'', '`', '$', '<', '>', '[', ']'] ∧ parseIsctrl c = false ∧
    parseIsspace c = false ∧ parseIsesc c = false

instance (c : Char) : Decidable (Inert c) := inferInstanceAs (Decidable (_ ∧ _ ∧ _ ∧ _))

theorem unq_delimiter (hp : p.quot = .unquoted) (hF : F.substw = false)
    (hc : (parseIsctrl c || parseIsspace c) = true) :
    Unq E F flags b p (ofStr (c :: t)) ((p.delimit F flags).finish F, ofStr (c :: t)) := by
  have hne : c ∉ ['\\', '"', '\'', '`', '$', '<', '>'] := by
    simp only [List.mem_cons, List.not_mem_nil, or_false]
    rintro (rfl | rfl | rfl | rfl | rfl | rfl | rfl) <;> exact absurd hc (by decide)
  simp only [List.mem_cons, List.not_mem_nil, or_false, not_or] at hne
  obtain ⟨h₁, h₂, h₃, h₄, h₅, h₆, h₇⟩ := hne
  refine ⟨(true, _, _), Soon.of_succ fun n => ?_, rfl⟩
  obtain ⟨quot, tok, sa, tree⟩ := p
  obtain rfl : quot = .unquoted := hp
  simp [parseUnquoted, front_cons h₁, peek_cons h₁, h₁, h₂, h₃, h₄, h₅, h₆, h₇, hc, hF]

theorem unq_inert (hp : p.quot = .unquoted) (hF : F.substw = false) (hc : Inert c)
    (h : Unq E F flags b (p.plain c) (ofStr t) r) : Unq E F flags b p (ofStr (c :: t)) r := by
  obtain ⟨hne, hctrl, hspace, hesc⟩ := hc
  simp only [List.mem_cons, List.not_mem_nil, or_false, not_or] at hne
  obtain ⟨h₁, h₂, h₃, h₄, h₅, h₆, h₇, h₈, h₉⟩ := hne
  obtain ⟨r', hr, hl⟩ := h
  refine ⟨r', hr.next fun n hn => ?_, hl⟩
  obtain ⟨quot, tok, sa, tree⟩ := p
  obtain rfl : quot = .unquoted := hp
  simpa [parseUnquoted, front_cons h₁, peek_cons h₁, skip_cons h₁, h₁, h₂, h₃, h₄, h₅, h₆, h₇, h₈, h₉,
    hctrl, hspace, hesc, hF] using hn

/-- The characters that are not inert. -/
theorem inert_of_not_mem (h : c ∉ ['\\', '"', '\'', '`', '$', '<', '>', '[', ']', '&', '(', ')', ';',
    '|', ' ', '\t', '\n', '\r', '*', '?']) : Inert c := by
  simp only [List.mem_cons, List.not_mem_nil, or_false, not_or] at h
  simp [Inert, parseIsctrl, parseIsspace, parseIsesc, h]

theorem inert_of_isname (h : parseIsname c 1) : Inert c := by
  refine inert_of_not_mem fun hc => ?_
  simp only [List.mem_cons, List.not_mem_nil, or_false] at hc
  rcases hc with rfl | rfl | rfl | rfl | rfl | rfl | rfl | rfl | rfl | rfl | rfl | rfl | rfl | rfl |
    rfl | rfl | rfl | rfl | rfl | rfl <;> exact absurd h (by decide)

theorem escape_of_inert (h : ∀ c ∈ x, Inert c) : escape x = x := by
  induction x with
  | nil => rfl
  | cons c x ih =>
    rw [escape_cons, ih fun d hd => h d (.tail _ hd)]
    simp [escape, (h c (.head _)).2.2.2]

/-- The tokens a word is while its text is read. -/
def Tok.IsWord (tok : Tok) : Prop := tok = .name ∨ tok = .word ∨ tok = .assign

theorem Parser.plain_eq (hp : p.tok.IsWord) :
    ∃ tok : Tok, tok.IsWord ∧ p.plain c = { p with tok := tok, sa := p.sa ++ [c] } := by
  obtain ⟨quot, tok, sa, tree⟩ := p
  simp only [Parser.plain, Parser.catc]
  split_ifs
  · exact ⟨.word, .inr (.inl rfl), rfl⟩
  · exact ⟨.assign, .inr (.inr rfl), rfl⟩
  · exact ⟨.word, .inr (.inl rfl), rfl⟩
  · exact ⟨tok, hp, rfl⟩

/-- A run of inert text. -/
theorem unq_text (hF : F.substw = false) : ∀ {x : Str} {p : Parser κ}, p.quot = .unquoted →
    p.tok.IsWord → (∀ c ∈ x, Inert c) →
    ∃ tok : Tok, tok.IsWord ∧ ∀ {flags b t r},
      Unq E F flags b { p with tok := tok, sa := p.sa ++ x } (ofStr t) r →
        Unq E F flags b p (ofStr (x ++ t)) r
  | [], p, _, hp', _ => ⟨p.tok, hp', fun h => by simpa using h⟩
  | c :: x, p, hp, hp', hx => by
      obtain ⟨tok, htok, heq⟩ := Parser.plain_eq (c := c) hp'
      obtain ⟨tok', htok', h'⟩ := unq_text (p := p.plain c) hF (by simpa [heq] using hp)
        (by simpa [heq] using htok) fun d hd => hx d (.tail _ hd)
      refine ⟨tok', htok', fun h => unq_inert hp hF (hx c (.head _)) (h' ?_)⟩
      rw [heq]
      simpa using h

theorem unq_squote (hp : p.quot = .unquoted) (hF : F.dqsubst = false)
    (h : Reads E F ({ p.string .none with quot := .squoted }.string .none) (ofStr t) r) :
    Unq E F flags b p (ofStr ('\'' :: t)) r := by
  refine ⟨(false, _, _), Soon.of_succ fun n => ?_, h⟩
  obtain ⟨quot, tok, sa, tree⟩ := p
  obtain rfl : quot = .unquoted := hp
  simp [parseUnquoted, front_cons, peek_cons, skip_cons, hF]

theorem unq_dquote (hp : p.quot = .unquoted)
    (h : Reads E F ({ p.string .none with quot := .dquoted }.string .none) (ofStr t) r) :
    Unq E F flags b p (ofStr ('"' :: t)) r := by
  refine ⟨(false, _, _), Soon.of_succ fun n => ?_, h⟩
  obtain ⟨quot, tok, sa, tree⟩ := p
  obtain rfl : quot = .unquoted := hp
  simp [parseUnquoted, front_cons, peek_cons, skip_cons]

theorem Parser.inTildePrefix_of_tree (h : p.tree ≠ []) : p.inTildePrefix = false := by
  have : p.tree.isEmpty = false := by simpa using h
  simp [Parser.inTildePrefix, this]

/-- An escaped character that does not bear on a tilde-prefix. -/
theorem unq_escape (hp : p.quot = .unquoted) (hs : F.substw = false) (hF : F.dqsubst = false)
    (hd : d ∉ ['\n', '~', '/'])
    (htilde : ({ p with sa := p.sa ++ if parseIsesc d then ['\\'] else [] }).inTildePrefix = false)
    (h : Unq E F { flags with escaped := true } b
      { p with tok := if p.tok = .assign then .assign else .word, sa := p.sa ++ escape [d] }
      (ofStr t) r) :
    Unq E F flags b p (ofStr ('\\' :: d :: t)) r := by
  simp only [List.mem_cons, List.not_mem_nil, or_false, not_or] at hd
  obtain ⟨h₁, h₂, h₃⟩ := hd
  obtain ⟨r', hr, hl⟩ := h
  refine ⟨r', hr.next fun n hn => ?_, hl⟩
  obtain ⟨quot, tok, sa, tree⟩ := p
  obtain rfl : quot = .unquoted := hp
  simp only [escape, List.flatMap_cons, List.flatMap_nil, List.append_nil] at hn
  simp only [Parser.inTildePrefix] at htilde
  simp only [parseUnquoted, settle_ofStr, front_escape h₁, peek_escape h₁, skip_escape h₁,
    peek_escaped, skip_escaped, hs, hF, if_true, Bool.false_and, Bool.false_eq_true, if_false]
  by_cases htok : tok = .assign <;> cases hesc : parseIsesc d
  all_goals
    simp_all [Parser.plain, Parser.catc, Parser.inTildePrefix]

/-- A word ends here. -/
def Ends (rest : Str) : Prop := ∀ c ∈ rest.head?, parseIsctrl c || parseIsspace c

/-- The end of a word behind a closing quote. -/
theorem reads_end {tok : Tok} {tree : List (Part κ)} {rest : Str} (hs : F.substw = false) (htree : tree ≠ []) (hrest : Ends rest) :
    Reads E F ⟨.unquoted, tok, [], tree⟩ (ofStr rest)
      (⟨.unquoted, tok, [], tree⟩, ofStr rest) := by
  have htree' : tree.isEmpty = false := by simpa using htree
  have hfin : (⟨.unquoted, tok, [], tree⟩ : Parser κ).finish F = ⟨.unquoted, tok, [], tree⟩ := by
    simp [Parser.finish, htree', Parser.string]
  cases rest with
  | nil =>
    have := @reads_nil κ E F ⟨.unquoted, tok, [], tree⟩
    rwa [hfin] at this
  | cons c rest =>
    have hc := hrest c rfl
    have hc' : c ≠ '\\' := by
      rintro rfl
      exact absurd hc (by decide)
    refine reads_unquoted (c := c) rfl ?_ ?_
    · rw [settle_ofStr, front_cons hc', peek_cons hc']
    · rw [settle_ofStr, front_cons hc']
      have := @unq_delimiter κ E F ⟨.unquoted, tok, [], tree⟩ .none false c rest rfl hs hc
      have hdel : (⟨.unquoted, tok, [], tree⟩ : Parser κ).delimit F .none = ⟨.unquoted, tok, [], tree⟩ := by
        simp [Parser.delimit, htree', Parser.string]
      rwa [hdel, hfin] at this

end Unquoted

/-! ## Double quotes -/

section Dquoted

/-- Inside double quotes, in a word. -/
structure Parser.InDq (p : Parser κ) : Prop where
  quot : p.quot = .dquoted
  tok : p.tok ≠ .name

theorem Parser.InDq.noName_eq (h : p.InDq) : p.noName = p := by
  simp [Parser.noName, h.tok]

theorem Parser.InDq.eq (h : p.InDq) : { p.noName with quot := .dquoted } = p := by
  rw [h.noName_eq, ← h.quot]

theorem dq_front : Dq E F p (ofStr (front false t)) r ↔ Dq E F p (ofStr t) r := by
  have heq : ∀ n, parseDquoted E (n + 1) F p (ofStr (front false t)) =
      parseDquoted E (n + 1) F p (ofStr t) := by
    intro n
    have hs : (ofStr (front false t)).settle = (ofStr t).settle := by
      rw [settle_ofStr, front_front, settle_ofStr]
    simp only [parseDquoted, hs]
  constructor
  all_goals
    rintro ⟨r', ⟨N, hN⟩, hl⟩
    refine ⟨r', ⟨N + 1, fun n hn => ?_⟩, hl⟩
    obtain ⟨m, rfl⟩ : ∃ m, n = m + 1 := ⟨n - 1, by omega⟩
    have := hN (m + 1) (by omega)
    simpa only [heq] using this

/-- A continuation is not seen. -/
theorem dq_continuation (h : Dq E F p (ofStr t) r) : Dq E F p (ofStr ('\\' :: '\n' :: t)) r := by
  rw [← dq_front] at h ⊢
  exact h

theorem dq_next {f : ℕ → Option (Bool × Parser κ × Source)} (hF : F.here = false)
    (h : Dq E F (p.catEsc d) s r) (hw : ∀ n, f (n + 1) = dquotedChar E n F d p s) :
    ∃ r', (Soon fun n => f n = some r') ∧ Leads E F r r' := by
  obtain ⟨r', hr, hl⟩ := h
  refine ⟨r', ?_, hl⟩
  have hc : Soon fun n => dquotedChar E n F d p s = some r' := by
    refine hr.next fun n hn => ?_
    simpa [dquotedChar, hF] using hn
  exact hc.next fun n hn => (hw n).trans hn

/-- A character that stands for itself. -/
theorem dq_char (hp : p.InDq) (hF : F.here = false) (hc : c ∉ ['\\', '`', '$', '"'])
    (hs : s = ofStr (c :: t) ∨ s = escaped (c :: t)) (h : Dq E F (p.catEsc c) (ofStr t) r) :
    Dq E F p s r := by
  simp only [List.mem_cons, List.not_mem_nil, or_false, not_or] at hc
  obtain ⟨h₁, h₂, h₃, h₄⟩ := hc
  refine dq_next hF h fun n => ?_
  rcases hs with rfl | rfl
  · simp [parseDquoted, hp.eq, front_cons h₁, peek_cons h₁, skip_cons h₁, h₁, h₂, h₃, h₄]
  · simp [parseDquoted, hp.eq, h₁, h₂, h₃, h₄]

/-- An escaped character. -/
theorem dq_escape (hp : p.InDq) (hF : F.here = false) (hd : (parseIsdesc d || d == '\\') = true)
    (h : Dq E F (p.catEsc d) (ofStr t) r) : Dq E F p (ofStr ('\\' :: d :: t)) r := by
  have hn : d ≠ '\n' := by
    rintro rfl
    exact absurd hd (by decide)
  refine dq_next hF h fun n => ?_
  simp [parseDquoted, hp.eq, front_escape hn, peek_escape hn, skip_escape hn, hF, hd]

/-- A backslash that stands for itself. -/
theorem dq_backslash (hp : p.InDq) (hF : F.here = false)
    (hd : (parseIsdesc d || d == '\\') = false) (hn : d ≠ '\n')
    (h : Dq E F (p.catEsc '\\') (escaped (d :: t)) r) : Dq E F p (ofStr ('\\' :: d :: t)) r := by
  refine dq_next hF h fun n => ?_
  simp [parseDquoted, hp.eq, front_escape hn, peek_escape hn, skip_escape hn, hF, hd]

/-- A dollar with nothing to substitute behind it. -/
theorem dq_dollar (hp : p.InDq) (hc : (front false t).head? = some c)
    (hc' : (parseIsparam c || c == '{' || c == '(') = false)
    (h : Dq E F ((p.string .none).catc '$') (ofStr t) r) : Dq E F p (ofStr ('$' :: t)) r := by
  have hquot : (p.string .none).quot = .dquoted := by
    rw [← hp.quot]
    unfold Parser.string
    split_ifs
    · rfl
    · split
      · split_ifs <;> rfl
      · rfl
  have hsubst : Soon fun n => parseSubst E n F (p.string .none) (ofStr ('$' :: t)) =
      some (false, (p.string .none).catc '$', ofStr t) := by
    refine Soon.of_succ fun n => ?_
    simp only [Bool.or_eq_false_iff, beq_eq_false_iff_ne, ne_eq] at hc'
    obtain ⟨⟨h₁, h₂⟩, h₃⟩ := hc'
    simp only [parseSubst, skip_cons (show '$' ≠ '\\' by decide), peek_eq t, hc]
    simp [h₁, h₂, hquot]
  obtain ⟨r', hr, hl⟩ := h
  refine ⟨r', (hsubst.and hr).next fun n ⟨hn, hm⟩ => ?_, hl⟩
  simp [parseDquoted, hp.eq, front_cons, peek_cons, hn, hm]

/-- The closing quote; it marks an empty chunk as one that was written. -/
theorem dq_close {flag : SFlags} {tree : List (Part κ)} (hp : p.InDq) (hF : F.here = false)
    (htree : p.tree = .str .dquoted flag x :: tree)
    (h : Reads E F ⟨.unquoted, p.tok, [], .str .dquoted
      { flag with quotedEmpty := flag.quotedEmpty || (x ++ p.sa).isEmpty } (x ++ p.sa) :: tree⟩
      (ofStr t) r) : Dq E F p (ofStr ('"' :: t)) r := by
  refine ⟨(false, _, _), Soon.of_succ fun n => ?_, h⟩
  obtain ⟨quot, tok, sa, tree'⟩ := p
  obtain rfl : quot = .dquoted := hp.quot
  obtain rfl : tree' = .str .dquoted flag x :: tree := htree
  have hnone : flag.or .none = flag := SFlags.or_none flag
  simp only [parseDquoted, hp.eq, settle_ofStr, front_cons (show '"' ≠ '\\' by decide),
    peek_cons (show '"' ≠ '\\' by decide), skip_cons (show '"' ≠ '\\' by decide), hF]
  cases sa with
  | cons c sa =>
    have he : (x ++ c :: sa).isEmpty = false := by simp
    simp [Parser.string, hnone, he]
  | nil => cases x with
    | cons c x => simp [Parser.string, hnone]
    | nil =>
      simp [Parser.string, hnone, hp.noName_eq]

end Dquoted

end Shish
