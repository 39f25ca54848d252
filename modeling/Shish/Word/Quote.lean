import Shish.Expand.Literal
import Shish.Word.Rules

/-!
# Word/Quote — words printed in single quotes, and read back

`set -x` and `alias` print words in single quotes.  Read back and expanded they are what they were,
but for one thing: `parse_word` looks at the character behind an opening quote before
`parse_squoted` has said that the text is quoted, and a backslash and a newline there are taken for
a continuation and dropped (`quoted_reread_iff`).
-/

namespace Shish

open Source

variable {κ : Type}

/-! ## The printers -/

/-- The text between the outer quotes: runs without a quote as they are, and `'\''` for a quote. -/
def putQuoted : Str → Str
  | [] => []
  | c :: x => if c = '\'' then '\'' :: '\\' :: '\'' :: '\'' :: putQuoted x else c :: putQuoted x

/-- `eval_print_quoted`. -/
def evalPrintQuoted (x : Str) : Str := '\'' :: putQuoted x ++ ['\'']

/-- `alias_valid`, of the name alone. -/
def aliasValid (name : Str) : Bool :=
  !name.isEmpty && name.all fun c => parseIsname c 1 || "!%,-@".toList.contains c

/-- `alias_print`. -/
def aliasPrint (pre : Bool) (name code : Str) : Str :=
  (if pre then "alias ".toList else []) ++ name ++ '=' :: '\'' :: putQuoted code ++ ['\'', '\n']

/-! ## What is read -/

/-- What quoted text is read as; the first argument says that the quote has just been opened. -/
def reread : Bool → Str → Str
  | true, '\\' :: '\n' :: x => reread true x
  | _, c :: x => c :: reread (c == '\'') x
  | _, [] => []

example : reread true ['\\', '\n', 'a'] = ['a'] ∧ putQuoted ['a'] = ['a'] := by simp [reread, putQuoted]

/-- No backslash-newline stands in front or behind a single quote. -/
def Rereads (x : Str) : Prop := ¬ ['\\', '\n'] <+: x ∧ ¬ ['\'', '\\', '\n'] <:+: x

instance (x : Str) : Decidable (Rereads x) := inferInstanceAs (Decidable (_ ∧ _))

section Reread

variable {x t : Str}

theorem length_reread_le : ∀ (b : Bool) (x : Str), (reread b x).length ≤ x.length := by
  intro b x
  fun_induction reread b x with
  | case1 x ih => exact ih.trans (by simp only [List.length_cons]; omega)
  | case2 b c x h ih => simpa using ih
  | case3 => simp

theorem reread_true_cons {c : Char} (h : ¬ ['\\', '\n'] <+: c :: x) :
    reread true (c :: x) = c :: reread (c == '\'') x := by
  rw [reread]
  rintro t - rfl rfl
  exact h ⟨t, rfl⟩

/-- A dropped pair is missed at the end. -/
theorem reread_eq_iff : ∀ (b : Bool) (x : Str), reread b x = x ↔
    (b = true → ¬ ['\\', '\n'] <+: x) ∧ ¬ ['\'', '\\', '\n'] <:+: x := by
  intro b x
  fun_induction reread b x with
  | case1 x ih =>
    have := length_reread_le true x
    constructor
    · intro h
      rw [h, List.length_cons, List.length_cons] at this
      omega
    · intro h
      exact absurd ⟨x, rfl⟩ (h.1 rfl)
  | case2 b c x h ih =>
    have hb : b = true → ¬ ['\\', '\n'] <+: c :: x := by
      rintro rfl ⟨t, ht⟩
      obtain ⟨rfl, rfl⟩ := List.cons.inj ht
      exact h t rfl rfl rfl
    simp only [List.cons.injEq, true_and, ih, List.infix_cons_iff, List.cons_prefix_cons, beq_iff_eq]
    constructor
    · rintro ⟨h₁, h₂⟩
      exact ⟨by simpa using hb, by rintro (⟨rfl, hx⟩ | hx) <;> simp_all⟩
    · rintro ⟨-, h₂⟩
      exact ⟨fun hc hx => h₂ (.inl ⟨hc.symm, by simpa using hx⟩), fun hx => h₂ (.inr hx)⟩
  | case3 => simp

theorem reread_cons_false (c : Char) : reread false (c :: x) = c :: reread (c == '\'') x := by
  rw [reread]
  exact nofun

theorem reread_true (x : Str) : reread true x = reread false (front false x) := by
  induction x using front_induction with
  | nil => rfl
  | lone => rfl
  | plain c x hc =>
    rw [front_cons hc, reread_cons_false, reread_true_cons]
    rintro ⟨t, ht⟩
    exact hc (List.cons.inj ht).1.symm
  | esc d x hd =>
    rw [front_escape hd, reread_cons_false, reread_true_cons]
    rintro ⟨t, ht⟩
    exact hd (List.cons.inj (List.cons.inj ht).2).1.symm
  | drop x ih => exact ih

theorem reread_false_append : ∀ {x : Str}, '\'' ∉ x → reread false (x ++ t) = x ++ reread false t
  | [], _ => rfl
  | c :: x, hx => by
      obtain ⟨hc, hx⟩ := not_or.1 (mt List.mem_cons.2 hx)
      rw [List.cons_append, reread_cons_false, beq_false_of_ne (Ne.symm hc), reread_false_append hx]
      rfl

theorem quote_not_mem_front (hx : '\'' ∉ x) : '\'' ∉ front false x :=
  fun h => hx ((front_suffix x).subset h)

/-- Up to the next quote. -/
theorem reread_quote (hx : '\'' ∉ x) :
    reread true (x ++ '\'' :: t) = front false x ++ '\'' :: reread true t := by
  rw [reread_true, front_append (by decide) (by decide), reread_false_append (quote_not_mem_front hx),
    reread_cons_false]
  rfl

/-- Up to the end. -/
theorem reread_text (hx : '\'' ∉ x) : reread true x = front false x := by
  rw [reread_true, ← List.append_nil (front false x), reread_false_append (quote_not_mem_front hx)]
  rfl

theorem putQuoted_append : ∀ {x : Str}, '\'' ∉ x → putQuoted (x ++ t) = x ++ putQuoted t
  | [], _ => rfl
  | c :: x, hx => by
      obtain ⟨hc, hx⟩ := not_or.1 (mt List.mem_cons.2 hx)
      rw [List.cons_append, putQuoted, if_neg (Ne.symm hc), putQuoted_append hx]
      rfl

end Reread

/-! ## Reading it back -/

section Reading

variable {E : Grammar κ} {F : PFlags} {tok : Tok} {tree : List (Part κ)} {r : Parser κ × Source}
  {x t rest : Str}

/-- The token of a word with quotes in it. -/
def Tok.quoted (tok : Tok) : Tok := if tok = .name then .word else tok

/-- Quoted text and the closing quote, behind an opening one. -/
theorem reads_run (hF : F.here = false) (hx : '\'' ∉ x)
    (h : Reads E F ⟨.unquoted, tok.quoted, [], .str .squoted .none (escape (front false x)) :: tree⟩
      (ofStr t) r) :
    Reads E F ⟨.squoted, tok, [], .str .squoted .none [] :: tree⟩ (ofStr (x ++ '\'' :: t)) r := by
  have hs : (ofStr (x ++ '\'' :: t)).settle = ofStr (front false x ++ '\'' :: t) := by
    rw [settle_ofStr, front_append (by decide) (by decide)]
  have hpeek : ∃ c, (ofStr (x ++ '\'' :: t)).settle.peek = some c := by
    rw [settle_ofStr, peek_eq, front_front, front_append (by decide) (by decide)]
    cases front false x <;> simp
  obtain ⟨c, hc⟩ := hpeek
  refine reads_squoted rfl hc ?_
  rw [hs]
  refine sq_close hF (quote_not_mem_front hx) ?_
  convert h using 1
  unfold Parser.noName Tok.quoted
  split_ifs <;> simp_all [Parser.string]

/-- An escaped quote and an opening one. -/
theorem reads_reopen {flag : SFlags} {s : Str} (hs : F.substw = false) (hF : F.dqsubst = false)
    (htok : tok = .word ∨ tok = .assign)
    (h : Reads E F ⟨.squoted, tok, [], .str .squoted .none [] :: .str .unquoted .none ['\''] ::
      .str .squoted flag s :: tree⟩ (ofStr t) r) :
    Reads E F ⟨.unquoted, tok, [], .str .squoted flag s :: tree⟩
      (ofStr ('\\' :: '\'' :: '\'' :: t)) r := by
  have hf : front false ('\\' :: '\'' :: '\'' :: t) = '\\' :: '\'' :: '\'' :: t :=
    front_escape (by decide)
  refine reads_unquoted (c := '\\') rfl ?_ ?_
  · rw [settle_ofStr, hf, peek_escape (by decide)]
  · rw [settle_ofStr, hf]
    refine unq_escape rfl hs hF (by decide) (Parser.inTildePrefix_of_tree (by simp)) ?_
    refine unq_squote rfl hF ?_
    convert h using 1
    rcases htok with rfl | rfl <;> rfl

theorem Tok.IsWord.quoted (h : tok.IsWord) : tok.quoted = .word ∨ tok.quoted = .assign := by
  rcases h with rfl | rfl | rfl
  · exact .inl rfl
  · exact .inl rfl
  · exact .inr rfl

theorem Tok.quoted_quoted : tok.quoted.quoted = tok.quoted := by
  unfold Tok.quoted
  split_ifs <;> simp_all

/-- **Quoted text as printed**, behind the opening quote. -/
theorem reads_putQuoted (hs : F.substw = false) (hd : F.dqsubst = false) (hF : F.here = false)
    (hrest : Ends rest) (x : Str) (tok : Tok) (tree : List (Part κ)) (htok : tok.IsWord) :
    ∃ (s : Str) (parts : List (Part κ)),
      Reads E F ⟨.squoted, tok, [], .str .squoted .none [] :: tree⟩ (ofStr (putQuoted x ++ '\'' :: rest))
        (⟨.unquoted, tok.quoted, [], (.str .squoted .none s :: parts).reverse ++ tree⟩, ofStr rest) ∧
      (∀ part ∈ .str .squoted .none s :: parts, part.Literal) ∧
      (.str .squoted .none s :: parts).flatMap Part.text = reread true x := by
  by_cases hx : '\'' ∈ x
  · obtain ⟨y, t, rfl, hy⟩ := List.eq_append_cons_of_mem hx
    have hword : tok.quoted.IsWord := .inr htok.quoted
    obtain ⟨s, parts, hr, hlit, htext⟩ := reads_putQuoted hs hd hF hrest t tok.quoted
      (.str .unquoted .none ['\''] :: .str .squoted .none (escape (front false y)) :: tree) hword
    refine ⟨escape (front false y), .str .unquoted .none ['\''] :: .str .squoted .none s :: parts,
      ?_, ?_, ?_⟩
    · rw [putQuoted_append hy, List.append_assoc]
      refine reads_run hF hy (reads_reopen hs hd htok.quoted ?_)
      rw [Tok.quoted_quoted] at hr
      simpa using hr
    · exact List.forall_mem_cons.2 ⟨literal_escape _ fun _ => nofun,
        List.forall_mem_cons.2 ⟨literal_escape ['\''] nofun, hlit⟩⟩
    · rw [reread_quote hy, List.flatMap_cons, List.flatMap_cons, htext]
      simp [Part.text, unescape_escape, unescape]
  · refine ⟨escape (front false x), [], ?_, ?_, ?_⟩
    · have hput : putQuoted x = x := by
        have := putQuoted_append (t := []) hx
        simpa [putQuoted] using this
      rw [hput]
      exact reads_run hF hx (reads_end hs (by simp) hrest)
    · exact List.forall_mem_singleton.2 (literal_escape _ fun _ => nofun)
    · rw [reread_text hx]
      simp [Part.text, unescape_escape]
termination_by x.length
decreasing_by
  rename_i h
  rw [h]
  simp only [List.length_append, List.length_cons]
  omega

/-- The input up to `rest` is one word, and expands to the field `x` and no other. -/
def RereadAs (E : Grammar κ) (F : PFlags) (S : Shell κ) (wl : Wordlist) (input rest x : Str) : Prop :=
  ∃ p wl', (Soon fun n => parseWord E n F (ofStr input) = some (p, ofStr rest)) ∧
    (p.tok = .word ∨ p.tok = .assign) ∧ expandArgs S p.tree.reverse wl = some wl' ∧ wl'.fields = [x]

section RereadAs

variable {S : Shell κ} {wl wl' : Wordlist} {p : Parser κ} {input y : Str}

/-- Parsing has one result. -/
theorem parseWord_unique {q : Parser κ} (hp : Reads E F .init (ofStr input) (p, ofStr rest))
    (hq : Soon fun n => parseWord E n F (ofStr input) = some (q, ofStr rest)) : p = q := by
  have hw : Soon fun n => parseWord E n F (ofStr input) = some (p, ofStr rest) :=
    hp.next fun n hn => hn
  obtain ⟨n, h₁, h₂⟩ := (hw.and hq).exists_of
  simpa using h₁.symm.trans h₂

/-- And so has expanding. -/
theorem rereadAs_iff (hp : Reads E F .init (ofStr input) (p, ofStr rest))
    (htok : p.tok = .word ∨ p.tok = .assign) (he : expandArgs S p.tree.reverse wl = some wl')
    (hy : wl'.fields = [y]) : RereadAs E F S wl input rest x ↔ y = x := by
  constructor
  · rintro ⟨q, wl'', hq, -, he', hx⟩
    obtain rfl := parseWord_unique hp hq
    obtain rfl := Option.some.inj (he.symm.trans he')
    simpa [hy] using hx
  · rintro rfl
    exact ⟨p, wl', hp.next fun n hn => hn, htok, he, hy⟩

end RereadAs

variable (E) (S : Shell κ) (ifs : Option Str) (noglob : Bool) (junk : ℕ → Option Str)
  (globbed : Str → Option (List Str)) (nokeywd noredir bquote : Bool)

theorem rereadAs_evalPrintQuoted (hrest : Ends rest) (x y : Str) :
    RereadAs E (.ofWord nokeywd noredir bquote) S (.init ifs noglob junk globbed)
      (evalPrintQuoted x ++ rest) rest y ↔ reread true x = y := by
  obtain ⟨s, parts, hr, hlit, htext⟩ := reads_putQuoted (E := E)
    (F := .ofWord nokeywd noredir bquote) rfl rfl rfl hrest x .name [] (.inl rfl)
  obtain ⟨wl', hw, hfields⟩ := expandArgs_literal S (.init ifs noglob junk globbed) rfl rfl hlit
    ⟨_, .head _, nofun⟩ (by cases parts <;> simp [expandBraceNeeded, Part.unquoted])
    (by simp [expandTildeNeeded, Part.unquoted])
  rw [fields_init, List.nil_append, htext] at hfields
  refine rereadAs_iff (p := ⟨.unquoted, .word, [], (.str .squoted .none s :: parts).reverse⟩) ?_
    (.inl rfl) (by simpa using hw) hfields
  rw [evalPrintQuoted, List.cons_append, List.cons_append, List.append_assoc]
  refine reads_unquoted (c := '\'') rfl rfl (unq_squote rfl rfl ?_)
  rw [List.append_nil] at hr
  exact hr

theorem rereadAs_aliasPrint {name : Str} (hname : aliasValid name) (x y : Str) :
    RereadAs E (.ofWord nokeywd noredir bquote) S (.init ifs noglob junk globbed)
      (aliasPrint false name x ++ rest) ('\n' :: rest) y ↔ name ++ '=' :: reread true x = y := by
  have hinert : ∀ c ∈ name ++ ['='], Inert c := by
    simp only [aliasValid, Bool.and_eq_true, List.all_eq_true, Bool.or_eq_true] at hname
    intro c hc
    rcases List.mem_append.1 hc with hc | hc
    · rcases hname.2 c hc with h | h
      · exact inert_of_isname h
      · simp at h
        rcases h with rfl | rfl | rfl | rfl | rfl <;> decide
    · obtain rfl := List.mem_singleton.1 hc
      decide
  obtain ⟨c, name', rfl⟩ : ∃ c name', name = c :: name' := by
    cases name with
    | nil => exact absurd hname (by decide)
    | cons c name' => exact ⟨c, name', rfl⟩
  have hc : Inert c := hinert c (by simp)
  have hc' : c ≠ '\\' := fun h => hc.1 (h ▸ List.mem_cons_self)
  obtain ⟨tok, htok, htext⟩ := @unq_text κ E (.ofWord nokeywd noredir bquote) rfl (c :: name' ++ ['='])
    .init rfl (.inl rfl) hinert
  have hends : Ends ('\n' :: rest) := by
    rintro c ⟨⟩
    decide
  obtain ⟨s, parts, hr, hlit, hparts⟩ := reads_putQuoted (E := E)
    (F := .ofWord nokeywd noredir bquote) rfl rfl rfl hends x tok
    [.str .unquoted .none (c :: name' ++ ['='])] htok
  have hlit' : ∀ part ∈ .str .unquoted .none (c :: name' ++ ['=']) :: .str .squoted .none s :: parts,
      (part : Part κ).Literal := by
    refine List.forall_mem_cons.2 ⟨?_, hlit⟩
    have := @literal_escape κ .unquoted (c :: name' ++ ['=']) nofun
    rwa [escape_of_inert hinert] at this
  have htilde : c ≠ '~' := by
    rintro rfl
    simp [aliasValid] at hname
    exact absurd hname.1 (by decide)
  obtain ⟨wl', hw, hfields⟩ := expandArgs_literal S (.init ifs noglob junk globbed) rfl rfl hlit'
    ⟨.str .squoted .none s, .tail _ (.head _), nofun⟩ rfl
    (by simpa [expandTildeNeeded, Part.unquoted] using htilde)
  rw [List.flatMap_cons, hparts, fields_init, List.nil_append] at hfields
  refine rereadAs_iff (p := ⟨.unquoted, tok.quoted, [],
    (.str .unquoted .none (c :: name' ++ ['=']) :: .str .squoted .none s :: parts).reverse⟩) ?_
    htok.quoted (by simpa using hw) (hfields.trans ?_)
  · have hread : aliasPrint false (c :: name') x ++ rest =
        (c :: name' ++ ['=']) ++ '\'' :: (putQuoted x ++ '\'' :: '\n' :: rest) := by
      simp [aliasPrint]
    rw [hread]
    refine reads_unquoted (c := c) rfl ?_ ?_
    · rw [settle_ofStr, List.cons_append, List.cons_append, front_cons hc', peek_cons hc']
    · rw [settle_ofStr, List.cons_append, List.cons_append, front_cons hc']
      refine htext (unq_squote rfl rfl ?_)
      rw [List.reverse_cons]
      exact hr
  · have : (.str .unquoted .none (c :: name' ++ ['=']) : Part κ).text = c :: name' ++ ['='] := by
      have := unescape_escape (c :: name' ++ ['='])
      rwa [escape_of_inert hinert] at this
    rw [this, List.append_assoc]
    rfl

/-- **When quoted output reads back.**  What `eval_print_quoted` writes for `x` is read as the one
field `x`, and what `alias_print` writes for an alias of that text as the word of its definition,
exactly if no backslash-newline stands at the front of `x` or behind a single quote of it. -/
theorem quoted_reread_iff (hrest : Ends rest) (x : Str) :
    (RereadAs E (.ofWord nokeywd noredir bquote) S (.init ifs noglob junk globbed)
      (evalPrintQuoted x ++ rest) rest x ↔ Rereads x) ∧
    ∀ name, aliasValid name → (RereadAs E (.ofWord nokeywd noredir bquote) S
      (.init ifs noglob junk globbed) (aliasPrint false name x ++ rest) ('\n' :: rest)
      (name ++ '=' :: x) ↔ Rereads x) := by
  have hx : reread true x = x ↔ Rereads x := by
    rw [reread_eq_iff, Rereads]
    simp
  refine ⟨?_, fun name hname => ?_⟩
  · rw [rereadAs_evalPrintQuoted E S ifs noglob junk globbed nokeywd noredir bquote hrest, hx]
  · rw [rereadAs_aliasPrint E S ifs noglob junk globbed nokeywd noredir bquote hname, ← hx]
    simp

end Reading

/-- `it's *` is printed as `'it'\''s *'`. -/
theorem quoted_reread_its :
    RereadAs .none (.ofWord true false false) .bare (.init none false (fun _ => none) fun _ => none)
      (evalPrintQuoted "it's *".toList ++ ['\n']) ['\n'] "it's *".toList ∧
    RereadAs .none (.ofWord true false false) .bare (.init none false (fun _ => none) fun _ => none)
      (aliasPrint false "a".toList "it's *".toList ++ []) ['\n'] "a=it's *".toList :=
  have hends : Ends ['\n'] := by
    rintro c ⟨⟩
    decide
  have hnil : Ends [] := nofun
  ⟨(quoted_reread_iff .none .bare none false (fun _ => none) (fun _ => none) true false false hends
      "it's *".toList).1.mpr (by decide),
    ((quoted_reread_iff .none .bare none false (fun _ => none) (fun _ => none) true false false hnil
      "it's *".toList).2 "a".toList (by decide)).mpr (by decide)⟩

/-- A backslash-newline behind the opening quote is lost. -/
theorem quoted_drops_continuation :
    ¬ RereadAs .none (.ofWord true false false) .bare (.init none false (fun _ => none) fun _ => none)
      (evalPrintQuoted "\\\nx".toList ++ ['\n']) ['\n'] "\\\nx".toList ∧
    RereadAs .none (.ofWord true false false) .bare (.init none false (fun _ => none) fun _ => none)
      (evalPrintQuoted "\\\nx".toList ++ ['\n']) ['\n'] "x".toList := by
  have hends : Ends ['\n'] := by
    rintro c ⟨⟩
    decide
  rw [rereadAs_evalPrintQuoted _ _ _ _ _ _ _ _ _ hends, rereadAs_evalPrintQuoted _ _ _ _ _ _ _ _ _ hends]
  decide

end Shish
