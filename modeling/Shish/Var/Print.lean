import Shish.Var.Search
import Shish.Word.Quote

/-!
# Var/Print — variables printed in double quotes, and read back

`var_print` puts a backslash in front of every character of `C_DESC`.  `parse_dquoted` takes a
backslash away from in front of these and of another backslash, drops a backslash-newline, and ends
the quotes at a `"` whose backslash is itself taken for an escaped one.  So the listing reads back as
the same value if no backslash of the value stands where it escapes something (`dqSafe`).
-/

namespace Shish

open Source

variable {κ : Type}

/-! ## The printer -/

/-- The text between the quotes. -/
def putDquoted (x : Str) : Str := x.flatMap fun c => if parseIsdesc c then ['\\', c] else [c]

/-- The name and, unless the variable is unset, the value. -/
def printLine (v : Var) : Str :=
  v.name ++ (if v.flags.unset then [] else '=' :: '"' :: putDquoted v.value ++ ['"']) ++ ['\n']

/-- `var_print`. -/
def varPrint (v : Var) (flags : Flags) : Str :=
  (if flags.exported then "export ".toList else []) ++ printLine v

/-! ## What is read -/

/-- Behind a dollar, the start of a substitution. -/
def substitutes (c : Char) : Bool := parseIsparam c || c == '{' || c == '('

/-- What a printed value is read as, if its reading does not leave the quotes. -/
def dqReads : Str → Option Str
  | [] => some []
  | ['\\'] => none
  | '\\' :: d :: x =>
      if d = '\n' then dqReads x
      else if d = '\\' then (dqReads x).map ('\\' :: ·)
      else if d = '$' then
        if (front false (putDquoted x)).head?.any substitutes then none
        else (dqReads x).map ('\\' :: '$' :: ·)
      else if parseIsdesc d then none
      else (dqReads x).map ('\\' :: d :: ·)
  | c :: x => (dqReads x).map (c :: ·)

/-- What may follow a backslash: nothing it escapes, and no dollar that starts a substitution.  A
character of `C_DESC` behind the dollar has a backslash of its own. -/
def behindBackslash : Str → Bool
  | [] => false
  | '$' :: c :: _ => parseIsdesc c || !substitutes c
  | d :: _ => d ≠ '\\' && d ≠ '\n' && d ≠ '"' && d ≠ '`'

/-- Every backslash of a value stands for itself. -/
def dqSafe : Str → Bool
  | [] => true
  | c :: x => (c ≠ '\\' || behindBackslash x) && dqSafe x

example : dqReads ['a'] = some ['a'] ∧ dqSafe ['a'] ∧ behindBackslash ['a'] := by
  simp [dqReads, dqSafe, behindBackslash]

section Value

variable {x y : Str} {c d : Char}

theorem putDquoted_desc (h : parseIsdesc c = true) :
    putDquoted (c :: x) = '\\' :: c :: putDquoted x := by
  simp [putDquoted, h]

theorem putDquoted_cons (h : parseIsdesc c = false) :
    putDquoted (c :: x) = c :: putDquoted x := by
  simp [putDquoted, h]

theorem dqReads_cons (h : c ≠ '\\') : dqReads (c :: x) = (dqReads x).map (c :: ·) := by
  rw [dqReads]
  · rintro rfl
    exact absurd rfl h
  · rintro d x rfl
    exact absurd rfl h

theorem length_dqReads_le (h : dqReads x = some y) : y.length ≤ x.length := by
  fun_induction dqReads x generalizing y with
  | case1 => simp_all
  | case2 | case5 | case7 => simp at h
  | case3 x ih => exact (ih h).trans (by simp only [List.length_cons]; omega)
  | case4 x _ ih | case6 x _ _ _ ih | case8 d x _ _ _ _ ih | case9 c x _ _ ih =>
    obtain ⟨z, hz, rfl⟩ := Option.map_eq_some_iff.1 h
    have := ih hz
    simp only [List.length_cons]
    omega

theorem dqSafe_cons (h : c ≠ '\\') : dqSafe (c :: x) = dqSafe x := by
  simp [dqSafe, h]

theorem dqSafe_escape (h : d ≠ '\\') :
    dqSafe ('\\' :: d :: x) = (behindBackslash (d :: x) && dqSafe x) := by
  simp [dqSafe, h]

/-- The character a dollar is printed in front of. -/
theorem head_putDquoted (hx : ¬ ['\\', '\n'] <+: c :: x) :
    (front false (putDquoted (c :: x))).head? = some (if parseIsdesc c then '\\' else c) := by
  cases hc : parseIsdesc c with
  | true =>
    have hn : c ≠ '\n' := by
      rintro rfl
      exact absurd hc (by decide)
    rw [putDquoted_desc hc, front_escape hn]
    rfl
  | false =>
    rw [putDquoted_cons hc]
    by_cases hb : c = '\\'
    · subst hb
      cases x with
      | nil => rfl
      | cons d x =>
        cases hd : parseIsdesc d with
        | true => rw [putDquoted_desc hd, front_escape (by decide)]; rfl
        | false =>
          have hn : d ≠ '\n' := by
            rintro rfl
            exact hx ⟨x, rfl⟩
          rw [putDquoted_cons hd, front_escape hn]
          rfl
    · rw [front_cons hb]
      rfl

theorem behindBackslash_dollar (hx : ¬ ['\\', '\n'] <+: x) :
    behindBackslash ('$' :: x) = !(front false (putDquoted x)).head?.any substitutes := by
  cases x with
  | nil => rfl
  | cons c x =>
    rw [head_putDquoted hx]
    by_cases hc : parseIsdesc c
    · have hs : substitutes '\\' = false := by decide
      simp [behindBackslash, hc, hs]
    · simp [behindBackslash, hc]

theorem not_continued (h : dqSafe x = true) : ¬ ['\\', '\n'] <+: x := by
  rintro ⟨t, rfl⟩
  exact absurd h (by simp [dqSafe, behindBackslash])

theorem behindBackslash_other (h₁ : d ≠ '\n') (h₂ : d ≠ '\\') (h₃ : d ≠ '$') :
    behindBackslash (d :: x) = !parseIsdesc d := by
  have : behindBackslash (d :: x) = (d ≠ '\\' && d ≠ '\n' && d ≠ '"' && d ≠ '`' : Bool) := by
    rw [behindBackslash]
    rintro c x rfl
    exact absurd rfl h₃
  simp [this, parseIsdesc, h₁, h₂, h₃]

/-- **What is read is the value if no backslash escapes anything.** -/
theorem dqReads_eq_iff (h : dqReads x = some y) : y = x ↔ dqSafe x = true := by
  fun_induction dqReads x generalizing y with
  | case1 => simp_all [dqSafe]
  | case2 | case5 | case7 => simp at h
  | case3 x ih =>
    have := length_dqReads_le h
    constructor
    · rintro rfl
      simp only [List.length_cons] at this
      omega
    · simp [dqSafe, behindBackslash]
  | case4 x _ ih =>
    obtain ⟨z, hz, rfl⟩ := Option.map_eq_some_iff.1 h
    have := length_dqReads_le hz
    constructor
    · intro heq
      have := congrArg List.length heq
      simp only [List.length_cons] at this
      omega
    · simp [dqSafe, behindBackslash]
  | case6 x hany _ _ ih =>
    obtain ⟨z, hz, rfl⟩ := Option.map_eq_some_iff.1 h
    rw [dqSafe_escape (by decide)]
    simp only [List.cons.injEq, true_and, ih hz, Bool.and_eq_true]
    refine ⟨fun hx => ⟨?_, hx⟩, And.right⟩
    rw [behindBackslash_dollar (not_continued hx)]
    simpa using hany
  | case8 d x h₁ h₂ h₃ h₄ ih =>
    obtain ⟨z, hz, rfl⟩ := Option.map_eq_some_iff.1 h
    rw [dqSafe_escape h₂, behindBackslash_other h₁ h₂ h₃]
    simpa [h₄] using ih hz
  | case9 c x h₁ h₂ ih =>
    obtain ⟨z, hz, rfl⟩ := Option.map_eq_some_iff.1 h
    have hc : c ≠ '\\' := by
      rintro rfl
      cases x with
      | nil => exact h₁ rfl rfl
      | cons d x => exact h₂ d x rfl rfl
    simpa [dqSafe_cons hc] using ih hz

theorem dqReads_of_safe (h : dqSafe x = true) : dqReads x = some x := by
  suffices hsome : ∃ y, dqReads x = some y by
    obtain ⟨y, hy⟩ := hsome
    rwa [(dqReads_eq_iff hy).2 h] at hy
  fun_induction dqReads x with
  | case1 => exact ⟨_, rfl⟩
  | case2 | case3 | case4 => simp [dqSafe, behindBackslash] at h
  | case5 x hany =>
    rw [dqSafe_escape (by decide), Bool.and_eq_true] at h
    rw [behindBackslash_dollar (not_continued h.2)] at h
    simp [hany] at h
  | case7 d x h₁ h₂ h₃ h₄ =>
    rw [dqSafe_escape h₂, behindBackslash_other h₁ h₂ h₃] at h
    simp [h₄] at h
  | case6 x _ _ _ ih =>
    rw [dqSafe_escape (by decide), Bool.and_eq_true] at h
    obtain ⟨y, hy⟩ := ih h.2
    exact ⟨_, by rw [hy]; rfl⟩
  | case8 d x h₁ h₂ h₃ h₄ ih =>
    rw [dqSafe_escape h₂, Bool.and_eq_true] at h
    obtain ⟨y, hy⟩ := ih h.2
    exact ⟨_, by rw [hy]; rfl⟩
  | case9 c x h₁ h₂ ih =>
    simp only [dqSafe, Bool.and_eq_true] at h
    obtain ⟨y, hy⟩ := ih h.2
    exact ⟨_, by rw [hy]; rfl⟩

end Value

/-! ## Reading it back -/

section Reading

variable {E : Grammar κ} {F : PFlags} {tok : Tok} {tree : List (Part κ)} {r : Parser κ × Source}
  {flag : SFlags} {rest name : Str}

theorem plain_of_not_desc {c : Char} (hc : c ≠ '\\') (hd : parseIsdesc c = false) :
    c ∉ ['\\', '`', '$', '"'] := by
  simp only [parseIsdesc, List.mem_cons, List.not_mem_nil, or_false, decide_eq_false_iff_not,
    not_or] at hd ⊢
  exact ⟨hc, hd.2.2, hd.2.1, hd.1⟩

/-- A dollar that does not start a substitution. -/
theorem dollar_stands (rest : Str) {x : Str} (h : ¬ (front false (putDquoted x)).head?.any substitutes) :
    ∃ c, (front false (putDquoted x ++ '"' :: rest)).head? = some c ∧ substitutes c = false := by
  rw [front_append (by decide) (by decide)]
  cases hx : front false (putDquoted x) with
  | nil => exact ⟨'"', rfl, by decide⟩
  | cons c t => exact ⟨c, rfl, by simpa [hx] using h⟩

/-- **A printed value**, from inside the quotes.  The chunk `z` and the text `sa` together are what
has been read of it. -/
theorem dq_value (hF : F.here = false) (htok : tok ≠ .name) (x : Str) {y : Str} (z sa : Str)
    (hx : dqReads x = some y)
    (h : Reads E F ⟨.unquoted, tok, [], .str .dquoted
      { flag with quotedEmpty := flag.quotedEmpty || (z ++ sa ++ escape y).isEmpty }
        (z ++ sa ++ escape y) :: tree⟩ (ofStr rest) r) :
    Dq E F ⟨.dquoted, tok, sa, .str .dquoted flag z :: tree⟩
      (ofStr (putDquoted x ++ '"' :: rest)) r := by
  have hdq : ∀ z sa, (⟨.dquoted, tok, sa, .str .dquoted flag z :: tree⟩ : Parser κ).InDq :=
    fun z sa => ⟨rfl, htok⟩
  fun_induction dqReads x generalizing y z sa with
  | case1 =>
    obtain rfl := Option.some.inj hx
    exact dq_close (hdq z sa) hF rfl (by simpa using h)
  | case2 | case5 | case7 => simp at hx
  | case3 x ih => exact dq_continuation (ih z sa hx h)
  | case4 x _ ih =>
    obtain ⟨y, hy, rfl⟩ := Option.map_eq_some_iff.1 hx
    rw [putDquoted_cons (by decide), putDquoted_cons (by decide)]
    refine dq_escape (hdq z sa) hF (by decide) ?_
    rw [Parser.catEsc_eq]
    exact ih z _ hy (by simpa [escape_cons (x := y)] using h)
  | case6 x hany _ _ ih =>
    obtain ⟨y, hy, rfl⟩ := Option.map_eq_some_iff.1 hx
    obtain ⟨c, hc, hsub⟩ := dollar_stands rest hany
    rw [putDquoted_cons (by decide), putDquoted_desc (by decide)]
    refine dq_escape (hdq z sa) hF (by decide) ?_
    rw [Parser.catEsc_eq]
    refine dq_dollar (hdq z _) hc hsub ?_
    have hstr : ((⟨.dquoted, tok, sa ++ escape ['\\'], .str .dquoted flag z :: tree⟩ :
        Parser κ).string .none).catc '$' =
          ⟨.dquoted, tok, ['$'], .str .dquoted flag (z ++ (sa ++ escape ['\\'])) :: tree⟩ := by
      simp [Parser.string, Parser.catc]
    rw [hstr]
    refine ih _ _ hy ?_
    have hy : escape ('\\' :: '$' :: y) = escape ['\\'] ++ (['$'] ++ escape y) := rfl
    simpa [hy] using h
  | case8 d x h₁ h₂ h₃ h₄ ih =>
    obtain ⟨y, hy, rfl⟩ := Option.map_eq_some_iff.1 hx
    have hd : (parseIsdesc d || d == '\\') = false := by simp [h₂, h₄]
    rw [putDquoted_cons (by decide), putDquoted_cons (by simpa using h₄)]
    refine dq_backslash (hdq z sa) hF hd h₁ ?_
    rw [Parser.catEsc_eq]
    refine dq_char (hdq z _) hF (plain_of_not_desc h₂ (by simpa using h₄)) (.inr rfl) ?_
    rw [Parser.catEsc_eq]
    refine ih z _ hy ?_
    simpa [escape_cons '\\' (d :: y), escape_cons d y] using h
  | case9 c x h₁ h₂ ih =>
    obtain ⟨y, hy, rfl⟩ := Option.map_eq_some_iff.1 hx
    have hc : c ≠ '\\' := by
      rintro rfl
      cases x with
      | nil => exact h₁ rfl rfl
      | cons d x => exact h₂ d x rfl rfl
    have ih := ih z (sa ++ escape [c]) hy (by simpa [escape_cons c y] using h)
    cases hd : parseIsdesc c with
    | true =>
      rw [putDquoted_desc hd]
      refine dq_escape (hdq z sa) hF (by simp [hd]) ?_
      rwa [Parser.catEsc_eq]
    | false =>
      rw [putDquoted_cons hd]
      refine dq_char (hdq z sa) hF (plain_of_not_desc hc hd) (.inl rfl) ?_
      rwa [Parser.catEsc_eq]

/-- A name stays one until the `=`. -/
theorem unq_name (hF : F.substw = false) : ∀ {x : Str} {p : Parser κ} {flags : SFlags} {b : Bool}
    {t : Str}, p.quot = .unquoted → p.tok = .name → p.sa ≠ [] → (∀ c ∈ x, isNameChar c = true) →
    Unq E F flags b { p with tok := .assign, sa := p.sa ++ x ++ ['='] } (ofStr t) r →
      Unq E F flags b p (ofStr (x ++ '=' :: t)) r
  | [], p, flags, b, t, hp, htok, hsa, _, h => by
      refine unq_inert hp hF (by decide) ?_
      have hplain : p.plain '=' = { p with tok := .assign, sa := p.sa ++ ['='] } := by
        simp [Parser.plain, Parser.catc, htok, hsa]
      rw [hplain]
      simpa using h
  | c :: x, p, flags, b, t, hp, htok, hsa, hx, h => by
      have hc : isNameChar c = true := hx c (.head _)
      have hc' : c ≠ '=' := by
        rintro rfl
        exact absurd hc (by decide)
      have hlen : 0 < p.sa.length := List.length_pos_of_ne_nil hsa
      have hf : parseIsfname c p.sa.length = true := by
        simp only [isNameChar, parseIsfname, hlen, decide_true, Bool.true_and, Bool.or_eq_true] at hc ⊢
        exact hc.imp_right .inl
      have hplain : p.plain c = { p with sa := p.sa ++ [c] } := by
        simp [Parser.plain, Parser.catc, htok, hc', hf]
      refine unq_inert hp hF (inert_of_isname (by simpa [parseIsname, isNameChar] using hc)) ?_
      rw [hplain]
      refine unq_name hF hp htok (by simp) (fun d hd => hx d (.tail _ hd)) ?_
      simpa using h

/-- The chunks of a printed line. -/
def lineParts (name y : Str) : List (Part κ) :=
  [.str .unquoted .none (name ++ ['=']),
    .str .dquoted ⟨false, false, false, false, (escape y).isEmpty⟩ (escape y)]

/-- **A printed line** is read as an assignment of what its value is read as. -/
theorem reads_line {nokeywd noredir bquote : Bool} (hname : varValid name = true) {x y : Str}
    (hx : dqReads x = some y) :
    Reads E (.ofWord nokeywd noredir bquote) .init
      (ofStr (name ++ '=' :: '"' :: (putDquoted x ++ '"' :: '\n' :: rest)))
      (⟨.unquoted, .assign, [], (lineParts name y).reverse⟩, ofStr ('\n' :: rest)) := by
  obtain ⟨c, name, rfl⟩ : ∃ c t, name = c :: t := by
    cases name with
    | nil => exact absurd hname (by decide)
    | cons c t => exact ⟨c, t, rfl⟩
  obtain ⟨hc, -, hname'⟩ := varValid_cons hname
  have hinert : Inert c := inert_of_isname (by simpa [parseIsname, isNameChar] using hc)
  have hc' : c ≠ '\\' := fun h => hinert.1 (h ▸ List.mem_cons_self)
  have hends : Ends ('\n' :: rest) := by
    rintro c ⟨⟩
    decide
  refine reads_unquoted (c := c) rfl ?_ ?_
  · rw [settle_ofStr, List.cons_append, front_cons hc', peek_cons hc']
  · rw [settle_ofStr, List.cons_append, front_cons hc']
    refine unq_inert rfl rfl hinert ?_
    have hplain : (.init : Parser κ).plain c = ⟨.unquoted, .name, [c], []⟩ := by
      have : parseIsfname c 0 = true := by
        simpa [varValid, parseIsname, parseIsfname] using (Bool.and_eq_true_iff.1 hname).1
      simp [Parser.plain, Parser.catc, Parser.init, this]
    rw [hplain]
    refine unq_name rfl rfl rfl (by simp) hname' (unq_dquote rfl ?_)
    have hopen : (({ (⟨.unquoted, .assign, [c] ++ name ++ ['='], []⟩ : Parser κ).string .none with
        quot := .dquoted } : Parser κ).string .none) =
          ⟨.dquoted, .assign, [], [.str .dquoted .none [], .str .unquoted .none (c :: name ++ ['='])]⟩ := by
      simp [Parser.string]
    rw [hopen]
    have hpeek : ∃ d, (ofStr (putDquoted x ++ '"' :: '\n' :: rest)).settle.peek = some d := by
      rw [settle_ofStr, peek_eq, front_front, front_append (by decide) (by decide)]
      cases front false (putDquoted x) <;> simp
    obtain ⟨d, hd⟩ := hpeek
    refine reads_dquoted rfl hd ?_
    rw [settle_ofStr, dq_front]
    refine dq_value (F := .ofWord nokeywd noredir bquote) rfl (by decide) x [] [] hx ?_
    exact reads_end rfl (by simp) hends

theorem line_inert (hname : varValid name = true) : ∀ c ∈ name ++ ['='], Inert c := by
  intro c hc
  rcases List.mem_append.1 hc with hc | hc
  · exact inert_of_isname (by simpa [parseIsname, isNameChar] using varValid_chars hname c hc)
  · obtain rfl := List.mem_singleton.1 hc
    decide

theorem line_literal (hname : varValid name = true) (y : Str) :
    (∀ part ∈ lineParts name y, (part : Part κ).Literal) ∧
      (lineParts name y : List (Part κ)).flatMap Part.text = name ++ '=' :: y := by
  have hesc := escape_of_inert (line_inert hname)
  have hlit := @literal_escape κ .unquoted (name ++ ['=']) (by simp)
  have htext := unescape_escape (name ++ ['='])
  rw [hesc] at hlit htext
  refine ⟨List.forall_mem_cons.2 ⟨hlit, List.forall_mem_singleton.2
    ⟨rfl, rfl, whole_escape y, fun _ => by decide⟩⟩, ?_⟩
  simp [lineParts, Part.text, htext, unescape_escape]

theorem line_no_tilde (hname : varValid name = true) (y : Str) :
    expandTildeNeeded (lineParts name y : List (Part κ)) = false ∧
      expandTildeAssignNeeded (lineParts name y : List (Part κ)) = false := by
  have hname' : '~' ∉ name := fun h => absurd (varValid_chars hname '~' h) (by decide)
  refine ⟨?_, by simp [expandTildeAssignNeeded, lineParts, Part.unquoted, hname']⟩
  cases name with
  | nil => exact absurd hname (by decide)
  | cons c name =>
    have hc : c ≠ '~' := fun h => hname' (h ▸ List.mem_cons_self)
    simpa [expandTildeNeeded, lineParts, Part.unquoted] using hc

/-- The input up to `rest` is an assignment, and is carried out with `x`. -/
def AssignsBack (E : Grammar κ) (F : PFlags) (S : Shell κ) (wl : Wordlist) (input rest x : Str) :
    Prop :=
  ∃ p wl', (Soon fun n => parseWord E n F (ofStr input) = some (p, ofStr rest)) ∧
    p.tok = .assign ∧ expandVars S p.tree.reverse wl = some wl' ∧ wl'.fields = [x]

theorem assignsBack_iff {F : PFlags} {S : Shell κ} {wl wl' : Wordlist} {p : Parser κ}
    {input x y : Str} (hp : Reads E F .init (ofStr input) (p, ofStr rest)) (htok : p.tok = .assign)
    (he : expandVars S p.tree.reverse wl = some wl') (hy : wl'.fields = [y]) :
    AssignsBack E F S wl input rest x ↔ y = x := by
  constructor
  · rintro ⟨q, wl'', hq, -, he', hx⟩
    obtain rfl := parseWord_unique hp hq
    obtain rfl := Option.some.inj (he.symm.trans he')
    simpa [hy] using hx
  · rintro rfl
    exact ⟨p, wl', hp.next fun n hn => hn, htok, he, hy⟩

/-- **The line reads back**: as an assignment, or behind `export ` as the argument of that. -/
def ReadsBack (E : Grammar κ) (F : PFlags) (S : Shell κ) (wl : Wordlist) (v : Var) (flags : Flags)
    (rest : Str) : Prop :=
  if flags.exported then ∃ line, varPrint v flags = "export ".toList ++ line ∧
    RereadAs E F S wl (line ++ rest) ('\n' :: rest) (v.name ++ '=' :: v.value)
  else AssignsBack E F S wl (varPrint v flags ++ rest) ('\n' :: rest) (v.name ++ '=' :: v.value)

variable (E) (S : Shell κ) (ifs : Option Str) (noglob : Bool) (junk : ℕ → Option Str)
  (globbed : Str → Option (List Str)) (nokeywd noredir bquote : Bool)

theorem readsBack_eq_iff {v : Var} (flags : Flags) (rest : Str) (hname : varValid v.name = true)
    (hset : v.flags.unset = false) {y : Str} (hy : dqReads v.value = some y) :
    ReadsBack E (.ofWord nokeywd noredir bquote) S (.init ifs noglob junk globbed) v flags rest ↔
      y = v.value := by
  have hline : printLine v ++ rest =
      v.name ++ '=' :: '"' :: (putDquoted v.value ++ '"' :: '\n' :: rest) := by
    simp [printLine, hset]
  have hr : Reads E (.ofWord nokeywd noredir bquote) .init (ofStr (printLine v ++ rest))
      (⟨.unquoted, .assign, [], (lineParts v.name y).reverse⟩, ofStr ('\n' :: rest)) := by
    rw [hline]
    exact reads_line hname hy
  obtain ⟨hlit, htext⟩ := @line_literal κ v.name hname y
  have hsame : v.name ++ '=' :: y = v.name ++ '=' :: v.value ↔ y = v.value := by simp
  rw [← hsame]
  unfold ReadsBack
  split_ifs with hexp
  · obtain ⟨wl', hw, hfields⟩ := expandArgs_literal S (.init ifs noglob junk globbed) rfl rfl hlit
      ⟨_, .tail _ (.head _), nofun⟩ rfl (line_no_tilde hname y).1
    rw [htext, fields_init, List.nil_append] at hfields
    rw [← rereadAs_iff hr (.inr rfl) (by simpa using hw) hfields]
    simp [varPrint, hexp]
  · obtain ⟨wl', hw, hfields⟩ := expandVars_literal S (.init ifs noglob junk globbed) rfl rfl (by simp [lineParts])
      hlit (line_no_tilde hname y).2
    rw [htext, fields_init, List.nil_append] at hfields
    have hprint : varPrint v flags = printLine v := by simp [varPrint, hexp]
    rw [hprint, assignsBack_iff hr rfl (by simpa using hw) hfields]

/-- **When a listing reads back.**  The line `var_print` writes for a variable gives the same value
again if every backslash of the value stands for itself.  It is the only case, as long as the value
is read inside the quotes. -/
theorem varPrint_reads_back {v : Var} (flags : Flags) (rest : Str) (hname : varValid v.name = true)
    (hset : v.flags.unset = false) :
    (dqSafe v.value = true →
      ReadsBack E (.ofWord nokeywd noredir bquote) S (.init ifs noglob junk globbed) v flags rest) ∧
    (dqReads v.value ≠ none →
      (ReadsBack E (.ofWord nokeywd noredir bquote) S (.init ifs noglob junk globbed) v flags rest ↔
        dqSafe v.value = true)) := by
  have hiff : ∀ {y}, dqReads v.value = some y → (ReadsBack E (.ofWord nokeywd noredir bquote) S
      (.init ifs noglob junk globbed) v flags rest ↔ dqSafe v.value = true) := by
    intro y hy
    rw [readsBack_eq_iff E S ifs noglob junk globbed nokeywd noredir bquote flags rest hname hset hy,
      dqReads_eq_iff hy]
  refine ⟨fun h => (hiff (dqReads_of_safe h)).2 h, fun h => ?_⟩
  obtain ⟨y, hy⟩ := Option.ne_none_iff_exists'.1 h
  exact hiff hy

end Reading

/-- `x` with the value `say "a\$"`, in both listings. -/
theorem varPrint_reads_back_say :
    ReadsBack .none (.ofWord true false false) .bare (.init none false (fun _ => none) fun _ => none)
      { s := "x=say \"a\\$\"".toList, len := 1, offset := 2 } {} [] ∧
    ReadsBack .none (.ofWord true false false) .bare (.init none false (fun _ => none) fun _ => none)
      { s := "x=say \"a\\$\"".toList, len := 1, offset := 2 } { exported := true } [] :=
  ⟨(varPrint_reads_back .none .bare none false (fun _ => none) (fun _ => none) true false false {} []
      (by decide) rfl).1 (by decide),
    (varPrint_reads_back .none .bare none false (fun _ => none) (fun _ => none) true false false
      { exported := true } [] (by decide) rfl).1 (by decide)⟩

/-- Two backslashes come back as one. -/
theorem varPrint_loses_backslash :
    varPrint { s := "x=\\\\".toList, len := 1, offset := 2 } {} = "x=\"\\\\\"\n".toList ∧
    ¬ ReadsBack .none (.ofWord true false false) .bare (.init none false (fun _ => none) fun _ => none)
      { s := "x=\\\\".toList, len := 1, offset := 2 } {} [] := by
  refine ⟨by decide, ?_⟩
  rw [readsBack_eq_iff _ _ _ _ _ _ _ _ _ _ _ (by decide) rfl (y := ['\\']) (by decide)]
  decide

end Shish
