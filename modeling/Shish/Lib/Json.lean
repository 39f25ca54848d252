import Shish.Lib.Components

/-!
# Lib/Json — JSON texts and a parser of them

The values are those without fractions, signs and truth values: objects, arrays, strings of bytes,
numbers and null.  `parseTexts` reads a sequence of texts one after another, with the white space,
the escapes (code units beyond ASCII become UTF-8) and the numbers of the JSON grammar.

A piece of text `ReadsAs` a value when the parser takes it off whatever may follow.  Strings read
character by character (`parseString_spelled`), arrays and objects item by item (`parseSequence_joined`),
and texts one after another (`parseTexts_flatten`).
-/

namespace Shish

/-- A JSON value. -/
inductive Json where
  | null
  | num (n : ℕ)
  | str (s : List Char)
  | arr (items : List Json)
  | obj (members : List (List Char × Json))

/-! ## The parser -/

/-- White space. -/
def isSpace (c : Char) : Bool := c = ' ' || c = '\t' || c = '\n' || c = '\r'

def skipSpace (s : List Char) : List Char := s.dropWhile isSpace

/-- The number of decimal digits. -/
def decimal (ds : List Char) : ℕ := ds.foldl (fun n c => 10 * n + (c.toNat - 48)) 0

/-- A number without sign, fraction and exponent: no 0 leads. -/
def parseNumber (s : List Char) : Option (ℕ × List Char) :=
  let ds := s.takeWhile Char.isDigit
  let rest := s.dropWhile Char.isDigit
  if ds = [] ∨ (ds.head? = some '0' ∧ ds ≠ ['0']) then none
  else if rest.head? = some '.' ∨ rest.head? = some 'e' ∨ rest.head? = some 'E' then none
  else some (decimal ds, rest)

def hexDigit (c : Char) : Option ℕ :=
  if '0' ≤ c ∧ c ≤ '9' then some (c.toNat - 48)
  else if 'a' ≤ c ∧ c ≤ 'f' then some (c.toNat - 97 + 10)
  else if 'A' ≤ c ∧ c ≤ 'F' then some (c.toNat - 65 + 10)
  else none

/-- What an escape of one letter stands for. -/
def unescapedChar (e : Char) : Option Char :=
  if e = '"' ∨ e = '\\' ∨ e = '/' then some e
  else if e = 'b' then some '\x08'
  else if e = 'f' then some '\x0c'
  else if e = 'n' then some '\n'
  else if e = 'r' then some '\r'
  else if e = 't' then some '\t'
  else none

/-- A byte of a string, or the code unit of a `\u` escape. -/
inductive JsonUnit where
  | byte (c : Char)
  | code (n : ℕ)

/-- The characters of a string, up to its closing quote. -/
def parseChars : List Char → Option (List JsonUnit × List Char)
  | [] => none
  | c :: rest =>
      if c = '"' then some ([], rest)
      else if c = '\\' then
        match rest with
        | [] => none
        | e :: rest =>
            if e = 'u' then
              match rest with
              | a :: b :: c :: d :: rest => do
                  let n := (← hexDigit a) * 4096 + (← hexDigit b) * 256 + (← hexDigit c) * 16 + (← hexDigit d)
                  let p ← parseChars rest
                  some (.code n :: p.1, p.2)
              | _ => none
            else do
              let c ← unescapedChar e
              let p ← parseChars rest
              some (.byte c :: p.1, p.2)
      else if c.toNat < 32 then none
      else do
        let p ← parseChars rest
        some (.byte c :: p.1, p.2)

/-- The UTF-8 bytes of a code point. -/
def utf8 (n : ℕ) : List Char := (String.utf8EncodeChar (Char.ofNat n)).map fun b => Char.ofNat b.toNat

/-- Code units to bytes; a high surrogate needs a low one behind it. -/
def decode : List JsonUnit → Option (List Char)
  | [] => some []
  | .byte c :: l => (decode l).map (c :: ·)
  | .code n :: l =>
      if n < 0xD800 ∨ 0xE000 ≤ n then (decode l).map (utf8 n ++ ·)
      else match l with
        | .code m :: l =>
            if n < 0xDC00 ∧ 0xDC00 ≤ m ∧ m < 0xE000 then
              (decode l).map (utf8 (0x10000 + (n - 0xD800) * 0x400 + (m - 0xDC00)) ++ ·)
            else none
        | _ => none

example : parseChars ['a', '"', 'b'] = some ([.byte 'a'], ['b']) ∧ decode [.byte 'a'] = some ['a'] := by
  simp [parseChars, decode]

/-- A string, behind its opening quote. -/
def parseString (s : List Char) : Option (List Char × List Char) := do
  let p ← parseChars s
  let t ← decode p.1
  some (t, p.2)

section Items

variable {α : Type} (item : List Char → Option (α × List Char)) (close : Char)

/-- Items with commas between them, up to the closing bracket. -/
def parseItems : ℕ → List Char → Option (List α × List Char)
  | 0, _ => none
  | fuel + 1, s => do
      let p ← item s
      match skipSpace p.2 with
      | [] => none
      | c :: r =>
          if c = ',' then (parseItems fuel r).map fun q => (p.1 :: q.1, q.2)
          else if c = close then some ([p.1], r)
          else none

/-- No items, or some. -/
def parseSequence (fuel : ℕ) (s : List Char) : Option (List α × List Char) :=
  if (skipSpace s).head? = some close then some ([], (skipSpace s).tail) else parseItems item close fuel s

end Items

/-- A key, a colon and a value. -/
def parseMember (value : List Char → Option (Json × List Char)) (s : List Char) :
    Option ((List Char × Json) × List Char) :=
  match skipSpace s with
  | [] => none
  | c :: r =>
      if c = '"' then do
        let k ← parseString r
        match skipSpace k.2 with
        | [] => none
        | c :: r => if c = ':' then (value r).map fun p => ((k.1, p.1), p.2) else none
      else none

/-- A value; the fuel is what may be nested, and how many items a bracket may hold. -/
def parseValue : ℕ → List Char → Option (Json × List Char)
  | 0, _ => none
  | fuel + 1, s =>
      match skipSpace s with
      | [] => none
      | c :: r =>
          if c = '{' then
            (parseSequence (parseMember (parseValue fuel)) '}' fuel r).map fun p => (.obj p.1, p.2)
          else if c = '[' then (parseSequence (parseValue fuel) ']' fuel r).map fun p => (.arr p.1, p.2)
          else if c = '"' then (parseString r).map fun p => (.str p.1, p.2)
          else if c = 'n' then if r.take 3 = ['u', 'l', 'l'] then some (.null, r.drop 3) else none
          else (parseNumber (c :: r)).map fun p => (.num p.1, p.2)

/-- Texts one after another, up to the end. -/
def parseTextsGo : ℕ → List Char → Option (List Json)
  | 0, _ => none
  | fuel + 1, s =>
      if skipSpace s = [] then some []
      else do
        let p ← parseValue (s.length + 1) s
        let l ← parseTextsGo fuel p.2
        some (p.1 :: l)

/-- All the texts there are. -/
def parseTexts (s : List Char) : Option (List Json) := parseTextsGo (s.length + 1) s

/-! ## Reading a piece -/

/-- No number goes on here. -/
def EndsNumber (rest : List Char) : Prop :=
  ∀ c ∈ rest.head?, c.isDigit = false ∧ c ≠ '.' ∧ c ≠ 'e' ∧ c ≠ 'E'

theorem EndsNumber.nil : EndsNumber [] := nofun

theorem EndsNumber.cons {c : Char} (hc : c.isDigit = false ∧ c ≠ '.' ∧ c ≠ 'e' ∧ c ≠ 'E') (rest : List Char) :
    EndsNumber (c :: rest) := fun _ h => Option.mem_some.1 h ▸ hc

theorem not_number_space {c : Char} (hc : isSpace c = true) :
    c.isDigit = false ∧ c ≠ '.' ∧ c ≠ 'e' ∧ c ≠ 'E' := by
  simp only [isSpace, Bool.or_eq_true, decide_eq_true_eq] at hc
  rcases hc with ((rfl | rfl) | rfl) | rfl <;> decide

theorem isSpace_digit {c : Char} (hc : c.isDigit = true) : isSpace c = false := by
  by_contra h
  rw [(not_number_space (Bool.of_not_eq_false h)).1] at hc
  exact nomatch hc

theorem EndsNumber.space {sp rest : List Char} (hsp : ∀ c ∈ sp, isSpace c = true) (h : EndsNumber rest) :
    EndsNumber (sp ++ rest) := by
  cases sp with
  | nil => exact h
  | cons c sp => exact EndsNumber.cons (not_number_space (hsp c (List.mem_cons_self ..))) _

/-- **A piece of text reads as a value**, whatever comes behind it. -/
def ReadsAs {α : Type} (p : List Char → Option (α × List Char)) (text : List Char) (v : α) : Prop :=
  ∀ rest, EndsNumber rest → p (text ++ rest) = some (v, rest)

theorem skipSpace_append {sp : List Char} (hsp : ∀ c ∈ sp, isSpace c = true) (rest : List Char) :
    skipSpace (sp ++ rest) = skipSpace rest := List.dropWhile_append_of_pos hsp

theorem skipSpace_cons {c : Char} (hc : isSpace c = false) (rest : List Char) :
    skipSpace (c :: rest) = c :: rest := List.dropWhile_cons_of_neg (by simp [hc])

/-! ## Numbers -/

theorem reads_number {ds : List Char} (hne : ds ≠ []) (hds : ∀ c ∈ ds, c.isDigit = true)
    (hlead : ds.head? = some '0' → ds = ['0']) : ReadsAs parseNumber ds (decimal ds) := by
  intro rest hrest
  have hstop : ∀ c ∈ rest.head?, ¬ c.isDigit = true := fun c hc => by
    rw [(hrest c hc).1]
    exact Bool.false_ne_true
  have htake : (ds ++ rest).takeWhile Char.isDigit = ds := by
    rw [List.takeWhile_append_of_pos hds]
    cases rest with
    | nil => simp
    | cons c rest => rw [List.takeWhile_cons_of_neg (hstop c rfl), List.append_nil]
  have hdrop : (ds ++ rest).dropWhile Char.isDigit = rest := by
    rw [List.dropWhile_append_of_pos hds]
    cases rest with
    | nil => rfl
    | cons c rest => rw [List.dropWhile_cons_of_neg (hstop c rfl)]
  unfold parseNumber
  dsimp only
  rw [htake, hdrop, if_neg, if_neg]
  · rintro (h | h | h)
    · exact (hrest _ h).2.1 rfl
    · exact (hrest _ h).2.2.1 rfl
    · exact (hrest _ h).2.2.2 rfl
  · rintro (h | ⟨h, h'⟩)
    · exact hne h
    · exact h' (hlead h)

/-! ## Strings -/

/-- **A piece of a string spells a character**: as a byte, or as its code unit. -/
def SpellsChar (e : List Char) (c : Char) : Prop :=
  ∃ u, (u = .byte c ∨ u = .code c.toNat ∧ c.toNat < 128) ∧
    ∀ rest, parseChars (e ++ rest) = (parseChars rest).map fun p => (u :: p.1, p.2)

theorem spells_self {c : Char} (hquote : c ≠ '"') (hback : c ≠ '\\') (hc : 32 ≤ c.toNat) : SpellsChar [c] c := by
  refine ⟨.byte c, .inl rfl, fun rest => ?_⟩
  rw [List.singleton_append, parseChars.eq_def]
  dsimp only
  rw [if_neg hquote, if_neg hback, if_neg (by omega)]
  cases parseChars rest <;> rfl

theorem spells_escaped {e c : Char} (he : unescapedChar e = some c) (hu : e ≠ 'u') : SpellsChar ['\\', e] c := by
  refine ⟨.byte c, .inl rfl, fun rest => ?_⟩
  change parseChars ('\\' :: e :: rest) = _
  rw [parseChars.eq_def]
  dsimp only
  rw [if_neg (by decide), if_pos rfl, if_neg hu, he]
  cases parseChars rest <;> rfl

theorem spells_code {c x y : Char} {a b : ℕ} (ha : hexDigit x = some a) (hb : hexDigit y = some b)
    (hc : a * 16 + b = c.toNat) (hlt : c.toNat < 128) : SpellsChar ['\\', 'u', '0', '0', x, y] c := by
  refine ⟨.code c.toNat, .inr ⟨rfl, hlt⟩, fun rest => ?_⟩
  change parseChars ('\\' :: 'u' :: '0' :: '0' :: x :: y :: rest) = _
  have h0 : hexDigit '0' = some 0 := by decide
  rw [parseChars.eq_def]
  dsimp only
  rw [if_neg (by decide), if_pos rfl, if_pos rfl, h0, ha, hb, ← hc]
  cases parseChars rest <;> simp

theorem utf8_ascii {c : Char} (hc : c.toNat < 128) : utf8 c.toNat = [c] := by
  have hval : c.val.toNat = c.toNat := rfl
  rw [utf8, Char.ofNat_toNat, String.utf8EncodeChar, hval, if_pos (by omega), List.map_singleton, UInt8.toNat_ofNat', Nat.mod_eq_of_lt (by omega),
    Char.ofNat_toNat]

/-- **A string reads character by character.** -/
theorem parseString_spelled {f : Char → List Char} : ∀ {s : List Char}, (∀ c ∈ s, SpellsChar (f c) c) →
    ∀ rest, parseString (s.flatMap f ++ '"' :: rest) = some (s, rest) := by
  intro s hs rest
  obtain ⟨l, hl, hdecode⟩ : ∃ l, parseChars (s.flatMap f ++ '"' :: rest) = some (l, rest) ∧
      decode l = some s := by
    induction s with
    | nil => exact ⟨[], by rw [parseChars.eq_def]; rfl, rfl⟩
    | cons c s ih =>
      rw [List.forall_mem_cons] at hs
      obtain ⟨⟨u, hu, hspell⟩, hs⟩ := hs
      obtain ⟨l, hl, hdecode⟩ := ih hs
      refine ⟨u :: l, ?_, ?_⟩
      · rw [List.flatMap_cons, List.append_assoc, hspell, hl]
        rfl
      · rcases hu with rfl | ⟨rfl, hlt⟩
        · rw [decode, hdecode]
          rfl
        · rw [decode.eq_def]
          dsimp only
          rw [if_pos (.inl (by omega)), hdecode, utf8_ascii hlt]
          rfl
  rw [parseString, hl]
  simp [hdecode]

/-! ## Items -/

section Items

variable {α : Type} {item : List Char → Option (α × List Char)} {close : Char} {sp : List Char}

/-- The closing bracket ends what is in front of it. -/
def Closes (close : Char) : Prop :=
  (close.isDigit = false ∧ close ≠ '.' ∧ close ≠ 'e' ∧ close ≠ 'E') ∧ close ≠ ',' ∧ isSpace close = false

instance (close : Char) : Decidable (Closes close) := inferInstanceAs (Decidable (_ ∧ _))

theorem parseItems_comma {s r r' : List Char} {v : α} {fuel : ℕ} (h : item s = some (v, r))
    (hr : skipSpace r = ',' :: r') :
    parseItems item close (fuel + 1) s = (parseItems item close fuel r').map fun q => (v :: q.1, q.2) := by
  rw [parseItems, h]
  simp [hr]

theorem parseItems_close {s r r' : List Char} {v : α} {fuel : ℕ} (h : item s = some (v, r))
    (hclose : close ≠ ',') (hr : skipSpace r = close :: r') :
    parseItems item close (fuel + 1) s = some ([v], r') := by
  rw [parseItems, h]
  simp [hr, hclose]

/-- **Items read one after another.** -/
theorem reads_items (hclose : Closes close) (hsp : ∀ c ∈ sp, isSpace c = true) :
    ∀ {l : List (List Char × α)}, l ≠ [] → (∀ x ∈ l, ReadsAs item x.1 x.2) →
      ∀ {fuel : ℕ}, l.length ≤ fuel → ∀ rest,
        parseItems item close fuel (joined ',' (l.map Prod.fst) ++ (sp ++ close :: rest)) =
          some (l.map Prod.snd, rest)
  | [], hne, _, _, _, _ => absurd rfl hne
  | x :: l, _, hread, 0, hfuel, _ => absurd hfuel (by simp)
  | [x], _, hread, fuel + 1, _, rest => by
      have hx := hread x (List.mem_singleton_self x) _ (EndsNumber.space hsp (EndsNumber.cons hclose.1 rest))
      rw [List.map_singleton, joined_singleton, parseItems_close hx hclose.2.1
        ((skipSpace_append hsp _).trans (skipSpace_cons hclose.2.2 rest))]
      rfl
  | x :: y :: l, _, hread, fuel + 1, hfuel, rest => by
      rw [List.forall_mem_cons] at hread
      have hx := hread.1 (',' :: (joined ',' ((y :: l).map Prod.fst) ++ (sp ++ close :: rest)))
        (EndsNumber.cons (by decide) _)
      have hlen : (y :: l).length ≤ fuel := by simpa using hfuel
      have ih := reads_items hclose hsp (List.cons_ne_nil y l) hread.2 hlen rest
      rw [List.map_cons, List.map_cons, joined_cons_cons, ← List.map_cons, List.append_assoc,
        List.cons_append, parseItems_comma hx (skipSpace_cons (by decide) _), ih]
      rfl

/-- An item does not begin with a closing bracket, also behind white space. -/
def Opens (text : List Char) : Prop :=
  ∃ c t, skipSpace text = c :: t ∧ c ≠ ']' ∧ c ≠ '}'

theorem Opens.append {text : List Char} (h : Opens text) (rest : List Char) : Opens (text ++ rest) := by
  obtain ⟨c, t, ht, hc⟩ := h
  refine ⟨c, t ++ rest, ?_, hc⟩
  unfold skipSpace at ht ⊢
  rw [List.dropWhile_append, ht]
  rfl

theorem Opens.space {text : List Char} (hsp : ∀ c ∈ sp, isSpace c = true) (h : Opens text) :
    Opens (sp ++ text) := by
  obtain ⟨c, t, ht, hc⟩ := h
  exact ⟨c, t, (skipSpace_append hsp text).trans ht, hc⟩

theorem opens_cons {c : Char} (hspace : isSpace c = false) (hc : c ≠ ']') (hc' : c ≠ '}') (t : List Char) :
    Opens (c :: t) := ⟨c, t, skipSpace_cons hspace t, hc, hc'⟩

theorem opens_digits {ds : List Char} (hne : ds ≠ []) (hds : ∀ c ∈ ds, c.isDigit = true) : Opens ds := by
  cases ds with
  | nil => exact absurd rfl hne
  | cons c ds =>
    have hc := hds c (List.mem_cons_self ..)
    refine opens_cons (isSpace_digit hc) ?_ ?_ ds
    · rintro rfl
      exact absurd hc (by decide)
    · rintro rfl
      exact absurd hc (by decide)

/-- **A bracket's items**, with white space in front of the closing bracket. -/
theorem parseSequence_joined (hclose : Closes close) (hbracket : close = ']' ∨ close = '}')
    (hsp : ∀ c ∈ sp, isSpace c = true) {l : List (List Char × α)} (hread : ∀ x ∈ l, ReadsAs item x.1 x.2)
    (hopens : ∀ x ∈ l, Opens x.1) {fuel : ℕ} (hfuel : l.length ≤ fuel) (rest : List Char) :
    parseSequence item close fuel (joined ',' (l.map Prod.fst) ++ (sp ++ close :: rest)) =
      some (l.map Prod.snd, rest) := by
  cases l with
  | nil =>
    rw [List.map_nil, joined_nil, List.nil_append, parseSequence, skipSpace_append hsp,
      skipSpace_cons hclose.2.2, if_pos List.head?_cons]
    rfl
  | cons x l =>
    have hopen : Opens (joined ',' ((x :: l).map Prod.fst) ++ (sp ++ close :: rest)) := by
      have hx := hopens x (List.mem_cons_self ..)
      cases l with
      | nil =>
        rw [List.map_singleton, joined_singleton]
        exact hx.append _
      | cons y l =>
        rw [List.map_cons, List.map_cons, joined_cons_cons, List.append_assoc]
        exact hx.append _
    obtain ⟨c, t, ht, hc, hc'⟩ := hopen
    rw [parseSequence, ht, if_neg, reads_items hclose hsp (List.cons_ne_nil x l) hread hfuel]
    rw [List.head?_cons, Option.some_inj]
    rintro rfl
    rcases hbracket with rfl | rfl
    · exact hc rfl
    · exact hc' rfl

end Items

/-! ## Values -/

section Values

variable {fuel : ℕ} {text : List Char} {sp sp' : List Char}

theorem ReadsAs.space {v : Json} (hsp : ∀ c ∈ sp, isSpace c = true) (h : ReadsAs (parseValue fuel) text v) :
    ReadsAs (parseValue fuel) (sp ++ text) v := by
  intro rest hrest
  cases fuel with
  | zero => exact absurd (h [] EndsNumber.nil) nofun
  | succ fuel =>
    have h := h rest hrest
    rw [parseValue] at h ⊢
    rwa [List.append_assoc, skipSpace_append hsp]

theorem reads_null : ReadsAs (parseValue (fuel + 1)) ['n', 'u', 'l', 'l'] .null := fun rest _ => by
  change parseValue (fuel + 1) ('n' :: 'u' :: 'l' :: 'l' :: rest) = _
  rw [parseValue, skipSpace_cons (by decide)]
  rfl

theorem reads_num {ds : List Char} (hne : ds ≠ []) (hds : ∀ c ∈ ds, c.isDigit = true)
    (hlead : ds.head? = some '0' → ds = ['0']) : ReadsAs (parseValue (fuel + 1)) ds (.num (decimal ds)) := by
  intro rest hrest
  have hnum := reads_number hne hds hlead rest hrest
  cases ds with
  | nil => exact absurd rfl hne
  | cons c ds =>
    have hc := hds c (List.mem_cons_self ..)
    have hspace := isSpace_digit hc
    have hnot : ∀ d : Char, d.isDigit = false → c ≠ d := fun d hd heq => by
      rw [heq, hd] at hc
      exact nomatch hc
    rw [List.cons_append] at hnum ⊢
    rw [parseValue, skipSpace_cons hspace]
    dsimp only
    rw [if_neg (hnot _ (by decide)), if_neg (hnot _ (by decide)), if_neg (hnot _ (by decide)),
      if_neg (hnot _ (by decide)), hnum]
    rfl

theorem reads_str {s t : List Char} (h : ∀ rest, parseString (t ++ '"' :: rest) = some (s, rest)) :
    ReadsAs (parseValue (fuel + 1)) ('"' :: (t ++ ['"'])) (.str s) := fun rest _ => by
  rw [List.cons_append, List.append_assoc, parseValue, skipSpace_cons (by decide)]
  dsimp only
  rw [if_neg (by decide), if_neg (by decide), if_pos rfl]
  exact congrArg (Option.map fun p : List Char × List Char => (Json.str p.1, p.2)) (h rest)

theorem reads_arr {l : List (List Char × Json)} (hsp : ∀ c ∈ sp, isSpace c = true)
    (hread : ∀ x ∈ l, ReadsAs (parseValue fuel) x.1 x.2) (hopens : ∀ x ∈ l, Opens x.1)
    (hfuel : l.length ≤ fuel) :
    ReadsAs (parseValue (fuel + 1)) ('[' :: (joined ',' (l.map Prod.fst) ++ (sp ++ [']'])))
      (.arr (l.map Prod.snd)) := fun rest _ => by
  have h := parseSequence_joined (show Closes ']' by decide) (.inl rfl) hsp hread hopens hfuel rest
  rw [List.cons_append, parseValue, skipSpace_cons (by decide)]
  dsimp only
  rw [if_neg (by decide), if_pos rfl, List.append_assoc, List.append_assoc, List.singleton_append, h]
  rfl

theorem parseMember_colon {value : List Char → Option (Json × List Char)} {s r r' r'' k : List Char}
    (hs : skipSpace s = '"' :: r) (hk : parseString r = some (k, r')) (hr : skipSpace r' = ':' :: r'') :
    parseMember value s = (value r'').map fun p => ((k, p.1), p.2) := by
  rw [parseMember, hs]
  dsimp only
  rw [if_pos rfl, hk]
  simp [hr]

/-- A member of an object. -/
theorem reads_member {k t : List Char} {v : Json} (hsp : ∀ c ∈ sp, isSpace c = true)
    (hsp' : ∀ c ∈ sp', isSpace c = true)
    (hkey : ∀ rest, parseString (t ++ '"' :: rest) = some (k, rest))
    (hread : ReadsAs (parseValue fuel) text v) :
    ReadsAs (parseMember (parseValue fuel)) (sp ++ '"' :: (t ++ '"' :: ':' :: (sp' ++ text))) (k, v) :=
  fun rest hrest => by
  have hs : skipSpace (sp ++ '"' :: (t ++ '"' :: ':' :: (sp' ++ text)) ++ rest) =
      '"' :: (t ++ '"' :: ':' :: (sp' ++ text ++ rest)) := by
    rw [List.append_assoc, skipSpace_append hsp, List.cons_append, skipSpace_cons (by decide)]
    simp
  rw [parseMember_colon hs (hkey _) (skipSpace_cons (by decide) _), hread.space hsp' rest hrest]
  rfl

theorem reads_obj {l : List (List Char × (List Char × Json))} (hsp : ∀ c ∈ sp, isSpace c = true)
    (hread : ∀ x ∈ l, ReadsAs (parseMember (parseValue fuel)) x.1 x.2) (hopens : ∀ x ∈ l, Opens x.1)
    (hfuel : l.length ≤ fuel) :
    ReadsAs (parseValue (fuel + 1)) ('{' :: (joined ',' (l.map Prod.fst) ++ (sp ++ ['}'])))
      (.obj (l.map Prod.snd)) := fun rest _ => by
  have h := parseSequence_joined (show Closes '}' by decide) (.inr rfl) hsp hread hopens hfuel rest
  rw [List.cons_append, parseValue, skipSpace_cons (by decide)]
  dsimp only
  rw [if_pos rfl, List.append_assoc, List.append_assoc, List.singleton_append, h]
  rfl

theorem EndsNumber.append {text : List Char} (h : EndsNumber text) (hne : text ≠ []) (rest : List Char) :
    EndsNumber (text ++ rest) := by
  obtain ⟨c, t, rfl⟩ := List.exists_cons_of_ne_nil hne
  exact h

/-- **Texts one after another**, each ending the number in front of it. -/
theorem parseTexts_flatten {l : List (List Char × Json)} (hopens : ∀ x ∈ l, Opens x.1)
    (hends : ∀ x ∈ l, EndsNumber x.1)
    (hread : ∀ x ∈ l, ∀ fuel ≥ x.1.length, ReadsAs (parseValue fuel) x.1 x.2) :
    parseTexts (l.map Prod.fst).flatten = some (l.map Prod.snd) := by
  have hne : ∀ x ∈ l, x.1 ≠ [] := fun x hx hnil => by
    obtain ⟨c, t, ht, -⟩ := hopens x hx
    rw [hnil] at ht
    exact nomatch ht
  have hgo : ∀ {fuel : ℕ}, (l.map Prod.fst).flatten.length < fuel →
      parseTextsGo fuel (l.map Prod.fst).flatten = some (l.map Prod.snd) := by
    induction l with
    | nil =>
      intro fuel hfuel
      obtain ⟨fuel, rfl⟩ := Nat.exists_eq_succ_of_ne_zero (Nat.ne_of_gt hfuel)
      rfl
    | cons x l ih =>
      intro fuel hfuel
      obtain ⟨fuel, rfl⟩ := Nat.exists_eq_succ_of_ne_zero (Nat.ne_zero_of_lt hfuel)
      rw [List.forall_mem_cons] at hopens hends hread hne
      have hpos := List.length_pos_iff.2 hne.1
      have hrest : EndsNumber (l.map Prod.fst).flatten := by
        cases l with
        | nil => exact EndsNumber.nil
        | cons y l =>
          rw [List.map_cons, List.flatten_cons]
          exact (hends.2 y (List.mem_cons_self ..)).append (hne.2 y (List.mem_cons_self ..)) _
      obtain ⟨c, t, ht, -⟩ := hopens.1.append (l.map Prod.fst).flatten
      rw [List.map_cons, List.flatten_cons] at hfuel ⊢
      rw [List.length_append] at hfuel
      rw [parseTextsGo, if_neg (by rw [ht]; exact List.cons_ne_nil c t),
        hread.1 _ (by rw [List.length_append]; omega) _ hrest]
      change (do let l' ← parseTextsGo fuel (l.map Prod.fst).flatten; some (x.2 :: l')) = _
      rw [ih hopens.2 hends.2 hread.2 hne.2 (by omega)]
      rfl
  exact hgo (Nat.lt_succ_self _)

end Values

end Shish
