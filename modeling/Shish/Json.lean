import Shish.Fmt
import Shish.Lib.Json

/-!
# Json — the JSON writer

`json_open`, `json_close`, `json_key` and the scalars put a text into a buffer piece by piece, with
`comma`, `key` and `depth` as all that is kept of what has been put.  `JsonValue.write` is how a
caller writes a value; `write_eq` says what it puts, and the text reads back as the value whatever
the indent (`reads_text`), also when several are written with one writer (`json_round_trip`).
-/

namespace Shish

/-- `struct json`. -/
structure JsonWriter where
  b : Str
  indent : ℤ
  depth : ℤ := 0
  comma : Bool := false
  key : Bool := false
  bareKeys : Bool := false
  singleQuotes : Bool := false
  hexNumbers : Bool := false
  minify : Bool := false

/-- `json_init`. -/
def jsonInit (b : Str) (indent : ℤ) : JsonWriter := { b, indent }

/-- `buffer_put`, `buffer_puts` and `buffer_putc`. -/
def JsonWriter.put (j : JsonWriter) (t : Str) : JsonWriter := { j with b := j.b ++ t }

/-- `json_break`. -/
def jsonBreak (j : JsonWriter) : JsonWriter :=
  if j.minify then j
  else if 0 < j.indent then (j.put ['\n']).put (List.replicate (j.depth * j.indent).toNat ' ')
  else j.put [' ']

/-- `json_sep`. -/
def jsonSep (j : JsonWriter) : JsonWriter :=
  if j.key then { j with key := false }
  else
    let j := if j.comma then j.put [','] else j
    if j.depth ≠ 0 then jsonBreak j else j

/-- `json_open`. -/
def jsonOpen (j : JsonWriter) (c : Char) : JsonWriter :=
  let j := (jsonSep j).put [c]
  { j with depth := j.depth + 1, comma := false }

/-- `json_close`. -/
def jsonClose (j : JsonWriter) (c : Char) : JsonWriter :=
  let j := (jsonBreak { j with depth := j.depth - 1 }).put [c]
  { j with comma := decide (0 < j.depth) }

/-- `json_key`. -/
def jsonKey (j : JsonWriter) (k : Str) : JsonWriter :=
  let j := jsonSep j
  let j := if j.bareKeys then (j.put k).put [':'] else ((j.put ['"']).put k).put ['"', ':']
  let j := if j.minify then j else j.put [' ']
  { j with key := true, comma := true }

/-- `json_null`. -/
def jsonNull (j : JsonWriter) : JsonWriter := { (jsonSep j).put ['n', 'u', 'l', 'l'] with comma := true }

/-- `json_num`. -/
def jsonNum (j : JsonWriter) (v : UInt64) : JsonWriter :=
  if j.hexNumbers then (j.put ['0', 'x']).put (fmtXlonglong v) else j.put (fmtUlonglong v)

/-- `json_uint`. -/
def jsonUint (j : JsonWriter) (v : UInt64) : JsonWriter := { jsonNum (jsonSep j) v with comma := true }

/-- The table `hex`. -/
def jsonHexDigit (n : ℕ) : Char := "0123456789abcdef".toList.getD n '0'

/-- What one character of a string is written as. -/
def jsonEscape (q c : Char) : Str :=
  if c = q ∨ c = '\\' then ['\\', c]
  else if c = '\n' then ['\\', 'n']
  else if c = '\r' then ['\\', 'r']
  else if c = '\t' then ['\\', 't']
  else if c.toNat < 0x20 then
    ['\\', 'u', '0', '0', jsonHexDigit (c.toNat >>> 4), jsonHexDigit (c.toNat &&& 15)]
  else [c]

/-- `json_str`. -/
def jsonStr (j : JsonWriter) (s : Str) : JsonWriter :=
  let q := if j.singleQuotes then '\'' else '"'
  let j := (jsonSep j).put [q]
  let j := s.foldl (fun j c => j.put (jsonEscape q c)) j
  { j.put [q] with comma := true }

/-- `json_kstr`: no string is null. -/
def jsonKstr (j : JsonWriter) (k : Str) (s : Option Str) : JsonWriter :=
  match s with
  | some s => jsonStr (jsonKey j k) s
  | none => jsonNull (jsonKey j k)

/-- `json_kuint`. -/
def jsonKuint (j : JsonWriter) (k : Str) (v : UInt64) : JsonWriter := jsonUint (jsonKey j k) v

/-! ## Values and how they are written -/

/-- A key is a literal of the caller, without anything to escape. -/
structure JsonKey where
  text : Str
  plain : ∀ c ∈ text, c ≠ '"' ∧ c ≠ '\\' ∧ 32 ≤ c.toNat

/-- What there is to write. -/
inductive JsonValue where
  | null
  | uint (v : UInt64)
  | str (s : Str)
  | array (items : List JsonValue)
  | object (members : List (JsonKey × JsonValue))

namespace JsonValue

theorem sizeOf_item {items : List JsonValue} {v : JsonValue} (h : v ∈ items) :
    sizeOf v < sizeOf (array items) := by
  have := List.sizeOf_lt_of_mem h
  rw [array.sizeOf_spec]
  omega

theorem sizeOf_member {members : List (JsonKey × JsonValue)} {m : JsonKey × JsonValue} (h : m ∈ members) :
    sizeOf m.2 < sizeOf (object members) := by
  have := List.sizeOf_lt_of_mem h
  have hm : sizeOf m = 1 + sizeOf m.1 + sizeOf m.2 := Prod.mk.sizeOf_spec m.1 m.2
  rw [object.sizeOf_spec]
  omega

/-- The JSON value it is. -/
def json : JsonValue → Json
  | null => .null
  | uint v => .num v.toNat
  | str s => .str s
  | array items => .arr (items.map fun v => v.json)
  | object members => .obj (members.map fun m => (m.1.text, m.2.json))
termination_by v => sizeOf v
decreasing_by
  · exact sizeOf_item ‹_›
  · exact sizeOf_member ‹_›

/-- The calls that write it: behind a key that is not a container's, they are `json_kstr` and
`json_kuint`. -/
def write : JsonValue → JsonWriter → JsonWriter
  | null, j => jsonNull j
  | uint v, j => jsonUint j v
  | str s, j => jsonStr j s
  | array items, j => jsonClose (items.foldl (fun j v => v.write j) (jsonOpen j '[')) ']'
  | object members, j =>
      jsonClose (members.foldl (fun j m => m.2.write (jsonKey j m.1.text)) (jsonOpen j '{')) '}'
termination_by v => sizeOf v
decreasing_by
  · exact sizeOf_item ‹_›
  · exact sizeOf_member ‹_›

/-- An array or an object. -/
def isContainer : JsonValue → Bool
  | array _ | object _ => true
  | _ => false

theorem jsonKstr_eq (j : JsonWriter) (k : JsonKey) (s : Option Str) :
    jsonKstr j k.text s = (s.elim null str).write (jsonKey j k.text) := by
  cases s <;> rw [Option.elim, write] <;> rfl

theorem jsonKuint_eq (j : JsonWriter) (k : JsonKey) (v : UInt64) :
    jsonKuint j k.text v = (uint v).write (jsonKey j k.text) := by
  rw [write]
  rfl

end JsonValue

/-! ## What they put -/

/-- A line break at a depth. -/
def jsonBreakText (indent : ℤ) (minify : Bool) (depth : ℤ) : Str :=
  if minify then [] else if 0 < indent then '\n' :: List.replicate (depth * indent).toNat ' ' else [' ']

namespace JsonValue

/-- The text of a value at a depth. -/
def text (indent : ℤ) (minify : Bool) : ℤ → JsonValue → Str
  | _, null => ['n', 'u', 'l', 'l']
  | _, uint v => fmtUlonglong v
  | _, str s => '"' :: (s.flatMap (jsonEscape '"') ++ ['"'])
  | depth, array items =>
      '[' :: (joined ',' (items.map fun v =>
          jsonBreakText indent minify (depth + 1) ++ text indent minify (depth + 1) v) ++
        (jsonBreakText indent minify depth ++ [']']))
  | depth, object members =>
      '{' :: (joined ',' (members.map fun m =>
          jsonBreakText indent minify (depth + 1) ++ '"' :: (m.1.text ++ '"' :: ':' ::
            ((if minify then [] else [' ']) ++ text indent minify (depth + 1) m.2))) ++
        (jsonBreakText indent minify depth ++ ['}']))
termination_by _ v => sizeOf v
decreasing_by
  · exact sizeOf_item ‹_›
  · exact sizeOf_member ‹_›

end JsonValue

namespace JsonWriter

/-- Nothing of JSON5. -/
structure Strict (j : JsonWriter) : Prop where
  bareKeys : j.bareKeys = false
  singleQuotes : j.singleQuotes = false
  hexNumbers : j.hexNumbers = false

/-- What `json_sep` puts. -/
def sepText (j : JsonWriter) : Str :=
  if j.key then []
  else (if j.comma then [','] else []) ++
    (if j.depth ≠ 0 then jsonBreakText j.indent j.minify j.depth else [])

variable {j : JsonWriter}

theorem jsonBreak_eq (j : JsonWriter) : jsonBreak j = j.put (jsonBreakText j.indent j.minify j.depth) := by
  unfold jsonBreak jsonBreakText put
  split_ifs <;> simp

theorem jsonSep_eq (j : JsonWriter) : jsonSep j = { j with b := j.b ++ j.sepText, key := false } := by
  obtain ⟨b, indent, depth, comma, key, -, -, -, minify⟩ := j
  unfold jsonSep sepText
  dsimp only
  cases key with
  | true => simp
  | false =>
    cases comma <;> by_cases hd : depth = 0 <;> simp [jsonBreak_eq, put, hd]

theorem jsonOpen_eq (j : JsonWriter) (c : Char) :
    jsonOpen j c =
      { j with b := j.b ++ (j.sepText ++ [c]), depth := j.depth + 1, comma := false, key := false } := by
  unfold jsonOpen
  rw [jsonSep_eq]
  simp [put]

theorem jsonClose_eq (j : JsonWriter) (c : Char) :
    jsonClose j c =
      { j with b := j.b ++ (jsonBreakText j.indent j.minify (j.depth - 1) ++ [c]), depth := j.depth - 1, comma := decide (0 < j.depth - 1) } := by
  unfold jsonClose
  rw [jsonBreak_eq]
  simp [put]

theorem jsonKey_eq (hj : j.Strict) (k : Str) :
    jsonKey j k =
      { j with b := j.b ++ (j.sepText ++ '"' :: (k ++ '"' :: ':' :: if j.minify then [] else [' '])), comma := true, key := true } := by
  unfold jsonKey
  rw [jsonSep_eq]
  simp only [put, hj.bareKeys, Bool.false_eq_true, if_false]
  cases j.minify <;> simp

theorem jsonNull_eq (j : JsonWriter) :
    jsonNull j = { j with b := j.b ++ (j.sepText ++ ['n', 'u', 'l', 'l']), comma := true, key := false } := by
  unfold jsonNull
  rw [jsonSep_eq]
  simp [put]

theorem jsonUint_eq (hj : j.Strict) (v : UInt64) :
    jsonUint j v = { j with b := j.b ++ (j.sepText ++ fmtUlonglong v), comma := true, key := false } := by
  unfold jsonUint jsonNum
  rw [jsonSep_eq]
  simp [put, hj.hexNumbers]

theorem foldl_put {f : Char → Str} (s : Str) (j : JsonWriter) :
    s.foldl (fun j c => j.put (f c)) j = j.put (s.flatMap f) := by
  induction s generalizing j with
  | nil => simp [put]
  | cons c s ih =>
    rw [List.foldl_cons, ih]
    simp [put]

theorem jsonStr_eq (hj : j.Strict) (s : Str) :
    jsonStr j s =
      { j with b := j.b ++ (j.sepText ++ '"' :: (s.flatMap (jsonEscape '"') ++ ['"'])), comma := true, key := false } := by
  unfold jsonStr
  rw [jsonSep_eq]
  simp only [hj.singleQuotes, Bool.false_eq_true, if_false, foldl_put]
  simp [put]

/-- **Inside a container**: its settings, and nothing pending. -/
structure Inside (j : JsonWriter) (indent : ℤ) (minify : Bool) (depth : ℤ) : Prop where
  strict : j.Strict
  indent : j.indent = indent
  minify : j.minify = minify
  depth : j.depth = depth
  key : j.key = false

theorem Strict.moved (h : j.Strict) (b : Str) (depth : ℤ) (comma key : Bool) :
    Strict { j with b, depth, comma, key } := ⟨h.bareKeys, h.singleQuotes, h.hexNumbers⟩

theorem Inside.moved {indent depth : ℤ} {minify : Bool} (h : j.Inside indent minify depth) (b : Str)
    (comma : Bool) : Inside { j with b, comma } indent minify depth :=
  ⟨h.strict.moved b j.depth comma j.key, h.indent, h.minify, h.depth, h.key⟩

/-- **Items one after another** are put with a comma between them. -/
theorem foldl_items {α : Type} {indent depth : ℤ} {minify : Bool} {w : JsonWriter → α → JsonWriter}
    {t : α → Str} {l : List α}
    (hw : ∀ x ∈ l, ∀ j : JsonWriter, j.Inside indent minify depth →
      w j x = { j with b := j.b ++ ((if j.comma then [','] else []) ++ t x), comma := true })
    (hj : j.Inside indent minify depth) (hl : l ≠ []) :
    l.foldl w j =
      { j with b := j.b ++ ((if j.comma then [','] else []) ++ joined ',' (l.map t)), comma := true } := by
  induction l generalizing j with
  | nil => exact absurd rfl hl
  | cons x l ih =>
    rw [List.forall_mem_cons] at hw
    rw [List.foldl_cons, hw.1 j hj]
    cases l with
    | nil => rw [List.map_singleton, joined_singleton, List.foldl_nil]
    | cons y l =>
      rw [ih hw.2 (hj.moved _ true) (List.cons_ne_nil y l)]
      have hjoined : joined ',' ((x :: y :: l).map t) = t x ++ ',' :: joined ',' ((y :: l).map t) :=
        joined_cons_cons _ _ _
      rw [hjoined]
      simp

/-- **A container**: the opening bracket, its items, and the closing one on a line of its own. -/
theorem container_eq {α : Type} {w : JsonWriter → α → JsonWriter} {t : α → Str} {l : List α}
    (hw : ∀ x ∈ l, ∀ j' : JsonWriter, j'.Inside j.indent j.minify (j.depth + 1) →
      w j' x = { j' with b := j'.b ++ ((if j'.comma then [','] else []) ++ t x), comma := true })
    (hj : j.Strict) (c c' : Char) :
    jsonClose (l.foldl w (jsonOpen j c)) c' =
      { j with b := j.b ++ (j.sepText ++
          c :: (joined ',' (l.map t) ++ (jsonBreakText j.indent j.minify j.depth ++ [c']))), comma := decide (0 < j.depth), key := false } := by
  rw [jsonOpen_eq]
  by_cases hl : l = []
  · subst hl
    rw [List.foldl_nil, jsonClose_eq]
    simp
  · have hin := hj.moved (j.b ++ (j.sepText ++ [c])) (j.depth + 1) false false
    rw [foldl_items hw ⟨hin, rfl, rfl, rfl, rfl⟩ hl, jsonClose_eq]
    simp

theorem Inside.sepText {indent depth : ℤ} {minify : Bool} (h : j.Inside indent minify depth)
    (hd : depth ≠ 0) :
    j.sepText = (if j.comma then [','] else []) ++ jsonBreakText indent minify depth := by
  rw [JsonWriter.sepText, h.key, h.depth, h.indent, h.minify, if_pos hd]
  rfl

end JsonWriter

/-- **What a value puts**, and the state it leaves. -/
theorem JsonValue.write_eq (v : JsonValue) {j : JsonWriter} (hj : j.Strict) (hd : 0 ≤ j.depth) :
    v.write j =
      { j with b := j.b ++ (j.sepText ++ v.text j.indent j.minify j.depth), comma := !v.isContainer || decide (0 < j.depth), key := false } := by
  match v with
  | null => rw [write, text, JsonWriter.jsonNull_eq]; rfl
  | uint n => rw [write, text, JsonWriter.jsonUint_eq hj]; rfl
  | str s => rw [write, text, JsonWriter.jsonStr_eq hj]; rfl
  | array items =>
    have hw : ∀ v ∈ items, ∀ j' : JsonWriter, j'.Inside j.indent j.minify (j.depth + 1) →
        v.write j' = { j' with b := j'.b ++ ((if j'.comma then [','] else []) ++
          (jsonBreakText j.indent j.minify (j.depth + 1) ++
            v.text j.indent j.minify (j.depth + 1))), comma := true } := by
      intro v hv j' hin
      rw [v.write_eq hin.strict (by rw [hin.depth]; omega), hin.sepText (by omega), hin.indent, hin.minify,
        hin.depth, List.append_assoc]
      have hpos : decide (0 < j.depth + 1) = true := decide_eq_true (by omega)
      rw [hpos, Bool.or_true]
      simp [hin.key]
    rw [write, text, JsonWriter.container_eq hw hj]
    rfl
  | object members =>
    have hw : ∀ m ∈ members, ∀ j' : JsonWriter, j'.Inside j.indent j.minify (j.depth + 1) →
        m.2.write (jsonKey j' m.1.text) = { j' with b := j'.b ++ ((if j'.comma then [','] else []) ++
          (jsonBreakText j.indent j.minify (j.depth + 1) ++ '"' :: (m.1.text ++ '"' :: ':' ::
            ((if j.minify then [] else [' ']) ++ m.2.text j.indent j.minify (j.depth + 1))))), comma := true } := by
      intro m hm j' hin
      rw [JsonWriter.jsonKey_eq hin.strict,
        m.2.write_eq (hin.strict.moved _ _ _ _) (by dsimp only; rw [hin.depth]; omega), hin.sepText (by omega)]
      have hpos : decide (0 < j.depth + 1) = true := decide_eq_true (by omega)
      dsimp only
      rw [hin.depth, hpos, Bool.or_true]
      simp [JsonWriter.sepText, hin.indent, hin.minify, hin.key]
    rw [write, text, JsonWriter.container_eq hw hj]
    rfl
termination_by sizeOf v
decreasing_by
  · exact sizeOf_item hv
  · exact sizeOf_member hm

/-! ## Reading it back -/

theorem isDigit_of_isdigit {c : Char} (h : parseIsdigit c = true) : c.isDigit = true := by
  simp only [parseIsdigit, Bool.and_eq_true, decide_eq_true_eq] at h
  simp only [Char.isDigit, Bool.and_eq_true, decide_eq_true_eq]
  exact h

theorem decimal_eq {ds : Str} (h : ∀ c ∈ ds, parseIsdigit c = true) (n : ℕ) :
    ds.foldl (fun n c => 10 * n + (c.toNat - 48)) n = digits 10 n ds := by
  induction ds generalizing n with
  | nil => rfl
  | cons c ds ih =>
    rw [List.forall_mem_cons] at h
    have hc : scanFromhex c = c.toNat - 48 := by rw [scanFromhex, if_pos h.1]
    rw [List.foldl_cons, ih h.2, digits_cons, hc, Nat.mul_comm]

theorem isdigit_fmtUlonglong (v : UInt64) : ∀ c ∈ fmtUlonglong v, parseIsdigit c = true :=
  mem_fmtDigits (by decide) (by decide) fun _ hd => isdigit_tohex hd

theorem reads_uint {fuel : ℕ} (v : UInt64) :
    ReadsAs (parseValue (fuel + 1)) (fmtUlonglong v) (.num v.toNat) := by
  have hlt : v.toNat < 10 ^ 64 := Nat.lt_trans v.toNat_lt (by decide)
  have hdigit := isdigit_fmtUlonglong v
  have hdecimal : decimal (fmtUlonglong v) = v.toNat :=
    (decimal_eq hdigit 0).trans (digits_fmt (by decide) (by decide) hlt)
  have h : ReadsAs (parseValue (fuel + 1)) (fmtUlonglong v) (.num (decimal (fmtUlonglong v))) := by
    refine reads_num (fmtDigits_ne_nil 63 v.toNat) (fun c hc => isDigit_of_isdigit (hdigit c hc)) ?_
    intro hlead
    by_cases h0 : v.toNat = 0
    · rw [fmtUlonglong, h0]
      rfl
    · obtain ⟨c, t, ht, hc⟩ := fmtDigits_head (by decide) (by decide) hlt h0
      rw [fmtUlonglong, ht, List.head?_cons] at hlead
      exact absurd (Option.some.inj hlead) hc
  rwa [hdecimal] at h

theorem spells_escape (c : Char) : SpellsChar (jsonEscape '"' c) c := by
  unfold jsonEscape
  split_ifs with hq hn hr ht hlow
  · rcases hq with rfl | rfl
    · exact spells_escaped (by decide) (by decide)
    · exact spells_escaped (by decide) (by decide)
  · subst hn
    exact spells_escaped (by decide) (by decide)
  · subst hr
    exact spells_escaped (by decide) (by decide)
  · subst ht
    exact spells_escaped (by decide) (by decide)
  · have hdigits : ∀ n < 0x20, hexDigit (jsonHexDigit (n >>> 4)) = some (n >>> 4) ∧
        hexDigit (jsonHexDigit (n &&& 15)) = some (n &&& 15) ∧ (n >>> 4) * 16 + (n &&& 15) = n := by decide
    obtain ⟨hhigh, hlo, hsum⟩ := hdigits _ hlow
    exact spells_code hhigh hlo hsum (by omega)
  · rw [not_or] at hq
    exact spells_self hq.1 hq.2 (by omega)

theorem isSpace_jsonBreakText (indent : ℤ) (minify : Bool) (depth : ℤ) :
    ∀ c ∈ jsonBreakText indent minify depth, isSpace c = true := by
  intro c hc
  unfold jsonBreakText at hc
  split_ifs at hc
  · exact absurd hc List.not_mem_nil
  · rcases List.mem_cons.1 hc with rfl | hc
    · rfl
    · rw [List.eq_of_mem_replicate hc]
      rfl
  · rw [List.mem_singleton.1 hc]
    rfl

namespace JsonValue

variable {indent : ℤ} {minify : Bool}

theorem opens_text (v : JsonValue) (depth : ℤ) : Opens (v.text indent minify depth) := by
  cases v with
  | null => rw [text]; exact opens_cons (by decide) (by decide) (by decide) _
  | uint v =>
    rw [text]
    exact opens_digits (fmtDigits_ne_nil 63 v.toNat) fun c hc => isDigit_of_isdigit (isdigit_fmtUlonglong v c hc)
  | str s => rw [text]; exact opens_cons (by decide) (by decide) (by decide) _
  | array items => rw [text]; exact opens_cons (by decide) (by decide) (by decide) _
  | object members => rw [text]; exact opens_cons (by decide) (by decide) (by decide) _

/-- No text is empty. -/
theorem fuel_pos {v : JsonValue} {depth : ℤ} {fuel : ℕ}
    (hfuel : (v.text indent minify depth).length ≤ fuel) : ∃ n, fuel = n + 1 := by
  refine Nat.exists_eq_succ_of_ne_zero ?_
  rintro rfl
  have hopens : Opens (v.text indent minify depth) := opens_text v depth
  obtain ⟨c, t, ht, -⟩ := hopens
  rw [List.eq_nil_of_length_eq_zero (Nat.le_zero.1 hfuel)] at ht
  exact nomatch ht

/-- **The text of a value reads as the value.** -/
theorem reads_text (v : JsonValue) (depth : ℤ) {fuel : ℕ}
    (hfuel : (v.text indent minify depth).length ≤ fuel) :
    ReadsAs (parseValue fuel) (v.text indent minify depth) v.json := by
  match v with
  | null =>
    obtain ⟨n, rfl⟩ := fuel_pos hfuel
    rw [text, json]
    exact reads_null
  | uint v =>
    obtain ⟨n, rfl⟩ := fuel_pos hfuel
    rw [text, json]
    exact reads_uint v
  | str s =>
    obtain ⟨n, rfl⟩ := fuel_pos hfuel
    rw [text, json]
    exact reads_str (parseString_spelled fun c _ => spells_escape c)
  | array items =>
    obtain ⟨n, rfl⟩ := fuel_pos hfuel
    set t : JsonValue → Str := fun v =>
      jsonBreakText indent minify (depth + 1) ++ v.text indent minify (depth + 1) with ht
    have hcount := count_le_joined ',' (items.map t)
    rw [text, ← ht] at hfuel ⊢
    simp only [List.length_map, List.length_cons, List.length_append, List.length_nil] at hfuel hcount
    have hfuel' : (items.map fun v => (t v, v.json)).length ≤ n := by
      rw [List.length_map]
      omega
    have h := reads_arr (isSpace_jsonBreakText indent minify depth) ?_ ?_ hfuel'
    · rw [json]
      rwa [List.map_map, List.map_map] at h
    · intro x hx
      obtain ⟨v, hv, rfl⟩ := List.mem_map.1 hx
      have hlen : (t v).length ≤ (joined ',' (items.map t)).length := length_le_joined (List.mem_map_of_mem hv)
      have htext : (t v).length = _ := List.length_append
      exact (reads_text v (depth + 1) (by omega)).space (isSpace_jsonBreakText _ _ _)
    · intro x hx
      obtain ⟨v, hv, rfl⟩ := List.mem_map.1 hx
      exact (opens_text v _).space (isSpace_jsonBreakText _ _ _)
  | object members =>
    obtain ⟨n, rfl⟩ := fuel_pos hfuel
    set t : JsonKey × JsonValue → Str := fun m =>
      jsonBreakText indent minify (depth + 1) ++ '"' :: (m.1.text ++ '"' :: ':' ::
        ((if minify then [] else [' ']) ++ m.2.text indent minify (depth + 1))) with ht
    have hcount := count_le_joined ',' (members.map t)
    rw [text, ← ht] at hfuel ⊢
    simp only [List.length_map, List.length_cons, List.length_append, List.length_nil] at hfuel hcount
    have hsp : ∀ c ∈ (if minify then [] else [' ']), isSpace c = true := by
      cases minify with
      | true => exact fun _ h => absurd h List.not_mem_nil
      | false => exact List.forall_mem_singleton.2 rfl
    have hkey : ∀ m : JsonKey × JsonValue, ∀ rest,
        parseString (m.1.text ++ '"' :: rest) = some (m.1.text, rest) := fun m rest => by
      have h := parseString_spelled (f := fun c => [c]) (s := m.1.text)
        (fun c hc => spells_self (m.1.plain c hc).1 (m.1.plain c hc).2.1 (m.1.plain c hc).2.2) rest
      rwa [List.flatMap_singleton'] at h
    have hfuel' : (members.map fun m => (t m, m.1.text, m.2.json)).length ≤ n := by
      rw [List.length_map]
      omega
    have h := reads_obj (isSpace_jsonBreakText indent minify depth) ?_ ?_ hfuel'
    · rw [json]
      rwa [List.map_map, List.map_map] at h
    · intro x hx
      obtain ⟨m, hm, rfl⟩ := List.mem_map.1 hx
      have hlen : (t m).length ≤ (joined ',' (members.map t)).length :=
        length_le_joined (List.mem_map_of_mem hm)
      have htext : (m.2.text indent minify (depth + 1)).length ≤ (t m).length := by
        simp only [ht, List.length_append, List.length_cons]
        omega
      exact reads_member (isSpace_jsonBreakText _ _ _) hsp (hkey m) (reads_text m.2 (depth + 1) (by omega))
    · intro x hx
      obtain ⟨m, hm, rfl⟩ := List.mem_map.1 hx
      exact (opens_cons (by decide) (by decide) (by decide) _).space (isSpace_jsonBreakText _ _ _)
termination_by sizeOf v
decreasing_by
  · exact sizeOf_item hv
  · exact sizeOf_member hm

end JsonValue

/-- A top-level value. -/
abbrev JsonDocument := { v : JsonValue // v.isContainer = true }

theorem endsNumber_text {v : JsonValue} (hv : v.isContainer = true) (indent : ℤ) (minify : Bool) (depth : ℤ) :
    EndsNumber (v.text indent minify depth) := by
  cases v with
  | array items => rw [JsonValue.text]; exact EndsNumber.cons (by decide) _
  | object members => rw [JsonValue.text]; exact EndsNumber.cons (by decide) _
  | _ => exact nomatch hv

/-- **A top-level container leaves the writer clean.** -/
theorem write_documents (l : List JsonDocument) {j : JsonWriter} (hj : j.Strict) (hdepth : j.depth = 0)
    (hcomma : j.comma = false) (hkey : j.key = false) :
    l.foldl (fun j (v : JsonDocument) => v.1.write j) j =
      { j with b := j.b ++ (l.map fun v => v.1.text j.indent j.minify 0).flatten } := by
  induction l generalizing j with
  | nil => simp
  | cons v l ih =>
    have hwrite : v.1.write j = { j with b := j.b ++ v.1.text j.indent j.minify 0 } := by
      rw [v.1.write_eq hj (le_of_eq hdepth.symm), v.2, hdepth]
      simp [JsonWriter.sepText, hdepth, hcomma, hkey]
    have hmoved := hj.moved (j.b ++ v.1.text j.indent j.minify 0) j.depth j.comma j.key
    rw [List.foldl_cons, hwrite, ih hmoved hdepth hcomma hkey]
    simp

/-- **Whatever is written with one writer reads back**: any containers one after another, with any
indent, minified or not. -/
theorem json_round_trip (indent : ℤ) (minify : Bool) (l : List JsonDocument) :
    parseTexts (l.foldl (fun j (v : JsonDocument) => v.1.write j) { jsonInit [] indent with minify }).b =
      some (l.map fun v => v.1.json) := by
  rw [write_documents l ⟨rfl, rfl, rfl⟩ rfl rfl rfl]
  have h := parseTexts_flatten (l := l.map fun v => (v.1.text indent minify 0, v.1.json)) ?_ ?_ ?_
  · rwa [List.map_map, List.map_map] at h
  · intro x hx
    obtain ⟨v, -, rfl⟩ := List.mem_map.1 hx
    exact v.1.opens_text 0
  · intro x hx
    obtain ⟨v, -, rfl⟩ := List.mem_map.1 hx
    exact endsNumber_text v.2 indent minify 0
  · intro x hx fuel hfuel
    obtain ⟨v, -, rfl⟩ := List.mem_map.1 hx
    exact v.1.reads_text 0 hfuel

end Shish
