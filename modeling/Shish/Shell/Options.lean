import Mathlib
import Shish.Shell.Getopt

/-!
# Shell/Options — the options of an argument vector

`refGetopt` is what POSIX says `getopt` reports: the options of each argument letter by letter, up to
the first operand.  The code loses its place in two ways: an unknown letter ends the argument it is
in, and an option with an argument, or an unknown one, behind other letters leaves the offset where
it is, so that letters of the next argument are skipped.  `getopt_reports_iff` says exactly when
neither matters.
-/

namespace Shish

/-! ## The reference -/

/-- An option string: its letters, and whether they take an argument. -/
abbrev Optspec := List (Char × Bool)

namespace Optspec

/-- The option string. -/
def text (spec : Optspec) : Str := spec.flatMap fun p => if p.2 then [p.1, ':'] else [p.1]

/-- Every option is a letter or a digit. -/
def Valid (spec : Optspec) : Prop := ∀ p ∈ spec, parseIsalpha p.1 || parseIsdigit p.1

end Optspec

/-- What a call reports. -/
inductive OptEvent
  | flag (c : Char)
  | opt (c : Char) (arg : Str)
  | unknown (c : Char)
  | missing (c : Char)
  | help
deriving DecidableEq, Repr

/-- **What POSIX `getopt` reports**, and the operands.  `cur` are the letters left in an argument. -/
def refGetopt (spec : Optspec) : Str → List Str → List OptEvent × List Str
  | [], [] => ([], [])
  | [], a :: rest =>
      match a with
      | ['-', '-'] => ([], rest)
      | '-' :: c :: cs => refGetopt spec (c :: cs) rest
      | a => ([], a :: rest)
  | c :: cs, rest =>
      match spec.lookup c, cs, rest with
      | none, cs, rest => (.unknown c :: (refGetopt spec cs rest).1, (refGetopt spec cs rest).2)
      | some false, cs, rest => (.flag c :: (refGetopt spec cs rest).1, (refGetopt spec cs rest).2)
      | some true, d :: cs, rest =>
          (.opt c (d :: cs) :: (refGetopt spec [] rest).1, (refGetopt spec [] rest).2)
      | some true, [], [] => ([.missing c], [])
      | some true, [], a :: rest =>
          (.opt c a :: (refGetopt spec [] rest).1, (refGetopt spec [] rest).2)
termination_by cur rest => (rest.length, cur.length)

example (spec : Optspec) (rest : List Str) : refGetopt spec [] (['-', '-'] :: rest) = ([], rest) := by
  simp [refGetopt]

/-! ## What the code reports -/

/-- The report of a call that has returned `r`. -/
def OptRet.event (spec : Optspec) (r : OptRet) (st : OptState) : OptEvent :=
  match r with
  | .chr '?' => .unknown st.opt
  | .chr ':' => .missing st.opt
  | .chr c => if spec.lookup c = some true then .opt c (st.arg.getD []) else .flag c
  | _ => .help

/-- `Reports argv spec st evs n`: calls from `st` on report `evs`, and end with `n` in `ind`. -/
inductive Reports (argv : List Str) (spec : Optspec) : OptState → List OptEvent → ℕ → Prop
  | done {st st'} : shellGetoptR argv spec.text st = some (.done, st') →
      Reports argv spec st [] st'.ind
  | more {st st' r evs n} : shellGetoptR argv spec.text st = some (r, st') → r ≠ .done →
      Reports argv spec st' evs n → Reports argv spec st (r.event spec st' :: evs) n

/-! ## When the place is kept -/

/-- An argument with options in front. -/
def startsOption : List Str → Bool
  | ('-' :: c :: cs) :: _ => c :: cs != ['-']
  | _ => false

/-- `keepsPlace spec k cur rest`: with `k` letters of the argument behind and `cur` to come, the
code does not lose its place.  No argument starts with two dashes and more; an unknown letter is the
last one of its argument, and no colon if the option string has one; and an unknown letter or an
option with an argument behind other letters is the last option of all. -/
def keepsPlace (spec : Optspec) : ℕ → Str → List Str → Bool
  | _, [], [] => true
  | _, [], a :: rest =>
      match a with
      | ['-', '-'] => true
      | '-' :: c :: cs => c != '-' && keepsPlace spec 0 (c :: cs) rest
      | _ => true
  | k, c :: cs, rest =>
      match spec.lookup c, cs, rest with
      | none, cs, rest =>
          cs.isEmpty && !(c == ':' && spec.any (·.2)) && (k == 0 || !startsOption rest) &&
            keepsPlace spec 0 [] rest
      | some false, cs, rest => keepsPlace spec (k + 1) cs rest
      | some true, _ :: _, rest => (k == 0 || !startsOption rest) && keepsPlace spec 0 [] rest
      | some true, [], [] => true
      | some true, [], _ :: rest => (k == 0 || !startsOption rest) && keepsPlace spec 0 [] rest
termination_by _ cur rest => (rest.length, cur.length)

example (spec : Optspec) (k : ℕ) (rest : List Str) : keepsPlace spec k [] (['-', '-'] :: rest) := by
  simp [keepsPlace]

/-! ## One option character -/

section Char

variable {spec : Optspec} {c : Char}

theorem Optspec.Valid.ne (h : spec.Valid) {p : Char × Bool} (hp : p ∈ spec) :
    p.1 ≠ ':' ∧ p.1 ≠ '-' ∧ p.1 ≠ '?' ∧ p.1 ≠ '+' := by
  have := h p hp
  refine ⟨?_, ?_, ?_, ?_⟩ <;> rintro heq <;> rw [heq] at this <;> exact absurd this (by decide)

theorem Optspec.Valid.of_cons {p : Char × Bool} (h : Optspec.Valid (p :: spec)) : spec.Valid :=
  fun q hq => h q (List.mem_cons_of_mem _ hq)

/-- An option string does not start with a colon. -/
theorem Optspec.Valid.head_text (h : spec.Valid) : ∀ a ∈ spec.text.head?, a ≠ ':' ∧ a ≠ '+' := by
  intro a ha
  cases spec with
  | nil => exact absurd ha nofun
  | cons p spec =>
    have hp := h.ne List.mem_cons_self
    obtain rfl : p.1 = a := by
      simp only [Optspec.text, List.flatMap_cons] at ha
      split_ifs at ha <;> simpa using ha
    exact ⟨hp.1, hp.2.2.2⟩

/-- Where an option character is found in the option string. -/
theorem Optspec.Valid.dropWhile (h : spec.Valid) (hc : c ≠ ':') :
    (spec.lookup c = none ∧ spec.text.dropWhile (· != c) = []) ∨
    (spec.lookup c = some false ∧ ∃ t, spec.text.dropWhile (· != c) = c :: t ∧ ∀ a ∈ t.head?, a ≠ ':') ∨
    (spec.lookup c = some true ∧ ∃ t, spec.text.dropWhile (· != c) = c :: ':' :: t ∧
      ∀ a ∈ t.head?, a ≠ ':') := by
  induction spec with
  | nil => exact .inl ⟨rfl, rfl⟩
  | cons p spec ih =>
    obtain ⟨d, b⟩ := p
    have hhead := h.of_cons.head_text
    by_cases hd : c = d
    · subst hd
      cases b with
      | false => exact .inr (.inl ⟨by simp, Optspec.text spec, by simp [Optspec.text],
          fun a ha => (hhead a ha).1⟩)
      | true => exact .inr (.inr ⟨by simp, Optspec.text spec, by simp [Optspec.text],
          fun a ha => (hhead a ha).1⟩)
    · have hlookup : List.lookup c ((d, b) :: spec) = spec.lookup c := by
        rw [List.lookup_cons, beq_false_of_ne hd]
      have hdrop : (Optspec.text ((d, b) :: spec)).dropWhile (· != c) =
          (Optspec.text spec).dropWhile (· != c) := by
        cases b <;> simp [Optspec.text, Ne.symm hd, Ne.symm hc]
      rw [hlookup, hdrop]
      exact ih h.of_cons

/-- A colon is found if some option takes an argument, and no colon follows it. -/
theorem Optspec.Valid.dropWhile_colon (h : spec.Valid) :
    (spec.any (·.2) = false ∧ spec.text.dropWhile (· != ':') = []) ∨
    (spec.any (·.2) = true ∧ ∃ t, spec.text.dropWhile (· != ':') = ':' :: t ∧
      ∀ a ∈ t.head?, a ≠ ':') := by
  induction spec with
  | nil => exact .inl ⟨rfl, rfl⟩
  | cons p spec ih =>
    obtain ⟨d, b⟩ := p
    have hd : d ≠ ':' := (h.ne List.mem_cons_self).1
    cases b with
    | true => exact .inr ⟨by simp, Optspec.text spec, by simp [Optspec.text, hd],
        fun a ha => (h.of_cons.head_text a ha).1⟩
    | false =>
      have hdrop : (Optspec.text ((d, false) :: spec)).dropWhile (· != ':') =
          (Optspec.text spec).dropWhile (· != ':') := by
        simp [Optspec.text, hd]
      rw [hdrop]
      simpa using ih h.of_cons

theorem Optspec.Valid.lookup_eq_none (h : spec.Valid) (hc : c = ':' ∨ c = '-' ∨ c = '?') :
    spec.lookup c = none := by
  rw [List.lookup_eq_none_iff]
  intro p hp
  have := h.ne hp
  grind

end Char

/-! ## One call -/

/-- The options of the argument `i` from the offset `p` on are `cur`. -/
def At (argv : List Str) (i p : ℕ) (cur : Str) : Prop :=
  ∃ t, argv[i]? = some ('-' :: t) ∧ t ≠ [] ∧ t ≠ ['-'] ∧ p ≤ t.length ∧ t.drop p = cur

/-- What a call does at the letter `c` of the argument `i`, with `cs` behind it: the report, and the
new index and offset. -/
inductive Outcome (argv : List Str) (spec : Optspec) (i p : ℕ) (c : Char) (cs : Str) :
    OptEvent → ℕ → ℕ → Prop
  | flag : spec.lookup c = some false → Outcome argv spec i p c cs (.flag c) i (p + 1)
  | attached : spec.lookup c = some true → cs ≠ [] →
      Outcome argv spec i p c cs (.opt c cs) (i + 1) p
  | separate {a} : spec.lookup c = some true → cs = [] → argv[i + 1]? = some a →
      Outcome argv spec i p c cs (.opt c a) (i + 2) p
  | missing : spec.lookup c = some true → cs = [] → argv[i + 1]? = none →
      Outcome argv spec i p c cs (.missing c) (i + 1) p
  | unknown : spec.lookup c = none → (c == ':' && spec.any (·.2)) = false →
      Outcome argv spec i p c cs (.unknown c) (i + 1) p
  | colon : spec.lookup c = none → c = ':' → spec.any (·.2) = true →
      Outcome argv spec i p c cs (.missing ':') i (p + 1)
  | long {d} : spec.lookup c = none → c = '-' → p = 0 →
      Outcome argv spec i p c cs (.unknown d) (i + 1) 0
  | help : spec.lookup c = none → c = '-' → p = 0 → Outcome argv spec i p c cs .help (i + 1) 0

/-- A state between two calls. -/
structure OptState.Ready (st : OptState) : Prop where
  ind : st.ind ≠ 0
  plus : st.plus = false

section Call

variable {argv : List Str} {spec : Optspec} {st : OptState} {c : Char} {cs : Str}

theorem OptState.Ready.call (h : st.Ready) : shellGetoptR argv spec.text st =
    getoptAgain argv spec.text [] { st with err := .ok, lname := none } := by
  simp [shellGetoptR, shellGetoptLongR, h.ind]

/-- An argument has options, or not. -/
theorem startsOption_drop (argv : List Str) (i : ℕ) : startsOption (argv.drop i) = true ↔
    ∃ t, argv[i]? = some ('-' :: t) ∧ t ≠ [] ∧ t ≠ ['-'] := by
  rw [← List.head?_drop]
  rcases argv.drop i with - | ⟨a, rest⟩
  · simp [startsOption]
  · match a with
    | [] => simp [startsOption]
    | [x] => simp [startsOption]
    | x :: c :: cs => by_cases hx : x = '-' <;> simp [startsOption, hx]

/-- Where no options are left the parser stops, behind a `--`. -/
theorem call_done (h : st.Ready) (hend : startsOption (argv.drop st.ind) = false) :
    ∃ st', shellGetoptR argv spec.text st = some (.done, st') ∧
      st'.ind = if argv[st.ind]? = some ['-', '-'] then st.ind + 1 else st.ind := by
  have hno : ¬ ∃ t, argv[st.ind]? = some ('-' :: t) ∧ t ≠ [] ∧ t ≠ ['-'] := by
    rw [← startsOption_drop, hend]
    exact Bool.false_ne_true
  rw [h.call, getoptAgain]
  have hplus := h.plus
  split
  next heq => exact ⟨_, rfl, by simp_all⟩
  next heq => exact ⟨_, rfl, by simp_all⟩
  next p t heq =>
    by_cases hp : p = '-'
    · subst hp
      by_cases ht : t = []
      · exact ⟨_, by simp [ht]; rfl, by simp_all⟩
      · have ht' : t = ['-'] := by
          by_contra hne
          exact hno ⟨t, heq, ht, hne⟩
        exact ⟨_, by simp [ht']; rfl, by simp_all⟩
    · exact ⟨_, by simp [hp, hplus]; rfl, by simp_all⟩

/-- Behind the last letter of an argument the parser goes on with the next one. -/
theorem call_next (h : st.Ready) (hat : At argv st.ind st.ofs []) :
    ∃ st', st'.Ready ∧ st'.ind = st.ind + 1 ∧ st'.ofs = 0 ∧
      shellGetoptR argv spec.text st = shellGetoptR argv spec.text st' := by
  obtain ⟨t, ht, hne, hdd, hle, hdrop⟩ := hat
  have hlen : t.length = st.ofs := Nat.le_antisymm (List.drop_eq_nil_iff.1 hdrop) hle
  have hofs : st.ofs ≠ 0 := by
    rw [← hlen]
    exact fun h0 => hne (List.length_eq_zero_iff.1 h0)
  refine ⟨{ st with ch := some '-', opt := '\x00', ind := st.ind + 1, ofs := 0 },
    ⟨Nat.succ_ne_zero _, h.plus⟩, rfl, rfl, ?_⟩
  have hready : OptState.Ready { st with ch := some '-', opt := '\x00', ind := st.ind + 1, ofs := 0 } :=
    ⟨Nat.succ_ne_zero _, h.plus⟩
  rw [h.call, hready.call, getoptAgain]
  split
  · simp_all
  · simp_all
  next p t' heq =>
    obtain ⟨rfl, rfl⟩ : p = '-' ∧ t' = t := by simpa using heq.symm.trans ht
    simp [hne, hdd, hofs, hdrop, hlen]

/-- A letter found in the option string with no colon behind it. -/
theorem getoptChar_flag {d : Char} {t : Str} (hdrop : spec.text.dropWhile (· != c) = d :: t)
    (ht : ∀ a ∈ t.head?, a ≠ ':') (next : Option Str) : getoptChar spec.text c cs next st =
      (.chr c, { st with opt := c, ofs := st.ofs + 1 }) := by
  simp only [getoptChar, hdrop]
  split
  next heq => exact absurd heq nofun
  next heq => simp_all
  next => rfl

/-- A letter not found there. -/
theorem getoptChar_unknown (hdrop : spec.text.dropWhile (· != c) = []) (next : Option Str) :
    getoptChar spec.text c cs next st =
      (.chr '?', { st with opt := c, err := .unknown, ind := st.ind + 1 }) := by
  simp only [getoptChar, hdrop]

/-- A letter of an argument. -/
theorem getoptChar_outcome (hv : spec.Valid) : ∃ r st',
    getoptChar spec.text c cs argv[st.ind + 1]? st = (r, st') ∧ r ≠ .done ∧ st'.plus = st.plus ∧
    Outcome argv spec st.ind st.ofs c cs (r.event spec st') st'.ind st'.ofs := by
  by_cases hc : c = ':'
  · have hnone := hv.lookup_eq_none (.inl hc)
    subst hc
    rcases hv.dropWhile_colon with ⟨hany, hdrop⟩ | ⟨hany, t, hdrop, ht⟩
    · exact ⟨_, _, getoptChar_unknown hdrop _, nofun, rfl, .unknown hnone (by simp [hany])⟩
    · exact ⟨_, _, getoptChar_flag hdrop ht _, nofun, rfl, .colon hnone rfl hany⟩
  · rcases hv.dropWhile hc with ⟨hl, hdrop⟩ | ⟨hl, t, hdrop, ht⟩ | ⟨hl, t, hdrop, ht⟩
    · exact ⟨_, _, getoptChar_unknown hdrop _, nofun, rfl, .unknown hl (by simp [hc])⟩
    · have hq : c ≠ '?' := fun hq => by simp [hv.lookup_eq_none (.inr (.inr hq))] at hl
      refine ⟨_, _, getoptChar_flag hdrop ht _, nofun, rfl, ?_⟩
      simpa [OptRet.event, hl] using Outcome.flag hl
    · have hq : c ≠ '?' := fun hq => by simp [hv.lookup_eq_none (.inr (.inr hq))] at hl
      have hhead : t.head? ≠ some ':' := fun h => ht _ h rfl
      have hev : ∀ st' : OptState, (OptRet.chr c).event spec st' = .opt c (st'.arg.getD []) := by
        intro st'
        simp [OptRet.event, hl]
      rcases cs with - | ⟨d, cs⟩
      · cases hnext : argv[st.ind + 1]? with
        | none =>
          refine ⟨.chr ':', { st with opt := c, arg := none, err := .missing, ind := st.ind + 1 },
            ?_, nofun, rfl, .missing hl rfl hnext⟩
          simp [getoptChar, hdrop, hhead]
        | some a =>
          refine ⟨.chr c, { st with opt := c, arg := some a, ind := st.ind + 2 }, ?_, nofun, rfl, ?_⟩
          · simp [getoptChar, hdrop, hhead]
          · rw [hev]
            exact .separate hl rfl hnext
      · refine ⟨.chr c, { st with opt := c, arg := some (d :: cs), ind := st.ind + 1 }, ?_, nofun,
          rfl, ?_⟩
        · simp [getoptChar, hdrop]
        · rw [hev]
          exact .attached hl (by simp)

/-- A name behind two dashes: there are no long options. -/
theorem getoptLong_outcome (hv : spec.Valid) (word : Str) (next : Option Str) (hofs : st.ofs = 0) :
    ∃ r st', getoptLong [] word next st = (r, st') ∧ r ≠ .done ∧ st'.plus = st.plus ∧
      Outcome argv spec st.ind 0 '-' cs (r.event spec st') st'.ind st'.ofs := by
  have hnone := hv.lookup_eq_none (c := '-') (.inr (.inl rfl))
  let st' := { st with lname := some ('-' :: '-' :: word), ind := st.ind + 1 }
  have hres : getoptLong [] word next st = (.help, { st' with err := .help }) ∨
      getoptLong [] word next st = (.chr '?', { st' with err := .unknown }) := by
    simp only [getoptLong, List.map_nil, List.find?_nil]
    split_ifs <;> simp [st']
  rcases hres with hres | hres
  · exact ⟨_, _, hres, nofun, rfl, by simpa [st', hofs, OptRet.event] using Outcome.help hnone rfl rfl⟩
  · exact ⟨_, _, hres, nofun, rfl, by simpa [st', hofs, OptRet.event] using Outcome.long hnone rfl rfl⟩

/-- **A call at a letter.** -/
theorem call_outcome (hv : spec.Valid) (h : st.Ready) (hat : At argv st.ind st.ofs (c :: cs)) :
    ∃ r st', shellGetoptR argv spec.text st = some (r, st') ∧ r ≠ .done ∧ st'.Ready ∧
      Outcome argv spec st.ind st.ofs c cs (r.event spec st') st'.ind st'.ofs := by
  obtain ⟨t, ht, hne, hdd, hle, hdrop⟩ := hat
  have hind : ∀ {ev i p}, Outcome argv spec st.ind st.ofs c cs ev i p → i ≠ 0 := by
    have := h.ind
    intro ev i p ho
    cases ho <;> omega
  suffices hcall : ∃ r st', getoptAgain argv spec.text [] { st with err := .ok, lname := none } =
      some (r, st') ∧ r ≠ .done ∧ st'.plus = st.plus ∧
      Outcome argv spec st.ind st.ofs c cs (r.event spec st') st'.ind st'.ofs by
    obtain ⟨r, st', hr, hd, hplus, ho⟩ := hcall
    exact ⟨r, st', h.call.trans hr, hd, ⟨hind ho, hplus.trans h.plus⟩, ho⟩
  have hplus := h.plus
  rw [getoptAgain]
  split
  · simp_all
  · simp_all
  next p t' heq =>
    obtain ⟨rfl, rfl⟩ : p = '-' ∧ t' = t := by simpa using heq.symm.trans ht
    by_cases hlong : st.ofs = 0 ∧ c = '-'
    · obtain ⟨hofs, rfl⟩ := hlong
      obtain rfl : t' = '-' :: cs := by simpa [hofs] using hdrop
      obtain ⟨r, st', hr, hd, hplus', ho⟩ := @getoptLong_outcome argv spec
        { st with err := .ok, lname := none, ch := some '-' } cs hv cs argv[st.ind + 1]? hofs
      refine ⟨r, st', ?_, hd, hplus', hofs.symm ▸ ho⟩
      have hcs : cs ≠ [] := by simpa using hdd
      rw [hofs, hplus] at hr
      simp [hcs, hplus, hofs, hr]
    · obtain ⟨r, st', hr, hd, hplus', ho⟩ := @getoptChar_outcome argv spec
        { st with err := .ok, lname := none, ch := some '-' } c cs hv
      refine ⟨r, st', ?_, hd, hplus', ho⟩
      have hno : ¬ (st.ofs = 0 ∧ t'.head? = some '-') := by
        rintro ⟨hofs, hhead⟩
        rw [hofs, List.drop_zero] at hdrop
        exact hlong ⟨hofs, by simpa [hdrop] using hhead⟩
      rw [hplus] at hr
      simp [hne, hdd, hplus, hno, hdrop, hle, hr]

/-- A call that skips letters has no result, or finds one. -/
theorem at_of_call (h : st.Ready) (hopt : startsOption (argv.drop st.ind) = true)
    (hcall : shellGetoptR argv spec.text st ≠ none) : ∃ cur, At argv st.ind st.ofs cur := by
  obtain ⟨t, ht, hne, hdd⟩ := (startsOption_drop argv st.ind).1 hopt
  by_cases hle : st.ofs ≤ t.length
  · exact ⟨_, t, ht, hne, hdd, hle, rfl⟩
  · refine absurd ?_ hcall
    have hlt : t.length < st.ofs := by omega
    have hofs : st.ofs ≠ 0 := by omega
    rw [h.call, getoptAgain]
    split
    · simp_all
    · simp_all
    next p t' heq =>
      obtain ⟨rfl, rfl⟩ : p = '-' ∧ t' = t := by simpa using heq.symm.trans ht
      simp [hne, hdd, hofs, hlt]

end Call

/-! ## Whole runs -/

section Reports

variable {argv : List Str} {spec : Optspec} {st st' : OptState} {c : Char} {cs : Str}
variable {evs : List OptEvent} {ev : OptEvent} {n i p : ℕ}

theorem Reports.done_iff (hcall : shellGetoptR argv spec.text st = some (.done, st')) :
    Reports argv spec st evs n ↔ evs = [] ∧ n = st'.ind := by
  constructor
  · intro h
    cases h with
    | done hcall' => simp_all
    | more hcall' hr => simp_all
  · rintro ⟨rfl, rfl⟩
    exact .done hcall

theorem Reports.more_iff {r : OptRet} (hcall : shellGetoptR argv spec.text st = some (r, st'))
    (hr : r ≠ .done) : Reports argv spec st evs n ↔
      ∃ evs', evs = r.event spec st' :: evs' ∧ Reports argv spec st' evs' n := by
  constructor
  · intro h
    cases h with
    | done hcall' => simp_all
    | more hcall' hr' hrest =>
      obtain ⟨rfl, rfl⟩ : _ ∧ _ := by simpa using hcall'.symm.trans hcall
      exact ⟨_, rfl, hrest⟩
  · rintro ⟨evs', rfl, hrest⟩
    exact .more hcall hr hrest

theorem Reports.congr (hcall : shellGetoptR argv spec.text st = shellGetoptR argv spec.text st') :
    Reports argv spec st evs n ↔ Reports argv spec st' evs n := by
  constructor <;> intro h <;> cases h with
  | done hcall' => exact .done (by simp_all)
  | more hcall' hr hrest => exact .more (by simp_all) hr hrest

/-- A run at a letter reports it. -/
theorem Reports.at_iff (hv : spec.Valid) (h : st.Ready) (hat : At argv st.ind st.ofs (c :: cs)) :
    ∃ ev st', Outcome argv spec st.ind st.ofs c cs ev st'.ind st'.ofs ∧ st'.Ready ∧
      ∀ evs n, Reports argv spec st evs n ↔
        ∃ evs', evs = ev :: evs' ∧ Reports argv spec st' evs' n := by
  obtain ⟨r, st', hcall, hr, hready, ho⟩ := call_outcome hv h hat
  exact ⟨_, st', ho, hready, fun _ _ => more_iff hcall hr⟩

/-- A run that is not at an option ends. -/
theorem Reports.end_iff (h : st.Ready) (hend : startsOption (argv.drop st.ind) = false) :
    Reports argv spec st evs n ↔
      evs = [] ∧ n = if argv[st.ind]? = some ['-', '-'] then st.ind + 1 else st.ind := by
  obtain ⟨st', hcall, hind⟩ := @call_done argv spec st h hend
  rw [done_iff hcall, hind]

theorem Reports.call_ne_none (h : Reports argv spec st evs n) :
    shellGetoptR argv spec.text st ≠ none := by
  cases h <;> simp_all

/-- **What a run does first**: it ends, or reports a letter that is not behind the place it has. -/
theorem Reports.cases (hv : spec.Valid) (h : st.Ready) (hrep : Reports argv spec st evs n) :
    (evs = [] ∧ st.ind ≤ n ∧ (startsOption (argv.drop st.ind) = true → st.ind < n)) ∨
    ∃ i p c cs ev evs' st', (i = st.ind ∧ p = st.ofs ∨ st.ind < i ∧ p = 0) ∧
      At argv i p (c :: cs) ∧ Outcome argv spec i p c cs ev st'.ind st'.ofs ∧ st'.Ready ∧
      evs = ev :: evs' ∧ Reports argv spec st' evs' n := by
  cases hopt : startsOption (argv.drop st.ind) with
  | false =>
    obtain ⟨rfl, rfl⟩ := (end_iff h hopt).1 hrep
    refine .inl ⟨rfl, ?_, nofun⟩
    split_ifs <;> omega
  | true =>
    obtain ⟨cur, hat⟩ := at_of_call h hopt hrep.call_ne_none
    rcases cur with - | ⟨c, cs⟩
    · -- the argument is used up, and the next one starts at its first letter
      obtain ⟨st₁, hready, hind, hofs, hcall⟩ := @call_next argv spec st h hat
      have hrep₁ := (congr hcall).1 hrep
      cases hopt₁ : startsOption (argv.drop st₁.ind) with
      | false =>
        obtain ⟨rfl, rfl⟩ := (end_iff hready hopt₁).1 hrep₁
        refine .inl ⟨rfl, ?_, fun _ => ?_⟩ <;> split_ifs <;> omega
      | true =>
        obtain ⟨cur, t, ht, hne, hdd, hle, hdrop⟩ := at_of_call hready hopt₁ hrep₁.call_ne_none
        rcases cur with - | ⟨c, cs⟩
        · exact absurd (by simpa [hofs] using hdrop) hne
        · obtain ⟨ev, st', ho, hready', hiff⟩ := at_iff hv hready ⟨t, ht, hne, hdd, hle, hdrop⟩
          obtain ⟨evs', rfl, hrest⟩ := (hiff _ _).1 hrep₁
          exact .inr ⟨_, _, c, cs, ev, evs', st', .inr ⟨by omega, hofs⟩,
            ⟨t, ht, hne, hdd, hle, hdrop⟩, ho, hready', rfl, hrest⟩
    · obtain ⟨ev, st', ho, hready', hiff⟩ := at_iff hv h hat
      obtain ⟨evs', rfl, hrest⟩ := (hiff _ _).1 hrep
      exact .inr ⟨_, _, c, cs, ev, evs', st', .inl ⟨rfl, rfl⟩, hat, ho, hready', rfl, hrest⟩

theorem At.startsOption {cur : Str} (h : At argv i p cur) :
    startsOption (argv.drop i) = true :=
  have ⟨t, ht, hne, hdd, _⟩ := h
  (startsOption_drop argv i).2 ⟨t, ht, hne, hdd⟩

theorem Outcome.le {i' p' : ℕ} (h : Outcome argv spec i p c cs ev i' p') : i ≤ i' := by
  cases h <;> omega

/-- A run ends behind the options it has seen. -/
theorem Reports.le (hv : spec.Valid) (h : st.Ready) (hrep : Reports argv spec st evs n) :
    st.ind ≤ n ∧ (startsOption (argv.drop st.ind) = true → st.ind < n) := by
  induction evs generalizing st with
  | nil =>
    rcases hrep.cases hv h with ⟨-, hle⟩ | ⟨i, p, c, cs, ev, evs', st', -, -, -, -, heq, -⟩
    · exact hle
    · exact absurd heq nofun
  | cons ev evs ih =>
    rcases hrep.cases hv h with ⟨heq, -⟩ | ⟨i, p, c, cs, ev, evs', st', hle, hat, ho, hready, heq, hrest⟩
    · exact absurd heq nofun
    · obtain ⟨rfl, rfl⟩ : _ ∧ _ := by simpa using heq
      obtain ⟨hle', hlt⟩ := ih hready hrest
      have : i < n := by
        rcases Nat.eq_or_lt_of_le ho.le with heq | hlt'
        · have := hlt (heq ▸ hat.startsOption)
          omega
        · omega
      omega

/-- The reference ends where no options are left, behind a `--`. -/
theorem refGetopt_end (spec : Optspec) {rest : List Str} (h : startsOption rest = false) :
    refGetopt spec [] rest = ([], if rest.head? = some ['-', '-'] then rest.tail else rest) := by
  cases rest with
  | nil => rw [refGetopt]; rfl
  | cons a rest =>
    by_cases hdd : a = ['-', '-']
    · subst hdd
      rw [refGetopt]
      rfl
    · have hno : ∀ c cs, a ≠ '-' :: c :: cs := by
        rintro c cs rfl
        exact hdd (by simpa [startsOption] using h)
      rw [refGetopt]
      · simp [hdd]
      · exact hdd
      · exact hno

/-- Where the reference is after an argument. -/
theorem ref_boundary (spec : Optspec) (argv : List Str) (i : ℕ) (hi : i ≤ argv.length) :
    (startsOption (argv.drop i) = false ∧ (refGetopt spec [] (argv.drop i)).1 = [] ∧
      argv.length - (refGetopt spec [] (argv.drop i)).2.length =
        if argv[i]? = some ['-', '-'] then i + 1 else i) ∨
    ∃ c cs, At argv i 0 (c :: cs) ∧
      refGetopt spec [] (argv.drop i) = refGetopt spec (c :: cs) (argv.drop (i + 1)) := by
  cases hopt : startsOption (argv.drop i) with
  | true =>
    obtain ⟨t, ht, hne, hdd⟩ := (startsOption_drop argv i).1 hopt
    have hdrop : argv.drop i = ('-' :: t) :: argv.drop (i + 1) := by
      rw [List.drop_eq_getElem?_toList_append, ht]
      rfl
    obtain ⟨c, cs, rfl⟩ := List.exists_cons_of_ne_nil hne
    refine .inr ⟨c, cs, ⟨_, ht, hne, hdd, Nat.zero_le _, rfl⟩, ?_⟩
    rw [hdrop, refGetopt]
    · simpa using hdd
  | false =>
    rw [refGetopt_end spec hopt, List.head?_drop, List.tail_drop]
    refine .inl ⟨rfl, rfl, ?_⟩
    split_ifs with hdd
    · have := (List.getElem?_eq_some_iff.1 hdd).1
      rw [List.length_drop]
      omega
    · rw [List.length_drop]
      omega

/-- The reports and the index of the reference, with `cur` left of an argument and `i` the next. -/
def Matches (argv : List Str) (spec : Optspec) (cur : Str) (i : ℕ) (evs : List OptEvent) (n : ℕ) :
    Prop :=
  evs = (refGetopt spec cur (argv.drop i)).1 ∧
    n = argv.length - (refGetopt spec cur (argv.drop i)).2.length

theorem Matches.unknown_iff (hl : spec.lookup c = none) : Matches argv spec (c :: cs) i evs n ↔
    ∃ evs', evs = .unknown c :: evs' ∧ Matches argv spec cs i evs' n := by
  simp [Matches, refGetopt, hl, and_comm]

theorem Matches.flag_iff (hl : spec.lookup c = some false) :
    Matches argv spec (c :: cs) i evs n ↔
      ∃ evs', evs = .flag c :: evs' ∧ Matches argv spec cs i evs' n := by
  simp [Matches, refGetopt, hl, and_comm]

theorem Matches.attached_iff (hl : spec.lookup c = some true) (hcs : cs ≠ []) :
    Matches argv spec (c :: cs) i evs n ↔
      ∃ evs', evs = .opt c cs :: evs' ∧ Matches argv spec [] i evs' n := by
  obtain ⟨d, cs, rfl⟩ := List.exists_cons_of_ne_nil hcs
  simp [Matches, refGetopt, hl, and_comm]

theorem Matches.missing_iff (hl : spec.lookup c = some true) (hi : argv.length ≤ i) :
    Matches argv spec [c] i evs n ↔ evs = [.missing c] ∧ n = argv.length := by
  simp [Matches, List.drop_eq_nil_iff.2 hi, refGetopt, hl]

theorem Matches.separate_iff {a : Str} (hl : spec.lookup c = some true) (ha : argv[i]? = some a) :
    Matches argv spec [c] i evs n ↔
      ∃ evs', evs = .opt c a :: evs' ∧ Matches argv spec [] (i + 1) evs' n := by
  have hdrop : argv.drop i = a :: argv.drop (i + 1) := by
    rw [List.drop_eq_getElem?_toList_append, ha]
    rfl
  simp [Matches, hdrop, refGetopt, hl, and_comm]

theorem Reports.lt (hv : spec.Valid) (hat : At argv i p (c :: cs))
    (ho : Outcome argv spec i p c cs ev st.ind st.ofs) (h : st.Ready)
    (hrep : Reports argv spec st evs n) : i < n := by
  obtain ⟨hle, hlt⟩ := hrep.le hv h
  rcases Nat.eq_or_lt_of_le ho.le with heq | hlt'
  · have := hlt (heq ▸ hat.startsOption)
    omega
  · omega

/-- Letters further on in the same argument. -/
theorem At.mem {d : Char} {ds : Str} {q : ℕ} (h : At argv i p (c :: cs)) (hd : At argv i q (d :: ds))
    (hlt : p < q) : d ∈ cs ∧ ds.length < cs.length := by
  obtain ⟨t, ht, -, -, -, hdrop⟩ := h
  obtain ⟨t', ht', -, -, -, hdrop'⟩ := hd
  obtain rfl : t = t' := by simpa using ht.symm.trans ht'
  obtain ⟨k, rfl⟩ : ∃ k, q = p + (k + 1) := ⟨q - p - 1, by omega⟩
  rw [← List.drop_drop, hdrop, List.drop_succ_cons] at hdrop'
  have hmem : d ∈ cs.drop k := hdrop' ▸ List.mem_cons_self
  refine ⟨List.mem_of_mem_drop hmem, ?_⟩
  have := congrArg List.length hdrop'
  simp at this
  omega

theorem At.lt_length {cur : Str} (h : At argv i p cur) : i < argv.length :=
  have ⟨_, ht, _⟩ := h
  (List.getElem?_eq_some_iff.1 ht).1

theorem At.next (h : At argv i p (c :: cs)) : At argv i (p + 1) cs := by
  obtain ⟨t, ht, hne, hdd, hle, hdrop⟩ := h
  have hlen := congrArg List.length hdrop
  simp only [List.length_drop, List.length_cons] at hlen
  refine ⟨t, ht, hne, hdd, by omega, ?_⟩
  rw [← List.drop_drop, hdrop]
  rfl

theorem Matches.ne_nil (hm : Matches argv spec (c :: cs) i evs n) : evs ≠ [] := by
  rw [hm.1, refGetopt.eq_def]
  dsimp only
  split <;> simp

/-- The reference behind an argument is at a letter, unless the run ends further on. -/
theorem Matches.boundary (hm : Matches argv spec [] i evs n) (hi : i ≤ argv.length)
    (hend : startsOption (argv.drop i) = false →
      (if argv[i]? = some ['-', '-'] then i + 1 else i) < n) :
    ∃ c cs, At argv i 0 (c :: cs) ∧ Matches argv spec (c :: cs) (i + 1) evs n := by
  rcases ref_boundary spec argv i hi with ⟨hopt, -, hn⟩ | ⟨c, cs, hat, heq⟩
  · have := hend hopt
    rw [hm.2, hn] at this
    exact absurd this (Nat.lt_irrefl _)
  · exact ⟨c, cs, hat, heq ▸ hm.1, heq ▸ hm.2⟩

theorem end_lt {j : ℕ} (hij : i ≤ j) (hj : startsOption (argv.drop j) = true) (hn : j < n) :
    startsOption (argv.drop i) = false → (if argv[i]? = some ['-', '-'] then i + 1 else i) < n := by
  intro hi
  have hne : i ≠ j := by
    rintro rfl
    simp_all
  split_ifs <;> omega

/-- **A reference left behind**: once the code is past a letter of the reference, it never reports
what the reference does. -/
theorem Reports.behind (hv : spec.Valid) (h : st.Ready) (hat : At argv i p (c :: cs))
    (hlt : i < st.ind ∨ i = st.ind ∧ p < st.ofs) (hrep : Reports argv spec st evs n) :
    ¬ Matches argv spec (c :: cs) (i + 1) evs n := by
  induction evs generalizing st i p c cs with
  | nil => exact fun hm => hm.ne_nil rfl
  | cons ev evs ih =>
    intro hm
    rcases hrep.cases hv h with ⟨heq, -⟩ | ⟨j, q, d, ds, ev', evs', st', hle, hat', ho, hready, heq, hrest⟩
    · exact absurd heq nofun
    obtain ⟨rfl, rfl⟩ : ev = ev' ∧ evs = evs' := by simpa using heq
    have hpq : i < j ∨ i = j ∧ p < q := by omega
    have hjn : j < n := hrest.lt hv hat' ho hready
    have hjopt := hat'.startsOption
    -- the reference goes on with the letters behind, or with the next argument
    have hinside : Matches argv spec cs (i + 1) evs n →
        (j = st'.ind ∧ q < st'.ofs ∨ j < st'.ind) → False := by
      intro hm' hst'
      rcases cs with - | ⟨c', cs⟩
      · have hij : i < j := by
          rcases hpq with hij | ⟨rfl, hpq⟩
          · exact hij
          · exact absurd (hat.mem hat' hpq).1 (List.not_mem_nil)
        obtain ⟨c', cs', hat₁, hm₁⟩ := hm'.boundary hat.lt_length (end_lt hij hjopt hjn)
        exact ih hready hat₁ (by omega) hrest hm₁
      · exact ih hready hat.next (by omega) hrest hm'
    generalize hi' : st'.ind = i' at ho hinside
    generalize hp' : st'.ofs = p' at ho hinside
    cases hl : spec.lookup c with
    | none =>
      obtain ⟨evs', heq, hm'⟩ := (Matches.unknown_iff hl).1 hm
      obtain ⟨rfl, rfl⟩ : ev = .unknown c ∧ evs = evs' := by simpa using heq
      cases ho with
      | unknown => exact hinside hm' (.inr (by omega))
      | long => exact hinside hm' (.inr (by omega))
    | some b =>
      cases b with
      | false =>
        obtain ⟨evs', heq, hm'⟩ := (Matches.flag_iff hl).1 hm
        obtain ⟨rfl, rfl⟩ : ev = .flag c ∧ evs = evs' := by simpa using heq
        cases ho with
        | flag => exact hinside hm' (.inl ⟨rfl, by omega⟩)
      | true =>
        by_cases hcs : cs = []
        · subst hcs
          -- the letter is the last of its argument, and the code is in a later one
          have hij : i < j := by
            rcases hpq with hij | ⟨rfl, hpq⟩
            · exact hij
            · exact absurd (hat.mem hat' hpq).1 (List.not_mem_nil)
          have hlen := hat'.lt_length
          obtain ⟨a, ha⟩ : ∃ a, argv[i + 1]? = some a :=
            ⟨_, List.getElem?_eq_getElem (by omega)⟩
          obtain ⟨evs', heq, hm'⟩ := (Matches.separate_iff hl ha).1 hm
          obtain ⟨rfl, rfl⟩ : ev = .opt c a ∧ evs = evs' := by simpa using heq
          cases ho with
          | attached hl' hds =>
            -- what is attached is shorter than its argument
            have hne : i + 1 ≠ j := by
              rintro rfl
              obtain ⟨t, ht, -, -, -, hdrop⟩ := hat'
              obtain rfl : ds = '-' :: t := by simpa using ha.symm.trans ht
              have := congrArg List.length hdrop
              simp at this
              omega
            obtain ⟨c', cs', hat₁, hm₁⟩ :=
              hm'.boundary (by omega) (end_lt (by omega) hjopt hjn)
            exact ih hready hat₁ (by omega) hrest hm₁
          | separate hl' hds ha' =>
            have hend : startsOption (argv.drop (i + 2)) = false →
                (if argv[i + 2]? = some ['-', '-'] then i + 2 + 1 else i + 2) < n := by
              rcases Nat.eq_or_lt_of_le hij with rfl | hlt
              · obtain ⟨t, ht, hne, hdd⟩ := (startsOption_drop _ _).1 hjopt
                have : startsOption (argv.drop (i + 2)) = true :=
                  (startsOption_drop _ _).2 ⟨t, ha'.trans (ha.symm.trans ht), hne, hdd⟩
                simp [this]
              · exact end_lt hlt hjopt hjn
            obtain ⟨c', cs', hat₁, hm₁⟩ := hm'.boundary (by omega) hend
            exact ih hready hat₁ (by omega) hrest hm₁
        · obtain ⟨evs', heq, hm'⟩ := (Matches.attached_iff hl hcs).1 hm
          obtain ⟨rfl, rfl⟩ : ev = .opt c cs ∧ evs = evs' := by simpa using heq
          cases ho with
          | attached hl' hds =>
            have hij : i < j := by
              rcases hpq with hij | ⟨rfl, hpq⟩
              · exact hij
              · exact absurd (hat.mem hat' hpq).2 (Nat.lt_irrefl _)
            obtain ⟨c', cs', hat₁, hm₁⟩ := hm'.boundary hat.lt_length (end_lt hij hjopt hjn)
            exact ih hready hat₁ (by omega) hrest hm₁
          | separate hl' hds ha' =>
            have hend : startsOption (argv.drop (i + 1)) = false →
                (if argv[i + 1]? = some ['-', '-'] then i + 1 + 1 else i + 1) < n := by
              rcases hpq with hij | ⟨rfl, hpq⟩
              · exact end_lt hij hjopt hjn
              · -- the code's letter is part of what is attached, and so no dash
                intro _
                have hmem := (hat.mem hat' hpq).1
                have hdash : cs ≠ ['-', '-'] := by
                  rintro rfl
                  have hc : c = '-' := by simpa using hmem
                  simp [hv.lookup_eq_none (.inr (.inl hc))] at hl
                have hn := (hrest.le hv hready).1
                simp only [ha', Option.some.injEq, hdash, if_false]
                omega
            obtain ⟨c', cs', hat₁, hm₁⟩ := hm'.boundary hat.lt_length hend
            exact ih hready hat₁ (by omega) hrest hm₁

end Reports

/-! ## The condition -/

section Agrees

variable {argv : List Str} {spec : Optspec} {st st' : OptState} {c : Char} {cs cur : Str}
variable {evs : List OptEvent} {ev ev' : OptEvent} {n i i' p : ℕ}

/-- A run from `st` reports what the reference does. -/
def Agrees (argv : List Str) (spec : Optspec) (st : OptState) (cur : Str) (i : ℕ) : Prop :=
  ∃ evs n, Matches argv spec cur i evs n ∧ Reports argv spec st evs n

/-- The code is where the reference is: at a letter, or behind an argument with an offset that does
not matter. -/
inductive Sync (argv : List Str) (st : OptState) : ℕ → Str → Prop
  | inside {d ds} : At argv st.ind st.ofs (d :: ds) → (st.ofs ≠ 0 ∨ d ≠ '-') →
      Sync argv st (st.ind + 1) (d :: ds)
  | boundary : st.ind ≤ argv.length → (st.ofs = 0 ∨ startsOption (argv.drop st.ind) = false) →
      Sync argv st st.ind []

theorem agrees_step (hm : ∀ evs n, Matches argv spec (c :: cs) i evs n ↔
      ∃ evs', evs = ev' :: evs' ∧ Matches argv spec cur i' evs' n)
    (hr : ∀ evs n, Reports argv spec st evs n ↔
      ∃ evs', evs = ev :: evs' ∧ Reports argv spec st' evs' n) :
    Agrees argv spec st (c :: cs) i ↔ ev = ev' ∧ Agrees argv spec st' cur i' := by
  constructor
  · rintro ⟨evs, n, hmatch, hrep⟩
    obtain ⟨evs₁, rfl, hmatch'⟩ := (hm _ _).1 hmatch
    obtain ⟨evs₂, heq, hrep'⟩ := (hr _ _).1 hrep
    obtain ⟨rfl, rfl⟩ : ev' = ev ∧ evs₁ = evs₂ := by simpa using heq
    exact ⟨rfl, evs₁, n, hmatch', hrep'⟩
  · rintro ⟨rfl, evs, n, hmatch, hrep⟩
    exact ⟨_, n, (hm _ _).2 ⟨_, rfl, hmatch⟩, (hr _ _).2 ⟨_, rfl, hrep⟩⟩

theorem not_agrees_behind (hv : spec.Valid) (h : st.Ready) (hat : At argv i p (c :: cs))
    (hlt : i < st.ind ∨ i = st.ind ∧ p < st.ofs) : ¬ Agrees argv spec st (c :: cs) (i + 1) :=
  fun ⟨_, _, hm, hrep⟩ => hrep.behind hv h hat hlt hm

/-- At the first letter of an argument. -/
theorem matches_first (hat : At argv i 0 (c :: cs)) :
    Matches argv spec [] i evs n ↔ Matches argv spec (c :: cs) (i + 1) evs n := by
  rcases ref_boundary spec argv i (Nat.le_of_lt hat.lt_length) with ⟨hopt, -⟩ | ⟨c', cs', hat', heq⟩
  · exact absurd hat.startsOption (by simp [hopt])
  · obtain ⟨t, ht, -, -, -, hdrop⟩ := hat
    obtain ⟨t', ht', -, -, -, hdrop'⟩ := hat'
    obtain rfl : t = t' := by simpa using ht.symm.trans ht'
    obtain ⟨rfl, rfl⟩ : c = c' ∧ cs = cs' := by simpa using hdrop.symm.trans hdrop'
    rw [Matches, heq, Matches]

theorem keepsPlace_first (hat : At argv i 0 (c :: cs)) (k : ℕ) :
    keepsPlace spec k [] (argv.drop i) =
      (c != '-' && keepsPlace spec 0 (c :: cs) (argv.drop (i + 1))) := by
  obtain ⟨t, ht, -, hdd, -, rfl⟩ := hat
  have hdrop : argv.drop i = ('-' :: c :: cs) :: argv.drop (i + 1) := by
    rw [List.drop_eq_getElem?_toList_append, ht]
    rfl
  rw [hdrop, keepsPlace]
  simpa using hdd

theorem keepsPlace_end (hopt : startsOption (argv.drop i) = false) (k : ℕ) :
    keepsPlace spec k [] (argv.drop i) = true := by
  rw [keepsPlace.eq_def]
  split
  · rfl
  next a rest heq =>
    split
    · rfl
    next c cs hdd =>
      obtain ⟨hc, hcs⟩ : c = '-' ∧ cs = [] := by simpa [heq, startsOption] using hopt
      exact (hdd hc hcs).elim
    · rfl
  next heq => exact absurd heq nofun

theorem keepsPlace_nil (k : ℕ) (rest : List Str) :
    keepsPlace spec k [] rest = keepsPlace spec 0 [] rest := by
  cases rest <;> rw [keepsPlace.eq_def, keepsPlace.eq_def _ 0]

theorem keepsPlace_unknown (hl : spec.lookup c = none) (k : ℕ) (rest : List Str) :
    keepsPlace spec k (c :: cs) rest = (cs.isEmpty && !(c == ':' && spec.any (·.2)) &&
      ((k == 0 || !startsOption rest) && keepsPlace spec 0 [] rest)) := by
  rw [keepsPlace, Bool.and_assoc]
  exact hl

theorem keepsPlace_flag (hl : spec.lookup c = some false) (k : ℕ) (rest : List Str) :
    keepsPlace spec k (c :: cs) rest = keepsPlace spec (k + 1) cs rest := by
  simp [keepsPlace, hl]

theorem keepsPlace_attached (hl : spec.lookup c = some true) (hcs : cs ≠ []) (k : ℕ)
    (rest : List Str) : keepsPlace spec k (c :: cs) rest =
      ((k == 0 || !startsOption rest) && keepsPlace spec 0 [] rest) := by
  obtain ⟨d, ds, rfl⟩ := List.exists_cons_of_ne_nil hcs
  simp [keepsPlace, hl]

theorem keepsPlace_separate {a : Str} (hl : spec.lookup c = some true) (ha : argv[i]? = some a)
    (k : ℕ) : keepsPlace spec k [c] (argv.drop i) =
      ((k == 0 || !startsOption (argv.drop (i + 1))) && keepsPlace spec 0 [] (argv.drop (i + 1))) := by
  have hdrop : argv.drop i = a :: argv.drop (i + 1) := by
    rw [List.drop_eq_getElem?_toList_append, ha]
    rfl
  simp [hdrop, keepsPlace, hl]

theorem keepsPlace_missing (hl : spec.lookup c = some true) (hi : argv.length ≤ i) (k : ℕ) :
    keepsPlace spec k [c] (argv.drop i) = true := by
  simp [List.drop_eq_nil_iff.2 hi, keepsPlace, hl]

/-- Behind an argument with no options. -/
theorem agrees_end (h : st.Ready) (hle : st.ind ≤ argv.length)
    (hopt : startsOption (argv.drop st.ind) = false) : Agrees argv spec st [] st.ind := by
  rcases ref_boundary spec argv st.ind hle with ⟨-, hevs, hn⟩ | ⟨c, cs, hat, -⟩
  · exact ⟨_, _, ⟨rfl, rfl⟩, (Reports.end_iff h hopt).2 ⟨hevs, hn⟩⟩
  · exact absurd hat.startsOption (by simp [hopt])

/-- Behind an argument, with the offset still inside it. -/
theorem agrees_after (hv : spec.Valid) (h : st.Ready) (hi : st.ind = i) (hle : i ≤ argv.length)
    (ih : Sync argv st i [] →
      (Agrees argv spec st [] i ↔ keepsPlace spec st.ofs [] (argv.drop i) = true)) :
    Agrees argv spec st [] i ↔
      ((st.ofs == 0 || !startsOption (argv.drop i)) && keepsPlace spec 0 [] (argv.drop i)) = true := by
  subst hi
  by_cases hofs : st.ofs = 0 ∨ startsOption (argv.drop st.ind) = false
  · rw [ih (.boundary hle hofs), keepsPlace_nil]
    rcases hofs with hofs | hofs <;> simp [hofs]
  · -- the offset hides letters of the next argument
    obtain ⟨hofs, hopt⟩ := not_or.1 hofs
    rcases ref_boundary spec argv st.ind hle with ⟨hend, -⟩ | ⟨c, cs, hat, -⟩
    · exact absurd hend hopt
    · have hno : ¬ Agrees argv spec st [] st.ind := by
        rintro ⟨evs, n, hm, hrep⟩
        exact not_agrees_behind hv h hat (.inr ⟨rfl, by omega⟩) ⟨evs, n, (matches_first hat).1 hm, hrep⟩
      simp [hno, hofs, hat.startsOption]

/-- A dash behind the first one starts the name of a long option. -/
theorem not_agrees_long (hv : spec.Valid) (h : st.Ready) (hat : At argv st.ind 0 ('-' :: cs))
    (hofs : st.ofs = 0) : ¬ Agrees argv spec st ('-' :: cs) (st.ind + 1) := by
  obtain ⟨ev, st', ho, hready, hr⟩ := @Reports.at_iff argv spec st '-' cs hv h (hofs.symm ▸ hat)
  have hl := hv.lookup_eq_none (c := '-') (.inr (.inl rfl))
  rw [agrees_step (fun _ _ => Matches.unknown_iff hl) hr]
  rintro ⟨-, hag⟩
  have hcs : cs ≠ [] := by
    obtain ⟨t, -, -, hdd, -, rfl⟩ := hat
    simpa using hdd
  obtain ⟨d, ds, rfl⟩ := List.exists_cons_of_ne_nil hcs
  have hind : st.ind < st'.ind := by
    generalize st'.ind = i', st'.ofs = p' at ho
    cases ho <;> simp_all
  exact not_agrees_behind hv hready hat.next (.inl hind) hag

/-- **The code reports what the reference does exactly where it keeps its place.** -/
theorem agrees_iff {st : OptState} {i : ℕ} {cur : Str} (hv : spec.Valid) (h : st.Ready)
    (hsync : Sync argv st i cur) :
    Agrees argv spec st cur i ↔ keepsPlace spec st.ofs cur (argv.drop i) = true := by
  cases hsync with
  | @inside c cs hat hfirst =>
    have hlt := hat.lt_length
    obtain ⟨ev, st', ho, hready, hr⟩ := Reports.at_iff hv h hat
    generalize hi' : st'.ind = i' at ho
    generalize hp' : st'.ofs = p' at ho
    cases hl : spec.lookup c with
    | none =>
      rw [agrees_step (fun _ _ => Matches.unknown_iff hl) hr, keepsPlace_unknown hl]
      cases ho with
      | unknown _ hcolon =>
        rcases cs with - | ⟨d, ds⟩
        · have ih (hs : Sync argv st' (st.ind + 1) []) := agrees_iff hv hready hs
          rw [agrees_after hv hready hi' hlt ih, hp']
          simp [hcolon]
        · have := not_agrees_behind hv hready hat.next (.inl (by omega))
          simp [this]
      | colon _ hc hany => simp [hc, hany]
      | long _ hc hofs => simp_all
      | help _ hc hofs => simp_all
      | _ => simp_all
    | some b =>
      cases b with
      | false =>
        rw [agrees_step (fun _ _ => Matches.flag_iff hl) hr, keepsPlace_flag hl]
        cases ho with
        | flag =>
          by_cases hcs : cs = []
          · subst hcs
            -- the code finds the end of the argument in its next call
            have hat' : At argv st'.ind st'.ofs [] := by
              rw [hi', hp']
              exact hat.next
            obtain ⟨st₁, hready₁, hind, hofs, hcall⟩ := @call_next argv spec st' hready hat'
            have ih := agrees_iff hv hready₁ (.boundary (by omega) (.inl hofs))
            rw [hind, hi', keepsPlace_nil] at ih
            rw [keepsPlace_nil, ← ih]
            simp only [Agrees, Reports.congr hcall, true_and]
          · have hsync : Sync argv st' (st.ind + 1) cs := by
              have hat' := hat.next
              rw [← hi', ← hp'] at hat'
              obtain ⟨d, ds, rfl⟩ := List.exists_cons_of_ne_nil hcs
              rw [← hi']
              exact .inside hat' (.inl (by omega))
            rw [agrees_iff hv hready hsync, hp']
            simp
        | _ => simp_all
      | true =>
        cases ho with
        | attached _ hcs =>
          have ih (hs : Sync argv st' (st.ind + 1) []) := agrees_iff hv hready hs
          rw [agrees_step (fun _ _ => Matches.attached_iff hl hcs) hr, agrees_after hv hready hi' hlt ih,
            hp', keepsPlace_attached hl hcs]
          simp
        | separate _ hcs ha =>
          subst hcs
          have hlt' := (List.getElem?_eq_some_iff.1 ha).1
          have ih (hs : Sync argv st' (st.ind + 2) []) := agrees_iff hv hready hs
          rw [agrees_step (fun _ _ => Matches.separate_iff hl ha) hr,
            agrees_after hv hready hi' hlt' ih, hp', keepsPlace_separate hl ha]
          simp
        | missing _ hcs hnext =>
          subst hcs
          have hle : argv.length ≤ st.ind + 1 := List.getElem?_eq_none_iff.1 hnext
          rw [keepsPlace_missing hl hle]
          have hend : startsOption (argv.drop st'.ind) = false := by
            rw [hi', List.drop_eq_nil_iff.2 hle]
            rfl
          refine iff_of_true ⟨_, _, (Matches.missing_iff hl hle).2 ⟨rfl, rfl⟩,
            (hr _ _).2 ⟨[], rfl, (Reports.end_iff hready hend).2 ⟨rfl, ?_⟩⟩⟩ rfl
          simp [hi', hnext]
          omega
        | _ => simp_all
  | boundary hle hofs =>
    rcases ref_boundary spec argv st.ind hle with ⟨hend, -⟩ | ⟨c, cs, hat, -⟩
    · simp [agrees_end h hle hend, keepsPlace_end hend]
    · have hofs : st.ofs = 0 := hofs.resolve_right (by simp [hat.startsOption])
      have hlt := hat.lt_length
      rw [keepsPlace_first hat, Agrees]
      simp only [matches_first hat]
      change Agrees argv spec st (c :: cs) (st.ind + 1) ↔ _
      by_cases hc : c = '-'
      · subst hc
        simp [not_agrees_long hv h hat hofs]
      · have ih := agrees_iff hv h (.inside (hofs.symm ▸ hat) (.inr hc))
        rw [ih]
        simp [hc, hofs]
termination_by (argv.length - i, cur.length)
decreasing_by
  all_goals simp only [Prod.lex_def, List.length_nil, List.length_cons, true_and]; omega

/-- The first call starts behind the name of the program. -/
theorem call_first (hv : spec.Valid) (h : st.ind = 0) : ∃ st', st'.Ready ∧ st'.ind = 1 ∧ st'.ofs = 0 ∧
    shellGetoptR argv spec.text st = shellGetoptR argv spec.text st' := by
  have hplus : spec.text.head? ≠ some '+' := fun hp => (hv.head_text _ hp).2 rfl
  refine ⟨{ st with plus := false, ind := 1, ofs := 0, opt := '\x00', arg := none },
    ⟨Nat.one_ne_zero, rfl⟩, rfl, rfl, ?_⟩
  simp [shellGetoptR, shellGetoptLongR, h, hplus]

/-- **The options of an argument vector.**  Called until it returns `-1`, the parser reports what POSIX
says and ends with the index of the first operand, exactly where it keeps its place. -/
theorem getopt_reports_iff (hv : spec.Valid) (prog : Str) (args : List Str) (h : st.ind = 0) :
    Reports (prog :: args) spec st (refGetopt spec [] args).1
      ((prog :: args).length - (refGetopt spec [] args).2.length) ↔
    keepsPlace spec 0 [] args = true := by
  obtain ⟨st', hready, hind, hofs, hcall⟩ := @call_first (prog :: args) spec st hv h
  have hsync : Sync (prog :: args) st' 1 [] := by
    rw [← hind]
    exact .boundary (by simp [hind]) (.inl hofs)
  have hiff := agrees_iff hv hready hsync
  rw [hofs] at hiff
  rw [List.drop_one, List.tail_cons] at hiff
  rw [Reports.congr hcall, ← hiff]
  constructor
  · exact fun hrep => ⟨_, _, ⟨rfl, rfl⟩, hrep⟩
  · rintro ⟨evs, n, ⟨rfl, rfl⟩, hrep⟩
    exact hrep

end Agrees

/-- Behind `-ab 1` the offset is that of `b`, and the letter of `-c` is not seen. -/
theorem getopt_skips_letter :
    ¬ Reports [['x'], ['-', 'a', 'b'], ['1'], ['-', 'c']] [('a', false), ('b', true), ('c', false)]
      ⟨false, 0, 0, '\x00', none, none, none, .ok⟩
      (refGetopt [('a', false), ('b', true), ('c', false)] []
        [['-', 'a', 'b'], ['1'], ['-', 'c']]).1 4 := by
  have href : (refGetopt [('a', false), ('b', true), ('c', false)] []
      [['-', 'a', 'b'], ['1'], ['-', 'c']]).1 = [.flag 'a', .opt 'b' ['1'], .flag 'c'] := by
    simp [refGetopt, List.lookup]
  rw [href]
  intro h
  have h₁ : shellGetoptR [['x'], ['-', 'a', 'b'], ['1'], ['-', 'c']]
      (Optspec.text [('a', false), ('b', true), ('c', false)])
      ⟨false, 0, 0, '\x00', none, none, none, .ok⟩ =
      some (.chr 'a', ⟨false, 1, 1, 'a', none, some '-', none, .ok⟩) := by decide +kernel
  have h₂ : shellGetoptR [['x'], ['-', 'a', 'b'], ['1'], ['-', 'c']]
      (Optspec.text [('a', false), ('b', true), ('c', false)])
      ⟨false, 1, 1, 'a', none, some '-', none, .ok⟩ =
      some (.chr 'b', ⟨false, 3, 1, 'b', some ['1'], some '-', none, .ok⟩) := by decide +kernel
  have h₃ : shellGetoptR [['x'], ['-', 'a', 'b'], ['1'], ['-', 'c']]
      (Optspec.text [('a', false), ('b', true), ('c', false)])
      ⟨false, 3, 1, 'b', some ['1'], some '-', none, .ok⟩ =
      some (.done, ⟨false, 4, 0, '\x00', some ['1'], some '-', none, .ok⟩) := by decide +kernel
  obtain ⟨_, ha, h⟩ := (Reports.more_iff h₁ (fun h => by cases h)).1 h
  obtain ⟨_, hb, h⟩ := (Reports.more_iff h₂ (fun h => by cases h)).1 h
  obtain ⟨hc, -⟩ := (Reports.done_iff h₃).1 h
  simp_all

theorem getopt_reports_cluster :
    keepsPlace [('a', false), ('b', true)] 0 [] [['-', 'a', 'b'], ['1'], ['f']] = true ∧
    Reports [['x'], ['-', 'a', 'b'], ['1'], ['f']] [('a', false), ('b', true)]
      ⟨false, 0, 0, '\x00', none, none, none, .ok⟩
      (refGetopt [('a', false), ('b', true)] [] [['-', 'a', 'b'], ['1'], ['f']]).1
      ([['x'], ['-', 'a', 'b'], ['1'], ['f']].length -
        (refGetopt [('a', false), ('b', true)] [] [['-', 'a', 'b'], ['1'], ['f']]).2.length) := by
  have hk : keepsPlace [('a', false), ('b', true)] 0 [] [['-', 'a', 'b'], ['1'], ['f']] = true := by
    simp [keepsPlace, List.lookup, startsOption]
  have hv : Optspec.Valid [('a', false), ('b', true)] := by
    intro p hp
    rcases List.mem_pair.1 hp with rfl | rfl <;> decide
  exact ⟨hk, (getopt_reports_iff hv ['x'] _ rfl).2 hk⟩

end Shish
