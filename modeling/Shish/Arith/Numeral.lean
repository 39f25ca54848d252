import Shish.Arith.Precedence
import Shish.Arith.Reread

/-!
# Arith/Numeral — which literals have their value

`parse_arith_value` collects at most `FMT_LONG` characters of a literal, and behind `0x` it looks at
a 0 as it does at the first digit of a literal: an octal digit behind that 0 changes the base, and
together with a letter behind it the 0 is dropped.  `Literal.kept` is what it collects when it
collects all of a literal, and `readAs_iff` says when the number of that is the value, in the parser
and in `scan_number`.
-/

namespace Shish

variable {ω : Type} {O : Operands ω} {r : Str}

/-! ## The parser of numbers -/

/-- A number is what the loop has kept, scanned in its base. -/
theorem value_num_iff {s s' : Source} {c : Char} {base : ℕ} {num : Int64} (hc : s.peek = some c)
    (hd : parseIsdigit c) : Gives (parseArithValue O) s (.num num base, s') ↔
      ∃ x, numLoop (s.buf.length + 1) [] 10 c s = (x, base, s') ∧ scanBase base x = some num := by
  constructor
  · intro h
    obtain ⟨⟨x, b, s''⟩, hx⟩ : ∃ q, numLoop (s.buf.length + 1) [] 10 c s = q := ⟨_, rfl⟩
    cases hnum : scanBase b x with
    | some num' =>
      obtain ⟨hn, hs⟩ := Prod.mk.inj (h.unique (value_num hc hd hx hnum))
      obtain ⟨rfl, rfl⟩ := Arith.num.inj hn
      exact ⟨x, by rw [hx, hs], hnum⟩
    | none =>
      obtain ⟨N, hN⟩ := h
      have hnone : parseArithValue O (N + 1) s = none := by
        simp only [parseArithValue, hc]
        split
        all_goals simp_all [show parseIsdigit '(' = false by decide,
          show parseIsdigit '`' = false by decide, show parseIsdigit '$' = false by decide]
      cases (hN (N + 1) (by omega)).symm.trans hnone
  · rintro ⟨x, hx, hnum⟩
    exact value_num hc hd hx hnum

/-- Once more than a 0 is kept the base stays. -/
theorem numLoop_base : ∀ (n : ℕ) {x : Str} {base : ℕ} {c : Char} {s : Source}, x ++ [c] ≠ ['0'] →
    (numLoop n x base c s).2.1 = base
  | 0, _, _, _, _, _ => rfl
  | n + 1, x, base, c, s, hx => by
      simp only [numLoop, if_neg hx]
      split
      · rfl
      · next c' _ =>
        split
        · refine numLoop_base n fun h => ?_
          have := congrArg List.length h
          simp at this
        · rfl

theorem length_front : ∀ (b : Bool) (t : Str), (Source.front b t).length ≤ t.length
  | true, t => le_of_eq (by rw [Source.front]; rintro _ h; cases h)
  | false, [] => le_of_eq (by rw [Source.front]; rintro _ _ h; cases h)
  | false, c :: t => by
      by_cases h : c = '\\' ∧ t.head? = some '\n'
      · obtain ⟨rfl, ht⟩ := h
        obtain ⟨t, rfl⟩ : ∃ u, t = '\n' :: u := by
          cases t with
          | nil => cases ht
          | cons d t => exact ⟨t, by rw [Option.some.inj ht]⟩
        rw [Source.front, List.length_cons, List.length_cons]
        have := length_front false t
        omega
      · rw [Source.front]
        rintro u - heq
        obtain ⟨rfl, rfl⟩ := List.cons.inj heq
        exact h ⟨rfl, rfl⟩

/-- A skip leaves less, if there is anything. -/
theorem length_skip_lt {s : Source} (h : s.buf ≠ []) : s.skip.buf.length < s.buf.length := by
  have hf : (if s.raw then s.buf else Source.front s.bs s.buf).length ≤ s.buf.length := by
    split
    · exact le_rfl
    · exact length_front _ _
  have hpos := List.length_pos_iff.2 h
  unfold Source.skip
  split
  · exact hpos
  · next c t ht =>
    rw [ht, List.length_cons] at hf
    split
    · split
      · simp only [List.length_cons] at hf ⊢
        omega
      · simp only
        omega
    · simp only
      omega

theorem length_skip_le (s : Source) : s.skip.buf.length ≤ s.buf.length := by
  by_cases h : s.buf = []
  · have hf : (if s.raw then s.buf else Source.front s.bs s.buf) = [] := by
      rw [h]
      split
      · rfl
      · exact List.eq_nil_of_length_eq_zero (Nat.le_zero.1 (length_front s.bs []))
    unfold Source.skip
    rw [hf]
    exact Nat.zero_le _
  · exact (length_skip_lt h).le

/-- The loop takes its first character. -/
theorem length_numLoop : ∀ (n : ℕ) (x : Str) (base : ℕ) (c : Char) (s : Source),
    (numLoop (n + 1) x base c s).2.2.buf.length ≤ s.skip.buf.length
  | n, x, base, c, s => by
      have ih : ∀ (x : Str) (base : ℕ) (c : Char) (s : Source),
          (numLoop n x base c s).2.2.buf.length ≤ s.buf.length := by
        intro x base c s
        cases n with
        | zero => exact le_rfl
        | succ n => exact le_trans (length_numLoop n x base c s) (length_skip_le s)
      simp only [numLoop]
      split
      · exact le_rfl
      · next c' _ =>
        split
        · split
          · split
            · exact length_skip_le _
            · exact le_trans (ih _ _ _ _) (length_skip_le _)
          · split
            · exact ih _ _ _ _
            · exact le_rfl
        · split
          · exact ih _ _ _ _
          · exact le_rfl

/-! ## What is kept -/

namespace Literal

/-- The digits kept of those behind `0x`, where the loop keeps hexadecimal ones to the end. -/
def behind0x : Str → Option Str
  | '0' :: c :: t =>
      if parseIsodigit c then none
      else if parseIsdigit c then some ('0' :: c :: t)
      else if t = [] then none
      else behind0x t
  | ds => some ds

/-- What is kept of a literal that is kept to its end, in its base. -/
def kept : Literal → Option Str
  | dec ds => some ds
  | oct ds => some ('0' :: ds)
  | hex true _ => none
  | hex false ds => behind0x ds

/-- The number the scanner of the base reads. -/
def scanned (l : Literal) (x : Str) : ℕ :=
  match l with
  | dec _ => (readBelow parseIsdigit 10 (2 ^ 63) 0 0 x).2
  | oct _ => (readBelow parseIsodigit 8 (2 ^ 64) 0 0 x).2
  | hex .. => digits 16 0 x

/-- The literals that have their value: they are kept to the end, and the number scanned of what is
kept is the value modulo 2^64. -/
def exact (l : Literal) : Bool :=
  l.kept.any fun x => x.length ≤ fmtLong && l.scanned x % 2 ^ 64 == l.value % 2 ^ 64

/-- A literal has its value: the parser reads all of it, into a number of its value and base, and
`scan_number` reads the value. -/
def ReadAs (O : Operands ω) (l : Literal) (r : Str) : Prop :=
  Gives (parseArithValue O) (.ofStr (l.text ++ r))
      (.num (UInt64.ofNat l.value).toInt64 l.base, .ofStr r) ∧
    (scanNumber l.text).2 = some (UInt64.ofNat l.value).toInt64

end Literal

/-- The loop has read a text and stands in front of `r`. -/
theorem ofStr_drop {k : ℕ} {t : Str} :
    Source.ofStr (t.drop k ++ r) = .ofStr r ↔ t.length ≤ k := by
  constructor
  · intro h
    have := congrArg (fun s => s.buf.length) h
    simp only [Source.ofStr, List.length_append, List.length_drop] at this
    omega
  · intro h
    rw [List.drop_of_length_le h, List.nil_append]

/-- Digits of the base behind what is kept already. -/
theorem numLoop_take_iff {base : ℕ} (hr : endsNum r) {ds : Str} {n : ℕ} {x y : Str} {c : Char}
    (hc : inBase base c) (hds : ∀ d ∈ ds, inBase base d) (hx : x ++ [c] ≠ ['0'])
    (hlen : x.length < fmtLong) (hn : ds.length < n) :
    numLoop n x base c (.ofStr (c :: ds ++ r)) = (y, base, .ofStr r) ↔
      (x ++ c :: ds).length ≤ fmtLong ∧ y = x ++ c :: ds := by
  have hle : (c :: ds).length ≤ fmtLong - x.length ↔ (x ++ c :: ds).length ≤ fmtLong := by
    rw [List.length_append]
    omega
  rw [numLoop_take base hr ds n x c hc hds hx hlen hn, Prod.mk.injEq, Prod.mk.injEq, ofStr_drop, ← hle]
  constructor
  · rintro ⟨rfl, -, h⟩
    rw [List.take_of_length_le h]
    exact ⟨h, rfl⟩
  · rintro ⟨h, rfl⟩
    rw [List.take_of_length_le h]
    exact ⟨rfl, rfl, h⟩

/-! ## Hexadecimal digits -/

theorem inBase_hex {c : Char} (h : parseIsxdigit c) : inBase 16 c := h

theorem isdigit_of_not_isalpha {c : Char} (hc : parseIsxdigit c) (ha : parseIsalpha c = false) :
    parseIsdigit c := by
  by_contra hd
  exact absurd (isalpha_of_isxdigit hc (by simpa using hd)) (by simp [ha])

theorem le_scanFromhex {c : Char} (hd : parseIsdigit c = false) : 10 ≤ scanFromhex c := by
  simp only [scanFromhex, hd, Bool.false_eq_true, if_false]
  split_ifs <;> omega

/-- A single 0 in front of another digit. -/
theorem numLoop_behind_zero {n base : ℕ} {c : Char} {t : Str} (hc : parseIsxdigit c)
    (hb : parseIsdigit c → inBase base c) :
    numLoop (n + 1) [] base '0' (.ofStr ('0' :: c :: t)) =
      if parseIsalpha c then
        match (Source.ofStr t).peek with
        | none => ([], base, .ofStr t)
        | some d => numLoop n [] base d (.ofStr t)
      else numLoop n ['0'] (if parseIsodigit c then 8 else base) c (.ofStr (c :: t)) := by
  have hbs := ne_backslash_of_isxdigit hc
  have hx : c ≠ 'x' := by
    rintro rfl
    exact absurd hc (by decide)
  cases ha : parseIsalpha c with
  | true =>
    have ho : parseIsodigit c = false := by
      by_contra ho
      exact absurd (isalpha_of_isdigit (isdigit_of_isodigit (by simpa using ho))) (by simp [ha])
    simp only [numLoop, List.nil_append, Source.skip_cons (show '0' ≠ '\\' by decide),
      Source.peek_cons hbs, hx, ho, ha, if_true, if_false, Bool.false_eq_true, Source.skip_cons hbs] <;>
    rfl
  | false =>
    have hdig := hb (isdigit_of_not_isalpha hc ha)
    simp only [numLoop, List.nil_append, Source.skip_cons (show '0' ≠ '\\' by decide),
      Source.peek_cons hbs, hx, ha, hdig, if_true, if_false, Bool.false_eq_true]

theorem scanBase_hex {x : Str} (h : ∀ c ∈ x, parseIsxdigit c) :
    scanBase 16 x = some (UInt64.ofNat (digits 16 0 x)).toInt64 := by
  rw [scanBase, if_neg (by decide), if_pos rfl, scanXlonglong_wraps, List.takeWhile_eq_self_iff.2 h]

/-- What the loop keeps behind `0x`, and whether that has the value of all digits. -/
def keptRight (l : ℕ) (ds : Str) : Bool :=
  (Literal.behind0x ds).any fun x =>
    x.length ≤ fmtLong && digits 16 0 x % 2 ^ 64 == digits 16 l ds % 2 ^ 64

/-- Where all that follows is kept. -/
theorem keptRight_iff {ds k : Str} (h : Literal.behind0x ds = some k) (hk : ∀ c ∈ k, parseIsxdigit c)
    (l : ℕ) : (∃ x, (k.length ≤ fmtLong ∧ x = k) ∧
      scanBase 16 x = some (UInt64.ofNat (digits 16 l ds)).toInt64) ↔ keptRight l ds := by
  rw [keptRight, h, Option.any_some, Bool.and_eq_true, decide_eq_true_eq, beq_iff_eq, ← toInt64_inj]
  constructor
  · rintro ⟨x, ⟨hlen, rfl⟩, hx⟩
    rw [scanBase_hex hk] at hx
    exact ⟨hlen, Option.some.inj hx⟩
  · rintro ⟨hlen, hx⟩
    exact ⟨k, ⟨hlen, rfl⟩, by rw [scanBase_hex hk, hx]⟩

/-- **The loop behind `0x`**: it ends at the end of the digits, in base 16 and with their value,
exactly when what is kept says so. -/
theorem numLoop_hex_iff (hr : endsNum r) : ∀ (d : Char) (ds : Str) (l n : ℕ),
    (∀ c ∈ d :: ds, parseIsxdigit c) → ds.length < n →
    ((∃ x, numLoop n [] 16 d (.ofStr (d :: ds ++ r)) = (x, 16, .ofStr r) ∧
        scanBase 16 x = some (UInt64.ofNat (digits 16 l (d :: ds))).toInt64) ↔
      keptRight l (d :: ds)) := by
  intro d ds
  induction hlen : ds.length using Nat.strong_induction_on generalizing d ds with
  | _ k ih =>
  intro l n hd hn
  by_cases h0 : d = '0'
  · subst h0
    obtain ⟨n, rfl⟩ : ∃ m, n = m + 1 := ⟨n - 1, by omega⟩
    match ds with
    | [] =>
      rw [List.cons_append, List.nil_append, numLoop_zero hr, ← keptRight_iff rfl hd]
      simp [fmtLong, eq_comm]
    | c :: t =>
      have hc := hd c (.tail _ (.head _))
      have ht : ∀ e ∈ t, parseIsxdigit e := fun e he => hd e (.tail _ (.tail _ he))
      simp only [List.length_cons] at hlen hn
      rw [List.cons_append, List.cons_append, numLoop_behind_zero hc fun _ => inBase_hex hc]
      cases ha : parseIsalpha c with
      | false =>
        have hdig := isdigit_of_not_isalpha hc ha
        simp only [Bool.false_eq_true, if_false]
        by_cases ho : parseIsodigit c
        · -- the base is 8 from here on
          rw [if_pos ho]
          refine iff_of_false ?_ (by simp [keptRight, Literal.behind0x, ho])
          rintro ⟨x, hx, -⟩
          have hbase := @numLoop_base n ['0'] 8 c (.ofStr (c :: (t ++ r))) (by simp)
          rw [hx] at hbase
          exact absurd hbase (by simp)
        · rw [if_neg ho, ← List.cons_append]
          have hiff := fun y => numLoop_take_iff (y := y) hr (inBase_hex hc)
            (fun e he => inBase_hex (ht e he)) (x := ['0']) (by simp) (by decide)
            (show t.length < n by omega)
          simp only [hiff]
          exact keptRight_iff (by simp [Literal.behind0x, ho, hdig]) hd l
      | true =>
        have hdig : parseIsdigit c = false := by
          by_contra hdig
          exact absurd (isalpha_of_isdigit (by simpa using hdig)) (by simp [ha])
        have ho : parseIsodigit c = false := by
          by_contra ho
          exact absurd (isdigit_of_isodigit (by simpa using ho)) (by simp [hdig])
        simp only [if_true]
        match t with
        | [] =>
          -- the letter is the last digit, and it is gone
          refine iff_of_false ?_ (by simp [keptRight, Literal.behind0x, ho, hdig])
          rintro ⟨x, hx, hval⟩
          rw [List.nil_append] at hx
          split at hx
          · obtain ⟨rfl, -⟩ := Prod.mk.inj hx
            have hlt := isxdigit_iff.1 hc
            have hge := le_scanFromhex hdig
            rw [scanBase_hex (List.forall_mem_nil _), Option.some.injEq, toInt64_inj] at hval
            simp only [digits, List.foldl_nil, List.foldl_cons] at hval
            omega
          · next e he =>
            obtain ⟨m, rfl⟩ : ∃ m, n = m + 1 := ⟨n - 1, by omega⟩
            have hr0 : (Source.ofStr r).buf ≠ [] := by
              intro h0
              have hr0 : r = [] := h0
              rw [hr0] at he
              cases he
            have hle := length_numLoop m [] 16 e (.ofStr r)
            have hlt := length_skip_lt hr0
            rw [hx] at hle
            dsimp only at hle
            omega
        | e :: t =>
          have hb := ne_backslash_of_isxdigit (ht e (.head _))
          rw [List.cons_append, Source.peek_cons hb]
          simp only [List.length_cons] at hlen hn
          have hk : keptRight l ('0' :: c :: e :: t) =
              keptRight ((l * 16 + scanFromhex '0') * 16 + scanFromhex c) (e :: t) := by
            simp [keptRight, Literal.behind0x, ho, hdig, digits_cons]
          rw [hk, digits_cons 16 l, digits_cons 16 _ c]
          exact ih t.length (by omega) e t rfl _ n ht (by omega)
  · have hplain : Literal.behind0x (d :: ds) = some (d :: ds) := by
      rw [Literal.behind0x]
      rintro c t h
      exact h0 (List.cons.inj h).1
    have hiff := fun y => numLoop_take_iff (y := y) hr (inBase_hex (hd d (.head _)))
      (fun c hc => inBase_hex (hd c (.tail _ hc))) (x := []) (by simpa using h0) (by decide)
      (show ds.length < n by omega)
    simp only [hiff]
    exact keptRight_iff hplain hd l

/-- Behind `0X` the base is never 16. -/
theorem numLoop_upper (hr : endsNum r) : ∀ (d : Char) (ds : Str) (n : ℕ),
    (∀ c ∈ d :: ds, parseIsxdigit c) → ds.length < n →
    (numLoop n [] 10 d (.ofStr (d :: ds ++ r))).2.1 ≠ 16 := by
  intro d ds
  induction hlen : ds.length using Nat.strong_induction_on generalizing d ds with
  | _ k ih =>
  intro n hd hn
  by_cases h0 : d = '0'
  · subst h0
    obtain ⟨n, rfl⟩ : ∃ m, n = m + 1 := ⟨n - 1, by omega⟩
    match ds with
    | [] =>
      rw [List.cons_append, List.nil_append, numLoop_zero hr]
      simp
    | c :: t =>
      have hc := hd c (.tail _ (.head _))
      simp only [List.length_cons] at hlen hn
      rw [List.cons_append, List.cons_append, @numLoop_behind_zero _ 10 _ _ hc fun h => h]
      split
      · match t with
        | [] =>
          rw [List.nil_append]
          split
          · simp
          · next e he =>
            rw [numLoop_base n fun h => ?_]
            · decide
            · obtain rfl : e = '0' := by simpa using h
              exact absurd (hr _ he).1 (by decide)
        | e :: t =>
          have hb := ne_backslash_of_isxdigit (hd e (.tail _ (.tail _ (.head _))))
          rw [List.cons_append, Source.peek_cons hb]
          simp only [List.length_cons] at hlen hn
          exact ih t.length (by omega) e t rfl n (fun e' he => hd e' (.tail _ (.tail _ he))) (by omega)
      · rw [numLoop_base n (by simp)]
        split <;> decide
  · rw [numLoop_base n (by simpa using h0)]
    decide

/-! ## Literals -/

section Literals

variable {l : Literal}

/-- Where the loop keeps all of a literal. -/
theorem exact_iff {k : Str} (h : l.kept = some k) :
    l.exact ↔ k.length ≤ fmtLong ∧ l.scanned k % 2 ^ 64 = l.value % 2 ^ 64 := by
  rw [Literal.exact, h, Option.any_some, Bool.and_eq_true, decide_eq_true_eq, beq_iff_eq]

/-- What is left to say once the loop keeps all of a literal. -/
theorem kept_iff {k : Str} {v : Int64} {f : ℕ} (hscan : scanBase l.base k = some (UInt64.ofNat f).toInt64)
    (hv : v = (UInt64.ofNat l.value).toInt64) :
    (∃ x, (k.length ≤ fmtLong ∧ x = k) ∧ scanBase l.base x = some v) ↔
      k.length ≤ fmtLong ∧ f % 2 ^ 64 = l.value % 2 ^ 64 := by
  subst hv
  constructor
  · rintro ⟨x, ⟨hlen, rfl⟩, hx⟩
    rw [hscan, Option.some.injEq, toInt64_inj] at hx
    exact ⟨hlen, hx⟩
  · rintro ⟨hlen, hx⟩
    exact ⟨k, ⟨hlen, rfl⟩, by rw [hscan, Option.some.injEq, toInt64_inj, hx]⟩

/-- What the parser reads of a decimal literal. -/
theorem parsed_dec {ds : Str} (hw : (Literal.dec ds).Written) (hr : endsNum r) :
    Gives (parseArithValue O) (.ofStr (ds ++ r))
      (.num (UInt64.ofNat (digits 10 0 ds)).toInt64 10, .ofStr r) ↔ (Literal.dec ds).exact := by
  obtain ⟨hne, hd, hs⟩ := hw
  obtain ⟨c, t, rfl⟩ := List.exists_cons_of_ne_nil hne
  have hc : parseIsdigit c := hd c (.head _)
  have h10 : ∀ d ∈ c :: t, inBase 10 d := hd
  have hb := ne_backslash_of_isxdigit (isxdigit_of_inBase (h10 c (.head _)))
  have hlen : t.length < (Source.ofStr (c :: t ++ r)).buf.length + 1 := by
    simp [Source.ofStr]
    omega
  have hpeek : (Source.ofStr (c :: t ++ r)).peek = some c := Source.peek_cons hb
  have hscan : scanBase 10 (c :: t) = some _ := scanLonglong_digit hc t
  rw [value_num_iff hpeek hc, exact_iff rfl]
  refine Iff.trans ?_ (kept_iff (l := .dec (c :: t)) hscan rfl)
  by_cases h0 : c = '0'
  · subst h0
    obtain rfl : t = [] := by simpa [Literal.short] using hs
    rw [List.cons_append, List.nil_append, numLoop_zero hr]
    simp [fmtLong, eq_comm, Literal.base, Literal.value]
  · have hiff := fun y => numLoop_take_iff (y := y) hr (h10 c (.head _))
      (fun d hd' => h10 d (.tail _ hd')) (x := []) (by simpa using h0) (by decide) hlen
    simp only [hiff]
    rfl

/-- What the parser reads of an octal one. -/
theorem parsed_oct {ds : Str} (hw : (Literal.oct ds).Written) (hr : endsNum r) :
    Gives (parseArithValue O) (.ofStr ('0' :: ds ++ r))
      (.num (UInt64.ofNat (digits 8 0 ds)).toInt64 8, .ofStr r) ↔ (Literal.oct ds).exact := by
  obtain ⟨hne, hd⟩ := hw
  obtain ⟨c, t, rfl⟩ := List.exists_cons_of_ne_nil hne
  have hc : parseIsodigit c := hd c (.head _)
  have hcd := isdigit_of_isodigit hc
  have h8 : ∀ d ∈ c :: t, inBase 8 d := hd
  have hlen : t.length < (Source.ofStr ('0' :: (c :: t) ++ r)).buf.length := by
    simp [Source.ofStr]
    omega
  have hpeek : (Source.ofStr ('0' :: (c :: t) ++ r)).peek = some '0' := Source.peek_cons (by decide)
  have hscan : scanBase 8 ('0' :: c :: t) = some
      (UInt64.ofNat (readBelow parseIsodigit 8 (2 ^ 64) 0 0 ('0' :: c :: t)).2).toInt64 := by
    rw [scanBase, if_pos rfl, scan8longlong_below]
  rw [value_num_iff hpeek (by decide), exact_iff rfl]
  refine Iff.trans ?_ (kept_iff (l := .oct (c :: t)) hscan rfl)
  rw [List.cons_append, List.cons_append,
    @numLoop_behind_zero _ 10 _ _ (isxdigit_of_inBase (h8 c (.head _))) (fun h => h),
    isalpha_of_isdigit hcd, if_neg (by decide), if_pos hc, ← List.cons_append]
  have hiff := fun y => numLoop_take_iff (y := y) hr (h8 c (.head _))
    (fun d hd' => h8 d (.tail _ hd')) (x := ['0']) (by simp) (by decide) hlen
  simp only [List.cons_append] at hiff ⊢
  simp only [hiff]
  rfl

/-- What the parser reads of a hexadecimal one. -/
theorem parsed_hex {upper : Bool} {ds : Str} (hw : (Literal.hex upper ds).Written) (hr : endsNum r) :
    Gives (parseArithValue O) (.ofStr ((Literal.hex upper ds).text ++ r))
      (.num (UInt64.ofNat (digits 16 0 ds)).toInt64 16, .ofStr r) ↔ (Literal.hex upper ds).exact := by
  obtain ⟨hne, hd⟩ := hw
  obtain ⟨c, t, rfl⟩ := List.exists_cons_of_ne_nil hne
  have hlen : t.length < (Source.ofStr ((Literal.hex upper (c :: t)).text ++ r)).buf.length := by
    simp [Source.ofStr, Literal.text]
    omega
  have hpeek : (Source.ofStr ((Literal.hex upper (c :: t)).text ++ r)).peek = some '0' :=
    Source.peek_cons (by decide)
  rw [value_num_iff hpeek (by decide)]
  cases upper with
  | false =>
    have hletter := numLoop_letter (t := t ++ r) (n := (Source.ofStr ('0' :: 'x' :: c :: t ++ r)).buf.length)
      (.inl rfl) (hd c (.head _))
    rw [if_pos rfl] at hletter
    have hloop := numLoop_hex_iff hr c t 0 _ hd hlen
    rw [List.cons_append] at hloop
    rw [← show keptRight 0 (c :: t) = (Literal.hex false (c :: t)).exact from rfl, ← hloop]
    exact exists_congr fun x => and_congr_left' (iff_of_eq (congrArg (· = _) hletter))
  | true =>
    have hletter := numLoop_letter (t := t ++ r) (n := (Source.ofStr ('0' :: 'X' :: c :: t ++ r)).buf.length)
      (.inr rfl) (hd c (.head _))
    rw [if_neg (by decide)] at hletter
    refine iff_of_false ?_ (by simp [Literal.exact, Literal.kept])
    rintro ⟨x, hx, -⟩
    exact numLoop_upper hr c t _ hd hlen (congrArg (·.2.1) (hletter.symm.trans hx))

/-- What `scan_number` reads of one: no more is asked than of the parser. -/
theorem scanNumber_exact (hw : l.Written) (h : l.exact) :
    (scanNumber l.text).2 = some (UInt64.ofNat l.value).toInt64 := by
  cases l with
  | dec ds =>
    obtain ⟨hne, hd, hs⟩ := hw
    obtain ⟨c, t, rfl⟩ := List.exists_cons_of_ne_nil hne
    have hval := ((exact_iff rfl).1 h).2
    by_cases h0 : c = '0'
    · subst h0
      obtain rfl : t = [] := by simpa [Literal.short] using hs
      rfl
    · have hscan := scanLonglong_digit (hd c (.head _)) t
      have hval : _ = (UInt64.ofNat (digits 10 0 (c :: t))).toInt64 := (toInt64_inj _ _).2 hval
      simp only [Literal.scanned] at hval
      rw [hval] at hscan
      rw [Literal.text, scanNumber_of_ne (by simpa using h0)]
      cases hs : scanLonglong (c :: t) with
      | none => rw [hs] at hscan; cases hscan
      | some q => rw [hs] at hscan; exact hscan
  | oct ds =>
    obtain ⟨hne, hd⟩ := hw
    obtain ⟨c, t, rfl⟩ := List.exists_cons_of_ne_nil hne
    have hval := ((exact_iff rfl).1 h).2
    have hn := scanNumber_oct (t := c :: t) (by
      rintro h
      obtain rfl : c = 'x' := by simpa using h
      exact absurd (hd _ (.head _)) (by decide)) (by
      rintro h
      obtain rfl : c = 'X' := by simpa using h
      exact absurd (hd _ (.head _)) (by decide))
    rw [Literal.text, hn, scan8longlong_below]
    refine congrArg some ((toInt64_inj _ _).2 ?_)
    rw [Literal.scanned, readBelow_cons (by decide) (by decide), readBelow_from] at hval
    exact hval
  | hex upper ds =>
    have hn : scanNumber (Literal.hex upper ds).text =
        ((scanXlonglong ds).1, some (scanXlonglong ds).2.toInt64) := by
      cases upper <;> rfl
    rw [hn, scanXlonglong_wraps, List.takeWhile_eq_self_iff.2 hw.2]
    rfl

end Literals

/-- **A literal has its value exactly when all of it is kept and what is kept has the value.** -/
theorem readAs_iff {l : Literal} (hw : l.Written) (hr : endsNum r) : l.ReadAs O r ↔ l.exact := by
  have hparsed : Gives (parseArithValue O) (.ofStr (l.text ++ r))
      (.num (UInt64.ofNat l.value).toInt64 l.base, .ofStr r) ↔ l.exact := by
    cases l with
    | dec ds => exact parsed_dec hw hr
    | oct ds => exact parsed_oct hw hr
    | hex upper ds => exact parsed_hex hw hr
  rw [Literal.ReadAs, hparsed]
  exact ⟨fun h => h.1, fun h => ⟨h, scanNumber_exact hw h⟩⟩

/-- `0x1f`, in front of the end. -/
theorem readAs_hex : (Literal.hex false ['1', 'f']).ReadAs noOperands [] :=
  (readAs_iff (by decide) fun _ h => by cases h).2 (by decide)

/-- `0X10` is read as 10, `010` behind `0x` as 8. -/
theorem not_readAs_upper : ¬(Literal.hex true ['1', '0']).ReadAs noOperands [] ∧
    ¬(Literal.hex false ['0', '1', '0']).ReadAs noOperands [] := by
  have hr : endsNum [] := fun _ h => by cases h
  constructor
  · intro h
    exact absurd ((parsed_hex (by decide) hr).1 h.1) (by decide)
  · intro h
    exact absurd ((parsed_hex (by decide) hr).1 h.1) (by decide)

end Shish
