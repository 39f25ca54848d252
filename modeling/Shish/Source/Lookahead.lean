import Shish.Lib.Run
import Shish.Source.Buffer

/-!
# Source/Lookahead — a source on a buffer delivers the characters of its text

What `source_peek` and `source_skip` deliver is the text without its continuations, wherever in the
buffer it stands (`Reader.skip_eq`, `Reader.peekn_eq`).  `source_peekn` is right about the characters
it can see: those of the bytes that fit in the buffer, and the end when nothing is left at all.
Where something is left, but fewer characters than it looks for, it takes a byte from behind the
data.
-/

namespace Shish

namespace Buffer

variable {b b' : Buffer} {i : ℕ}

/-- What of the rest can be in the buffer at once. -/
def visible (b : Buffer) : Str := if b.dummy then b.rest else b.rest.take b.a

/-- The buffer behind a look at the byte `i` places on. -/
def more (b : Buffer) (i : ℕ) : Buffer := if b.len ≤ i then (b.prefetch (i + 1)).2 else b

theorem Looks.visible (h : b.Looks b') : b'.visible = b.visible := by
  rw [Buffer.visible, Buffer.visible, h.rest, h.a, h.dummy]

theorem visible_at_front (b : Buffer) : b.visible <+: b.rest := by
  unfold visible
  split_ifs
  · exact List.prefix_refl _
  · exact List.take_prefix ..

theorem len_le (h : b.Ok) : b.len ≤ b.visible.length := by
  have hrest := length_rest b
  have hle := h.le_a
  unfold visible
  split_ifs
  · omega
  · rw [List.length_take]
    unfold len at hrest ⊢
    omega

theorem more_eq (h : b.Ok) (i : ℕ) :
    b.Looks (b.more i) ∧ (i < (b.more i).len ↔ i < b.visible.length) := by
  unfold more
  split_ifs with hi
  · obtain ⟨hlook, -, henough⟩ := prefetch_eq h (k := i + 1) (by omega)
    refine ⟨hlook, fun hlt => ?_, fun hlt => ?_⟩
    · rw [← hlook.visible]
      exact Nat.lt_of_lt_of_le hlt (len_le hlook.ok)
    · rcases henough with henough | hfile | hfull
      · exact henough
      · have hlen := length_rest (b.prefetch (i + 1)).2
        rw [hfile, hlook.rest] at hlen
        have := (visible_at_front b).length_le
        rw [List.length_nil, Nat.add_zero] at hlen
        omega
      · rw [hfull]
        unfold visible at hlt
        split_ifs at hlt with hd
        · have hlen := length_rest (b.prefetch (i + 1)).2
          rw [hlook.ok.file (hlook.dummy.trans hd), hlook.rest] at hlen
          rw [List.length_nil, Nat.add_zero] at hlen
          omega
        · rw [List.length_take] at hlt
          omega
  · exact ⟨.refl h, fun hlt => Nat.lt_of_lt_of_le hlt (len_le h), fun _ => by omega⟩

/-- **A byte that can be seen** is the one there is to read. -/
theorem byte_eq (h : b.Ok) (hi : i < b.len) {c : Char} (hc : b.visible[i]? = some c) :
    b.byte i = .ok c := by
  obtain ⟨d, hd, hrest⟩ := byte_of_lt h hi
  obtain ⟨hlt, rfl⟩ := List.getElem?_eq_some_iff.1 hc
  obtain ⟨hlt', rfl⟩ := List.getElem?_eq_some_iff.1 hrest
  exact hd.trans (congrArg _ ((visible_at_front b).getElem hlt).symm)

theorem isByte_eq (h : b.Ok) (hi : i < b.len) {c : Char} (hc : b.visible[i]? = some c) (d : Char) :
    b.isByte i d = .ok (c == d) := by
  rw [isByte, byte_eq h hi hc]
  rfl

/-- The first two of what there is room for. -/
theorem take_cons {a : ℕ} (ha : 2 ≤ a) (c : Char) (t : Str) :
    ∃ v, (c :: t).take a = c :: v ∧ v.head? = t.head? := by
  obtain ⟨m, rfl⟩ := Nat.exists_eq_add_of_le' ha
  refine ⟨t.take (m + 1), rfl, ?_⟩
  cases t <;> rfl

/-- The first two bytes can be seen. -/
theorem visible_cons (h : b.Ok) {c : Char} {t : Str} (hrest : b.rest = c :: t) :
    ∃ v, b.visible = c :: v ∧ v.head? = t.head? := by
  unfold visible
  split_ifs with hd
  · exact ⟨t, hrest, rfl⟩
  · rw [hrest]
    exact take_cons (h.room (by simpa using hd)).1 c t

/-- **Bytes are passed over.** -/
theorem advance (h : b.Ok) {u : Str} {r : Str} (hrest : b.rest = u ++ r) (hlen : u.length ≤ b.len) :
    ({ b with p := b.p + u.length } : Buffer).Ok ∧
      ({ b with p := b.p + u.length } : Buffer).rest = r := by
  have hle := h.le_n
  unfold len at hlen
  refine ⟨⟨by dsimp only; omega, h.le_a, h.small, h.file, h.room⟩, ?_⟩
  have hdata : data { b with p := b.p + u.length } = b.data.drop u.length := by
    refine List.ext_getElem ?_ fun i hi hi' => ?_
    · simp only [length_data, List.length_drop, len]
      omega
    · simp [data, Nat.add_assoc]
  rw [rest, hdata]
  have hdrop := congrArg (List.drop u.length) hrest
  rw [rest, List.drop_append_of_le_length (by rw [length_data, len]; omega), List.drop_left] at hdrop
  exact hdrop

/-- There is something in the buffer behind a look, if there is something left. -/
theorem len_more_pos (h : b.Ok) (hrest : b.rest ≠ []) (i : ℕ) : 0 < (b.more i).len := by
  unfold more
  split_ifs with hi
  · obtain ⟨hlook, -, henough⟩ := prefetch_eq h (k := i + 1) (by omega)
    have hlen := length_rest (b.prefetch (i + 1)).2
    rw [hlook.rest] at hlen
    have hpos := List.length_pos_of_ne_nil hrest
    rcases henough with henough | hfile | hfull
    · omega
    · rw [hfile, List.length_nil, Nat.add_zero] at hlen
      omega
    · rw [hfull]
      cases hd : b.dummy with
      | true =>
        rw [hlook.ok.file (hlook.dummy.trans hd), List.length_nil, Nat.add_zero] at hlen
        omega
      | false =>
        have := (h.room hd).1
        omega
  · omega

theorem more_len_le (h : b.Ok) (i : ℕ) : b.len ≤ (b.more i).len := by
  unfold more
  split_ifs with hi
  · obtain ⟨hlook, -, henough⟩ := prefetch_eq h (k := i + 1) (by omega)
    have hlen := length_rest (b.prefetch (i + 1)).2
    rw [hlook.rest, length_rest b] at hlen
    rcases henough with henough | hfile | hfull
    · omega
    · rw [hfile, List.length_nil] at hlen
      omega
    · have := h.le_a
      rw [hfull, len]
      omega
  · exact Nat.le_refl _

theorem byte_error {e : Stop} (h : b.byte i = .error e) : e = .outside := by
  unfold byte at h
  split_ifs at h
  exact (Except.error.inj h).symm

theorem backslash_error {esc : Bool} {e : Stop} (h : b.backslash i esc = .error e) :
    e = .outside := by
  unfold backslash isByte at h
  split_ifs at h
  cases hbyte : b.byte i with
  | error e' =>
    rw [hbyte] at h
    obtain rfl := Except.error.inj h
    exact byte_error hbyte
  | ok c =>
    rw [hbyte] at h
    exact absurd h nofun

theorem unsigned_len (h : b.Ok) : unsigned b.len = b.len := by
  have := h.small
  refine unsigned_of_lt ?_
  unfold len
  omega

/-- What `source_peekn` does where it needs a byte. -/
theorem ask_eq (h : b.Ok) (hrest : b.rest ≠ []) (i : ℕ) :
    (if decide (unsigned b.len ≤ i) = true then b.prefetch (i + 1) else ((b.len : ℤ), b)) =
      (((b.more i).len : ℤ), b.more i) := by
  rw [unsigned_len h, more]
  simp only [decide_eq_true_eq]
  split_ifs with hi
  · refine Prod.ext ?_ rfl
    obtain ⟨-, hret, -⟩ := prefetch_eq h (k := i + 1) (by omega)
    exact hret.resolve_right fun hnil => hrest hnil.2
  · rfl

end Buffer

namespace Reader

variable {b b' : Buffer} {n fuel pi k : ℕ} {esc : Bool}

/-- **A round of the loop** of `source_peekn` where something is left. -/
theorem peeknGo_succ (h : b.Ok) (hrest : b.rest ≠ []) :
    peeknGo n (fuel + 1) b b.len pi k esc = (do
      let b := b.more pi
      let backslash ← b.backslash pi esc
      if backslash then
        let b := b.more (pi + 1)
        let newline ← b.newline (pi + 1)
        if newline then
          if pi = 0 then
            let b := { b with p := b.p + 2 }
            peeknGo n fuel b (cint b.len) 0 k esc
          else peeknGo n fuel b b.len (pi + 2) k esc
        else if k = n then return (↑b.len, some (← b.byte pi), b)
        else peeknGo n fuel b b.len (pi + 1) (k + 1) true
      else if k = n then return (↑b.len, some (← b.byte pi), b)
      else peeknGo n fuel b b.len (pi + 1) (k + 1) false) := by
  have hpos := b.len_more_pos h hrest pi
  obtain ⟨hlook, -⟩ := b.more_eq h pi
  have hrest' : (b.more pi).rest ≠ [] := hlook.rest.symm ▸ hrest
  have hpos' := (b.more pi).len_more_pos hlook.ok hrest' (pi + 1)
  obtain ⟨hlook', -⟩ := (b.more pi).more_eq hlook.ok (pi + 1)
  have hask : (if decide (unsigned (b.more pi).len ≤ pi + 1) = true then
      (b.more pi).prefetch (pi + 2) else (((b.more pi).len : ℤ), b.more pi)) = _ :=
    Buffer.ask_eq hlook.ok hrest' (pi + 1)
  have hret' : decide ((((b.more pi).more (pi + 1)).len : ℤ) ≤ 0) = false := by
    rw [decide_eq_false_iff_not]
    omega
  have hneg : decide ((((b.more pi).more (pi + 1)).len : ℤ) < 0) = false := by
    rw [decide_eq_false_iff_not]
    omega
  rw [peeknGo]
  dsimp only
  rw [Buffer.ask_eq h hrest pi]
  dsimp only
  have hret : decide (((b.more pi).len : ℤ) ≤ 0) = false := by
    rw [decide_eq_false_iff_not]
    omega
  simp only [hret, Bool.and_false, Bool.false_and, Bool.false_eq_true, if_false]
  simp only [hask, hret', hneg, Bool.and_false, Bool.false_eq_true, if_false]

/-- What a look for a character comes to: the character, or, where all that is left is visible, a
byte that is none of it. -/
def Sees (b : Buffer) : Option Char → Except Stop (ℤ × Option Char × Buffer) → Prop
  | some c, r => ∃ b', r = .ok (↑b'.len, some c, b') ∧ 0 < b'.len ∧ b.Looks b'
  | none, r => r = .error .outside ∨
      (b.visible = b.rest ∧ ∃ c b', r = .ok (↑b'.len, some c, b') ∧ 0 < b'.len ∧ b.Looks b')

theorem Sees.of_looks {w : Option Char} {r : Except Stop (ℤ × Option Char × Buffer)}
    (h : Sees b' w r) (hb : b.Looks b') : Sees b w r := by
  cases w with
  | some c =>
    obtain ⟨b₁, hr, hret, hlook⟩ := h
    exact ⟨b₁, hr, hret, hb.trans hlook⟩
  | none =>
    refine h.imp id ?_
    rintro ⟨hvis, c, b₁, hr, hret, hlook⟩
    exact ⟨hb.visible.symm.trans (hvis.trans hb.rest), c, b₁, hr, hret, hb.trans hlook⟩

theorem logical_cons_of {c : Char} {t : Str} (h : ¬ (esc = false ∧ c = '\\' ∧ t.head? = some '\n')) :
    Source.logical esc (c :: t) = c :: Source.logical (!esc && c == '\\') t := by
  rw [Source.logical]
  rintro t' rfl rfl rfl
  exact h ⟨rfl, rfl, rfl⟩

/-- **Behind the data** there are only bytes that are none of the text. -/
theorem peeknGo_short : ∀ {fuel : ℕ} {b : Buffer} {pi k : ℕ} {esc : Bool}, b.Ok → b.rest ≠ [] →
    b.visible.length ≤ pi → k ≤ n → n - k < fuel →
      Sees b none (peeknGo n fuel b b.len pi k esc)
  | fuel + 1, b, pi, k, esc, h, hrest, hpi, hk, hfuel => by
      obtain ⟨hlook, hlt⟩ := b.more_eq h pi
      have hpos := b.len_more_pos h hrest pi
      have hrest' : (b.more pi).rest ≠ [] := hlook.rest.symm ▸ hrest
      obtain ⟨hlook', -⟩ := (b.more pi).more_eq hlook.ok (pi + 1)
      have hpos' := (b.more pi).len_more_pos hlook.ok hrest' (pi + 1)
      have hlook₂ := hlook.trans hlook'
      have hlen := Buffer.len_le hlook₂.ok
      rw [hlook₂.visible] at hlen
      have hno : ((b.more pi).more (pi + 1)).newline (pi + 1) = .ok false := by
        rw [Buffer.newline, Buffer.unsigned_len hlook₂.ok, if_neg (by omega)]
      -- the round ends here, or goes on one character further
      have hend : ∀ {b₁ : Buffer}, b.Looks b₁ → 0 < b₁.len → ∀ esc',
          Sees b none (if k = n then (do return (↑b₁.len, some (← b₁.byte pi), b₁))
            else peeknGo n fuel b₁ b₁.len (pi + 1) (k + 1) esc') := by
        intro b₁ hb₁ hb₁pos esc'
        split_ifs with hkn
        · cases hbyte : b₁.byte pi with
          | error e =>
            obtain rfl := Buffer.byte_error hbyte
            exact .inl rfl
          | ok c =>
            refine .inr ⟨?_, c, b₁, rfl, hb₁pos, hb₁⟩
            unfold Buffer.byte at hbyte
            split_ifs at hbyte with hlt
            rw [hb₁.a] at hlt
            unfold Buffer.visible at hpi ⊢
            split_ifs at hpi ⊢ with hd
            · rfl
            · rw [List.length_take] at hpi
              exact List.take_of_length_le (by omega)
        · refine (peeknGo_short hb₁.ok (hb₁.rest.symm ▸ hrest) ?_ (by omega) (by omega)).of_looks hb₁
          rw [hb₁.visible]
          omega
      rw [peeknGo_succ h hrest]
      dsimp only
      rw [hno]
      cases hbs : (b.more pi).backslash pi esc with
      | error e =>
        obtain rfl := Buffer.backslash_error hbs
        exact .inl rfl
      | ok backslash =>
        cases backslash with
        | true => exact hend hlook₂ hpos' true
        | false => exact hend hlook hpos false

/-- **Where there is no continuation at the front** the loop sees the character that is `n - k`
places on in what is visible, or a byte that is none of the text. -/
theorem peeknGo_eq : ∀ {fuel : ℕ} {b : Buffer} {pi k : ℕ} {esc : Bool}, b.Ok → b.rest ≠ [] →
    (pi = 0 → ¬ (esc = false ∧ b.visible.head? = some '\\' ∧ b.visible[1]? = some '\n')) →
      k ≤ n → n - k + (b.visible.length - pi) < fuel →
        Sees b (Source.logical esc (b.visible.drop pi))[n - k]? (peeknGo n fuel b b.len pi k esc)
  | fuel + 1, b, pi, k, esc, h, hrest, hfront, hk, hfuel => by
      by_cases hpi : b.visible.length ≤ pi
      · rw [List.drop_eq_nil_of_le hpi, Source.logical, List.getElem?_nil]
        exact peeknGo_short h hrest hpi hk (by omega)
      have hpi' : pi < b.visible.length := by omega
      obtain ⟨hlook, hlt⟩ := b.more_eq h pi
      obtain ⟨hlook', hlt'⟩ := (b.more pi).more_eq hlook.ok (pi + 1)
      have hlook₂ := hlook.trans hlook'
      have hlt := hlt.2 hpi'
      rw [hlook.visible] at hlt'
      obtain ⟨c, hc⟩ : ∃ c, b.visible[pi]? = some c := ⟨_, List.getElem?_eq_getElem hpi'⟩
      have hdrop : b.visible.drop pi = c :: b.visible.drop (pi + 1) := by
        obtain ⟨-, rfl⟩ := List.getElem?_eq_some_iff.1 hc
        exact List.drop_eq_getElem_cons hpi'
      have hbs : (b.more pi).backslash pi esc = .ok (!esc && c == '\\') := by
        unfold Buffer.backslash
        split_ifs with hesc
        · rw [hesc]
          rfl
        · rw [Buffer.isByte_eq hlook.ok hlt (hlook.visible.symm ▸ hc)]
          simp [hesc]
      -- a character: the last one looked for, or one in front of it
      have hend : ∀ {b₁ : Buffer}, b.Looks b₁ → pi < b₁.len → ∀ esc',
          Sees b (c :: Source.logical esc' (b.visible.drop (pi + 1)))[n - k]?
            (if k = n then (do return (↑b₁.len, some (← b₁.byte pi), b₁))
              else peeknGo n fuel b₁ b₁.len (pi + 1) (k + 1) esc') := by
        intro b₁ hb₁ hb₁pi esc'
        split_ifs with hkn
        · rw [hkn, Nat.sub_self, Buffer.byte_eq hb₁.ok hb₁pi (hb₁.visible.symm ▸ hc)]
          exact ⟨b₁, rfl, by omega, hb₁⟩
        · rw [show n - k = n - (k + 1) + 1 by omega, List.getElem?_cons_succ, ← hb₁.visible]
          refine (peeknGo_eq hb₁.ok (hb₁.rest.symm ▸ hrest) (fun h0 => by omega) (by omega)
            ?_).of_looks hb₁
          rw [hb₁.visible]
          omega
      rw [peeknGo_succ h hrest, hdrop]
      dsimp only
      rw [hbs]
      by_cases hcont : esc = false ∧ c = '\\' ∧ (b.visible.drop (pi + 1)).head? = some '\n'
      · -- a continuation
        obtain ⟨rfl, rfl, hn⟩ := hcont
        rw [List.head?_drop] at hn
        have hpi0 : pi ≠ 0 := by
          rintro rfl
          exact hfront rfl ⟨rfl, by rw [List.head?_eq_getElem?]; exact hc, hn⟩
        obtain ⟨hlt₁, hval⟩ := List.getElem?_eq_some_iff.1 hn
        have hnl : ((b.more pi).more (pi + 1)).newline (pi + 1) = .ok true := by
          rw [Buffer.newline, Buffer.unsigned_len hlook₂.ok, if_pos (hlt'.2 hlt₁),
            Buffer.isByte_eq hlook₂.ok (hlt'.2 hlt₁) (hlook₂.visible.symm ▸ hn)]
          rfl
        have hlog : Source.logical false ('\\' :: b.visible.drop (pi + 1)) =
            Source.logical false (b.visible.drop (pi + 2)) := by
          rw [List.drop_eq_getElem_cons hlt₁, hval, Source.logical]
        rw [hnl, hlog, ← hlook₂.visible]
        simp only [Bool.not_false, beq_self_eq_true, Bool.and_true, hpi0, if_false]
        refine (peeknGo_eq hlook₂.ok (hlook₂.rest.symm ▸ hrest) (fun h0 => by omega) hk ?_).of_looks
          hlook₂
        rw [hlook₂.visible]
        omega
      · rw [logical_cons_of hcont]
        cases hesc : (!esc && c == '\\') with
        | false => exact hend hlook hlt false
        | true =>
          simp only [Bool.and_eq_true, Bool.not_eq_true', beq_iff_eq] at hesc
          have hnl : ((b.more pi).more (pi + 1)).newline (pi + 1) = .ok false := by
            rw [Buffer.newline, Buffer.unsigned_len hlook₂.ok]
            split_ifs with hlt₁
            · obtain ⟨d, hd⟩ : ∃ d, b.visible[pi + 1]? = some d :=
                ⟨_, List.getElem?_eq_getElem (hlt'.1 hlt₁)⟩
              rw [Buffer.isByte_eq hlook₂.ok hlt₁ (hlook₂.visible.symm ▸ hd)]
              have hne : d ≠ '\n' := by
                rintro rfl
                exact hcont ⟨hesc.1, hesc.2, by rw [List.head?_drop]; exact hd⟩
              simp [hne]
            · rfl
          rw [hnl]
          refine hend hlook₂ ?_ true
          have := Buffer.more_len_le hlook.ok (pi + 1)
          omega

/-- **Continuations at the front are dropped**; then the loop sees what it looks for. -/
theorem peeknGo_front : ∀ {fuel : ℕ} {b : Buffer} {esc : Bool}, b.Ok →
    n + b.rest.length < fuel →
      (Source.front esc b.rest = [] → ∃ ret b', peeknGo n fuel b b.len 0 0 esc = .ok (ret, none, b') ∧
        ret ≤ 0 ∧ b'.Ok ∧ b'.rest = []) ∧
      (Source.front esc b.rest ≠ [] → ∃ b₀ : Buffer, b₀.Ok ∧ b₀.rest = Source.front esc b.rest ∧
        b₀.a = b.a ∧ b₀.dummy = b.dummy ∧
          Sees b₀ (Source.logical esc b₀.visible)[n]? (peeknGo n fuel b b.len 0 0 esc))
  | fuel + 1, b, esc, h, hfuel => by
      cases hrest : b.rest with
      | nil =>
        have hfront : Source.front esc [] = [] := by
          cases esc <;> rfl
        refine ⟨fun _ => ?_, fun hne => absurd hfront hne⟩
        have hlen := Buffer.length_rest b
        rw [hrest, List.length_nil] at hlen
        obtain ⟨hlook, hret, -⟩ := Buffer.prefetch_eq h (k := 1) Nat.one_pos
        have hlen' := Buffer.length_rest (b.prefetch 1).2
        rw [hlook.rest, hrest, List.length_nil] at hlen'
        have hnil := hlook.rest.trans hrest
        generalize hpre : b.prefetch 1 = r at *
        obtain ⟨ret, b₁⟩ := r
        dsimp only at hlook hret hlen' hnil
        have hle : ret ≤ 0 := by
          rcases hret with hret | hret <;> omega
        have hz : unsigned b₁.len = 0 := by
          rw [Buffer.unsigned_len hlook.ok]
          omega
        have hz' : unsigned b.len = 0 := by
          rw [Buffer.unsigned_len h]
          omega
        refine ⟨ret, b₁, ?_, hle, hlook.ok, hnil⟩
        rw [peeknGo]
        simp only [hz', Nat.zero_add, hpre, decide_true, if_true, Bool.true_and, hle, hz,
          Nat.le_refl, Bool.or_true]
        rfl
      | cons c t =>
        have hne : b.rest ≠ [] := hrest.symm ▸ List.cons_ne_nil c t
        obtain ⟨v, hv, hvt⟩ := b.visible_cons h hrest
        have hvlen := (b.visible_at_front).length_le
        by_cases hcont : esc = false ∧ c = '\\' ∧ t.head? = some '\n'
        · obtain ⟨rfl, rfl, hn⟩ := hcont
          obtain ⟨t, rfl⟩ : ∃ t', t = '\n' :: t' := by
            cases t with
            | nil => cases hn
            | cons d t => exact ⟨t, by rw [Option.some.inj hn]⟩
          obtain ⟨hlook, hlt⟩ := b.more_eq h 0
          obtain ⟨hlook', hlt'⟩ := (b.more 0).more_eq hlook.ok 1
          have hlook₂ := hlook.trans hlook'
          have hv₁ : b.visible[1]? = some '\n' := by
            rw [hv, List.getElem?_cons_succ, ← List.head?_eq_getElem?, hvt]
            rfl
          have hlt := hlt.2 (by rw [hv]; exact Nat.succ_pos _)
          have hlt' := hlt'.2 (hlook.visible.symm ▸ (List.getElem?_eq_some_iff.1 hv₁).1)
          have hbs : (b.more 0).backslash 0 false = .ok true := by
            have hv₀ : (b.more 0).visible[0]? = some '\\' := by
              rw [hlook.visible, hv]
              rfl
            exact Buffer.isByte_eq hlook.ok hlt hv₀ _
          have hnl : ((b.more 0).more 1).newline 1 = .ok true := by
            rw [Buffer.newline, Buffer.unsigned_len hlook₂.ok, if_pos hlt']
            exact Buffer.isByte_eq hlook₂.ok hlt' (hlook₂.visible.symm ▸ hv₁) _
          obtain ⟨hok, hrest'⟩ := Buffer.advance (u := ['\\', '\n']) hlook₂.ok
            (hlook₂.rest.trans hrest) hlt'
          have hgo : peeknGo n (fuel + 1) b b.len 0 0 false =
              peeknGo n fuel { (b.more 0).more 1 with p := ((b.more 0).more 1).p + 2 }
                ({ (b.more 0).more 1 with p := ((b.more 0).more 1).p + 2 } : Buffer).len 0 0 false := by
            rw [peeknGo_succ h hne]
            dsimp only
            rw [hbs, Nat.zero_add, hnl]
            exact congrArg (fun ret => peeknGo n fuel _ ret 0 0 false) (Buffer.cint_len hok)
          have hfront : Source.front false ('\\' :: '\n' :: t) = Source.front false t := by
            rw [Source.front]
          rw [hgo, hfront]
          have hlen : n + t.length < fuel := by
            rw [hrest, List.length_cons, List.length_cons] at hfuel
            omega
          have ih := @peeknGo_front fuel _ false hok (by rw [hrest']; exact hlen)
          rw [hrest'] at ih
          refine ⟨ih.1, fun hne => ?_⟩
          obtain ⟨b₀, h₀, hrest₀, ha, hd, hsees⟩ := ih.2 hne
          exact ⟨b₀, h₀, hrest₀, ha.trans hlook₂.a, hd.trans hlook₂.dummy, hsees⟩
        · have hfront : Source.front esc (c :: t) = c :: t := by
            rw [Source.front]
            rintro t' rfl heq
            obtain ⟨rfl, rfl⟩ := List.cons.inj heq
            exact hcont ⟨rfl, rfl, rfl⟩
          rw [hfront]
          refine ⟨(fun h => by cases h), fun _ => ⟨b, h, hrest, rfl, rfl, ?_⟩⟩
          have hno : ¬ (esc = false ∧ b.visible.head? = some '\\' ∧ b.visible[1]? = some '\n') := by
            rw [hv]
            intro hc
            refine hcont ⟨hc.1, Option.some.inj hc.2.1, ?_⟩
            rw [← hvt, List.head?_eq_getElem?]
            exact hc.2.2
          have hsees : Sees b (Source.logical esc (b.visible.drop 0))[n - 0]?
              (peeknGo n (fuel + 1) b b.len 0 0 esc) :=
            peeknGo_eq h hne (fun _ => hno) (Nat.zero_le n) (by omega)
          exact hsees

/-! ## Peeking and skipping -/

/-- What is left, and how it is read. -/
def toSource (s : Reader) : Source := ⟨s.b.rest, s.bs, s.squoted, s.comment⟩

/-- The characters that are left. -/
def text (s : Reader) : Str := s.toSource.text

/-- The characters that are left of what the buffer has room for, behind the continuations at the
front. -/
def sight (s : Reader) : Str :=
  let front := Source.front s.bs s.b.rest
  Source.logical s.bs (if s.b.dummy then front else front.take s.b.a)

/-- **A source in order**, outside of quotes and comments. -/
structure Ok (s : Reader) : Prop where
  b : s.b.Ok
  squoted : s.squoted = false
  comment : s.comment = false

/-- Behind a look there is the same to read, and the flags are the same. -/
structure Looks (s s' : Reader) : Prop where
  ok : s'.Ok
  text : s'.text = s.text
  bs : s'.bs = s.bs

variable {s s' : Reader}

theorem text_eq (h : s.Ok) : s.text = Source.logical s.bs s.b.rest := by
  simp [text, toSource, Source.text, Source.raw, h.squoted, h.comment]

theorem logical_front : ∀ (esc : Bool) (t : Str),
    Source.logical esc (Source.front esc t) = Source.logical esc t := by
  intro esc t
  fun_induction Source.front esc t with
  | case1 t ih => rw [ih, Source.logical]
  | case2 esc t h => rfl

theorem front_of_nil {esc : Bool} {t : Str} (h : Source.logical esc t = []) :
    Source.front esc t = [] := by
  rw [← logical_front] at h
  fun_induction Source.front esc t with
  | case1 t ih => exact ih h
  | case2 esc t hno =>
    cases t with
    | nil => rfl
    | cons c t =>
      rw [Source.logical] at h
      · exact absurd h (List.cons_ne_nil _ _)
      · exact fun t' hesc hc ht => hno t' hesc (by rw [hc, ht])

/-- **What `source_peekn` does**: at the end it says so; otherwise it sees what is in sight. -/
theorem peekn_eq (h : s.Ok) (k : ℕ) :
    (s.text = [] → ∃ ret s', s.peekn k = .ok (ret, none, s') ∧ ret ≤ 0 ∧ s.Looks s' ∧
        s'.b.rest = []) ∧
      (s.text ≠ [] → match s.sight[k]? with
        | some c => ∃ s', s.peekn k = .ok (↑s'.b.len, some c, s') ∧ 0 < s'.b.len ∧ s.Looks s' ∧
            s'.b.rest = Source.front s.bs s.b.rest
        | none => s.peekn k = .error .outside ∨ (s.text[k]? = none ∧
            ∃ c s', s.peekn k = .ok (↑s'.b.len, some c, s') ∧ 0 < s'.b.len ∧ s.Looks s')) := by
  have hgo := @peeknGo_front k (k + s.b.rest.length + 1) s.b s.bs h.b (Nat.lt_succ_self _)
  have hpeek : s.peekn k = peeknGo k (k + s.b.rest.length + 1) s.b s.b.len 0 0 s.bs >>= fun r =>
      pure (r.1, r.2.1, { s with b := r.2.2 }) := by
    rw [peekn, h.squoted, h.comment, Buffer.cint_len h.b]
    rfl
  have htext := text_eq h
  -- what is in front of a buffer that has all that this one has
  have hlooks : ∀ {b : Buffer}, b.Ok → b.rest = Source.front s.bs s.b.rest →
      s.Looks { s with b } := fun {b} hb hrest => by
    have hok : Ok { s with b } := ⟨hb, h.squoted, h.comment⟩
    refine ⟨hok, ?_, rfl⟩
    rw [htext, text_eq hok, hrest, logical_front]
  rw [hpeek]
  refine ⟨fun hnil => ?_, fun hne => ?_⟩
  · have hfront := front_of_nil (htext.symm.trans hnil)
    obtain ⟨ret, b, hr, hret, hb, hrest⟩ := hgo.1 hfront
    rw [hr]
    exact ⟨ret, { s with b }, rfl, hret, hlooks hb (hrest.trans hfront.symm), hrest⟩
  · have hfront : Source.front s.bs s.b.rest ≠ [] := fun hfront => by
      rw [← logical_front, hfront] at htext
      refine hne (htext.trans ?_)
      cases s.bs <;> rfl
    obtain ⟨b₀, h₀, hrest, ha, hd, hsees⟩ := hgo.2 hfront
    have hsight : s.sight = Source.logical s.bs b₀.visible := by
      rw [sight, Buffer.visible, hrest, ha, hd]
    rw [hsight]
    cases hw : (Source.logical s.bs b₀.visible)[k]? with
    | some c =>
      rw [hw] at hsees
      obtain ⟨b, hr, hpos, hlook⟩ := hsees
      rw [hr]
      exact ⟨_, rfl, hpos, hlooks hlook.ok (hlook.rest.trans hrest), hlook.rest.trans hrest⟩
    | none =>
      rw [hw] at hsees
      rcases hsees with hr | ⟨hvis, c, b, hr, hpos, hlook⟩
      · rw [hr]
        exact .inl rfl
      · rw [hr]
        refine .inr ⟨?_, c, { s with b }, rfl, hpos, hlooks hlook.ok (hlook.rest.trans hrest)⟩
        rw [htext, ← logical_front, ← hrest, ← hvis]
        exact hw

/-- Behind the front there is no continuation. -/
theorem front_cons {esc : Bool} {r t : Str} {c : Char} (h : Source.front esc r = c :: t) :
    ¬ (esc = false ∧ c = '\\' ∧ t.head? = some '\n') := by
  fun_induction Source.front esc r with
  | case1 t' ih => exact ih h
  | case2 esc r hno =>
    rintro ⟨rfl, rfl, hn⟩
    obtain ⟨t', rfl⟩ : ∃ t', t = '\n' :: t' := by
      cases t with
      | nil => exact absurd hn nofun
      | cons d t => exact ⟨t, by rw [Option.some.inj hn]⟩
    exact hno t' rfl h

/-- The text begins with what the front does. -/
theorem text_cons (h : s.Ok) {c : Char} {t : Str} (hfront : Source.front s.bs s.b.rest = c :: t) :
    s.text = c :: Source.logical (!s.bs && c == '\\') t := by
  rw [text_eq h, ← logical_front, hfront, logical_cons_of (front_cons hfront)]

/-- The first character is always in sight. -/
theorem sight_head (h : s.Ok) (hne : s.text ≠ []) : s.sight[0]? = s.text.head? := by
  cases hfront : Source.front s.bs s.b.rest with
  | nil =>
    rw [text_eq h, ← logical_front, hfront] at hne
    exact absurd (by cases s.bs <;> rfl) hne
  | cons c t =>
    have hno := front_cons hfront
    have hv : ∃ v, (if s.b.dummy then c :: t else (c :: t).take s.b.a) = c :: v ∧
        v.head? = t.head? := by
      split_ifs with hd
      · exact ⟨t, rfl, rfl⟩
      · exact Buffer.take_cons (h.b.room (by simpa using hd)).1 c t
    obtain ⟨v, hv, hvt⟩ := hv
    rw [sight, hfront, hv, logical_cons_of (hvt ▸ hno), text_cons h hfront]
    rfl

/-- **A peek delivers the first character**, or the end. -/
theorem peek_eq (h : s.Ok) : ∃ ret s', s.peekn 0 = .ok (ret, s.text.head?, s') ∧
    (0 < ret ↔ s.text ≠ []) ∧ s.Looks s' ∧ s'.b.rest = Source.front s.bs s.b.rest ∧
      (s.text ≠ [] → 0 < s'.b.len) := by
  obtain ⟨hend, hsees⟩ := peekn_eq h 0
  by_cases hnil : s.text = []
  · obtain ⟨ret, s', hr, hret, hlook, hrest⟩ := hend hnil
    have hfront := front_of_nil ((text_eq h).symm.trans hnil)
    rw [hnil]
    exact ⟨ret, s', hr, iff_of_false (by omega) (fun hne => hne rfl), hlook,
      hrest.trans hfront.symm, fun hne => absurd rfl hne⟩
  · have hsees := hsees hnil
    obtain ⟨c, t, hct⟩ := List.exists_cons_of_ne_nil hnil
    rw [sight_head h hnil, hct] at hsees
    obtain ⟨s', hr, hpos, hlook, hrest⟩ := hsees
    rw [hct]
    exact ⟨_, s', hr, iff_of_true (by omega) (List.cons_ne_nil c t), hlook, hrest, fun _ => hpos⟩

/-- **`source_skip`** takes the first character away; on what is left it is `Source.skip`. -/
theorem skip_eq (h : s.Ok) : ∃ s', s.skip = .ok (decide (s.text ≠ []), s') ∧ s'.Ok ∧
    s'.text = s.text.tail ∧ s'.toSource = s.toSource.skip := by
  obtain ⟨ret, s₁, hr, -, hlook, hrest, hpos⟩ := peek_eq h
  have h₁ := hlook.ok
  have hraw : s.toSource.raw = false := by
    simp [toSource, Source.raw, h.squoted, h.comment]
  unfold skip
  rw [hr]
  cases hfront : Source.front s.bs s.b.rest with
  | nil =>
    have hnil : s.text = [] := by
      rw [text_eq h, ← logical_front, hfront]
      cases s.bs <;> rfl
    have hlen := Buffer.length_rest s₁.b
    rw [hrest, hfront, List.length_nil] at hlen
    have hno : ¬ s₁.b.p < s₁.b.n := by
      unfold Buffer.len at hlen
      omega
    refine ⟨s₁, ?_, h₁, ?_, ?_⟩
    · simp only [hnil]
      exact (if_neg hno).trans rfl
    · rw [hlook.text, hnil]
      rfl
    · rw [Source.skip_of_end hraw hfront, toSource, hrest, hfront, hlook.bs, h₁.squoted, h₁.comment]
      simp [toSource, h.squoted, h.comment]
  | cons c t =>
    have htext := text_cons h hfront
    have hsource : s.toSource.skip = ⟨t, !s.bs && c == '\\', false, false⟩ := by
      rw [Source.skip_of_front hraw hfront (front_cons hfront)]
      simp [toSource, h.squoted, h.comment]
    rw [hsource]
    have hne : s.text ≠ [] := htext ▸ List.cons_ne_nil _ _
    have hlt : s₁.b.p < s₁.b.n := by
      have := hpos hne
      unfold Buffer.len at this
      omega
    obtain ⟨hok, hrest'⟩ := Buffer.advance (u := [c]) h₁.b (hrest.trans hfront) (hpos hne)
    have hc : s₁.b.x s₁.b.p = c := by
      obtain ⟨d, hd, hd'⟩ := Buffer.byte_of_lt h₁.b (hpos hne)
      rw [hrest, hfront] at hd'
      obtain rfl := Option.some.inj hd'
      unfold Buffer.byte at hd
      split_ifs at hd
      exact Except.ok.inj hd
    have hval : decide (s.text ≠ []) = true := decide_eq_true hne
    rw [hval, htext, List.tail_cons]
    change ∃ s', (if s₁.b.p < s₁.b.n then _ else _) = _ ∧ _
    rw [if_pos hlt]
    dsimp only
    rw [hc, hlook.bs, h₁.squoted, h₁.comment]
    -- the source behind the character; a backslash marks what follows it
    let s₂ (bs : Bool) : Reader := ⟨{ s₁.b with p := s₁.b.p + 1 }, bs, false, false⟩
    have h₂ : ∀ bs, (s₂ bs).Ok := fun bs => ⟨hok, rfl, rfl⟩
    have htext₂ : ∀ bs, (s₂ bs).text = Source.logical bs t := fun bs => by
      rw [text_eq (h₂ bs)]
      exact congrArg (Source.logical bs) hrest'
    cases hesc : (c == '\\' && !s.bs) with
    | false =>
      have hesc' : (!s.bs && c == '\\') = false := by rw [Bool.and_comm, hesc]
      rw [hesc']
      refine ⟨s₂ false, rfl, h₂ false, htext₂ false, ?_⟩
      exact congrArg (fun r => (⟨r, false, false, false⟩ : Source)) hrest'
    | true =>
      have hesc' : (!s.bs && c == '\\') = true := by rw [Bool.and_comm, hesc]
      obtain ⟨ret', s₃, hr', -, hlook', hrest₃, -⟩ := peek_eq (h₂ true)
      have hfront₃ : Source.front true t = t := by
        rw [Source.front]
        intro _ h
        cases h
      have hrest₃ : s₃.b.rest = t := by
        rw [hrest₃, show (s₂ true).b.rest = t from hrest', hfront₃]
      -- no newline follows, or the front would be a continuation
      have hno : (s₂ true).text.head? ≠ some '\n' := by
        rw [htext₂]
        intro hn
        cases t with
        | nil => cases hn
        | cons d t =>
          rw [Source.logical] at hn
          · simp only [Bool.and_eq_true, Bool.not_eq_true', beq_iff_eq] at hesc'
            exact front_cons hfront ⟨hesc'.1, hesc'.2, hn⟩
          · intro _ h
            cases h
      have hif : (decide (0 < ret') && (s₂ true).text.head? == some '\n') = false := by
        simp [hno]
      rw [hesc']
      refine ⟨s₃, ?_, hlook'.ok, hlook'.text.trans (htext₂ true), ?_⟩
      swap
      · rw [toSource, hrest₃, hlook'.bs, hlook'.ok.squoted, hlook'.ok.comment]
      change (s₂ true).peekn 0 >>= _ = _
      rw [hr']
      exact if_neg (by rw [hif]; exact Bool.false_ne_true)

/-! ## Runs -/

/-- `source_skip`, some times. -/
def skips : ℕ → Reader → Except Stop Reader
  | 0, s => .ok s
  | k + 1, s => do
      let (_, s) ← s.skip
      s.skips k

/-- What `source_peek` delivers behind `k` calls of `source_skip`; `none` is the end. -/
def delivered (s : Reader) (k : ℕ) : Except Stop (Option Char) := do
  let s ← s.skips k
  let (ret, c, _) ← s.peekn 0
  return if 0 < ret then c else none

/-- What `source_peekn` says is `k` places on. -/
def seen (s : Reader) (k : ℕ) : Except Stop (Option Char) := do
  let (ret, c, _) ← s.peekn k
  return if 0 < ret then c else none

/-- **`source_peekn` is right**: it sees what would be delivered, and what is delivered behind it is
the same. -/
def LooksAhead (s : Reader) (k : ℕ) : Prop :=
  s.seen k = s.delivered k ∧ ∀ r, s.peekn k = .ok r → ∀ j, r.2.2.delivered j = s.delivered j

theorem delivered_eq (h : s.Ok) (k : ℕ) : s.delivered k = .ok s.text[k]? := by
  induction k generalizing s with
  | zero =>
    obtain ⟨ret, s', hr, hret, -⟩ := peek_eq h
    unfold delivered skips
    change (do
      let (ret, c, _) ← s.peekn 0
      return if 0 < ret then c else none) = _
    rw [hr, ← List.head?_eq_getElem?]
    refine congrArg Except.ok ?_
    split_ifs with hpos
    · rfl
    · have hnil : s.text = [] := by
        by_contra hne
        exact hpos (hret.2 hne)
      rw [hnil]
      rfl
  | succ k ih =>
    obtain ⟨s', hs', h', htext, -⟩ := skip_eq h
    have hdel : s.delivered (k + 1) = s'.delivered k := by
      unfold delivered
      rw [skips, hs']
      rfl
    rw [hdel, ih h', htext, List.getElem?_tail]

/-- Whatever a look sees, it only looks. -/
theorem looks_of_peekn (h : s.Ok) {k : ℕ} {r : ℤ × Option Char × Reader}
    (hr : s.peekn k = .ok r) : s.Looks r.2.2 := by
  obtain ⟨hend, hsees⟩ := peekn_eq h k
  by_cases hnil : s.text = []
  · obtain ⟨ret, s', hr', -, hlook, -⟩ := hend hnil
    obtain rfl := Except.ok.inj (hr'.symm.trans hr)
    exact hlook
  · have hsees := hsees hnil
    cases hw : s.sight[k]? with
    | some c =>
      rw [hw] at hsees
      obtain ⟨s', hr', -, hlook, -⟩ := hsees
      obtain rfl := Except.ok.inj (hr'.symm.trans hr)
      exact hlook
    | none =>
      rw [hw] at hsees
      rcases hsees with hr' | ⟨-, c, s', hr', -, hlook⟩
      · exact absurd (hr'.symm.trans hr) nofun
      · obtain rfl := Except.ok.inj (hr'.symm.trans hr)
        exact hlook

theorem looksAhead_iff (h : s.Ok) (k : ℕ) :
    s.LooksAhead k ↔ s.text = [] ∨ ∃ c, s.sight[k]? = some c ∧ s.text[k]? = some c := by
  obtain ⟨hend, hsees⟩ := peekn_eq h k
  -- behind a look everything is delivered as before
  have hsame : ∀ r, s.peekn k = .ok r → ∀ j, r.2.2.delivered j = s.delivered j := by
    intro r hr j
    have hlook := looks_of_peekn h hr
    rw [delivered_eq hlook.ok, delivered_eq h, hlook.text]
  unfold LooksAhead
  rw [delivered_eq h]
  by_cases hnil : s.text = []
  · obtain ⟨ret, s', hr, hret, -⟩ := hend hnil
    refine iff_of_true ⟨?_, hsame⟩ (.inl hnil)
    rw [seen, hr, hnil]
    exact congrArg Except.ok (if_neg (by omega))
  · have hsees := hsees hnil
    rw [or_iff_right hnil]
    cases hw : s.sight[k]? with
    | some c =>
      rw [hw] at hsees
      obtain ⟨s', hr, hpos, -⟩ := hsees
      have hseen : s.seen k = .ok (some c) := by
        rw [seen, hr]
        exact congrArg Except.ok (if_pos (by omega))
      rw [hseen]
      refine ⟨fun hright => ⟨c, rfl, (Except.ok.inj hright.1).symm⟩, ?_⟩
      rintro ⟨d, hd, htext⟩
      obtain rfl := Option.some.inj hd
      exact ⟨congrArg Except.ok htext.symm, hsame⟩
    | none =>
      rw [hw] at hsees
      refine iff_of_false (fun hright => ?_) nofun
      rcases hsees with hr | ⟨htext, c, s', hr, hpos, -⟩
      · have hseen : s.seen k = .error .outside := by
          rw [seen, hr]
          rfl
        exact absurd (hseen.symm.trans hright.1) nofun
      · have hseen : s.seen k = .ok (some c) := by
          rw [seen, hr]
          exact congrArg Except.ok (if_pos (by omega))
        rw [htext] at hright
        exact absurd (Except.ok.inj (hseen.symm.trans hright.1)) nofun

end Reader

/-- What a source reads: a string, a mapped file, or a descriptor that gives so many bytes at a
time. -/
inductive Medium where
  | string
  | map
  | fd (sizes : List ℕ)

/-- Is the input in memory as a whole? -/
def Medium.inMemory : Medium → Bool
  | .fd _ => false
  | _ => true

/-- A fresh source.  A string has its NUL behind it (`buffer_fromstr`), a mapped file nothing
(`buffer_mmapread_fd`), and a descriptor reads into a buffer of `FD_BUFSIZE`; `junk` is what the
memory holds besides. -/
def Reader.ofMedium (junk : ℕ → Char) (input : Str) : Medium → Reader
  | .string => { b := {
      x := fun i => if i = input.length then Char.ofNat 0 else (input[i]?).getD (junk i)
      p := 0, n := input.length, a := input.length + 1, dummy := true } }
  | .map => { b := {
      x := fun i => (input[i]?).getD (junk i)
      p := 0, n := input.length, a := input.length, dummy := true } }
  | .fd sizes => { b := { x := junk, p := 0, n := 0, a := 1024, dummy := false, file := input, sizes } }

/-- What a parser does with a source. -/
inductive ReadOp where
  | peekn (k : ℕ)
  | skip
  deriving DecidableEq

/-- A step; `none` when it reads outside of the memory. -/
def readStep (s : Reader) : ReadOp → Option Reader
  | .peekn k =>
      match s.peekn k with
      | .ok r => some r.2.2
      | .error _ => none
  | .skip =>
      match s.skip with
      | .ok r => some r.2
      | .error _ => none

namespace Reader

variable {s s' : Reader}

theorem ok_ofMedium (junk : ℕ → Char) {input : Str} {m : Medium}
    (hsmall : m.inMemory → input.length < 2 ^ 31) : (ofMedium junk input m).Ok := by
  cases m with
  | string => exact ⟨⟨Nat.zero_le _, Nat.le_succ _, hsmall rfl, fun _ => rfl, nofun⟩, rfl, rfl⟩
  | map => exact ⟨⟨Nat.zero_le _, Nat.le_refl _, hsmall rfl, fun _ => rfl, nofun⟩, rfl, rfl⟩
  | fd sizes =>
    have hroom : 2 ≤ 1024 ∧ 1024 < 2 ^ 31 := by decide
    exact ⟨⟨Nat.zero_le _, Nat.zero_le _, Nat.two_pow_pos 31, nofun, fun _ => hroom⟩, rfl, rfl⟩

theorem rest_ofMedium (junk : ℕ → Char) (input : Str) (m : Medium) :
    (ofMedium junk input m).b.rest = input := by
  cases m with
  | string =>
    refine (List.append_nil _).trans (List.ext_getElem (by simp [ofMedium, Buffer.len]) ?_)
    intro i hi hi'
    simp [ofMedium, Buffer.data, hi', Nat.ne_of_lt hi']
  | map =>
    refine (List.append_nil _).trans (List.ext_getElem (by simp [ofMedium, Buffer.len]) ?_)
    intro i hi hi'
    simp [ofMedium, Buffer.data, hi']
  | fd sizes => rfl

/-- **A step** keeps a source in order; a skip takes a character, a look does not. -/
theorem step_eq (h : s.Ok) {op : ReadOp} (hstep : readStep s op = some s') :
    s'.Ok ∧ s'.text = if op = .skip then s.text.tail else s.text := by
  cases op with
  | peekn k =>
    rw [readStep] at hstep
    cases hr : s.peekn k with
    | error e =>
      rw [hr] at hstep
      exact absurd hstep nofun
    | ok r =>
      rw [hr] at hstep
      obtain rfl := Option.some.inj hstep
      exact ⟨(looks_of_peekn h hr).ok, (looks_of_peekn h hr).text⟩
  | skip =>
    obtain ⟨s₁, hs₁, h₁, htext, -⟩ := skip_eq h
    rw [readStep, hs₁] at hstep
    obtain rfl := Option.some.inj hstep
    exact ⟨h₁, htext⟩

/-- **A run** takes as many characters as it skips. -/
theorem run_eq : ∀ {ops : List ReadOp} {s s' : Reader}, s.Ok → runs readStep s ops = some s' →
    s'.Ok ∧ s'.text = s.text.drop (ops.count .skip)
  | [], s, s', h, hrun => by
      obtain rfl := Option.some.inj hrun
      exact ⟨h, rfl⟩
  | op :: ops, s, s', h, hrun => by
      obtain ⟨s₁, hs₁, hrun⟩ := Option.bind_eq_some_iff.1 hrun
      obtain ⟨h₁, htext₁⟩ := step_eq h hs₁
      obtain ⟨h', htext'⟩ := run_eq h₁ hrun
      refine ⟨h', htext'.trans ?_⟩
      rw [htext₁]
      cases op with
      | peekn k => simp
      | skip => simp [List.drop_tail]

end Reader

/-- **Whatever a source reads, and wherever in it a run has come**: what it delivers are the characters
without the continuations; and a look for the `k`th of what is left is right if and only if nothing
is left, or that character is in sight. -/
theorem looksAhead_reached_iff (junk : ℕ → Char) (input : Str) (m : Medium)
    (hsmall : m.inMemory → input.length < 2 ^ 31) (ops : List ReadOp) {s : Reader}
    (hrun : runs readStep (.ofMedium junk input m) ops = some s) :
    (∀ k, s.delivered k = .ok (Source.logical false input)[ops.count .skip + k]?) ∧
      ∀ k, s.LooksAhead k ↔ s.text = [] ∨ ∃ c, s.sight[k]? = some c ∧ s.text[k]? = some c := by
  have hstart := Reader.ok_ofMedium junk hsmall
  obtain ⟨h, htext⟩ := Reader.run_eq hstart hrun
  refine ⟨fun k => ?_, Reader.looksAhead_iff h⟩
  have hinput : (Reader.ofMedium junk input m).text = Source.logical false input := by
    rw [Reader.text_eq hstart, Reader.rest_ofMedium]
    cases m <;> rfl
  rw [Reader.delivered_eq h, htext, hinput, List.getElem?_drop]

theorem looksAhead_reached_two : ∃ s,
    runs readStep (.ofMedium (fun _ => 'z') "a\\\nbc".toList .string) [.peekn 1, .skip] = some s ∧
      s.LooksAhead 1 :=
  ⟨_, rfl, ((looksAhead_reached_iff (fun _ => 'z') "a\\\nbc".toList .string (fun _ => by decide)
    [.peekn 1, .skip] rfl).2 1).2 (.inr ⟨'c', by decide, by decide⟩)⟩

/-- Behind the only character of a string `source_peekn` takes its NUL for one more. -/
theorem seen_behind_the_end : ¬ (Reader.ofMedium (fun _ => 'z') ['a'] .string).LooksAhead 1 ∧
    (Reader.ofMedium (fun _ => 'z') ['a'] .string).seen 1 = .ok (some (Char.ofNat 0)) ∧
      (Reader.ofMedium (fun _ => 'z') ['a'] .string).delivered 1 = .ok none := by
  refine ⟨fun h => ?_, rfl, rfl⟩
  exact absurd (Except.ok.inj h.1) (by decide)

/-- In what is in memory as a whole everything is in sight. -/
theorem sight_eq_text {s : Reader} (h : s.Ok) (hd : s.b.dummy) : s.sight = s.text := by
  rw [Reader.sight, Reader.text_eq h, hd]
  exact Reader.logical_front s.bs s.b.rest

end Shish
