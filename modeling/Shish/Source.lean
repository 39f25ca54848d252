import Shish.Chartable

/-!
# Source — the characters a parser sees

`source_peekn` and `source_skip` hide every backslash-newline from the parser, unless it is inside
single quotes or a comment, or the backslash is itself escaped.  The buffer is what is left of the
input; alias text, prompts and positions are left out.  `source_peekn` drops a continuation at the
very front for good; here `skip` does that, since nothing looks at the buffer in between.
-/

namespace Shish

/-- A source: what is left of the buffer, `source_bs`, `source_squoted` and `source_comment`. -/
structure Source where
  buf : Str
  bs : Bool
  squoted : Bool
  comment : Bool
deriving DecidableEq, Repr

namespace Source

/-- A fresh source. -/
def ofStr (buf : Str) : Source := ⟨buf, false, false, false⟩

/-- The characters without the continuations; `esc` says that a backslash went before. -/
def logical : Bool → Str → Str
  | _, [] => []
  | false, '\\' :: '\n' :: t => logical false t
  | esc, c :: t => c :: logical (!esc && c == '\\') t

/-- The buffer behind the continuations at its front. -/
def front : Bool → Str → Str
  | false, '\\' :: '\n' :: t => front false t
  | _, t => t

/-- Quoted and comment text has no continuations. -/
def raw (s : Source) : Bool := s.squoted || s.comment

/-- What is left, as the parser sees it. -/
def text (s : Source) : Str := if s.raw then s.buf else logical s.bs s.buf

/-- `source_peekn`: the character `n` places on. -/
def peekn (s : Source) (n : ℕ) : Option Char := s.text[n]?

/-- `source_peek`. -/
def peek (s : Source) : Option Char := s.peekn 0

/-- `source_skip`.  A backslash marks what follows it as escaped; when a newline follows after all,
both are gone. -/
def skip (s : Source) : Source :=
  match if s.raw then s.buf else front s.bs s.buf with
  | [] => { s with buf := [] }
  | c :: t =>
      if c == '\\' && !s.bs && !s.raw then
        match t with
        | '\n' :: t => { s with buf := t, bs := false }
        | t => { s with buf := t, bs := true }
      else { s with buf := t, bs := false }

/-- **A skip** takes what the front begins with; a backslash marks what follows it. -/
theorem skip_of_front {s : Source} (hraw : s.raw = false) {c : Char} {t : Str}
    (hfront : front s.bs s.buf = c :: t)
    (hno : ¬ (s.bs = false ∧ c = '\\' ∧ t.head? = some '\n')) :
    s.skip = { s with buf := t, bs := !s.bs && c == '\\' } := by
  unfold skip
  rw [hraw, if_neg Bool.false_ne_true, hfront]
  dsimp only
  split_ifs with hc
  · simp only [Bool.and_eq_true, Bool.not_eq_true', beq_iff_eq] at hc
    split
    · exact absurd ⟨hc.1.2, hc.1.1, rfl⟩ hno
    · simp [hc.1]
  · have hc' : (!s.bs && c == '\\') = false := by
      rw [Bool.and_comm]
      simpa using hc
    rw [hc']

theorem skip_of_end {s : Source} (hraw : s.raw = false) (hfront : front s.bs s.buf = []) :
    s.skip = { s with buf := [] } := by
  unfold skip
  rw [hraw, if_neg Bool.false_ne_true, hfront]

/-- The loop of `parse_skipspace`. -/
def skipspaceGo (arith : Bool) : ℕ → Source → Source
  | 0, s => s
  | n + 1, s =>
      match s.peek with
      | some '\n' => if arith then skipspaceGo arith n s.skip else s
      | some c => if parseIsspace c then skipspaceGo arith n s.skip else s
      | none => s

/-- `parse_skipspace`: a newline ends the white space, except in `$(( ))`. -/
def skipspace (arith : Bool) (s : Source) : Source := skipspaceGo arith s.buf.length s

/-! ## Plain text

In front of a character that is no backslash there is nothing to drop. -/

section Plain

variable {c : Char} {t : Str}

theorem logical_cons (h : c ≠ '\\') : logical false (c :: t) = c :: logical false t := by
  rw [logical]
  · rw [beq_eq_false_iff_ne.2 h, Bool.and_false]
  · rintro t' - rfl
    exact absurd rfl h

@[simp] theorem peekn_zero (s : Source) : s.peekn 0 = s.peek :=
  rfl

theorem peek_cons (h : c ≠ '\\') : (ofStr (c :: t)).peek = some c := by
  simp [peek, peekn, text, raw, ofStr, logical_cons h]

theorem peekn_succ (h : c ≠ '\\') (n : ℕ) :
    (ofStr (c :: t)).peekn (n + 1) = (ofStr t).peekn n := by
  simp [peekn, text, raw, ofStr, logical_cons h]

theorem skip_cons (h : c ≠ '\\') : (ofStr (c :: t)).skip = ofStr t := by
  have hf : front false (c :: t) = c :: t := by
    rw [front]
    rintro t' - heq
    exact h (List.cons.inj heq).1
  simp [skip, raw, ofStr, hf, h]

theorem skipspace_cons (h : parseIsspace c) : (ofStr (c :: t)).skipspace true =
    (ofStr t).skipspace true := by
  have hc : c ≠ '\\' := by
    rintro rfl
    exact absurd h (by decide)
  simp only [skipspace, ofStr, List.length_cons]
  rw [show (⟨c :: t, false, false, false⟩ : Source) = ofStr (c :: t) from rfl, skipspaceGo,
    peek_cons hc, skip_cons hc]
  split <;> simp_all [ofStr]

/-- White space in front of anything else. -/
theorem skipspace_append : ∀ {b : Str}, (∀ c ∈ b, parseIsspace c) →
    (ofStr (b ++ t)).skipspace true = (ofStr t).skipspace true
  | [], _ => rfl
  | c :: b, h => by
      rw [List.cons_append, skipspace_cons (h c (.head _))]
      exact skipspace_append fun d hd => h d (.tail _ hd)

theorem skipspace_of_not_space {s : Source} (h : ∀ c, s.peek = some c → parseIsspace c = false) :
    s.skipspace true = s := by
  unfold skipspace
  cases s.buf.length with
  | zero => rfl
  | succ n =>
    rw [skipspaceGo]
    split
    · next hc => exact absurd (h _ hc) (by decide)
    · next hc => simp [h _ hc]
    · rfl

theorem skipspace_stop (h : c ≠ '\\') (hs : parseIsspace c = false) :
    (ofStr (c :: t)).skipspace true = ofStr (c :: t) := by
  refine skipspace_of_not_space fun d hd => ?_
  rw [peek_cons h] at hd
  exact Option.some.inj hd ▸ hs

end Plain

end Source

end Shish
