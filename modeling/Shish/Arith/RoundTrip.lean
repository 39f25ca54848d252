import Shish.Arith.Print

/-!
# Arith/RoundTrip — what is printed is read back

A tree that `Arith.reads` allows is read back from its text.  The induction is on the tree, over the
functions of the parser at once: each of them reads the text of what it can return, whatever comes
next, as long as that is what can come next in a printed text.
-/

namespace Shish

variable {ω : Type} {O : Operands ω}

/-! ## Numbers -/

section Num

/-- The literal a number is printed as. -/
def numLiteral (v : Int64) (base : ℕ) : Literal :=
  if base = 8 then .oct (fmt8longlong v.toUInt64)
  else if base = 16 then .hex false (fmtXlonglong v.toUInt64)
  else .dec (fmtUlonglong v.toUInt64)

theorem short_fmtDigits {base n i : ℕ} (hb : 1 < base) (hb' : base ≤ 16) (h : i < base ^ (n + 1)) :
    Literal.short (fmtDigits base (n + 1) i) := by
  by_cases h0 : i = 0
  · subst h0
    simp [fmtDigits, Nat.zero_lt_of_lt hb, tohex, Literal.short]
  · obtain ⟨c, t, ht, hc⟩ := fmtDigits_head hb hb' h h0
    rw [ht]
    simp [Literal.short, hc]

theorem toInt64_toNat (v : Int64) : (UInt64.ofNat v.toUInt64.toNat).toInt64 = v := by
  rw [UInt64.ofNat_toNat]
  rfl

theorem toNat_lt (v : Int64) : v.toUInt64.toNat < 2 ^ 64 :=
  v.toUInt64.toNat_lt

theorem toNat_lt_of_nonneg {v : Int64} (h : 0 ≤ v) : v.toUInt64.toNat < 2 ^ 63 := by
  have hmsb : v.toBitVec.msb = false := by
    rw [BitVec.msb_eq_toInt]
    simpa [Int64.le_iff_toInt_le] using h
  exact BitVec.toNat_lt_of_msb_false hmsb

/-- **A number that is not negative, or not decimal, is printed as a literal that is read back.** -/
theorem numLiteral_spec {v : Int64} {base : ℕ} (h : base = 8 ∨ base = 16 ∨ base = 10 ∧ 0 ≤ v) :
    let l := numLiteral v base
    catNum v base = l.text ∧ l.Written ∧ l.value < l.bound ∧ l.readable ∧
      (UInt64.ofNat l.value).toInt64 = v ∧ l.base = base := by
  have hlt := toNat_lt v
  rcases h with rfl | rfl | ⟨rfl, h0⟩
  · have hd : digits 8 0 (fmtDigits 8 64 v.toUInt64.toNat) = v.toUInt64.toNat :=
      digits_fmt (by decide) (by decide) (by omega)
    have hlen : (fmtDigits 8 64 v.toUInt64.toNat).length ≤ 22 :=
      length_fmtDigits (by decide) (by omega)
    refine ⟨rfl, ⟨fmtDigits_ne_nil _ _, ?_⟩, ?_, ?_, ?_, rfl⟩
    · exact mem_fmtDigits (by decide) (by decide) fun d => isodigit_tohex
    · exact hd.trans_lt hlt
    · exact decide_eq_true (Nat.lt_of_le_of_lt hlen (by decide))
    · exact (congrArg (fun n => (UInt64.ofNat n).toInt64) hd).trans (toInt64_toNat v)
  · have hd : digits 16 0 (fmtDigits 16 64 v.toUInt64.toNat) = v.toUInt64.toNat :=
      digits_fmt (by decide) (by decide) (by omega)
    have hlen : (fmtDigits 16 64 v.toUInt64.toNat).length ≤ 16 :=
      length_fmtDigits (by decide) (by omega)
    refine ⟨rfl, ⟨fmtDigits_ne_nil _ _, ?_⟩, ?_, ?_, ?_, rfl⟩
    · exact mem_fmtDigits (by decide) (by decide) fun d => isxdigit_tohex
    · exact hd.trans_lt hlt
    · have hs := short_fmtDigits (n := 63) (i := v.toUInt64.toNat) (show 1 < 16 by decide)
        (by decide) (by omega)
      simp only [numLiteral, Literal.readable, fmtXlonglong, if_neg (show ¬16 = 8 by decide),
        if_true, hs, Bool.not_false, Bool.true_and, decide_eq_true_eq]
      exact Nat.le_trans hlen (by decide)
    · exact (congrArg (fun n => (UInt64.ofNat n).toInt64) hd).trans (toInt64_toNat v)
  · have hlt' := toNat_lt_of_nonneg h0
    have hd : digits 10 0 (fmtDigits 10 64 v.toUInt64.toNat) = v.toUInt64.toNat :=
      digits_fmt (by decide) (by decide) (by omega)
    have hlen : (fmtDigits 10 64 v.toUInt64.toNat).length ≤ 20 :=
      length_fmtDigits (by decide) (by omega)
    refine ⟨?_, ⟨fmtDigits_ne_nil _ _, ?_, ?_⟩, ?_, ?_, ?_, rfl⟩
    · have : ¬v < 0 := by
        rw [Int64.lt_iff_toInt_lt]
        have := Int64.le_iff_toInt_le.1 h0
        omega
      simp [catNum, fmtLonglong, this, numLiteral, Literal.text]
    · exact mem_fmtDigits (by decide) (by decide) fun d => isdigit_tohex
    · exact short_fmtDigits (by decide) (by decide) (by omega)
    · exact hd.trans_lt hlt'
    · exact decide_eq_true (Nat.le_trans hlen (by decide))
    · exact (congrArg (fun n => (UInt64.ofNat n).toInt64) hd).trans (toInt64_toNat v)

end Num

end Shish
