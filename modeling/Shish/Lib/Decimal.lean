import Mathlib.Algebra.Order.Field.Rat
import Mathlib.Data.List.DropRight
import Mathlib.Tactic.Linarith
import Mathlib.Tactic.Positivity
import Mathlib.Tactic.Ring
import Mathlib.Tactic.FieldSimp
import Shish.Lib.Compare

/-!
# Lib/Decimal — decimal numbers compared by their digits

Two numbers without leading zeros compare as their lengths do, and those of one length as their first
difference; two fractions without zeros at their end compare as their first difference does, and a longer one is
greater.  `cmpMag_val` says so of the values.
-/

namespace Shish

/-- The value of digits before the point. -/
def intVal : List ℕ → ℕ
  | [] => 0
  | d :: ds => d * 10 ^ ds.length + intVal ds

/-- The value of digits behind the point. -/
def fracVal : List ℕ → ℚ
  | [] => 0
  | d :: ds => (d + fracVal ds) / 10

/-- Digits. -/
def Digits (ds : List ℕ) : Prop := ∀ d ∈ ds, d < 10

variable {x y : List ℕ}

theorem Digits.tail {d : ℕ} {ds : List ℕ} (h : Digits (d :: ds)) : Digits ds := fun e he => h e (.tail _ he)

theorem intVal_lt (h : Digits x) : intVal x < 10 ^ x.length := by
  induction x with
  | nil => exact Nat.one_pos
  | cons d ds ih =>
    have hd := h d (.head _)
    have := ih h.tail
    rw [intVal, List.length_cons, pow_succ]
    calc d * 10 ^ ds.length + intVal ds < d * 10 ^ ds.length + 10 ^ ds.length := by omega
      _ = (d + 1) * 10 ^ ds.length := by ring
      _ ≤ 10 * 10 ^ ds.length := Nat.mul_le_mul_right _ hd
      _ = 10 ^ ds.length * 10 := Nat.mul_comm _ _

theorem le_intVal {d : ℕ} {ds : List ℕ} (hd : d ≠ 0) : 10 ^ ds.length ≤ intVal (d :: ds) := by
  rw [intVal]
  exact (Nat.le_mul_of_pos_left _ (Nat.pos_of_ne_zero hd)).trans (Nat.le_add_right _ _)

theorem fracVal_nonneg (x : List ℕ) : 0 ≤ fracVal x := by
  induction x with
  | nil => exact le_rfl
  | cons d ds ih => exact div_nonneg (add_nonneg (Nat.cast_nonneg d) ih) (by norm_num)

theorem fracVal_lt (h : Digits x) : fracVal x < 1 := by
  induction x with
  | nil => exact one_pos
  | cons d ds ih =>
    have hd : (d : ℚ) ≤ 9 := by exact_mod_cast Nat.le_of_lt_succ (h d (.head _))
    have := ih h.tail
    rw [fracVal, div_lt_one (by norm_num)]
    linarith

/-- A fraction that does not end with a zero is positive. -/
theorem fracVal_pos (h : x.getLast? ≠ some 0) (hne : x ≠ []) : 0 < fracVal x := by
  induction x with
  | nil => exact absurd rfl hne
  | cons d ds ih =>
    rw [fracVal]
    refine div_pos ?_ (by norm_num)
    rcases eq_or_ne ds [] with rfl | hds
    · have hd : d ≠ 0 := fun h' => h (by simp [h'])
      have : (0 : ℚ) < d := by exact_mod_cast Nat.pos_of_ne_zero hd
      simpa [fracVal] using this
    · have hlast : ds.getLast? ≠ some 0 := by
        obtain ⟨e, es, rfl⟩ := List.exists_cons_of_ne_nil hds
        rwa [List.getLast?_cons_cons] at h
      exact add_pos_of_nonneg_of_pos (Nat.cast_nonneg d) (ih hlast hds)

/-- **The first difference decides between numbers of one length.** -/
theorem cmpPrefix_int (hx : Digits x) (hy : Digits y) (hlen : x.length = y.length) :
    (cmpPrefix x y < 0 ↔ intVal x < intVal y) ∧ (0 < cmpPrefix x y ↔ intVal y < intVal x) := by
  induction x generalizing y with
  | nil =>
    obtain rfl := List.length_eq_zero_iff.1 hlen.symm
    simp [cmpPrefix]
  | cons a x ih =>
    cases y with
    | nil => cases hlen
    | cons b y =>
      have hlen' : x.length = y.length := Nat.succ.inj hlen
      have h := ih hx.tail hy.tail hlen'
      have hxlt := intVal_lt hx.tail
      have hylt := intVal_lt hy.tail
      rw [cmpPrefix, intVal, intVal, hlen']
      rw [hlen'] at hxlt
      have hstep : ∀ {a b m n : ℕ}, m < 10 ^ y.length → a < b → a * 10 ^ y.length + m < b * 10 ^ y.length + n := by
        intro a b m n hm hab
        calc a * 10 ^ y.length + m < a * 10 ^ y.length + 10 ^ y.length := by omega
          _ = (a + 1) * 10 ^ y.length := by ring
          _ ≤ b * 10 ^ y.length := Nat.mul_le_mul_right _ hab
          _ ≤ b * 10 ^ y.length + n := Nat.le_add_right _ _
      rcases lt_trichotomy a b with hab | rfl | hab
      · have : a * 10 ^ y.length + intVal x < b * 10 ^ y.length + intVal y := hstep hxlt hab
        rw [if_pos (by omega)]
        omega
      · rw [if_neg (by omega)]
        omega
      · have : b * 10 ^ y.length + intVal y < a * 10 ^ y.length + intVal x := hstep hylt hab
        rw [if_pos (by omega)]
        omega

theorem tail_last {a : ℕ} {x : List ℕ} (h : (a :: x).getLast? ≠ some 0) : x.getLast? ≠ some 0 := by
  cases x with
  | nil => simp
  | cons b x => rwa [List.getLast?_cons_cons] at h

/-- **The first difference decides between fractions**, and then the length. -/
theorem cmpLex_frac (hx : Digits x) (hy : Digits y) (hx₀ : x.getLast? ≠ some 0) (hy₀ : y.getLast? ≠ some 0) :
    (cmpLex x y < 0 ↔ fracVal x < fracVal y) ∧ (0 < cmpLex x y ↔ fracVal y < fracVal x) := by
  fun_induction cmpLex x y with
  | case1 => simp
  | case2 b y =>
    have hpos := fracVal_pos hy₀ (List.cons_ne_nil b y)
    exact ⟨iff_of_true (by decide) hpos, iff_of_false (by decide) hpos.le.not_gt⟩
  | case3 a x =>
    have hpos := fracVal_pos hx₀ (List.cons_ne_nil a x)
    exact ⟨iff_of_false (by decide) hpos.le.not_gt, iff_of_true (by decide) hpos⟩
  | case4 a x b y h =>
    have hstep : ∀ {a b : ℕ} {x y : List ℕ}, Digits x → a < b → fracVal (a :: x) < fracVal (b :: y) := by
      intro a b x y hx hab
      have h₁ := fracVal_lt hx
      have h₂ := fracVal_nonneg y
      have h₃ : (a : ℚ) + 1 ≤ b := by exact_mod_cast hab
      rw [fracVal, fracVal]
      linarith
    rcases Nat.lt_or_gt_of_ne (fun hab : a = b => h (by omega)) with hab | hab
    · have := @hstep a b x y hx.tail hab
      exact ⟨iff_of_true (by omega) this, iff_of_false (by omega) this.le.not_gt⟩
    · have := @hstep b a y x hy.tail hab
      exact ⟨iff_of_false (by omega) this.le.not_gt, iff_of_true (by omega) this⟩
  | case5 a x b y h ih =>
    obtain rfl : a = b := by omega
    obtain ⟨h₁, h₂⟩ := ih hx.tail hy.tail (tail_last hx₀) (tail_last hy₀)
    rw [h₁, h₂, fracVal, fracVal]
    constructor <;> constructor <;> intro h <;> linarith

/-- **The value of a number** without its sign. -/
def magnitude (i f : List ℕ) : ℚ := intVal i + fracVal f

/-- Numbers without their signs, compared. -/
def cmpMag (i f j g : List ℕ) : ℤ :=
  if i.length ≠ j.length then (if i.length < j.length then -1 else 1)
  else if cmpPrefix i j ≠ 0 then cmpPrefix i j
  else cmpLex f g

variable {i f j g : List ℕ}

/-- **The digits compare as the values do.** -/
theorem cmpMag_val (hi : Digits i) (hf : Digits f) (hj : Digits j) (hg : Digits g) (hi₀ : i.head? ≠ some 0)
    (hj₀ : j.head? ≠ some 0) (hf₀ : f.getLast? ≠ some 0) (hg₀ : g.getLast? ≠ some 0) :
    (cmpMag i f j g < 0 ↔ magnitude i f < magnitude j g) ∧
      (0 < cmpMag i f j g ↔ magnitude j g < magnitude i f) := by
  -- the whole parts decide when they differ
  have hstep : ∀ {m n : ℕ} {f g : List ℕ}, Digits f → m < n → (m : ℚ) + fracVal f < n + fracVal g := by
    intro m n f g hf hmn
    have h₁ := fracVal_lt hf
    have h₂ := fracVal_nonneg g
    have h₃ : (m : ℚ) + 1 ≤ n := by exact_mod_cast hmn
    linarith
  have hlong : ∀ {i j : List ℕ}, Digits i → j.head? ≠ some 0 → i.length < j.length → intVal i < intVal j := by
    intro i j hi hj₀ hlt
    cases j with
    | nil => exact absurd hlt (Nat.not_lt_zero _)
    | cons d ds =>
      have hd : d ≠ 0 := fun h => hj₀ (by rw [h]; rfl)
      calc intVal i < 10 ^ i.length := intVal_lt hi
        _ ≤ 10 ^ ds.length := Nat.pow_le_pow_right (by decide) (Nat.le_of_lt_succ hlt)
        _ ≤ intVal (d :: ds) := le_intVal hd
  unfold cmpMag magnitude
  split_ifs with hlen hlt hdiff
  · have := @hstep _ _ f g hf (hlong hi hj₀ hlt)
    exact ⟨iff_of_true (by decide) this, iff_of_false (by decide) this.le.not_gt⟩
  · have := @hstep _ _ g f hg (hlong hj hi₀ (by omega))
    exact ⟨iff_of_false (by decide) this.le.not_gt, iff_of_true (by decide) this⟩
  · obtain ⟨h₁, h₂⟩ := cmpPrefix_int hi hj (not_not.1 hlen)
    rcases lt_or_gt_of_ne hdiff with hneg | hpos
    · have := @hstep _ _ f g hf (h₁.1 hneg)
      exact ⟨iff_of_true hneg this, iff_of_false hneg.le.not_gt this.le.not_gt⟩
    · have := @hstep _ _ g f hg (h₂.1 hpos)
      exact ⟨iff_of_false hpos.le.not_gt this.le.not_gt, iff_of_true hpos this⟩
  · obtain ⟨h₁, h₂⟩ := cmpPrefix_int hi hj (not_not.1 hlen)
    have heq : intVal i = intVal j := by omega
    obtain ⟨h₃, h₄⟩ := cmpLex_frac hf hg hf₀ hg₀
    rw [h₃, h₄, heq]
    constructor <;> constructor <;> intro h <;> linarith

/-- Only the number without digits is zero. -/
theorem magnitude_eq_zero (hi₀ : i.head? ≠ some 0) (hf₀ : f.getLast? ≠ some 0) :
    magnitude i f = 0 ↔ i = [] ∧ f = [] := by
  constructor
  · intro h
    have h₁ := fracVal_nonneg f
    have h₂ : (0 : ℚ) ≤ intVal i := Nat.cast_nonneg _
    unfold magnitude at h
    constructor
    · cases i with
      | nil => rfl
      | cons d ds =>
        have hd : d ≠ 0 := fun h => hi₀ (by rw [h]; rfl)
        have hpos : 0 < intVal (d :: ds) := Nat.lt_of_lt_of_le (Nat.pow_pos (by decide)) (le_intVal hd)
        have : (0 : ℚ) < intVal (d :: ds) := by exact_mod_cast hpos
        linarith
    · by_contra hne
      have := fracVal_pos hf₀ hne
      linarith
  · rintro ⟨rfl, rfl⟩
    simp [magnitude, intVal, fracVal]

theorem magnitude_nonneg (i f : List ℕ) : 0 ≤ magnitude i f :=
  add_nonneg (Nat.cast_nonneg _) (fracVal_nonneg f)

/-! ## Zeros that do not count -/

theorem intVal_dropWhile (x : List ℕ) : intVal (x.dropWhile (· == 0)) = intVal x := by
  induction x with
  | nil => rfl
  | cons d ds ih =>
    rw [List.dropWhile_cons]
    split_ifs with h
    · obtain rfl : d = 0 := by simpa using h
      rw [ih, intVal]
      simp
    · rfl

theorem fracVal_append_zero (x : List ℕ) : fracVal (x ++ [0]) = fracVal x := by
  induction x with
  | nil => simp [fracVal]
  | cons d ds ih => rw [List.cons_append, fracVal, ih, fracVal]

theorem fracVal_rdropWhile (x : List ℕ) : fracVal (x.rdropWhile (· == 0)) = fracVal x := by
  induction x using List.reverseRecOn with
  | nil => rfl
  | append_singleton x d ih =>
    rw [List.rdropWhile_concat]
    split_ifs with h
    · obtain rfl : d = 0 := by simpa using h
      rw [ih, fracVal_append_zero]
    · rfl

end Shish
