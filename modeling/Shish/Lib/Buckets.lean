import Mathlib.Data.List.Basic
import Mathlib.Logic.Function.Basic

/-!
# Lib/Buckets — a hash table with chains, read as a map

The slot of a key says which chain its entry stands on, and `is k a` whether `a` is the entry of
`k`.  As long as no entry is that of two keys, a change of the first entry of a key changes what is
found for that key and for no other (`find_modify`), and so does a new entry in front (`find_put`).
-/

namespace Shish

variable {κ α : Type*}

/-- The first element that passes the test is changed. -/
def modifyFirst (p : α → Bool) (f : α → α) : List α → List α
  | [] => []
  | a :: l => if p a then f a :: l else a :: modifyFirst p f l

theorem find?_modifyFirst_self {p : α → Bool} {f : α → α} (hf : ∀ a, p (f a) = p a) (l : List α) :
    (modifyFirst p f l).find? p = (l.find? p).map f := by
  induction l with
  | nil => rfl
  | cons a l ih =>
    cases ha : p a with
    | true => simp [modifyFirst, ha, hf]
    | false => simpa [modifyFirst, ha] using ih

theorem find?_modifyFirst_other {p q : α → Bool} {f : α → α} (hf : ∀ a, q (f a) = q a)
    (hpq : ∀ a, p a → q a = false) (l : List α) : (modifyFirst p f l).find? q = l.find? q := by
  induction l with
  | nil => rfl
  | cons a l ih =>
    cases ha : p a with
    | true => simp [modifyFirst, ha, hf, hpq a ha]
    | false =>
      rw [modifyFirst, ha, if_neg Bool.false_ne_true, List.find?_cons, List.find?_cons, ih]

/-- The chains. -/
abbrev Buckets (α : Type*) := ℕ → List α

namespace Buckets

variable (slot : κ → ℕ) (is : κ → α → Bool)

def find (t : Buckets α) (k : κ) : Option α := (t (slot k)).find? (is k)

/-- The entry of a key is changed, if it has one. -/
def modify (t : Buckets α) (k : κ) (f : α → α) : Buckets α :=
  Function.update t (slot k) (modifyFirst (is k) f (t (slot k)))

def put (t : Buckets α) (k : κ) (a : α) : Buckets α :=
  Function.update t (slot k) (a :: t (slot k))

/-- Every entry is changed. -/
def mapAll (t : Buckets α) (f : α → α) : Buckets α := fun i => (t i).map f

variable {slot is} [DecidableEq κ] {t : Buckets α} {k : κ} {f : α → α} {a : α}

/-- **A change of a key's entry.** -/
theorem find_modify (hkey : ∀ a k k', is k a → is k' a → k = k')
    (hf : ∀ a k, is k (f a) = is k a) (k' : κ) :
    (t.modify slot is k f).find slot is k' =
      if k' = k then (t.find slot is k).map f else t.find slot is k' := by
  unfold find modify
  by_cases hk : k' = k
  · subst hk
    rw [if_pos rfl, Function.update_self, find?_modifyFirst_self fun a => hf a k']
  · rw [if_neg hk]
    by_cases hs : slot k' = slot k
    · rw [hs, Function.update_self, find?_modifyFirst_other fun a => hf a k']
      intro a ha
      by_contra ha'
      exact hk (hkey a k' k (by simpa using ha') ha)
    · rw [Function.update_of_ne hs]

/-- **A new entry.** -/
theorem find_put (hkey : ∀ a k k', is k a → is k' a → k = k') (ha : is k a) (k' : κ) :
    (t.put slot k a).find slot is k' = if k' = k then some a else t.find slot is k' := by
  unfold find put
  by_cases hk : k' = k
  · subst hk
    rw [if_pos rfl, Function.update_self, List.find?_cons, ha]
  · rw [if_neg hk]
    by_cases hs : slot k' = slot k
    · rw [hs, Function.update_self, List.find?_cons_of_neg fun ha' => hk (hkey a k' k ha' ha)]
    · rw [Function.update_of_ne hs]

omit [DecidableEq κ] in
theorem find_mapAll (hf : ∀ a k, is k (f a) = is k a) (k : κ) :
    (t.mapAll f).find slot is k = (t.find slot is k).map f := by
  rw [find, mapAll, List.find?_map]
  exact congrArg (fun p => ((t (slot k)).find? p).map f) (funext fun a => hf a k)

end Buckets

end Shish
