import Mathlib.Data.List.Basic

/-!
# Lib/Lockstep — two machines that take the same number of steps

A machine that goes by itself is a partial function `f : α → Option α`.  When every step of one is answered by a
step of another, and where one stops the other does, the two stay related however long they run (`times_rel`).
-/

namespace Shish

variable {α β : Type*}

/-- That many steps; `none` once there is none. -/
def times (f : α → Option α) : ℕ → α → Option α
  | 0, a => some a
  | n + 1, a => (f a).bind (times f n)

theorem rel_bind {γ δ : Type*} {R : α → β → Prop} {S : γ → δ → Prop} {f : α → Option γ} {g : β → Option δ}
    (hfg : ∀ a b, R a b → Option.Rel S (f a) (g b)) :
    ∀ {x : Option α} {y : Option β}, Option.Rel R x y → Option.Rel S (x.bind f) (y.bind g)
  | _, _, .some h => hfg _ _ h
  | _, _, .none => .none

theorem map_eq_of_rel {γ : Type*} {R : α → β → Prop} {u : α → γ} {v : β → γ} (huv : ∀ a b, R a b → u a = v b) :
    ∀ {x : Option α} {y : Option β}, Option.Rel R x y → x.map u = y.map v
  | _, _, .some h => congrArg some (huv _ _ h)
  | _, _, .none => rfl

/-- **What one step keeps, any number of steps keeps.** -/
theorem times_rel {f : α → Option α} {g : β → Option β} {R : α → β → Prop}
    (hstep : ∀ a b, R a b → Option.Rel R (f a) (g b)) :
    ∀ (n : ℕ) {a : α} {b : β}, R a b → Option.Rel R (times f n a) (times g n b)
  | 0, _, _, h => .some h
  | n + 1, a, b, h => rel_bind (fun _ _ h' => times_rel hstep n h') (hstep a b h)

end Shish
