import Mathlib.Data.List.Nodup
import Mathlib.Data.List.Perm.Subperm
import Mathlib.Logic.Function.Basic

/-!
# Lib/Linked — linked lists in a heap

A heap gives each node a value and a link; a node that was released, or never allocated, has
nothing.  `Chain h p ns` says that the links from `p` on pass through the nodes `ns` and end.  What
list code does to such a chain is stated once here: it is walked (`Chain.find`), a node is put in
front of it (`Chain.push`), taken out of it (`Chain.unlink`) or released (`Chain.release`), and an
array of nodes is linked into a chain again (`relink_chain`).  A walk that meets a released node, or
does not end, is `none`.
-/

namespace Shish

variable {α : Type*}

structure Cell (α : Type*) where
  val : α
  next : Option ℕ

abbrev Heap (α : Type*) := ℕ → Option (Cell α)

namespace Heap

/-- The value of a node. -/
def val (h : Heap α) (n : ℕ) : Option α := (h n).map Cell.val

def setNext (h : Heap α) (n : ℕ) (p : Option ℕ) : Heap α :=
  Function.update h n ((h n).map fun c => { c with next := p })

def setVal (h : Heap α) (n : ℕ) (v : α) : Heap α :=
  Function.update h n ((h n).map fun c => { c with val := v })

def release (h : Heap α) (n : ℕ) : Heap α := Function.update h n none

/-- The first node from `p` on whose value passes the test, and the one in front of it. -/
def find (q : α → Bool) (h : Heap α) : ℕ → Option ℕ → Option ℕ → Option (Option (Option ℕ × ℕ))
  | _, _, none => some none
  | 0, _, some _ => none
  | k + 1, prev, some n =>
      match h n with
      | none => none
      | some c => if q c.val then some (some (prev, n)) else find q h k (some n) c.next

/-- The nodes from `p` on. -/
def nodes (h : Heap α) : ℕ → Option ℕ → Option (List ℕ)
  | _, none => some []
  | 0, some _ => none
  | k + 1, some n => (h n).bind fun c => (nodes h k c.next).map (n :: ·)

/-- Every node from `p` on is released, after its link was read. -/
def releaseAll : Heap α → ℕ → Option ℕ → Option (Heap α)
  | h, _, none => some h
  | _, 0, some _ => none
  | h, k + 1, some n => (h n).bind fun c => releaseAll (h.release n) k c.next

/-- The nodes are linked in the order they stand in; `none` when one was released. -/
def relink : Heap α → List ℕ → Option (Heap α)
  | h, [] => some h
  | h, n :: ns => if (h n).isNone then none else relink (h.setNext n ns.head?) ns

/-- **The links from `p` on pass through `ns`.** -/
def Chain (h : Heap α) : Option ℕ → List ℕ → Prop
  | p, [] => p = none
  | p, n :: ns => p = some n ∧ ∃ c, h n = some c ∧ Chain h c.next ns

variable {h h' : Heap α} {p nx : Option ℕ} {ns a b b' : List ℕ} {n m k : ℕ}

@[simp] theorem setNext_self (h : Heap α) (n : ℕ) (p : Option ℕ) :
    h.setNext n p n = (h n).map fun c => { c with next := p } := Function.update_self ..

theorem setNext_of_ne (hne : m ≠ n) (p : Option ℕ) : h.setNext n p m = h m :=
  Function.update_of_ne hne ..

@[simp] theorem val_setNext (h : Heap α) (n : ℕ) (p : Option ℕ) : (h.setNext n p).val = h.val := by
  funext m
  by_cases hm : m = n
  · subst hm
    simp only [val, setNext_self, Option.map_map]
    rfl
  · simp only [val, setNext_of_ne hm]

theorem isSome_setNext (h : Heap α) (n : ℕ) (p : Option ℕ) (m : ℕ) :
    (h.setNext n p m).isSome = (h m).isSome := by
  by_cases hm : m = n
  · subst hm
    rw [setNext_self, Option.isSome_map]
  · rw [setNext_of_ne hm]

@[simp] theorem release_self (h : Heap α) (n : ℕ) : h.release n n = none := Function.update_self ..

theorem release_of_ne (hne : m ≠ n) : h.release n m = h m := Function.update_of_ne hne ..

theorem val_congr (heq : h' n = h n) : h'.val n = h.val n := congrArg (Option.map Cell.val) heq

namespace Chain

theorem live (hc : Chain h p ns) : ∀ n ∈ ns, (h n).isSome := by
  induction ns generalizing p with
  | nil => exact nofun
  | cons n ns ih =>
    obtain ⟨-, c, hn, hc⟩ := hc
    exact List.forall_mem_cons.2 ⟨by rw [hn]; rfl, ih hc⟩

/-- A chain without repetitions has no more nodes than there are numbers for. -/
theorem length_le (hc : Chain h p ns) (hnd : ns.Nodup) (hlt : ∀ n, (h n).isSome → n < k) :
    ns.length ≤ k := by
  have hsub : ns ⊆ List.range k := fun n hn => List.mem_range.2 (hlt n (hc.live n hn))
  have hle := (hnd.subperm hsub).length_le
  rwa [List.length_range] at hle

theorem unique : ∀ {ns ms : List ℕ} {p : Option ℕ}, Chain h p ns → Chain h p ms → ns = ms
  | [], [], _, _, _ => rfl
  | [], _ :: _, _, h₁, h₂ => absurd (h₁.symm.trans h₂.1) (by simp)
  | _ :: _, [], _, h₁, h₂ => absurd (h₂.symm.trans h₁.1) (by simp)
  | n :: ns, m :: ms, _, ⟨h₁, c, hn, hc⟩, ⟨h₂, d, hm, hd⟩ => by
      obtain rfl := Option.some.inj (h₁.symm.trans h₂)
      obtain rfl := Option.some.inj (hn.symm.trans hm)
      rw [unique hc hd]

/-- **A chain stays** when its nodes do. -/
theorem frame (hc : Chain h p ns) (heq : ∀ n ∈ ns, h' n = h n) : Chain h' p ns := by
  induction ns generalizing p with
  | nil => exact hc
  | cons n ns ih =>
    obtain ⟨hp, c, hn, hc⟩ := hc
    rw [List.forall_mem_cons] at heq
    exact ⟨hp, c, heq.1.trans hn, ih hc heq.2⟩

theorem release (hc : Chain h p ns) (hn : n ∉ ns) : Chain (h.release n) p ns :=
  hc.frame fun _ hm => release_of_ne (ne_of_mem_of_not_mem hm hn)

theorem setNext_of_notMem (hc : Chain h p ns) (hn : n ∉ ns) : Chain (h.setNext n nx) p ns :=
  hc.frame fun _ hm => setNext_of_ne (ne_of_mem_of_not_mem hm hn) nx

/-- A chain does not depend on values. -/
theorem setVal {v : α} (hc : Chain h p ns) : Chain (h.setVal n v) p ns := by
  induction ns generalizing p with
  | nil => exact hc
  | cons m ns ih =>
    obtain ⟨hp, c, hm, hc⟩ := hc
    by_cases hmn : m = n
    · subst hmn
      exact ⟨hp, { c with val := v }, by simp [Heap.setVal, hm], ih hc⟩
    · exact ⟨hp, c, by rw [Heap.setVal, Function.update_of_ne hmn, hm], ih hc⟩

/-- A node in front. -/
theorem push {c : Cell α} (hc : Chain h p ns) (hn : n ∉ ns) (hp : c.next = p) :
    Chain (Function.update h n (some c)) (some n) (n :: ns) := by
  refine ⟨rfl, c, Function.update_self .., hp ▸ hc.frame fun m hm => ?_⟩
  exact Function.update_of_ne (ne_of_mem_of_not_mem hm hn) ..

/-- What stands behind a part of a chain. -/
theorem behind (hc : Chain h p (a ++ b)) : ∃ p', Chain h p' b := by
  induction a generalizing p with
  | nil => exact ⟨p, hc⟩
  | cons n a ih =>
    obtain ⟨-, c, -, hc⟩ := hc
    exact ih hc

/-- **A link is turned** to another chain. -/
theorem setNext (hc : Chain h p (a ++ m :: b')) (hb : Chain h nx b) (ha : m ∉ a) (hm : m ∉ b) :
    Chain (h.setNext m nx) p (a ++ m :: b) := by
  induction a generalizing p with
  | nil =>
    obtain ⟨hp, c, hmc, -⟩ := hc
    exact ⟨hp, { c with next := nx }, by rw [setNext_self, hmc]; rfl, hb.setNext_of_notMem hm⟩
  | cons n a ih =>
    obtain ⟨hp, c, hn, hc⟩ := hc
    rw [List.mem_cons, not_or] at ha
    exact ⟨hp, c, by rw [setNext_of_ne (Ne.symm ha.1), hn], ih hc ha.2⟩

theorem nodes_eq (hc : Chain h p ns) (hk : ns.length ≤ k) : h.nodes k p = some ns := by
  induction ns generalizing p k with
  | nil =>
    obtain rfl := hc
    cases k <;> rfl
  | cons n ns ih =>
    obtain ⟨rfl, c, hn, hc⟩ := hc
    obtain ⟨k, rfl⟩ := Nat.exists_eq_add_of_lt (Nat.lt_of_lt_of_le (Nat.succ_pos ns.length) hk)
    rw [Nat.zero_add, nodes, hn, Option.bind_some, ih hc (by simpa using hk)]
    rfl

/-- **A walk finds the first node that passes**, or none passes. -/
theorem find {q : α → Bool} (hc : Chain h p ns) (hk : ns.length ≤ k) (prev : Option ℕ) :
    (Heap.find q h k prev p = some none ∧ ∀ n ∈ ns, ∀ x, h.val n = some x → q x = false) ∨
      ∃ a n b x, ns = a ++ n :: b ∧ h.val n = some x ∧ q x ∧
        Heap.find q h k prev p = some (some (a.getLast?.or prev, n)) ∧
        ∀ m ∈ a, ∀ x, h.val m = some x → q x = false := by
  induction ns generalizing p k prev with
  | nil =>
    obtain rfl := hc
    exact .inl ⟨by cases k <;> rfl, nofun⟩
  | cons n ns ih =>
    obtain ⟨rfl, c, hn, hc⟩ := hc
    have hval : h.val n = some c.val := by rw [val, hn]; rfl
    obtain ⟨k, rfl⟩ := Nat.exists_eq_add_of_lt (Nat.lt_of_lt_of_le (Nat.succ_pos ns.length) hk)
    rw [Nat.zero_add] at hk ⊢
    simp only [Heap.find, hn]
    cases hq : q c.val with
    | true => exact .inr ⟨[], n, ns, c.val, rfl, hval, hq, by simp, nofun⟩
    | false =>
      have hfirst : ∀ x, h.val n = some x → q x = false := fun x hx => by
        obtain rfl := Option.some.inj (hval.symm.trans hx)
        exact hq
      rcases ih hc (by simpa using hk) (some n) with ⟨hf, hall⟩ | ⟨a, m, b, x, rfl, hm, hx, hf, hall⟩
      · exact .inl ⟨by simpa using hf, List.forall_mem_cons.2 ⟨hfirst, hall⟩⟩
      · refine .inr ⟨n :: a, m, b, x, rfl, hm, hx, ?_, List.forall_mem_cons.2 ⟨hfirst, hall⟩⟩
        rw [if_neg Bool.false_ne_true, hf]
        cases a with
        | nil => rfl
        | cons m' a => simp [List.getLast?_cons]

theorem releaseAll (hc : Chain h p ns) (hnd : ns.Nodup) (hk : ns.length ≤ k) :
    ∃ h', h.releaseAll k p = some h' ∧ (∀ n ∈ ns, h' n = none) ∧ ∀ n ∉ ns, h' n = h n := by
  induction ns generalizing h p k with
  | nil =>
    obtain rfl := hc
    exact ⟨h, by cases k <;> rfl, nofun, fun _ _ => rfl⟩
  | cons n ns ih =>
    obtain ⟨rfl, c, hn, hc⟩ := hc
    obtain ⟨hnns, hnd⟩ := List.nodup_cons.1 hnd
    obtain ⟨k, rfl⟩ := Nat.exists_eq_add_of_lt (Nat.lt_of_lt_of_le (Nat.succ_pos ns.length) hk)
    obtain ⟨h', hr, hgone, hrest⟩ := ih (hc.release hnns) hnd (k := k) (by simpa using hk)
    rw [Nat.zero_add]
    refine ⟨h', by rw [Heap.releaseAll, hn]; exact hr, ?_, fun m hm => ?_⟩
    · exact List.forall_mem_cons.2 ⟨(hrest n hnns).trans (release_self h n), hgone⟩
    · rw [List.mem_cons, not_or] at hm
      exact (hrest m hm.2).trans (release_of_ne hm.1)

end Chain

/-- **Nodes are linked into a chain again**, and keep their values. -/
theorem relink_chain (hnd : ns.Nodup) (hlive : ∀ n ∈ ns, (h n).isSome) :
    ∃ h', h.relink ns = some h' ∧ Chain h' ns.head? ns ∧ h'.val = h.val ∧ ∀ n ∉ ns, h' n = h n := by
  induction ns generalizing h with
  | nil => exact ⟨h, rfl, rfl, rfl, fun _ _ => rfl⟩
  | cons n ns ih =>
    obtain ⟨hnns, hnd⟩ := List.nodup_cons.1 hnd
    rw [List.forall_mem_cons] at hlive
    have hlive' : ∀ m ∈ ns, (h.setNext n ns.head? m).isSome := fun m hm => by
      rw [isSome_setNext]
      exact hlive.2 m hm
    obtain ⟨h', hr, hc, hval, hrest⟩ := ih hnd hlive'
    obtain ⟨c, hn⟩ := Option.isSome_iff_exists.1 hlive.1
    refine ⟨h', ?_, ⟨rfl, { c with next := ns.head? }, ?_, hc⟩, by rw [hval, val_setNext], ?_⟩
    · rw [relink, hn]
      exact hr
    · rw [hrest n hnns, setNext_self, hn]
      rfl
    · intro m hm
      rw [List.mem_cons, not_or] at hm
      rw [hrest m hm.2, setNext_of_ne hm.1]

/-- A node is taken out: the link that led to it leads past it. -/
def unlink (h : Heap α) (head prev nx : Option ℕ) : Heap α × Option ℕ :=
  match prev with
  | none => (h, nx)
  | some m => (h.setNext m nx, head)

/-- **A node is taken out of a chain**, and keeps its cell. -/
theorem unlink_chain (hc : Chain h p (a ++ n :: b)) (hnd : (a ++ n :: b).Nodup) {c : Cell α}
    (hn : h n = some c) :
    let r := h.unlink p a.getLast? c.next
    Chain r.1 r.2 (a ++ b) ∧ r.1.val = h.val ∧ r.1 n = some c ∧
      (∀ m, (r.1 m).isSome = (h m).isSome) ∧ ∀ m ∉ a, r.1 m = h m := by
  rcases List.eq_nil_or_concat' a with rfl | ⟨a, m, rfl⟩
  · obtain ⟨-, d, hd, hc⟩ := hc
    obtain rfl := Option.some.inj (hn.symm.trans hd)
    exact ⟨hc, rfl, hn, fun _ => rfl, fun _ _ => rfl⟩
  · have happ : a ++ [m] ++ n :: b = a ++ m :: (n :: b) := by simp
    rw [happ] at hc hnd
    have hb : Chain h c.next b := by
      obtain ⟨p', hp'⟩ := hc.behind
      obtain ⟨-, d, -, -, e, he, hb⟩ := hp'
      obtain rfl := Option.some.inj (hn.symm.trans he)
      exact hb
    obtain ⟨-, hnd', hdis⟩ := List.nodup_append.1 hnd
    obtain ⟨hm, -⟩ := List.nodup_cons.1 hnd'
    rw [List.mem_cons, not_or] at hm
    have hma : m ∉ a := fun hma => hdis m hma m (List.mem_cons_self ..) rfl
    simp only [List.getLast?_concat, unlink, List.append_assoc, List.singleton_append]
    refine ⟨hc.setNext hb hma hm.2, val_setNext .., ?_, isSome_setNext h m c.next, fun k hk => ?_⟩
    · rw [setNext_of_ne (Ne.symm hm.1), hn]
    · rw [List.mem_append, List.mem_singleton, not_or] at hk
      exact setNext_of_ne hk.2 _

/-! ## Lists with their values -/

/-- **The list from `p` on**: its nodes, each once, with their values. -/
structure Lists (h : Heap α) (p : Option ℕ) (l : List (ℕ × α)) : Prop where
  chain : h.Chain p (l.map Prod.fst)
  vals : ∀ x ∈ l, h.val x.1 = some x.2
  nodup : (l.map Prod.fst).Nodup

theorem isSome_of_val (heq : h'.val n = h.val n) : (h' n).isSome = (h n).isSome := by
  have := congrArg Option.isSome heq
  rwa [val, val, Option.isSome_map, Option.isSome_map] at this

/-- The values from `p` on. -/
def values (h : Heap α) (k : ℕ) (p : Option ℕ) : Option (List α) :=
  (h.nodes k p).bind fun ns => (ns.map h.val).mapM id

namespace Lists

variable {l l₁ l₂ : List (ℕ × α)} {x : ℕ × α} {v : α}

theorem length_le (hl : h.Lists p l) (hlt : ∀ n, (h n).isSome → n < k) : l.length ≤ k := by
  have := hl.chain.length_le hl.nodup hlt
  rwa [List.length_map] at this

theorem values_eq (hl : h.Lists p l) (hk : l.length ≤ k) : h.values k p = some (l.map Prod.snd) := by
  have hmap : (l.map Prod.fst).map h.val = (l.map Prod.snd).map some := by
    rw [List.map_map, List.map_map]
    exact List.map_congr_left hl.vals
  rw [values, hl.chain.nodes_eq (by simpa using hk), Option.bind_some, hmap]
  induction l.map Prod.snd with
  | nil => rfl
  | cons v l ih => simp [ih]

theorem frame (hl : h.Lists p l) (heq : ∀ x ∈ l, h' x.1 = h x.1) : h'.Lists p l where
  chain := hl.chain.frame fun n hn => by
    obtain ⟨x, hx, rfl⟩ := List.mem_map.1 hn
    exact heq x hx
  vals x hx := (val_congr (heq x hx)).trans (hl.vals x hx)
  nodup := hl.nodup

theorem release (hl : h.Lists p l) (hn : n ∉ l.map Prod.fst) : (h.release n).Lists p l :=
  hl.frame fun x hx => release_of_ne fun heq => hn (heq ▸ List.mem_map_of_mem hx)

theorem push (hl : h.Lists p l) (hn : n ∉ l.map Prod.fst) (v : α) :
    Lists (Function.update h n (some ⟨v, p⟩)) (some n) ((n, v) :: l) where
  chain := hl.chain.push hn rfl
  vals := by
    refine List.forall_mem_cons.2 ⟨by simp [val], fun x hx => ?_⟩
    have hne : x.1 ≠ n := fun heq => hn (heq ▸ List.mem_map_of_mem hx)
    exact (val_congr (Function.update_of_ne hne ..)).trans (hl.vals x hx)
  nodup := List.nodup_cons.2 ⟨hn, hl.nodup⟩

/-- **A walk finds the first value that passes**, or none passes. -/
theorem find {q : α → Bool} (hl : h.Lists p l) (hk : l.length ≤ k) :
    (Heap.find q h k none p = some none ∧ ∀ x ∈ l, q x.2 = false) ∨
      ∃ a x b, l = a ++ x :: b ∧ q x.2 ∧
        Heap.find q h k none p = some (some ((a.map Prod.fst).getLast?, x.1)) := by
  rcases hl.chain.find (q := q) (by simpa using hk) none with
    ⟨hf, hall⟩ | ⟨a, n, b, v, heq, hv, hq, hf, -⟩
  · exact .inl ⟨hf, fun x hx => hall x.1 (List.mem_map_of_mem hx) x.2 (hl.vals x hx)⟩
  · right
    obtain ⟨a, b', rfl, rfl, hb⟩ := List.map_eq_append_iff.1 heq
    obtain ⟨x, b, rfl, rfl, -⟩ := List.map_eq_cons_iff.1 hb
    obtain rfl := Option.some.inj (hv.symm.trans (hl.vals x (by simp)))
    exact ⟨a, x, b, rfl, hq, by rw [hf, Option.or_none]⟩

/-- The same as a search in the list. -/
theorem find_eq {q : α → Bool} (hl : h.Lists p l) (hk : l.length ≤ k) :
    (Heap.find q h k none p).map (Option.map Prod.snd) =
      some ((l.find? fun x => q x.2).map Prod.fst) := by
  rcases hl.chain.find (q := q) (by simpa using hk) none with
    ⟨hf, hall⟩ | ⟨a, n, b, v, heq, hv, hq, hf, hfirst⟩
  · have hnone : l.find? (fun x => q x.2) = none := List.find?_eq_none.2 fun x hx => by
      rw [hall x.1 (List.mem_map_of_mem hx) x.2 (hl.vals x hx)]
      exact Bool.false_ne_true
    rw [hf, hnone]
    rfl
  · obtain ⟨a, b', rfl, rfl, hb⟩ := List.map_eq_append_iff.1 heq
    obtain ⟨x, b, rfl, rfl, -⟩ := List.map_eq_cons_iff.1 hb
    obtain rfl := Option.some.inj (hv.symm.trans (hl.vals x (by simp)))
    have hsome : (a ++ x :: b).find? (fun x => q x.2) = some x :=
      List.find?_eq_some_iff_append.2 ⟨hq, a, b, rfl, fun y hy => by
        rw [hfirst y.1 (List.mem_map_of_mem hy) y.2 (hl.vals y (by simp [hy]))]
        rfl⟩
    rw [hf, hsome]
    rfl

/-- **The node found is taken out.** -/
theorem unlink (hl : h.Lists p (l₁ ++ x :: l₂)) :
    let r := h.unlink p (l₁.map Prod.fst).getLast? ((h x.1).bind Cell.next)
    r.1.Lists r.2 (l₁ ++ l₂) ∧ r.1.val = h.val := by
  obtain ⟨c, hc, -⟩ := Option.map_eq_some_iff.1 (hl.vals x (by simp))
  have hmap : (l₁ ++ x :: l₂).map Prod.fst = l₁.map Prod.fst ++ x.1 :: l₂.map Prod.fst := by simp
  have hnext : (h x.1).bind Cell.next = c.next := by rw [hc]; rfl
  obtain ⟨hchain, hval, -⟩ := unlink_chain (hmap ▸ hl.chain) (hmap ▸ hl.nodup) hc
  have hsub : (l₁ ++ l₂).Sublist (l₁ ++ x :: l₂) :=
    (List.Sublist.refl l₁).append (List.sublist_cons_self x l₂)
  rw [hnext]
  refine ⟨⟨?_, fun y hy => ?_, hl.nodup.sublist (hsub.map Prod.fst)⟩, hval⟩
  · rw [List.map_append]
    exact hchain
  · rw [hval]
    exact hl.vals y (hsub.subset hy)

/-- A value changes in its place. -/
theorem setVal (hl : h.Lists p (l₁ ++ x :: l₂)) (v : α) :
    (h.setVal x.1 v).Lists p (l₁ ++ (x.1, v) :: l₂) := by
  have hmap : (l₁ ++ (x.1, v) :: l₂).map Prod.fst = (l₁ ++ x :: l₂).map Prod.fst := by simp
  have hother : ∀ y ∈ l₁ ++ l₂, y.1 ≠ x.1 := fun y hy => by
    have hnd := hl.nodup
    rw [List.map_append, List.map_cons, List.nodup_middle, List.nodup_cons, ← List.map_append] at hnd
    exact fun heq => hnd.1 (heq ▸ List.mem_map_of_mem hy)
  refine ⟨hmap ▸ hl.chain.setVal, fun y hy => ?_, hmap ▸ hl.nodup⟩
  rw [List.mem_append, List.mem_cons] at hy
  have hside : y ∈ l₁ ++ l₂ → (h.setVal x.1 v).val y.1 = some y.2 := fun hy => by
    refine (val_congr (Function.update_of_ne (hother y hy) ..)).trans (hl.vals y ?_)
    rcases List.mem_append.1 hy with hy | hy <;> simp [hy]
  rcases hy with hy | rfl | hy
  · exact hside (List.mem_append_left _ hy)
  · obtain ⟨c, hc, -⟩ := Option.map_eq_some_iff.1 (hl.vals x (by simp))
    simp [val, Heap.setVal, hc]
  · exact hside (List.mem_append_right _ hy)

end Lists

/-! ## Slots

A slot is a place that holds a link: `none` is the head of the list and `some m` the link of `m`. -/

/-- What a slot leads to. -/
def deref (h : Heap α) (head : Option ℕ) : Option ℕ → Option ℕ
  | none => head
  | some m => (h m).bind Cell.next

/-- A node in front of what the slot leads to. -/
def insertAt (h : Heap α) (head slot : Option ℕ) (n : ℕ) (v : α) : Heap α × Option ℕ :=
  unlink (Function.update h n (some ⟨v, h.deref head slot⟩)) head slot (some n)

/-- The slot that leads to `job`, on the way from `slot`. -/
def findNode (h : Heap α) (m : ℕ) : ℕ → Option ℕ → Option ℕ → Option (Option (Option ℕ))
  | _, _, none => some none
  | 0, _, some _ => none
  | k + 1, slot, some n =>
      if n = m then some (some slot) else (h n).bind fun c => findNode h m k (some n) c.next

/-- The slot that leads to the last node. -/
def lastSlot (h : Heap α) : ℕ → Option ℕ → Option ℕ → Option (Option (Option ℕ))
  | _, _, none => some none
  | 0, _, some _ => none
  | k + 1, slot, some n =>
      (h n).bind fun c => if c.next.isNone then some (some slot) else lastSlot h k (some n) c.next

theorem Chain.head?_eq (hc : Chain h p ns) : p = ns.head? := by
  cases ns with
  | nil => exact hc
  | cons n ns => exact hc.1

theorem Chain.findNode_eq (hc : Chain h p (a ++ m :: b)) (hm : m ∉ a) (hk : a.length < k)
    (slot : Option ℕ) : h.findNode m k slot p = some (some (a.getLast?.or slot)) := by
  induction a generalizing p k slot with
  | nil =>
    obtain ⟨rfl, -⟩ := hc
    obtain ⟨k, rfl⟩ := Nat.exists_eq_add_of_lt hk
    simp [findNode]
  | cons n a ih =>
    obtain ⟨rfl, c, hn, hc⟩ := hc
    rw [List.mem_cons, not_or] at hm
    obtain ⟨k, rfl⟩ := Nat.exists_eq_add_of_lt (Nat.lt_of_le_of_lt (Nat.zero_le _) hk)
    rw [Nat.zero_add] at hk ⊢
    rw [findNode, if_neg (Ne.symm hm.1), hn, Option.bind_some, ih hc hm.2 (by simpa using hk)]
    cases a <;> simp [List.getLast?_cons]

theorem Chain.findNode_none (hc : Chain h p ns) (hm : m ∉ ns) (hk : ns.length ≤ k)
    (slot : Option ℕ) : h.findNode m k slot p = some none := by
  induction ns generalizing p k slot with
  | nil =>
    obtain rfl := hc
    cases k <;> rfl
  | cons n ns ih =>
    obtain ⟨rfl, c, hn, hc⟩ := hc
    rw [List.mem_cons, not_or] at hm
    obtain ⟨k, rfl⟩ := Nat.exists_eq_add_of_lt (Nat.lt_of_lt_of_le (Nat.succ_pos ns.length) hk)
    rw [Nat.zero_add, findNode, if_neg (Ne.symm hm.1), hn, Option.bind_some]
    exact ih hc hm.2 (by simpa using hk) _

theorem Chain.lastSlot_eq (hc : Chain h p (a ++ [m])) (hk : a.length < k) (slot : Option ℕ) :
    h.lastSlot k slot p = some (some (a.getLast?.or slot)) := by
  induction a generalizing p k slot with
  | nil =>
    obtain ⟨rfl, c, hm, hc⟩ := hc
    obtain ⟨k, rfl⟩ := Nat.exists_eq_add_of_lt hk
    have hnil : c.next = none := hc
    simp [lastSlot, hm, hnil]
  | cons n a ih =>
    obtain ⟨rfl, c, hn, hc⟩ := hc
    obtain ⟨k, rfl⟩ := Nat.exists_eq_add_of_lt (Nat.lt_of_le_of_lt (Nat.zero_le _) hk)
    rw [Nat.zero_add] at hk ⊢
    have hsome : c.next.isNone = false := by
      rw [hc.head?_eq]
      cases a <;> rfl
    rw [lastSlot, hn, Option.bind_some, hsome, if_neg Bool.false_ne_true,
      ih hc (by simpa using hk)]
    cases a <;> simp [List.getLast?_cons]

namespace Lists

variable {l l₁ l₂ : List (ℕ × α)} {x : ℕ × α} {v : α}

/-- **The slot behind a part of the list** leads to the rest. -/
theorem deref_eq (hl : h.Lists p (l₁ ++ l₂)) :
    h.deref p (l₁.map Prod.fst).getLast? = (l₂.map Prod.fst).head? := by
  have hc := hl.chain
  rw [List.map_append] at hc
  rcases List.eq_nil_or_concat' (l₁.map Prod.fst) with hnil | ⟨a, m, heq⟩
  · rw [hnil] at hc ⊢
    exact hc.head?_eq
  · rw [heq] at hc ⊢
    rw [List.append_assoc] at hc
    obtain ⟨p', hp'⟩ := hc.behind
    obtain ⟨-, c, hm, hc⟩ := hp'
    rw [List.getLast?_concat, deref, hm]
    exact hc.head?_eq

/-- **A node is inserted** behind a part of the list. -/
theorem insertAt (hl : h.Lists p (l₁ ++ l₂)) (hn : n ∉ (l₁ ++ l₂).map Prod.fst) (v : α) :
    let r := h.insertAt p (l₁.map Prod.fst).getLast? n v
    r.1.Lists r.2 (l₁ ++ (n, v) :: l₂) ∧ ∀ m, m ≠ n → (r.1 m).isSome = (h m).isSome := by
  have hderef := hl.deref_eq
  set h' : Heap α := Function.update h n (some ⟨v, h.deref p (l₁.map Prod.fst).getLast?⟩) with hh'
  have hother : ∀ m, m ≠ n → h' m = h m := fun m hm => Function.update_of_ne hm ..
  have hself : h' n = some ⟨v, (l₂.map Prod.fst).head?⟩ := by
    rw [hh', Function.update_self, hderef]
  have hl' : h'.Lists p (l₁ ++ l₂) :=
    hl.frame fun x hx => hother x.1 fun heq => hn (heq ▸ List.mem_map_of_mem hx)
  have hc := hl'.chain
  rw [List.map_append] at hc hn
  rw [List.mem_append, not_or] at hn
  have hnd : (l₁.map Prod.fst ++ n :: l₂.map Prod.fst).Nodup := by
    have hnd := hl.nodup
    rw [List.map_append] at hnd
    rw [List.nodup_middle, List.nodup_cons, List.mem_append, not_or]
    exact ⟨hn, hnd⟩
  have htail : Chain h' (some n) (n :: l₂.map Prod.fst) := by
    obtain ⟨p', hp'⟩ := hc.behind
    exact ⟨rfl, _, hself, hp'.head?_eq ▸ hp'⟩
  have hmap : (l₁ ++ (n, v) :: l₂).map Prod.fst = l₁.map Prod.fst ++ n :: l₂.map Prod.fst := by simp
  have hvals : ∀ x ∈ l₁ ++ (n, v) :: l₂, h'.val x.1 = some x.2 := by
    intro x hx
    rw [List.mem_append, List.mem_cons] at hx
    rcases hx with hx | rfl | hx
    · exact hl'.vals x (List.mem_append_left _ hx)
    · exact congrArg (Option.map Cell.val) hself
    · exact hl'.vals x (List.mem_append_right _ hx)
  have hval : (h'.unlink p (l₁.map Prod.fst).getLast? (some n)).1.val = h'.val := by
    unfold Heap.unlink
    split
    · rfl
    · exact val_setNext ..
  refine ⟨⟨?_, fun x hx => ?_, hmap ▸ hnd⟩, fun m hm => ?_⟩
  · rw [hmap]
    rcases List.eq_nil_or_concat' (l₁.map Prod.fst) with hnil | ⟨a, m, heq⟩
    · rw [Heap.insertAt, ← hh', hnil]
      exact htail
    · rw [Heap.insertAt, ← hh', heq, List.getLast?_concat]
      rw [heq, List.append_assoc] at hc hnd
      obtain ⟨-, hnd₂, hdis⟩ := List.nodup_append.1 hnd
      rw [List.append_assoc]
      exact hc.setNext htail (fun ha => hdis m ha m (by simp) rfl) (List.nodup_cons.1 hnd₂).1
  · rw [Heap.insertAt, ← hh', hval]
    exact hvals x hx
  · have hsome : (h'.unlink p (l₁.map Prod.fst).getLast? (some n)).1.val m = h'.val m := by rw [hval]
    rw [Heap.insertAt, ← hh', isSome_of_val hsome, hother m hm]

theorem findNode_eq (hl : h.Lists p (l₁ ++ x :: l₂)) (hk : l₁.length < k) :
    h.findNode x.1 k none p = some (some (l₁.map Prod.fst).getLast?) := by
  have hc := hl.chain
  have hnd := hl.nodup
  rw [List.map_append, List.map_cons] at hc hnd
  have hx : x.1 ∉ l₁.map Prod.fst := fun hx =>
    (List.nodup_append.1 hnd).2.2 x.1 hx x.1 (List.mem_cons_self ..) rfl
  rw [hc.findNode_eq hx (by simpa using hk), Option.or_none]

theorem findNode_none (hl : h.Lists p l) (hm : m ∉ l.map Prod.fst) (hk : l.length ≤ k) :
    h.findNode m k none p = some none :=
  hl.chain.findNode_none hm (by simpa using hk) none

theorem lastSlot_eq (hl : h.Lists p (l ++ [x])) (hk : l.length < k) :
    h.lastSlot k none p = some (some (l.map Prod.fst).getLast?) := by
  have hc := hl.chain
  rw [List.map_append, List.map_singleton] at hc
  rw [hc.lastSlot_eq (by simpa using hk), Option.or_none]

end Lists

end Heap

end Shish
