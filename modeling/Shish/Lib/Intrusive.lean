import Mathlib.Data.List.Nodup
import Mathlib.Logic.Function.Basic

/-!
# Lib/Intrusive — lists whose nodes know the pointer that leads to them

A web is a family of singly linked lists whose heads have keys; every node also keeps a back
pointer: the slot, a head or the link of another node, that leads to it.  `Woven w L` says that the
list of each key `k` passes through the nodes `L k`, that every back pointer of theirs is right, and
that no node stands on two lists.  It is kept by an insertion that turns the back pointer of the
node behind (`Woven.insert`), by a bare `link` at the end of a list (`Woven.link_last`), and by
taking a node out (`Woven.unlink`).
-/

namespace Shish

/-- A place that holds a pointer to a node. -/
inductive Slot (κ : Type*) where
  | head (k : κ)
  | next (a : ℕ)
  deriving DecidableEq

/-- Lists by their heads, with the link and the back pointer of each node. -/
structure Web (κ : Type*) where
  head : κ → Option ℕ
  next : ℕ → Option ℕ
  back : ℕ → Slot κ

namespace Web

variable {κ : Type*}

/-! ## Operations -/

/-- What a slot leads to. -/
def deref (w : Web κ) : Slot κ → Option ℕ
  | .head k => w.head k
  | .next a => w.next a

/-- The back pointer of a node, if there is one, becomes `s`. -/
def setBack (w : Web κ) (p : Option ℕ) (s : Slot κ) : Web κ :=
  match p with
  | none => w
  | some a => { w with back := Function.update w.back a s }

section

variable [DecidableEq κ]

def store (w : Web κ) (s : Slot κ) (p : Option ℕ) : Web κ :=
  match s with
  | .head k => { w with head := Function.update w.head k p }
  | .next a => { w with next := Function.update w.next a p }

/-- A node is put between a slot and what it led to; the node behind is not told. -/
def link (w : Web κ) (s : Slot κ) (a : ℕ) : Web κ :=
  let w := { w with
    back := Function.update w.back a s
    next := Function.update w.next a (w.deref s) }
  w.store s (some a)

/-- The same, and the node behind is told. -/
def insert (w : Web κ) (s : Slot κ) (a : ℕ) : Web κ :=
  let w := w.link s a
  w.setBack (w.next a) (.next a)

/-- A node is taken out. -/
def unlink (w : Web κ) (a : ℕ) : Web κ :=
  let w := w.setBack (w.next a) (w.back a)
  w.store (w.back a) (w.next a)

end

/-! ## Threads -/

/-- The pointers from a slot on lead through the nodes `as`, and end. -/
def Path (w : Web κ) : Slot κ → List ℕ → Prop
  | s, [] => w.deref s = none
  | s, a :: as => w.deref s = some a ∧ Path w (.next a) as

/-- A path whose back pointers are right. -/
def Threads (w : Web κ) : Slot κ → List ℕ → Prop
  | s, [] => w.deref s = none
  | s, a :: as => w.deref s = some a ∧ w.back a = s ∧ Threads w (.next a) as

/-- The first nodes of a path with right back pointers. -/
def Seg (w : Web κ) : Slot κ → List ℕ → Prop
  | _, [] => True
  | s, a :: as => w.deref s = some a ∧ w.back a = s ∧ Seg w (.next a) as

/-- The slot behind the nodes. -/
def after : Slot κ → List ℕ → Slot κ
  | s, [] => s
  | _, a :: as => after (.next a) as

variable {w w' : Web κ} {s s' t : Slot κ} {l l₁ l₂ : List ℕ} {a b : ℕ} {k : κ} {p : Option ℕ}

@[simp] theorem deref_setBack : (w.setBack p s).deref t = w.deref t := by
  cases p <;> cases t <;> rfl

theorem back_setBack : (w.setBack p s).back b = if p = some b then s else w.back b := by
  cases p with
  | none => rfl
  | some a =>
    simp only [setBack, Option.some.injEq, Function.update_apply]
    exact if_congr eq_comm rfl rfl

section

variable [DecidableEq κ]

theorem deref_store : (w.store s p).deref t = if t = s then p else w.deref t := by
  cases s <;> cases t <;> simp [store, deref, Function.update_apply]

@[simp] theorem back_store : (w.store s p).back = w.back := by
  cases s <;> rfl

theorem deref_link : (w.link s a).deref t =
    if t = s then some a else if t = .next a then w.deref s else w.deref t := by
  rw [link, deref_store]
  cases t <;> simp [deref, Function.update_apply]

theorem back_link : (w.link s a).back b = if b = a then s else w.back b := by
  rw [link, back_store]
  exact Function.update_apply ..

theorem deref_insert : (w.insert s a).deref t =
    if t = s then some a else if t = .next a then w.deref s else w.deref t := by
  rw [insert, deref_setBack, deref_link]

theorem back_insert (hs : s ≠ .next a) : (w.insert s a).back b =
    if w.deref s = some b then .next a else if b = a then s else w.back b := by
  have hnext : (w.link s a).next a = w.deref s := by
    have := deref_link (w := w) (s := s) (t := .next a) (a := a)
    rwa [if_neg (Ne.symm hs), if_pos rfl] at this
  rw [insert, back_setBack, hnext, back_link]

theorem deref_unlink (ha : w.next a ≠ some a) : (w.unlink a).deref t =
    if t = w.back a then w.next a else w.deref t := by
  have hnext : (w.setBack (w.next a) (w.back a)).next a = w.next a :=
    deref_setBack (t := .next a)
  rw [unlink, deref_store, back_setBack, if_neg ha, hnext, deref_setBack]

theorem back_unlink : (w.unlink a).back b = if w.next a = some b then w.back a else w.back b := by
  rw [unlink, back_store, back_setBack]

end

theorem after_append : after s (l₁ ++ l₂) = after (after s l₁) l₂ := by
  induction l₁ generalizing s with
  | nil => rfl
  | cons a l₁ ih => exact ih

/-- The slot behind some nodes is the first one, or the link of one of them. -/
theorem after_cases : ∀ (s : Slot κ) (l : List ℕ), after s l = s ∨ ∃ a ∈ l, after s l = .next a
  | _, [] => .inl rfl
  | _, a :: l => by
      rcases after_cases (.next a) l with heq | ⟨b, hb, heq⟩
      · exact .inr ⟨a, List.mem_cons_self, heq⟩
      · exact .inr ⟨b, List.mem_cons_of_mem a hb, heq⟩

theorem mem_of_after (h : .next a = after (.head k) l) : a ∈ l := by
  rcases after_cases (.head k) l with heq | ⟨b, hb, heq⟩
  · exact nomatch h.trans heq
  · exact Slot.next.inj (h.trans heq) ▸ hb

theorem head_of_after {k' : κ} (h : .head k' = after (.head k) l) : k' = k := by
  rcases after_cases (.head k) l with heq | ⟨b, -, heq⟩
  · exact Slot.head.inj (h.trans heq)
  · exact nomatch h.trans heq

theorem threads_append : w.Threads s (l₁ ++ l₂) ↔ w.Seg s l₁ ∧ w.Threads (after s l₁) l₂ := by
  induction l₁ generalizing s with
  | nil => exact ⟨fun h => ⟨trivial, h⟩, And.right⟩
  | cons a l₁ ih =>
    refine ⟨fun ⟨hd, hb, ht⟩ => ?_, fun ⟨⟨hd, hb, hs⟩, ht⟩ => ⟨hd, hb, ih.2 ⟨hs, ht⟩⟩⟩
    obtain ⟨hs, ht⟩ := ih.1 ht
    exact ⟨⟨hd, hb, hs⟩, ht⟩

namespace Threads

theorem path (ht : w.Threads s l) : w.Path s l := by
  induction l generalizing s with
  | nil => exact ht
  | cons a l ih => exact ⟨ht.1, ih ht.2.2⟩

theorem deref_eq (ht : w.Threads s l) : w.deref s = l.head? := by
  cases l with
  | nil => exact ht
  | cons a l => exact ht.1

theorem deref_after (ht : w.Threads s l) : w.deref (after s l) = none := by
  induction l generalizing s with
  | nil => exact ht
  | cons a l ih => exact ih ht.2.2

/-- **The back pointer of a node leads to it.** -/
theorem deref_back (ht : w.Threads s l) (ha : a ∈ l) : w.deref (w.back a) = some a := by
  induction l generalizing s with
  | nil => exact absurd ha List.not_mem_nil
  | cons b l ih =>
    obtain ⟨hd, hb, ht⟩ := ht
    rcases List.mem_cons.1 ha with rfl | ha
    · rw [hb, hd]
    · exact ih ht ha

/-- **Another slot may lead to the nodes**: the first one is told, the others stay. -/
theorem moved (ht : w.Threads s l) (hd : w'.deref s' = w.deref s)
    (hnext : ∀ a ∈ l, w'.next a = w.next a) (hfirst : ∀ a ∈ l.head?, w'.back a = s')
    (hback : ∀ a ∈ l.tail, w'.back a = w.back a) : w'.Threads s' l := by
  induction l generalizing s s' with
  | nil => exact hd.trans ht
  | cons a l ih =>
    obtain ⟨hda, -, ht⟩ := ht
    rw [List.forall_mem_cons] at hnext
    refine ⟨hd.trans hda, hfirst a rfl, ih ht hnext.1 hnext.2 (fun b hb => ?_) fun b hb => ?_⟩
    · cases l with
      | nil => exact nomatch hb
      | cons c l =>
        obtain rfl := Option.some.inj hb
        rw [hback c List.mem_cons_self, ht.2.1]
    · exact hback b (List.mem_of_mem_tail hb)

theorem frame (ht : w.Threads s l) (hd : w'.deref s = w.deref s)
    (hnext : ∀ a ∈ l, w'.next a = w.next a) (hback : ∀ a ∈ l, w'.back a = w.back a) :
    w'.Threads s l := by
  refine ht.moved hd hnext (fun a ha => ?_) fun a ha => hback a (List.mem_of_mem_tail ha)
  cases l with
  | nil => exact nomatch ha
  | cons b l =>
    obtain rfl := Option.some.inj ha
    rw [hback b List.mem_cons_self, ht.2.1]

end Threads

/-- **A segment stays** when the pointers on it do; the slot behind it may change. -/
theorem Seg.frame (hs : w.Seg s l) (hnd : l.Nodup) (hne : ∀ a ∈ l, s ≠ .next a)
    (hd : after s l ≠ s → w'.deref s = w.deref s)
    (hnext : ∀ a ∈ l, after s l ≠ .next a → w'.next a = w.next a)
    (hback : ∀ a ∈ l, w'.back a = w.back a) : w'.Seg s l := by
  induction l generalizing s with
  | nil => trivial
  | cons a l ih =>
    obtain ⟨hda, hba, hs⟩ := hs
    obtain ⟨hal, hnd⟩ := List.nodup_cons.1 hnd
    rw [List.forall_mem_cons] at hback
    have hfirst : after (.next a) l ≠ s := by
      rcases after_cases (.next a) l with heq | ⟨b, hb, heq⟩
      · rw [heq]
        exact (hne a List.mem_cons_self).symm
      · rw [heq]
        exact (hne b (List.mem_cons_of_mem a hb)).symm
    refine ⟨(hd hfirst).trans hda, hback.1.trans hba, ih hs hnd (fun b hb heq => ?_) ?_ ?_ hback.2⟩
    · exact hal (Slot.next.inj heq ▸ hb)
    · exact hnext a List.mem_cons_self
    · exact fun b hb => hnext b (List.mem_cons_of_mem a hb)

/-! ## Woven lists -/

/-- **Each key's list passes through its nodes**, every back pointer is right, and no node stands on
two lists. -/
structure Woven (w : Web κ) (L : κ → List ℕ) : Prop where
  threads : ∀ k, w.Threads (.head k) (L k)
  nodup : ∀ k, (L k).Nodup
  apart : ∀ k k' a, a ∈ L k → a ∈ L k' → k = k'

namespace Woven

variable [DecidableEq κ] {L : κ → List ℕ}

omit [DecidableEq κ] in
theorem empty (w : Web κ) (hw : ∀ k, w.head k = none) : w.Woven fun _ => [] :=
  ⟨hw, fun _ => List.nodup_nil, fun _ _ _ ha => absurd ha List.not_mem_nil⟩

/-- Every node once, whichever list it is on. -/
theorem of_update (hw : w.Woven L) (hother : ∀ k', k' ≠ k → w'.Threads (.head k') (L k'))
    (hk : w'.Threads (.head k) l) (hnd : l.Nodup) (hl : ∀ k', k' ≠ k → ∀ a ∈ l, a ∉ L k') :
    w'.Woven (Function.update L k l) where
  threads k' := by
    by_cases h : k' = k
    · subst h
      rwa [Function.update_self]
    · rw [Function.update_of_ne h]
      exact hother k' h
  nodup k' := by
    by_cases h : k' = k
    · subst h
      rwa [Function.update_self]
    · rw [Function.update_of_ne h]
      exact hw.nodup k'
  apart k₁ k₂ a h₁ h₂ := by
    rw [Function.update_apply] at h₁ h₂
    split at h₁ <;> split at h₂
    · next hk₁ hk₂ => rw [hk₁, hk₂]
    · next hk₂ => exact absurd h₂ (hl k₂ hk₂ a h₁)
    · next hk₁ _ => exact absurd h₁ (hl k₁ hk₁ a h₂)
    · exact hw.apart k₁ k₂ a h₁ h₂

/-- **A node is put into a list**, and the node behind is told. -/
theorem insert (hw : w.Woven L) (hk : L k = l₁ ++ l₂) (ha : ∀ k', a ∉ L k') :
    (w.insert (after (.head k) l₁) a).Woven (Function.update L k (l₁ ++ a :: l₂)) := by
  have hak := ha k
  rw [hk, List.mem_append, not_or] at hak
  have hthreads := hw.threads k
  have hnd := hw.nodup k
  rw [hk] at hthreads hnd
  obtain ⟨hseg, hrest⟩ := threads_append.1 hthreads
  obtain ⟨hnd₁, -, hdis⟩ := List.nodup_append.1 hnd
  set s : Slot κ := after (.head k) l₁
  have hsa : s ≠ .next a := fun h => hak.1 (mem_of_after h.symm)
  have hderef : ∀ t, t ≠ s → t ≠ .next a → (w.insert s a).deref t = w.deref t := fun t ht hta => by
    rw [deref_insert, if_neg ht, if_neg hta]
  have hback : ∀ b, b ≠ a → b ∉ l₂ → (w.insert s a).back b = w.back b := fun b hba hb => by
    rw [back_insert hsa, if_neg, if_neg hba]
    rw [hrest.deref_eq]
    exact fun heq => hb (List.mem_of_mem_head? heq)
  refine hw.of_update (fun k' hk' => ?_) (threads_append.2 ⟨?_, ?_, ?_, ?_⟩) ?_ fun k' hk' b hb => ?_
  · -- another list has none of the nodes that are touched
    have hl : ∀ b ∈ L k', b ∉ L k := fun b hb hbk => hk' (hw.apart k' k b hb hbk)
    have hne : ∀ b ∈ L k', b ≠ a := fun b hb heq => ha k' (heq ▸ hb)
    refine (hw.threads k').frame (hderef _ (fun h => hk' (head_of_after h)) nofun)
      (fun b hb => ?_) fun b hb => ?_
    · refine hderef (.next b) (fun h => ?_) fun heq => hne b hb (Slot.next.inj heq)
      exact hl b hb (hk ▸ List.mem_append_left l₂ (mem_of_after h))
    · exact hback b (hne b hb) fun hb₂ => hl b hb (hk ▸ List.mem_append_right l₁ hb₂)
  · refine hseg.frame hnd₁ nofun (fun h => hderef _ (Ne.symm h) nofun) (fun b hb h => ?_) ?_
    · exact hderef (.next b) (Ne.symm h) fun heq => hak.1 (Slot.next.inj heq ▸ hb)
    · exact fun b hb => hback b (fun heq => hak.1 (heq ▸ hb)) fun hb₂ => hdis b hb b hb₂ rfl
  · rw [deref_insert, if_pos rfl]
  · rw [back_insert hsa, if_neg, if_pos rfl]
    rw [hrest.deref_eq]
    exact fun heq => hak.2 (List.mem_of_mem_head? heq)
  · refine hrest.moved ?_ (fun b hb => ?_) (fun b hb => ?_) fun b hb => ?_
    · rw [deref_insert, if_neg (Ne.symm hsa), if_pos rfl]
    · refine hderef (.next b) (fun h => ?_) fun heq => hak.2 (Slot.next.inj heq ▸ hb)
      exact hdis b (mem_of_after h) b hb rfl
    · rw [back_insert hsa, if_pos (hrest.deref_eq.trans hb)]
    · have hnd₂ := (List.nodup_append.1 hnd).2.1
      have hba : b ≠ a := fun heq => hak.2 (heq ▸ List.mem_of_mem_tail hb)
      rw [back_insert hsa, if_neg, if_neg hba]
      rw [hrest.deref_eq]
      intro heq
      cases l₂ with
      | nil => exact nomatch heq
      | cons c l₂ =>
        obtain rfl := Option.some.inj heq
        exact (List.nodup_cons.1 hnd₂).1 hb
  · rw [List.nodup_middle, List.nodup_cons, List.mem_append, not_or]
    exact ⟨hak, hnd⟩
  · rw [List.mem_append, List.mem_cons] at hb
    rcases hb with hb | rfl | hb
    · exact fun hb' => hk' (hw.apart k' k b hb' (hk ▸ List.mem_append_left l₂ hb))
    · exact ha k'
    · exact fun hb' => hk' (hw.apart k' k b hb' (hk ▸ List.mem_append_right l₁ hb))

/-- In front of a list. -/
theorem insert_head (hw : w.Woven L) (ha : ∀ k', a ∉ L k') :
    (w.insert (.head k) a).Woven (Function.update L k (a :: L k)) :=
  hw.insert (List.nil_append (L k)).symm ha

/-- **At the end of a list there is no node behind** that would have to be told. -/
theorem link_last (hw : w.Woven L) (ha : ∀ k', a ∉ L k') :
    (w.link (after (.head k) (L k)) a).Woven (Function.update L k (L k ++ [a])) := by
  have hins := hw.insert (List.append_nil (L k)).symm ha
  have hnext : (w.link (after (.head k) (L k)) a).next a = none := by
    have hsa : after (.head k) (L k) ≠ .next a := fun h => ha k (mem_of_after h.symm)
    have := deref_link (w := w) (s := after (.head k) (L k)) (t := .next a) (a := a)
    rw [if_neg (Ne.symm hsa), if_pos rfl, (hw.threads k).deref_after] at this
    exact this
  rwa [Web.insert, hnext] at hins

/-- **A node is taken out** of its list. -/
theorem unlink (hw : w.Woven L) (ha : a ∈ L k) :
    (w.unlink a).Woven fun k' => (L k').filter (· ≠ a) := by
  obtain ⟨l₁, l₂, hk⟩ := List.append_of_mem ha
  have hthreads := hw.threads k
  have hnd := hw.nodup k
  rw [hk] at hthreads hnd
  obtain ⟨hseg, -, hback, hrest⟩ := threads_append.1 hthreads
  obtain ⟨hnd₁, hnd₂, hdis⟩ := List.nodup_append.1 hnd
  obtain ⟨ha₂, hnd₂⟩ := List.nodup_cons.1 hnd₂
  have ha₁ : a ∉ l₁ := fun h => hdis a h a List.mem_cons_self rfl
  have hmem₁ : ∀ b ∈ l₁, b ∈ L k := fun b hb => hk ▸ List.mem_append_left _ hb
  have hmem₂ : ∀ b ∈ l₂, b ∈ L k := fun b hb =>
    hk ▸ List.mem_append_right _ (List.mem_cons_of_mem a hb)
  set s : Slot κ := after (.head k) l₁
  have hnext : w.next a = l₂.head? := hrest.deref_eq
  have hloop : w.next a ≠ some a := fun h => ha₂ (List.mem_of_mem_head? (hnext ▸ h))
  have hderef : ∀ t, t ≠ s → (w.unlink a).deref t = w.deref t := fun t ht => by
    rw [deref_unlink hloop, hback, if_neg ht]
  have hback' : ∀ b, b ∉ l₂ → (w.unlink a).back b = w.back b := fun b hb => by
    rw [back_unlink, hnext, if_neg fun h => hb (List.mem_of_mem_head? (Option.mem_def.2 h))]
  have hL : (fun k' => (L k').filter (· ≠ a)) = Function.update L k (l₁ ++ l₂) := by
    funext k'
    by_cases h : k' = k
    · subst h
      have h₁ : l₁.filter (· ≠ a) = l₁ :=
        List.filter_eq_self.2 fun b hb => decide_eq_true fun heq => ha₁ (heq ▸ hb)
      have h₂ : l₂.filter (· ≠ a) = l₂ :=
        List.filter_eq_self.2 fun b hb => decide_eq_true fun heq => ha₂ (heq ▸ hb)
      rw [Function.update_self, hk, List.filter_append, List.filter_cons_of_neg (by simp), h₁, h₂]
    · rw [Function.update_of_ne h]
      refine List.filter_eq_self.2 fun b hb => decide_eq_true fun heq => ?_
      exact h (hw.apart k' k a (heq ▸ hb) ha)
  rw [hL]
  refine hw.of_update (fun k' hk' => ?_) (threads_append.2 ⟨?_, ?_⟩) ?_ fun k' hk' b hb => ?_
  · have hl : ∀ b ∈ L k', b ∉ L k := fun b hb hbk => hk' (hw.apart k' k b hb hbk)
    refine (hw.threads k').frame (hderef _ fun h => hk' (head_of_after h)) (fun b hb => ?_)
      fun b hb => ?_
    · exact hderef (.next b) fun h => hl b hb (hmem₁ b (mem_of_after h))
    · exact hback' b fun hb₂ => hl b hb (hmem₂ b hb₂)
  · refine hseg.frame hnd₁ nofun (fun h => hderef _ (Ne.symm h)) (fun b hb h => ?_) fun b hb => ?_
    · exact hderef (.next b) (Ne.symm h)
    · exact hback' b fun hb₂ => hdis b hb b (List.mem_cons_of_mem a hb₂) rfl
  · refine hrest.moved ?_ (fun b hb => ?_) (fun b hb => ?_) fun b hb => ?_
    · rw [deref_unlink hloop, hback, if_pos rfl]
      rfl
    · exact hderef (.next b) fun h => hdis b (mem_of_after h) b (List.mem_cons_of_mem a hb) rfl
    · rw [back_unlink, hnext, if_pos (Option.mem_def.1 hb), hback]
    · rw [back_unlink, hnext, if_neg]
      intro heq
      cases l₂ with
      | nil => exact nomatch heq
      | cons c l₂ =>
        obtain rfl := Option.some.inj heq
        exact (List.nodup_cons.1 hnd₂).1 hb
  · exact hnd.sublist ((List.Sublist.refl l₁).append (List.sublist_cons_self a l₂))
  · intro hb'
    refine hk' (hw.apart k' k b hb' ?_)
    rcases List.mem_append.1 hb with hb | hb
    · exact hmem₁ b hb
    · exact hmem₂ b hb

end Woven

end Web

end Shish
