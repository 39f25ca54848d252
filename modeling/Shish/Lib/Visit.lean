import Mathlib.Data.Finset.Card
import Mathlib.Data.List.Basic

/-!
# Lib/Visit — a depth-first visit that marks the nodes, and lists those it stops at

A visit to a node marks it and goes on to the nodes behind it, in order; one that is marked is left.
What is carried along may differ from one arrival to the next, but where a node leads does not, so
that the first arrival stands for all.  `visit_spec`: a visit returns, what it lists was arrived at,
and whatever it has marked is *finished* — the nodes behind it are marked, and it is listed if
visits stop there.
-/

namespace Shish

variable {M V β : Type*}

/-! ## Marks and visits -/

/-- Marks on nodes. -/
structure Marking (M V : Type*) where
  seen : M → V → Prop
  mark : M → V → M
  seen_mark : ∀ m v w, seen (mark m v) w ↔ w = v ∨ seen m w

/-- What an arrival at a node leads to: it is listed, or the visit goes on. -/
inductive Arrival (V β : Type*) where
  | listed
  | onward (l : List (V × β))

namespace Arrival

/-- Where the visit goes on. -/
def targets : Arrival V β → List (V × β)
  | listed => []
  | onward l => l

end Arrival

section Visit
variable (K : Marking M V) [∀ m v, Decidable (K.seen m v)] (arrive : V → β → Option (Arrival V β))
  (cap : ℕ)

/-- **A visit**, with room for `cap` nodes in the list.  `none` when the calls are too deep, the list
is full or an arrival is an error. -/
def visit : ℕ → V → β → M × List (V × β) → Option (M × List (V × β))
  | 0, _, _, _ => none
  | fuel + 1, v, b, s =>
    if K.seen s.1 v then some s
    else match arrive v b with
      | none => none
      | some .listed => if s.2.length < cap then some (K.mark s.1 v, s.2 ++ [(v, b)]) else none
      | some (.onward l) => l.foldlM (fun s p => visit fuel p.1 p.2 s) (K.mark s.1 v, s.2)

/-- Visits one after the other. -/
def visitAll (fuel : ℕ) (l : List (V × β)) (s : M × List (V × β)) : Option (M × List (V × β)) :=
  l.foldlM (fun s p => visit K arrive cap fuel p.1 p.2 s) s

end Visit

/-! ## What visits do -/

/-- The graph that is visited: from an arrival `P` allows, the nodes `E` leads to are arrived at,
as `P` allows, and at the nodes `L` the visit stops.  There are finitely many nodes. -/
structure Arrivals (arrive : V → β → Option (Arrival V β)) (U : Finset V) (P : V → β → Prop)
    (E : V → V → Prop) (L : V → Prop) : Prop where
  inside : ∀ {v b}, P v b → v ∈ U
  defined : ∀ {v b}, P v b → ∃ a, arrive v b = some a
  allowed : ∀ {v b a}, P v b → arrive v b = some a → ∀ p ∈ a.targets, P p.1 p.2
  leads : ∀ {v b a}, P v b → arrive v b = some a → ∀ w, E v w → ∃ c, (w, c) ∈ a.targets
  stops : ∀ {v b a}, P v b → arrive v b = some a → L v → a = .listed

section Spec
variable (K : Marking M V) (U : Finset V) (P : V → β → Prop) (E : V → V → Prop) (L : V → Prop)

/-- The list names every node once, and marked nodes only. -/
structure Tidy (s : M × List (V × β)) : Prop where
  once : (s.2.map Prod.fst).Nodup
  seen : ∀ p ∈ s.2, p.1 ∈ U ∧ K.seen s.1 p.1

/-- The visit of `v` is over. -/
structure Finished (s : M × List (V × β)) (v : V) : Prop where
  behind : ∀ w, E v w → K.seen s.1 w
  listed : L v → v ∈ s.2.map Prod.fst

/-- **What visits change**: nodes are marked, and each of them is finished; what is added to the list
has been arrived at, and stops there. -/
structure Grown (arrive : V → β → Option (Arrival V β)) (s s' : M × List (V × β)) : Prop where
  marks : ∃ vs : List V, s'.1 = vs.foldl K.mark s.1
  kept : ∀ p ∈ s.2, p ∈ s'.2
  fresh : ∀ p ∈ s'.2, p ∈ s.2 ∨ P p.1 p.2 ∧ arrive p.1 p.2 = some .listed
  done : ∀ v, K.seen s'.1 v → K.seen s.1 v ∨ Finished K E L s' v

end Spec

section Facts
variable {K : Marking M V} {U : Finset V} {P : V → β → Prop} {E : V → V → Prop} {L : V → Prop}
  {arrive : V → β → Option (Arrival V β)} {s s' s'' : M × List (V × β)}

theorem Marking.seen_foldl {m : M} {w : V} (h : K.seen m w) (vs : List V) :
    K.seen (vs.foldl K.mark m) w := by
  induction vs generalizing m with
  | nil => exact h
  | cons v vs ih => exact ih ((K.seen_mark m v w).mpr (.inr h))

namespace Grown

theorem seen (h : Grown K P E L arrive s s') {v : V} (hv : K.seen s.1 v) : K.seen s'.1 v := by
  obtain ⟨vs, hvs⟩ := h.marks
  rw [hvs]
  exact Marking.seen_foldl hv vs

theorem finished (h : Grown K P E L arrive s s') {v : V} (hv : Finished K E L s v) :
    Finished K E L s' v where
  behind w hw := h.seen (hv.behind w hw)
  listed hl := by
    obtain ⟨p, hp, rfl⟩ := List.mem_map.mp (hv.listed hl)
    exact List.mem_map.mpr ⟨p, h.kept p hp, rfl⟩

theorem refl : Grown K P E L arrive s s where
  marks := ⟨[], rfl⟩
  kept _ hp := hp
  fresh _ hp := .inl hp
  done _ hv := .inl hv

theorem trans (h : Grown K P E L arrive s s') (h' : Grown K P E L arrive s' s'') :
    Grown K P E L arrive s s'' where
  marks := by
    obtain ⟨vs, hvs⟩ := h.marks
    obtain ⟨ws, hws⟩ := h'.marks
    exact ⟨vs ++ ws, by rw [List.foldl_append, ← hvs, hws]⟩
  kept p hp := h'.kept p (h.kept p hp)
  fresh p hp := (h'.fresh p hp).elim (h.fresh p) .inr
  done v hv := by
    rcases h'.done v hv with h1 | h1
    · exact (h.done v h1).imp_right h'.finished
    · exact .inr h1

end Grown

/-- The list has room: it is at most as long as there are nodes. -/
theorem Tidy.length_le (h : Tidy K U s) : s.2.length ≤ U.card := by
  have hsub : s.2.map Prod.fst ⊆ U.toList := fun v hv => by
    obtain ⟨p, hp, rfl⟩ := List.mem_map.mp hv
    exact Finset.mem_toList.mpr (h.seen p hp).1
  simpa using (h.once.subperm hsub).length_le

theorem Tidy.length_lt (h : Tidy K U s) {v : V} (hv : v ∈ U) (hs : ¬K.seen s.1 v) :
    s.2.length < U.card := by
  have hnew : v ∉ s.2.map Prod.fst := fun hv => by
    obtain ⟨p, hp, rfl⟩ := List.mem_map.mp hv
    exact hs (h.seen p hp).2
  have hsub : v :: s.2.map Prod.fst ⊆ U.toList := by
    rintro w (_ | ⟨_, hw⟩)
    · exact Finset.mem_toList.mpr hv
    · obtain ⟨p, hp, rfl⟩ := List.mem_map.mp hw
      exact Finset.mem_toList.mpr (h.seen p hp).1
  simpa [Nat.succ_le_iff] using ((List.nodup_cons.mpr ⟨hnew, h.once⟩).subperm hsub).length_le

/-- Marking a node. -/
theorem Tidy.mark (h : Tidy K U s) (v : V) : Tidy K U (K.mark s.1 v, s.2) where
  once := h.once
  seen p hp := ⟨(h.seen p hp).1, (K.seen_mark _ _ _).mpr (.inr (h.seen p hp).2)⟩

/-- Listing a node that has just been marked. -/
theorem Tidy.push (h : Tidy K U s) {v : V} (hv : v ∈ U) (hs : ¬K.seen s.1 v) (b : β) :
    Tidy K U (K.mark s.1 v, s.2 ++ [(v, b)]) where
  once := by
    rw [List.map_append, List.map_singleton, List.nodup_append]
    refine ⟨h.once, List.nodup_singleton v, fun w hw u hu => ?_⟩
    obtain rfl := List.mem_singleton.mp hu
    rintro rfl
    obtain ⟨p, hp, rfl⟩ := List.mem_map.mp hw
    exact hs (h.seen p hp).2
  seen p hp := by
    rcases List.mem_append.mp hp with hp | hp
    · exact (h.mark v).seen p hp
    · obtain rfl := List.mem_singleton.mp hp
      exact ⟨hv, (K.seen_mark _ _ _).mpr (.inl rfl)⟩

variable (K U) in
/-- The nodes that are not marked. -/
def unseen (m : M) [∀ m v, Decidable (K.seen m v)] : Finset V := U.filter fun v => ¬K.seen m v

section Decidable
variable [∀ m v, Decidable (K.seen m v)]

theorem card_unseen_mark {m : M} {v : V} (hv : v ∈ U) (hs : ¬K.seen m v) :
    (unseen K U (K.mark m v)).card < (unseen K U m).card := by
  refine Finset.card_lt_card ⟨fun w hw => ?_, fun h => ?_⟩
  · obtain ⟨hw, hn⟩ := Finset.mem_filter.mp hw
    exact Finset.mem_filter.mpr ⟨hw, fun h => hn ((K.seen_mark _ _ _).mpr (.inr h))⟩
  · exact (Finset.mem_filter.mp (h (Finset.mem_filter.mpr ⟨hv, hs⟩))).2 ((K.seen_mark _ _ _).mpr (.inl rfl))

theorem Grown.card_unseen (h : Grown K P E L arrive s s') :
    (unseen K U s'.1).card ≤ (unseen K U s.1).card := by
  refine Finset.card_le_card fun w hw => ?_
  obtain ⟨hw, hn⟩ := Finset.mem_filter.mp hw
  exact Finset.mem_filter.mpr ⟨hw, fun hs => hn (h.seen hs)⟩

variable {cap : ℕ}

/-- **Visits one after the other**, given what one of them does. -/
theorem visitAll_of {fuel : ℕ}
    (hone : ∀ {v b} {s : M × List (V × β)}, P v b → Tidy K U s → (unseen K U s.1).card < fuel →
      ∃ s', visit K arrive cap fuel v b s = some s' ∧ Tidy K U s' ∧ Grown K P E L arrive s s' ∧ K.seen s'.1 v) :
    ∀ (l : List (V × β)) {s : M × List (V × β)}, (∀ p ∈ l, P p.1 p.2) → Tidy K U s →
      (unseen K U s.1).card < fuel →
      ∃ s', visitAll K arrive cap fuel l s = some s' ∧ Tidy K U s' ∧ Grown K P E L arrive s s' ∧
        ∀ p ∈ l, K.seen s'.1 p.1
  | [], s, _, ht, _ => ⟨s, rfl, ht, .refl, fun _ h => absurd h List.not_mem_nil⟩
  | p :: l, s, hl, ht, hf => by
      obtain ⟨s1, h1, ht1, hg1, hp⟩ := hone (hl p List.mem_cons_self) ht hf
      obtain ⟨s2, h2, ht2, hg2, hl2⟩ := visitAll_of hone l (fun q hq => hl q (List.mem_cons_of_mem _ hq))
        ht1 (Nat.lt_of_le_of_lt hg1.card_unseen hf)
      refine ⟨s2, ?_, ht2, hg1.trans hg2, ?_⟩
      · rw [visitAll, List.foldlM_cons, h1]
        exact h2
      · rintro q (_ | ⟨_, hq⟩)
        · exact hg2.seen hp
        · exact hl2 q hq

/-- **A visit returns**, and does no more than `Grown` allows.  Every call marks a node, so that the
depth of the calls is bounded by the nodes that are not marked. -/
theorem visit_spec (hA : Arrivals arrive U P E L) (hcap : U.card ≤ cap) :
    ∀ (fuel : ℕ) {v : V} {b : β} {s : M × List (V × β)}, P v b → Tidy K U s →
      (unseen K U s.1).card < fuel →
      ∃ s', visit K arrive cap fuel v b s = some s' ∧ Tidy K U s' ∧ Grown K P E L arrive s s' ∧ K.seen s'.1 v
  | 0, _, _, _, _, _, hf => absurd hf (Nat.not_lt_zero _)
  | fuel + 1, v, b, s, hp, ht, hf => by
      by_cases hs : K.seen s.1 v
      · exact ⟨s, by rw [visit, if_pos hs], ht, .refl, hs⟩
      have hv := hA.inside hp
      have hmark : ∀ w, K.seen (K.mark s.1 v) w ↔ w = v ∨ K.seen s.1 w := K.seen_mark s.1 v
      obtain ⟨a, ha⟩ := hA.defined hp
      have hleads := hA.leads hp ha
      cases a with
      | listed =>
        refine ⟨(K.mark s.1 v, s.2 ++ [(v, b)]), ?_, ht.push hv hs b, ?_, (hmark v).mpr (.inl rfl)⟩
        · rw [visit, if_neg hs, ha]
          exact if_pos (Nat.lt_of_lt_of_le (ht.length_lt hv hs) hcap)
        · refine ⟨⟨[v], rfl⟩, fun p h => List.mem_append_left _ h, fun p h => ?_, fun w hw => ?_⟩
          · rcases List.mem_append.mp h with h | h
            · exact .inl h
            · obtain rfl := List.mem_singleton.mp h
              exact .inr ⟨hp, ha⟩
          · rcases (hmark w).mp hw with rfl | hw
            · refine .inr ⟨fun u hu => ?_, fun _ => by simp⟩
              obtain ⟨c, hc⟩ := hleads u hu
              exact absurd hc List.not_mem_nil
            · exact .inl hw
      | onward l =>
        have hlow : (unseen K U (K.mark s.1 v)).card < fuel :=
          Nat.lt_of_lt_of_le (card_unseen_mark hv hs) (Nat.lt_succ_iff.mp hf)
        obtain ⟨s', h', ht', hg, hl⟩ := visitAll_of (visit_spec hA hcap fuel) l
          (s := (K.mark s.1 v, s.2)) (hA.allowed hp ha) (ht.mark v) hlow
        refine ⟨s', by rw [visit, if_neg hs, ha]; exact h', ht', ?_, hg.seen ((hmark v).mpr (.inl rfl))⟩
        obtain ⟨vs, hvs⟩ := hg.marks
        refine ⟨⟨v :: vs, hvs⟩, hg.kept, hg.fresh, fun w hw => ?_⟩
        rcases hg.done w hw with h | h
        · rcases (hmark w).mp h with rfl | h
          · refine .inr ⟨fun u hu => ?_, fun hL => ?_⟩
            · obtain ⟨c, hc⟩ := hleads u hu
              exact hl _ hc
            · exact absurd (hA.stops hp ha hL) (by simp)
          · exact .inl h
        · exact .inr h

/-- Visits one after the other. -/
theorem visitAll_spec (hA : Arrivals arrive U P E L) (hcap : U.card ≤ cap) {fuel : ℕ}
    {l : List (V × β)} (hl : ∀ p ∈ l, P p.1 p.2) (ht : Tidy K U s) (hf : (unseen K U s.1).card < fuel) :
    ∃ s', visitAll K arrive cap fuel l s = some s' ∧ Tidy K U s' ∧ Grown K P E L arrive s s' ∧
      ∀ p ∈ l, K.seen s'.1 p.1 :=
  visitAll_of (visit_spec hA hcap fuel) l hl ht hf

end Decidable

end Facts

end Shish
