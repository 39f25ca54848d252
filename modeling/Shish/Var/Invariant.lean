import Shish.Var.Search
import Mathlib.Data.List.TakeWhile

/-!
# Var/Invariant — the store in order

An entry is live when it is on some table, and a name stands for the innermost live entry that
carries it (`Store.Visible`).  The invariant `Store.WF` has two halves: the tables (levels, buckets
by name, no two names that could mislead a search) and the links (`var_list`, parents, children).
A search in such a store finds exactly the visible entry (`Store.Tables.search_iff`), and an entry
added at its place keeps it (`Store.WF.addFresh`, `Store.WF.addShadow`).
-/

namespace Shish

/-! ## The invariant -/

namespace Store

/-- The entries on some table. -/
def Live (s : Store) (id : VarId) : Prop := ∃ t ∈ s.tabs, ∃ b, id ∈ t.bucket b

/-- The entry a name stands for: the innermost one that carries it. -/
structure Visible (s : Store) (n : Str) (id : VarId) : Prop where
  live : s.Live id
  name : (s.heap id).name = n
  inner : ∀ j, s.Live j → (s.heap j).name = n → (s.heap j).table ≤ (s.heap id).table

/-- The tables are in order. -/
structure Tables (s : Store) : Prop where
  levels : s.tabs.map Tab.level = (List.range s.tabs.length).reverse
  root : ∃ ts t, s.tabs = ts ++ [t] ∧ t.function = false
  named : ∀ id, s.Live id → Named (s.heap id)
  home : ∀ t ∈ s.tabs, ∀ b, ∀ id ∈ t.bucket b,
    (s.heap id).table = t.level ∧ bucketOf (s.heap id).name = b
  sorted : ∀ t ∈ s.tabs, ∀ b, (t.bucket b).Pairwise fun i j => (s.heap i).name < (s.heap j).name
  fresh : ∀ id, s.Live id → id < s.next
  noprefix : ∀ i j, s.Live i → s.Live j → (s.heap i).lexhash = (s.heap j).lexhash →
    (s.heap i).name <+: (s.heap j).name → (s.heap i).name = (s.heap j).name

/-- The links and `var_list` are in order. -/
structure Links (s : Store) : Prop where
  listSorted : s.list.Pairwise fun i j => (s.heap i).name < (s.heap j).name
  mem_list : ∀ id, id ∈ s.list ↔ s.Live id ∧ (s.heap id).child = none
  parent : ∀ id p, s.Live id → (s.heap id).parent = some p →
    s.Live p ∧ (s.heap p).child = some id ∧ (s.heap p).name = (s.heap id).name ∧
      (s.heap p).table < (s.heap id).table
  child : ∀ id c, s.Live id → (s.heap id).child = some c → s.Live c ∧ (s.heap c).parent = some id
  chain : ∀ i j, s.Live i → s.Live j → (s.heap i).name = (s.heap j).name →
    (s.heap j).table < (s.heap i).table →
      ∃ p, (s.heap i).parent = some p ∧ (s.heap j).table ≤ (s.heap p).table

/-- The store is well formed. -/
structure WF (s : Store) : Prop extends Tables s, Links s

/-! ## Tables and levels -/

variable {s : Store}

theorem Tables.level_lt (h : Tables s) {t : Tab} (ht : t ∈ s.tabs) : t.level < s.tabs.length := by
  have : t.level ∈ (List.range s.tabs.length).reverse :=
    h.levels ▸ List.mem_map.mpr ⟨t, ht, rfl⟩
  simpa using this

theorem Tables.nodup (h : Tables s) : (s.tabs.map Tab.level).Nodup := by
  rw [h.levels]
  exact List.nodup_reverse.mpr List.nodup_range

theorem Tables.eq_of_level (h : Tables s) {t t' : Tab} (ht : t ∈ s.tabs) (ht' : t' ∈ s.tabs)
    (hl : t.level = t'.level) : t = t' :=
  List.inj_on_of_nodup_map h.nodup ht ht' hl

/-- Tables in front are further in. -/
theorem Tables.level_lt_of_split (h : Tables s) {ts ts' : List Tab} {t : Tab}
    (hs : s.tabs = ts ++ t :: ts') : (∀ u ∈ ts, t.level < u.level) ∧ ∀ u ∈ ts', u.level < t.level := by
  have hp : (s.tabs.map Tab.level).Pairwise (· > ·) := by
    rw [h.levels, List.pairwise_reverse]
    exact List.pairwise_lt_range
  rw [List.pairwise_map, hs, List.pairwise_append] at hp
  refine ⟨fun u hu => hp.2.2 u hu t (by simp), fun u hu => ?_⟩
  exact (List.pairwise_cons.mp hp.2.1).1 u hu

theorem Tables.ne_nil (h : Tables s) : s.tabs ≠ [] := by
  obtain ⟨ts, t, hs, -⟩ := h.root
  simp [hs]

theorem Tables.varstack_spec (h : Tables s) : ∃ t ts, s.tabs = t :: ts ∧ s.varstack = t.level := by
  cases hs : s.tabs with
  | nil => exact absurd hs h.ne_nil
  | cons t ts => exact ⟨t, ts, rfl, by simp [varstack, hs]⟩

theorem Tables.le_varstack (h : Tables s) {t : Tab} (ht : t ∈ s.tabs) : t.level ≤ s.varstack := by
  obtain ⟨t0, ts, hs, hv⟩ := h.varstack_spec
  rw [hv]
  rw [hs] at ht
  rcases List.mem_cons.mp ht with rfl | ht
  · exact le_rfl
  · exact ((h.level_lt_of_split (show s.tabs = [] ++ t0 :: ts from hs)).2 t ht).le

theorem skipFunctions_spec : ∀ {ts : List Tab}, (∃ a t, ts = a ++ [t] ∧ t.function = false) →
    ∃ a t b, ts = a ++ t :: b ∧ skipFunctions ts = t.level ∧ t.function = false ∧
      ∀ u ∈ a, u.function = true
  | [], ⟨a, t, h, _⟩ => by simp at h
  | u :: us, ⟨a, t, h, ht⟩ => by
      cases hu : u.function with
      | false => exact ⟨[], u, us, rfl, by simp [skipFunctions, hu], hu, by simp⟩
      | true =>
        match a, h with
        | [], h =>
          obtain ⟨rfl, -⟩ : u = t ∧ us = [] := by simpa using h
          simp [ht] at hu
        | v :: a, h =>
          obtain ⟨rfl, rfl⟩ : u = v ∧ us = a ++ [t] := by simpa using h
          obtain ⟨a', t', b', h1, h2, h3, h4⟩ := skipFunctions_spec ⟨a, t, rfl, ht⟩
          refine ⟨u :: a', t', b', by simp [h1], ?_, h3, ?_⟩
          · rw [skipFunctions, if_pos hu, h2]
          · intro w hw
            rcases List.mem_cons.mp hw with rfl | hw
            · exact hu
            · exact h4 w hw

/-- The table a new entry goes to is one of the stack. -/
theorem Tables.targetTab_mem (h : Tables s) (flags : Flags) :
    ∃ t ∈ s.tabs, t.level = targetTab s flags := by
  unfold targetTab
  split
  · obtain ⟨t, ts, hs, hv⟩ := h.varstack_spec
    exact ⟨t, by simp [hs], hv.symm⟩
  · obtain ⟨a, t, b, hs, hl, -⟩ := skipFunctions_spec h.root
    exact ⟨t, by simp [hs], hl.symm⟩

theorem Tables.table_lt (h : Tables s) {id : VarId} (hid : s.Live id) :
    (s.heap id).table < s.tabs.length := by
  obtain ⟨t, ht, b, hb⟩ := hid
  rw [(h.home t ht b id hb).1]
  exact h.level_lt ht

theorem Tables.table_le (h : Tables s) {id : VarId} (hid : s.Live id) :
    (s.heap id).table ≤ s.varstack := by
  obtain ⟨t, ht, b, hb⟩ := hid
  rw [(h.home t ht b id hb).1]
  exact h.le_varstack ht

/-- An entry is in the bucket of its name, on the table of its level. -/
theorem Tables.mem_bucket (h : Tables s) {id : VarId} (hid : s.Live id) {t : Tab}
    (ht : t ∈ s.tabs) (hl : t.level = (s.heap id).table) :
    id ∈ t.bucket (bucketOf (s.heap id).name) := by
  obtain ⟨t', ht', b, hb⟩ := hid
  obtain ⟨h1, rfl⟩ := h.home t' ht' b id hb
  obtain rfl := h.eq_of_level ht ht' (hl.trans h1)
  exact hb

theorem Tables.ordered (h : Tables s) {t : Tab} (ht : t ∈ s.tabs) (b : ℕ) :
    Ordered s.heap (t.bucket b) :=
  ⟨fun id hid => h.named id ⟨t, ht, b, hid⟩, h.sorted t ht b⟩

/-- **No table holds a name twice.** -/
theorem Tables.unique (h : Tables s) {i j : VarId} (hi : s.Live i) (hj : s.Live j)
    (hn : (s.heap i).name = (s.heap j).name) (ht : (s.heap i).table = (s.heap j).table) : i = j := by
  obtain ⟨t, htm, b, hb⟩ := hi
  obtain ⟨h1, rfl⟩ := h.home t htm b i hb
  have hjb := h.mem_bucket hj htm (h1.symm.trans ht)
  rw [← hn] at hjb
  exact (h.ordered htm _).eq_of_name hb hjb hn

theorem Tables.visible_unique (h : Tables s) {n : Str} {i j : VarId} (hi : s.Visible n i)
    (hj : s.Visible n j) : i = j :=
  h.unique hi.live hj.live (hi.name.trans hj.name.symm)
    (le_antisymm (hj.inner i hi.live hi.name) (hi.inner j hj.live hj.name))

/-- A name some entry carries is visible. -/
theorem Tables.exists_visible (h : Tables s) {n : Str} {i : VarId} (hi : s.Live i)
    (hn : (s.heap i).name = n) : ∃ id, s.Visible n id := by
  classical
  let P : ℕ → Prop := fun k => ∃ j, s.Live j ∧ (s.heap j).name = n ∧ (s.heap j).table = k
  obtain ⟨j, hj, hjn, hjt⟩ : P (Nat.findGreatest P s.tabs.length) :=
    Nat.findGreatest_spec (h.table_lt hi).le ⟨i, hi, hn, rfl⟩
  refine ⟨j, hj, hjn, fun k hk hkn => ?_⟩
  rw [hjt]
  exact Nat.le_findGreatest (h.table_lt hk).le ⟨k, hk, hkn, rfl⟩

/-! ## Searching a store in order -/

/-- What is found is live and carries the name. -/
theorem Tables.search_sound (h : Tables s) {n : Str} (hn : varValid n = true) {e : Bool}
    {id : VarId} (hf : (varSearch s n e).1 = some id) : s.Live id ∧ (s.heap id).name = n := by
  obtain ⟨t, ht, hid, hname⟩ := varSearchGo_sound hn s.tabs (vartabHash n e) s.position
    (for_vartabHash n e) (fun _ ht => h.ordered ht _) hf
  exact ⟨⟨t, ht, _, hid⟩, hname⟩

/-- A name some entry carries can be searched for: of a name that is there no shorter one of the
same hash is. -/
theorem Tables.searchable (h : Tables s) {n : Str} {i : VarId} (hi : s.Live i)
    (hname : (s.heap i).name = n) : Searchable s.heap s.tabs n := by
  refine ⟨fun _ ht => h.ordered ht _, fun t ht j hj hlex hp => ?_⟩
  have hj' : s.Live j := ⟨t, ht, _, hj⟩
  subst hname
  refine h.noprefix j i hj' hi ?_ hp
  rw [(h.named j hj').lex, (h.named i hi).lex, hlex]

/-- **A search in a store in order finds the visible entry.** -/
theorem Tables.search_iff (h : Tables s) {n : Str} (hn : varValid n = true) (e : Bool)
    {id : VarId} : (varSearch s n e).1 = some id ↔ s.Visible n id := by
  have key : ∀ {i}, s.Live i → (s.heap i).name = n → ∃ j, (varSearch s n e).1 = some j ∧
      s.Visible n j := by
    intro i hi hname
    have hspec := varSearchGo_spec hn s.tabs (vartabHash n e) s.position (for_vartabHash n e)
      (h.searchable hi hname)
    cases hf : (varSearch s n e).1 with
    | none =>
      rw [show (varSearchGo s.heap s.tabs (vartabHash n e) s.position).1 = none from hf] at hspec
      obtain ⟨t, ht, b, hb⟩ := hi
      obtain ⟨-, rfl⟩ := h.home t ht b i hb
      rw [hname] at hb
      exact absurd hname (hspec t ht i hb)
    | some j =>
      rw [show (varSearchGo s.heap s.tabs (vartabHash n e) s.position).1 = some j from hf] at hspec
      obtain ⟨ts, t, ts', hs, hj, hjn, habs⟩ := hspec
      have ht : t ∈ s.tabs := by simp [hs]
      have hjl : s.Live j := ⟨t, ht, _, hj⟩
      refine ⟨j, rfl, hjl, hjn, fun k hk hkn => ?_⟩
      obtain ⟨u, hu, b, hb⟩ := hk
      obtain ⟨hut, rfl⟩ := h.home u hu b k hb
      rw [hut, (h.home t ht _ j hj).1]
      rw [hs] at hu
      rcases List.mem_append.mp hu with hu | hu
      · rw [hkn] at hb
        exact absurd hkn (habs u hu k hb)
      · rcases List.mem_cons.mp hu with rfl | hu
        · exact le_rfl
        · exact ((h.level_lt_of_split hs).2 u hu).le
  constructor
  · intro hf
    obtain ⟨hl, hname⟩ := h.search_sound hn hf
    obtain ⟨j, hj, hv⟩ := key hl hname
    obtain rfl : id = j := by simpa [hf] using hj
    exact hv
  · intro hv
    obtain ⟨j, hj, hv'⟩ := key hv.live hv.name
    rw [hj, h.visible_unique hv hv']

theorem Tables.search_none (h : Tables s) {n : Str} (hn : varValid n = true) {e : Bool} :
    (varSearch s n e).1 = none ↔ ∀ j, s.Live j → (s.heap j).name ≠ n := by
  constructor
  · intro hf j hj hname
    obtain ⟨id, hid⟩ := h.exists_visible hj hname
    rw [(h.search_iff hn e).mpr hid] at hf
    simp at hf
  · intro hno
    cases hf : (varSearch s n e).1 with
    | none => rfl
    | some id =>
      obtain ⟨hl, hname⟩ := h.search_sound hn hf
      exact absurd hname (hno id hl)

end Store

/-! ## Writing into entries -/

/-- The part of an entry the tables speak about is the same. -/
structure SameHome (v w : Var) : Prop where
  name : w.name = v.name
  lex : w.lexhash = v.lexhash
  table : w.table = v.table
  named : Named v → Named w

/-- The part of an entry the invariant speaks about is the same. -/
structure Same (v w : Var) : Prop extends home : SameHome v w where
  parent : w.parent = v.parent
  child : w.child = v.child

theorem SameHome.refl (v : Var) : SameHome v v := ⟨rfl, rfl, rfl, id⟩

theorem Same.refl (v : Var) : Same v v := ⟨.refl v, rfl, rfl⟩

namespace Store

variable {s s' : Store}

theorem Live.congr (ht : s'.tabs = s.tabs) {id : VarId} : s'.Live id ↔ s.Live id := by
  unfold Live
  rw [ht]

theorem Visible.congr {n : Str} {id : VarId} (hv : s.Visible n id) (s' : Store)
    (ht : s'.tabs = s.tabs) (hs : ∀ j, s.Live j → SameHome (s.heap j) (s'.heap j)) :
    s'.Visible n id := by
  have hlive : ∀ {j}, s'.Live j ↔ s.Live j := Live.congr ht
  have hid := hs id hv.live
  refine ⟨hlive.mpr hv.live, hid.name.trans hv.name, fun j hj hjn => ?_⟩
  have hj' := hs j (hlive.mp hj)
  rw [hj'.table, hid.table]
  exact hv.inner j (hlive.mp hj) (hj'.name.symm.trans hjn)

/-- **Writing texts and flags keeps the invariant.** -/
theorem WF.congr (h : WF s) (ht : s'.tabs = s.tabs) (hl : s'.list = s.list)
    (hn : s.next ≤ s'.next) (hs : ∀ id, s.Live id → Same (s.heap id) (s'.heap id)) : WF s' := by
  have hlive : ∀ {id}, s'.Live id ↔ s.Live id := Live.congr ht
  have hmem : ∀ {t b id}, t ∈ s.tabs → id ∈ t.bucket b → s.Live id := fun ht hb => ⟨_, ht, _, hb⟩
  have hlist : ∀ {id}, id ∈ s.list → s.Live id := fun hid => ((h.mem_list _).mp hid).1
  refine ⟨⟨by rw [ht]; exact h.levels, by rw [ht]; exact h.root, ?_, ?_, ?_, ?_, ?_⟩,
    ⟨?_, ?_, ?_, ?_, ?_⟩⟩
  · intro id hid
    exact (hs id (hlive.mp hid)).named (h.named id (hlive.mp hid))
  · intro t htm b id hid
    rw [ht] at htm
    have := hs id (hmem htm hid)
    rw [this.table, this.name]
    exact h.home t htm b id hid
  · intro t htm b
    rw [ht] at htm
    refine (h.sorted t htm b).imp_of_mem fun hi hj hlt => ?_
    rw [(hs _ (hmem htm hi)).name, (hs _ (hmem htm hj)).name]
    exact hlt
  · intro id hid
    exact (h.fresh id (hlive.mp hid)).trans_le hn
  · intro i j hi hj
    rw [(hs i (hlive.mp hi)).lex, (hs j (hlive.mp hj)).lex, (hs i (hlive.mp hi)).name,
      (hs j (hlive.mp hj)).name]
    exact h.noprefix i j (hlive.mp hi) (hlive.mp hj)
  · rw [hl]
    refine h.listSorted.imp_of_mem fun hi hj hlt => ?_
    rw [(hs _ (hlist hi)).name, (hs _ (hlist hj)).name]
    exact hlt
  · intro id
    rw [hl, h.mem_list, hlive]
    refine and_congr_right fun hid => ?_
    rw [(hs id hid).child]
  · intro id p hid hp
    have hid' := hlive.mp hid
    rw [(hs id hid').parent] at hp
    obtain ⟨h1, h2, h3, h4⟩ := h.parent id p hid' hp
    rw [hlive, (hs p h1).child, (hs p h1).name, (hs id hid').name, (hs p h1).table,
      (hs id hid').table]
    exact ⟨h1, h2, h3, h4⟩
  · intro id c hid hc
    have hid' := hlive.mp hid
    rw [(hs id hid').child] at hc
    obtain ⟨h1, h2⟩ := h.child id c hid' hc
    rw [hlive, (hs c h1).parent]
    exact ⟨h1, h2⟩
  · intro i j hi hj hname hlt
    have hi' := hlive.mp hi
    have hj' := hlive.mp hj
    rw [(hs i hi').name, (hs j hj').name] at hname
    rw [(hs i hi').table, (hs j hj').table] at hlt
    obtain ⟨p, hp, hle⟩ := h.chain i j hi' hj' hname hlt
    refine ⟨p, (hs i hi').parent.trans hp, ?_⟩
    rw [(hs j hj').table, (hs p (h.parent i p hi' hp).1).table]
    exact hle

theorem WF.modify (h : WF s) {id : VarId} {w : Var → Var}
    (hw : s.Live id → Same (s.heap id) (w (s.heap id))) : WF (s.modify id w) := by
  refine h.congr rfl rfl le_rfl fun j hj => ?_
  by_cases hji : j = id
  · subst hji
    simpa [Store.modify] using hw hj
  · simpa [Store.modify, hji] using Same.refl _

theorem Visible.modify {n : Str} {i id : VarId} (hv : s.Visible n i) {w : Var → Var}
    (hw : SameHome (s.heap id) (w (s.heap id))) : (s.modify id w).Visible n i := by
  refine hv.congr (s.modify id w) rfl fun j _ => ?_
  by_cases hji : j = id
  · subst hji
    simpa [Store.modify] using hw
  · simpa [Store.modify, hji] using SameHome.refl _

theorem WF.search (h : WF s) (n : Str) (e : Bool) : WF (varSearch s n e).2 :=
  h.congr rfl rfl le_rfl fun _ _ => Same.refl _

/-! ## Adding an entry -/

/-- The place for `n` on the table of level `k`: before everything larger, behind everything
smaller. -/
structure Fits (s : Store) (k : ℕ) (n : Str) (i : ℕ) : Prop where
  place : ∃ t ∈ s.tabs, t.level = k ∧ ∃ a b, t.bucket (bucketOf n) = a ++ b ∧ i = a.length ∧
    (∀ j ∈ a, (s.heap j).name < n) ∧ ∀ j ∈ b, n < (s.heap j).name

theorem insertIdx_append (a b : List VarId) (x : VarId) :
    (a ++ b).insertIdx a.length x = a ++ x :: b := by
  induction a with
  | nil => simp
  | cons y a ih => simp [ih]

theorem mem_map_link {tabs : List Tab} {k b i : ℕ} {id : VarId} {u : Tab}
    (hu : u ∈ tabs.map (Tab.link k b i id)) : ∃ t ∈ tabs, u.level = t.level ∧ u.function = t.function ∧
      ((t.level ≠ k ∧ u.bucket = t.bucket) ∨
        (t.level = k ∧ u.bucket = Function.update t.bucket b ((t.bucket b).insertIdx i id))) := by
  obtain ⟨t, ht, rfl⟩ := List.mem_map.mp hu
  refine ⟨t, ht, ?_⟩
  unfold Tab.link
  split
  · exact ⟨rfl, rfl, .inr ⟨by assumption, rfl⟩⟩
  · exact ⟨rfl, rfl, .inl ⟨by assumption, rfl⟩⟩

theorem Tables.live_add (h : Tables s) {k i : ℕ} {n : Str} (hf : Fits s k n i) {id : VarId}
    (ht : s'.tabs = s.tabs.map (Tab.link k (bucketOf n) i id)) {j : VarId} :
    s'.Live j ↔ s.Live j ∨ j = id := by
  obtain ⟨t0, ht0, hk, a, b, hab, rfl, -, -⟩ := hf
  constructor
  · rintro ⟨u, hu, c, hc⟩
    rw [ht] at hu
    obtain ⟨t, htm, -, -, ⟨-, hbk⟩ | ⟨hl, hbk⟩⟩ := mem_map_link hu
    · exact .inl ⟨t, htm, c, hbk ▸ hc⟩
    · obtain rfl := h.eq_of_level htm ht0 (hl.trans hk.symm)
      rw [hbk, hab, insertIdx_append] at hc
      by_cases hcb : c = bucketOf n
      · subst hcb
        rw [Function.update_self] at hc
        simp only [List.mem_append, List.mem_cons] at hc
        rcases hc with hc | rfl | hc
        · exact .inl ⟨t, htm, _, by rw [hab]; simp [hc]⟩
        · exact .inr rfl
        · exact .inl ⟨t, htm, _, by rw [hab]; simp [hc]⟩
      · rw [Function.update_of_ne hcb] at hc
        exact .inl ⟨t, htm, c, hc⟩
  · intro hj
    unfold Live
    rw [ht]
    rcases hj with ⟨t, htm, c, hc⟩ | rfl
    · refine ⟨_, List.mem_map.mpr ⟨t, htm, rfl⟩, c, ?_⟩
      by_cases hl : t.level = k
      · obtain rfl := h.eq_of_level htm ht0 (hl.trans hk.symm)
        rw [Tab.link, if_pos hl, hab, insertIdx_append]
        by_cases hcb : c = bucketOf n
        · subst hcb
          rw [hab] at hc
          rcases List.mem_append.mp hc with hc | hc <;> simp [hc]
        · simpa [hcb] using hc
      · simpa [Tab.link, hl] using hc
    · refine ⟨_, List.mem_map.mpr ⟨t0, ht0, rfl⟩, bucketOf n, ?_⟩
      rw [Tab.link, if_pos hk, hab, insertIdx_append]
      simp

/-- **An entry added at its place leaves the tables in order.** -/
theorem Tables.add (h : Tables s) {k i : ℕ} {n : Str} (hf : Fits s k n i)
    (ht : s'.tabs = s.tabs.map (Tab.link k (bucketOf n) i s.next)) (hn : s'.next = s.next + 1)
    (hold : ∀ id, s.Live id → SameHome (s.heap id) (s'.heap id))
    (hnew : Named (s'.heap s.next)) (hname : (s'.heap s.next).name = n)
    (htab : (s'.heap s.next).table = k)
    (hrel : (∃ j, s.Live j ∧ (s.heap j).name = n) ∨ ∀ j, s.Live j →
      varLexhash (s.heap j).name = varLexhash n →
        ¬ (s.heap j).name <+: n ∧ ¬ n <+: (s.heap j).name) : Tables s' := by
  have hlive : ∀ {j}, s'.Live j ↔ s.Live j ∨ j = s.next := h.live_add hf ht
  have hfits := hf
  obtain ⟨t0, ht0, hk, a, b, hab, rfl, ha, hb⟩ := hf
  have hmem : ∀ {t b id}, t ∈ s.tabs → id ∈ t.bucket b → s.Live id := fun ht hb => ⟨_, ht, _, hb⟩
  refine ⟨?_, ?_, ?_, ?_, ?_, ?_, ?_⟩
  · have hlev : s'.tabs.map Tab.level = s.tabs.map Tab.level := by
      rw [ht, List.map_map]
      refine List.map_congr_left fun t _ => ?_
      simp only [Function.comp, Tab.link]
      split <;> rfl
    rw [hlev, h.levels, ht, List.length_map]
  · obtain ⟨ts, t, hs, hfn⟩ := h.root
    refine ⟨ts.map (Tab.link k (bucketOf n) a.length s.next),
      t.link k (bucketOf n) a.length s.next, by rw [ht, hs, List.map_append]; rfl, ?_⟩
    unfold Tab.link
    split <;> exact hfn
  · intro id hid
    rcases hlive.mp hid with hid | rfl
    · exact (hold id hid).named (h.named id hid)
    · exact hnew
  · intro u hu c id hid
    rw [ht] at hu
    obtain ⟨t, htm, hul, -, ⟨-, hbk⟩ | ⟨hl, hbk⟩⟩ := mem_map_link hu
    · rw [hbk] at hid
      have := hold id (hmem htm hid)
      rw [this.name, this.table, hul]
      exact h.home t htm c id hid
    · obtain rfl := h.eq_of_level htm ht0 (hl.trans hk.symm)
      rw [hbk, hab, insertIdx_append] at hid
      have hin : id ∈ t.bucket c → (s'.heap id).table = u.level ∧ bucketOf (s'.heap id).name = c := by
        intro hid
        have := hold id (hmem htm hid)
        rw [this.name, this.table, hul]
        exact h.home t htm c id hid
      by_cases hcb : c = bucketOf n
      · subst hcb
        rw [Function.update_self] at hid
        simp only [List.mem_append, List.mem_cons] at hid
        rcases hid with hid | rfl | hid
        · exact hin (by rw [hab]; simp [hid])
        · exact ⟨by rw [htab, hul, hl], by rw [hname]⟩
        · exact hin (by rw [hab]; simp [hid])
      · rw [Function.update_of_ne hcb] at hid
        exact hin hid
  · intro u hu c
    rw [ht] at hu
    have hkeep : ∀ {t}, t ∈ s.tabs →
        (t.bucket c).Pairwise fun i j => (s'.heap i).name < (s'.heap j).name := by
      intro t htm
      refine (h.sorted t htm c).imp_of_mem fun hi hj hlt => ?_
      rw [(hold _ (hmem htm hi)).name, (hold _ (hmem htm hj)).name]
      exact hlt
    obtain ⟨t, htm, -, -, ⟨-, hbk⟩ | ⟨hl, hbk⟩⟩ := mem_map_link hu
    · rw [hbk]
      exact hkeep htm
    · obtain rfl := h.eq_of_level htm ht0 (hl.trans hk.symm)
      rw [hbk, hab, insertIdx_append]
      by_cases hcb : c = bucketOf n
      · subst hcb
        have hk' := hkeep htm
        rw [hab, List.pairwise_append] at hk'
        have hla : ∀ j ∈ a, s.Live j := fun j hj => hmem htm (by rw [hab]; simp [hj])
        have hlb : ∀ j ∈ b, s.Live j := fun j hj => hmem htm (by rw [hab]; simp [hj])
        rw [Function.update_self, List.pairwise_append]
        refine ⟨hk'.1, List.pairwise_cons.mpr ⟨fun j hj => ?_, hk'.2.1⟩, fun i hi j hj => ?_⟩
        · rw [hname, (hold j (hlb j hj)).name]
          exact hb j hj
        · rcases List.mem_cons.mp hj with rfl | hj
          · rw [hname, (hold i (hla i hi)).name]
            exact ha i hi
          · exact hk'.2.2 i hi j hj
      · rw [Function.update_of_ne hcb]
        exact hkeep htm
  · intro id hid
    rw [hn]
    rcases hlive.mp hid with hid | rfl
    · exact (h.fresh id hid).trans (Nat.lt_succ_self _)
    · exact Nat.lt_succ_self _
  · have hnlex : (s'.heap s.next).lexhash = varLexhash n := by rw [hnew.lex, hname]
    intro i j hi hj hlex hp
    rcases hlive.mp hi with hi | rfl <;> rcases hlive.mp hj with hj | rfl
    · rw [(hold i hi).lex, (hold j hj).lex] at hlex
      rw [(hold i hi).name, (hold j hj).name] at hp ⊢
      exact h.noprefix i j hi hj hlex hp
    · rw [(hold i hi).lex, hnlex, (h.named i hi).lex] at hlex
      rw [(hold i hi).name, hname] at hp ⊢
      rcases hrel with ⟨m, hm, rfl⟩ | hrel
      · refine h.noprefix i m hi hm ?_ hp
        rw [(h.named i hi).lex, (h.named m hm).lex, hlex]
      · exact absurd hp (hrel i hi hlex).1
    · rw [(hold j hj).lex, hnlex, (h.named j hj).lex] at hlex
      rw [(hold j hj).name, hname] at hp ⊢
      rcases hrel with ⟨m, hm, rfl⟩ | hrel
      · refine h.noprefix m j hm hj ?_ hp
        rw [(h.named j hj).lex, (h.named m hm).lex, hlex]
      · exact absurd hp (hrel j hj hlex.symm).2
    · rfl

end Store

namespace Store

variable {s s' : Store}

theorem Visible.child_none (h : WF s) {n : Str} {p : VarId} (hv : s.Visible n p) :
    (s.heap p).child = none := by
  cases hc : (s.heap p).child with
  | none => rfl
  | some c =>
    obtain ⟨h1, h2⟩ := h.child p c hv.live hc
    obtain ⟨-, -, h3, h4⟩ := h.parent c p h1 h2
    have := hv.inner c h1 (h3.symm.trans hv.name)
    omega

/-- **A new name keeps the invariant.** -/
theorem WF.addFresh (h : WF s) {k i : ℕ} {n : Str} (hf : Fits s k n i)
    (ht : s'.tabs = s.tabs.map (Tab.link k (bucketOf n) i s.next)) (hn : s'.next = s.next + 1)
    (hold : ∀ id, s.Live id → Same (s.heap id) (s'.heap id))
    (hnew : Named (s'.heap s.next)) (hname : (s'.heap s.next).name = n)
    (htab : (s'.heap s.next).table = k) (hpar : (s'.heap s.next).parent = none)
    (hchild : (s'.heap s.next).child = none)
    (habs : ∀ j, s.Live j → (s.heap j).name ≠ n)
    (hrel : ∀ j, s.Live j → varLexhash (s.heap j).name = varLexhash n →
      ¬ (s.heap j).name <+: n ∧ ¬ n <+: (s.heap j).name)
    (hlist : ∃ a b, s.list = a ++ b ∧ s'.list = a ++ s.next :: b ∧
      (∀ j ∈ a, (s.heap j).name < n) ∧ ∀ j ∈ b, n < (s.heap j).name) : WF s' := by
  have hlive : ∀ {j}, s'.Live j ↔ s.Live j ∨ j = s.next := h.live_add hf ht
  have hne : ∀ {j}, s.Live j → j ≠ s.next := fun hj => (h.fresh _ hj).ne
  refine ⟨h.toTables.add hf ht hn (fun id hid => (hold id hid).home) hnew hname htab (.inr hrel),
    ⟨?_, ?_, ?_, ?_, ?_⟩⟩
  · obtain ⟨a, b, hab, hl, ha, hb⟩ := hlist
    have hmem : ∀ j ∈ a ++ b, s.Live j := fun j hj => ((h.mem_list j).mp (hab ▸ hj)).1
    have hs : (a ++ b).Pairwise fun i j => (s'.heap i).name < (s'.heap j).name := by
      rw [← hab]
      refine h.listSorted.imp_of_mem fun hi hj hlt => ?_
      rw [(hold _ (hmem _ (hab ▸ hi))).name, (hold _ (hmem _ (hab ▸ hj))).name]
      exact hlt
    rw [List.pairwise_append] at hs
    rw [hl, List.pairwise_append]
    refine ⟨hs.1, List.pairwise_cons.mpr ⟨fun j hj => ?_, hs.2.1⟩, fun i hi j hj => ?_⟩
    · rw [hname, (hold j (hmem j (by simp [hj]))).name]
      exact hb j hj
    · rcases List.mem_cons.mp hj with rfl | hj
      · rw [hname, (hold i (hmem i (by simp [hi]))).name]
        exact ha i hi
      · exact hs.2.2 i hi j hj
  · intro j
    obtain ⟨a, b, hab, hl, -, -⟩ := hlist
    have hmem : j ∈ s'.list ↔ j ∈ s.list ∨ j = s.next := by
      rw [hl, hab]
      simp only [List.mem_append, List.mem_cons]
      tauto
    rw [hmem, hlive]
    constructor
    · rintro (hj | rfl)
      · obtain ⟨h1, h2⟩ := (h.mem_list j).mp hj
        exact ⟨.inl h1, (hold j h1).child.trans h2⟩
      · exact ⟨.inr rfl, hchild⟩
    · rintro ⟨hj | rfl, hc⟩
      · exact .inl ((h.mem_list j).mpr ⟨hj, (hold j hj).child.symm.trans hc⟩)
      · exact .inr rfl
  · intro id p hid hp
    rcases hlive.mp hid with hid | rfl
    · rw [(hold id hid).parent] at hp
      obtain ⟨h1, h2, h3, h4⟩ := h.parent id p hid hp
      rw [hlive, (hold p h1).child, (hold p h1).name, (hold id hid).name, (hold p h1).table,
        (hold id hid).table]
      exact ⟨.inl h1, h2, h3, h4⟩
    · simp [hpar] at hp
  · intro id c hid hc
    rcases hlive.mp hid with hid | rfl
    · rw [(hold id hid).child] at hc
      obtain ⟨h1, h2⟩ := h.child id c hid hc
      rw [hlive, (hold c h1).parent]
      exact ⟨.inl h1, h2⟩
    · simp [hchild] at hc
  · intro i j hi hj hnm hlt
    rcases hlive.mp hi with hi | rfl <;> rcases hlive.mp hj with hj | rfl
    · rw [(hold i hi).name, (hold j hj).name] at hnm
      rw [(hold i hi).table, (hold j hj).table] at hlt
      obtain ⟨p, hp, hle⟩ := h.chain i j hi hj hnm hlt
      refine ⟨p, (hold i hi).parent.trans hp, ?_⟩
      rw [(hold j hj).table, (hold p (h.parent i p hi hp).1).table]
      exact hle
    · rw [(hold i hi).name, hname] at hnm
      exact absurd hnm (habs i hi)
    · rw [(hold j hj).name, hname] at hnm
      exact absurd hnm.symm (habs j hj)
    · exact absurd hlt (lt_irrefl _)

/-- **A shadow further in keeps the invariant.** -/
theorem WF.addShadow (h : WF s) {k i : ℕ} {n : Str} {p : VarId} (hv : s.Visible n p)
    (hpk : (s.heap p).table < k) (hf : Fits s k n i)
    (ht : s'.tabs = s.tabs.map (Tab.link k (bucketOf n) i s.next)) (hn : s'.next = s.next + 1)
    (hold : ∀ id, s.Live id → id ≠ p → Same (s.heap id) (s'.heap id))
    (hphome : SameHome (s.heap p) (s'.heap p)) (hpp : (s'.heap p).parent = (s.heap p).parent)
    (hpc : (s'.heap p).child = some s.next)
    (hnew : Named (s'.heap s.next)) (hname : (s'.heap s.next).name = n)
    (htab : (s'.heap s.next).table = k) (hpar : (s'.heap s.next).parent = some p)
    (hchild : (s'.heap s.next).child = none)
    (hlist : s'.list = s.list.map fun x => if x = p then s.next else x) : WF s' := by
  have hlive : ∀ {j}, s'.Live j ↔ s.Live j ∨ j = s.next := h.live_add hf ht
  have hne : ∀ {j}, s.Live j → j ≠ s.next := fun hj => (h.fresh _ hj).ne
  have hpnone := hv.child_none h
  have hhome : ∀ id, s.Live id → SameHome (s.heap id) (s'.heap id) := by
    intro id hid
    by_cases hip : id = p
    · exact hip ▸ hphome
    · exact (hold id hid hip).home
  have hpar' : ∀ id, s.Live id → (s'.heap id).parent = (s.heap id).parent := by
    intro id hid
    by_cases hip : id = p
    · exact hip ▸ hpp
    · exact (hold id hid hip).parent
  refine ⟨h.toTables.add hf ht hn hhome hnew hname htab (.inl ⟨p, hv.live, hv.name⟩),
    ⟨?_, ?_, ?_, ?_, ?_⟩⟩
  · have hkeep : ∀ x ∈ s.list, (s'.heap (if x = p then s.next else x)).name = (s.heap x).name := by
      intro x hx
      split
      · subst x
        rw [hname, hv.name]
      · exact (hhome x ((h.mem_list x).mp hx).1).name
    rw [hlist, List.pairwise_map]
    refine h.listSorted.imp_of_mem fun hi hj hlt => ?_
    rw [hkeep _ hi, hkeep _ hj]
    exact hlt
  · intro j
    rw [hlist, List.mem_map, hlive]
    constructor
    · rintro ⟨x, hx, rfl⟩
      split
      · exact ⟨.inr rfl, hchild⟩
      · rename_i hxp
        obtain ⟨h1, h2⟩ := (h.mem_list x).mp hx
        exact ⟨.inl h1, (hold x h1 hxp).child.trans h2⟩
    · rintro ⟨hj | rfl, hc⟩
      · have hjp : j ≠ p := by
          rintro rfl
          simp [hpc] at hc
        exact ⟨j, (h.mem_list j).mpr ⟨hj, (hold j hj hjp).child.symm.trans hc⟩, by simp [hjp]⟩
      · exact ⟨p, (h.mem_list p).mpr ⟨hv.live, hpnone⟩, by simp⟩
  · intro id q hid hq
    rcases hlive.mp hid with hid | rfl
    · rw [hpar' id hid] at hq
      obtain ⟨h1, h2, h3, h4⟩ := h.parent id q hid hq
      have hqp : q ≠ p := by
        rintro rfl
        simp [hpnone] at h2
      rw [hlive, (hold q h1 hqp).child, (hhome q h1).name, (hhome id hid).name, (hhome q h1).table,
        (hhome id hid).table]
      exact ⟨.inl h1, h2, h3, h4⟩
    · obtain rfl : p = q := by simpa [hpar] using hq
      rw [hlive, hname, hphome.name, hphome.table, htab]
      exact ⟨.inl hv.live, hpc, hv.name, hpk⟩
  · intro id c hid hc
    rcases hlive.mp hid with hid | rfl
    · by_cases hip : id = p
      · subst hip
        obtain rfl : s.next = c := by simpa [hpc] using hc
        exact ⟨hlive.mpr (.inr rfl), hpar⟩
      · rw [(hold id hid hip).child] at hc
        obtain ⟨h1, h2⟩ := h.child id c hid hc
        rw [hlive, hpar' c h1]
        exact ⟨.inl h1, h2⟩
    · simp [hchild] at hc
  · intro i j hi hj hnm hlt
    rcases hlive.mp hi with hi | rfl <;> rcases hlive.mp hj with hj | rfl
    · rw [(hhome i hi).name, (hhome j hj).name] at hnm
      rw [(hhome i hi).table, (hhome j hj).table] at hlt
      obtain ⟨q, hq, hle⟩ := h.chain i j hi hj hnm hlt
      refine ⟨q, (hpar' i hi).trans hq, ?_⟩
      rw [(hhome j hj).table, (hhome q (h.parent i q hi hq).1).table]
      exact hle
    · -- nothing of this name lies further in than the shadowed entry
      rw [(hhome i hi).name, hname] at hnm
      rw [(hhome i hi).table, htab] at hlt
      have := hv.inner i hi hnm
      omega
    · rw [(hhome j hj).name, hname] at hnm
      refine ⟨p, hpar, ?_⟩
      rw [(hhome j hj).table, hphome.table]
      exact hv.inner j hj hnm.symm
    · exact absurd hlt (lt_irrefl _)

end Store

end Shish
