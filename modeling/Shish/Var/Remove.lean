import Shish.Var.Invariant

/-!
# Var/Remove — `var_unset` and `vartab_pop`

`var_unset` takes away everything that carries the name, on whatever table; `vartab_pop` takes away
what is on the innermost table and gives the shadowed entries their place in `var_list` back.  Both
leave a store in order in order (`Store.WF.unset`, `Store.WF.pop`).
-/

namespace Shish

/-! ## Unset -/

/-- A table less the entries a test throws out. -/
def Tab.keep (p : VarId → Bool) (t : Tab) : Tab := { t with bucket := fun b => (t.bucket b).filter p }

/-- The entry and what it shadows, in the order `var_unset` meets them. -/
def chainOf (heap : VarId → Var) : ℕ → VarId → List VarId
  | 0, id => [id]
  | k + 1, id =>
      match (heap id).parent with
      | none => [id]
      | some p => id :: chainOf heap k p

theorem varUnsetGo_eq : ∀ (k : ℕ) (s : Store) (id : VarId),
    varUnsetGo k s id = (chainOf s.heap k id).foldl varCleanup s
  | 0, _, _ => rfl
  | k + 1, s, id => by
      rw [varUnsetGo, chainOf]
      cases (s.heap id).parent with
      | none => rfl
      | some p => exact varUnsetGo_eq k (varCleanup s id) p

namespace Store

variable {s s' : Store}

theorem Tables.bucket_nodup (h : Tables s) {t : Tab} (ht : t ∈ s.tabs) (b : ℕ) :
    (t.bucket b).Nodup :=
  (h.sorted t ht b).imp fun hlt heq => absurd (heq ▸ hlt) (lt_irrefl _)

theorem Links.list_nodup (h : Links s) : s.list.Nodup :=
  h.listSorted.imp fun hlt heq => absurd (heq ▸ hlt) (lt_irrefl _)

/-- **What `var_unset` meets is everything that carries the name**, from the entry outwards. -/
theorem WF.mem_chainOf (h : WF s) : ∀ (k : ℕ) {id : VarId}, s.Live id → (s.heap id).table ≤ k →
    ∀ {j : VarId}, j ∈ chainOf s.heap k id ↔
      s.Live j ∧ (s.heap j).name = (s.heap id).name ∧ (s.heap j).table ≤ (s.heap id).table
  | k, id, hid, hk, j => by
      -- the outermost entry of the name has nothing but itself at or below its level
      have hlast : (s.heap id).parent = none → s.Live j → (s.heap j).name = (s.heap id).name →
          (s.heap j).table ≤ (s.heap id).table → j = id := by
        intro hp hj hn hle
        rcases hle.eq_or_lt with heq | hlt
        · exact h.unique hj hid hn heq
        · obtain ⟨p, hp', -⟩ := h.chain id j hid hj hn.symm hlt
          simp [hp] at hp'
      have hself : s.Live id ∧ (s.heap id).name = (s.heap id).name ∧
          (s.heap id).table ≤ (s.heap id).table := ⟨hid, rfl, le_rfl⟩
      cases hp : (s.heap id).parent with
      | none =>
        have hc : chainOf s.heap k id = [id] := by cases k <;> simp [chainOf, hp]
        rw [hc, List.mem_singleton]
        exact ⟨fun hj => hj ▸ hself, fun ⟨h1, h2, h3⟩ => hlast hp h1 h2 h3⟩
      | some p =>
        obtain ⟨h1, -, h3, h4⟩ := h.parent id p hid hp
        match k, hk with
        | 0, hk => omega
        | k + 1, hk =>
          simp only [chainOf, hp]
          rw [List.mem_cons, WF.mem_chainOf h k h1 (by omega), h3]
          constructor
          · rintro (rfl | ⟨hj, hn, hle⟩)
            · exact hself
            · exact ⟨hj, hn, by omega⟩
          · rintro ⟨hj, hn, hle⟩
            rcases hle.eq_or_lt with heq | hlt
            · exact .inl (h.unique hj hid hn heq)
            · obtain ⟨q, hq, hjq⟩ := h.chain id j hid hj hn.symm hlt
              obtain rfl : p = q := by simpa [hp] using hq
              exact .inr ⟨hj, hn, hjq⟩

/-- The store less the entries a test throws out. -/
def keep (s : Store) (p : VarId → Bool) : Store :=
  { s with tabs := s.tabs.map (Tab.keep p), list := s.list.filter p }

/-- What `var_cleanup` relies on: an entry is linked once, on its own table, and in `var_list` only
when nothing shadows it. -/
structure Linked (s : Store) : Prop where
  bucket_nodup : ∀ t ∈ s.tabs, ∀ b, (t.bucket b).Nodup
  table : ∀ t ∈ s.tabs, ∀ b, ∀ id ∈ t.bucket b, (s.heap id).table = t.level
  list_nodup : s.list.Nodup
  child : ∀ id ∈ s.list, (s.heap id).child = none

theorem WF.linked (h : WF s) : Linked s :=
  ⟨fun _ ht b => h.toTables.bucket_nodup ht b, fun t ht b id hid => (h.home t ht b id hid).1,
    h.toLinks.list_nodup, fun id hid => ((h.mem_list id).mp hid).2⟩

theorem Linked.keep (h : Linked s) (p : VarId → Bool) : Linked (s.keep p) := by
  refine ⟨?_, ?_, h.list_nodup.filter p, fun id hid => h.child id (List.mem_filter.mp hid).1⟩
  · intro u hu b
    obtain ⟨t, ht, rfl⟩ := List.mem_map.mp hu
    exact (h.bucket_nodup t ht b).filter p
  · intro u hu b id hid
    obtain ⟨t, ht, rfl⟩ := List.mem_map.mp hu
    exact h.table t ht b id (List.mem_filter.mp hid).1

theorem keep_true (s : Store) : (s.keep fun _ => true) = s := by
  have ht : (Tab.keep fun _ => true) = id := by
    funext t
    simp [Tab.keep]
  simp [Store.keep, ht]

theorem keep_keep (s : Store) (p q : VarId → Bool) : (s.keep p).keep q = s.keep fun x => p x && q x := by
  simp only [Store.keep, List.map_map, List.filter_filter]
  congr 1
  · refine List.map_congr_left fun t _ => ?_
    simp only [Function.comp, Tab.keep, List.filter_filter]
    congr 1
    funext b
    exact List.filter_congr fun _ _ => Bool.and_comm _ _
  · exact List.filter_congr fun _ _ => Bool.and_comm _ _

/-- One `var_cleanup` throws one entry out. -/
theorem Linked.cleanup (h : Linked s) (id : VarId) :
    varCleanup s id = s.keep fun x => x ≠ id := by
  have hfilter : ∀ {l : List VarId}, id ∉ l → l.filter (fun x => x ≠ id) = l := by
    intro l hl
    refine List.filter_eq_self.mpr fun x hx => ?_
    simp only [ne_eq, decide_not, Bool.not_eq_true', decide_eq_false_iff_not]
    rintro rfl
    exact hl hx
  simp only [varCleanup, Store.keep]
  congr 1
  · refine List.map_congr_left fun t ht => ?_
    split
    · simp only [Tab.keep]
      congr 1
      funext b
      rw [(h.bucket_nodup t ht b).erase_eq_filter]
      refine List.filter_congr fun x _ => ?_
      simp [bne, BEq.beq]
    · rename_i hlev
      have hb : (fun b => (t.bucket b).filter fun x => x ≠ id) = t.bucket := by
        funext b
        exact hfilter fun hid => hlev (h.table t ht b id hid).symm
      rw [Tab.keep, hb]
  · split
    · rw [h.list_nodup.erase_eq_filter]
      refine List.filter_congr fun x _ => ?_
      simp [bne, BEq.beq]
    · rename_i hc
      exact (hfilter fun hid => hc (h.child id hid)).symm

theorem Linked.foldl_cleanup : ∀ (l : List VarId) {s : Store}, Linked s →
    l.foldl varCleanup s = s.keep fun x => x ∉ l
  | [], s, _ => by simpa using (keep_true s).symm
  | id :: l, s, h => by
      rw [List.foldl_cons, h.cleanup, (h.keep _).foldl_cleanup l, keep_keep]
      congr 1
      funext x
      simp [not_or]

theorem live_keep {p : VarId → Bool} {j : VarId} : (s.keep p).Live j ↔ s.Live j ∧ p j = true := by
  constructor
  · rintro ⟨u, hu, b, hb⟩
    obtain ⟨t, ht, rfl⟩ := List.mem_map.mp hu
    obtain ⟨h1, h2⟩ := List.mem_filter.mp hb
    exact ⟨⟨t, ht, b, h1⟩, h2⟩
  · rintro ⟨⟨t, ht, b, hb⟩, hp⟩
    exact ⟨t.keep p, List.mem_map.mpr ⟨t, ht, rfl⟩, b, List.mem_filter.mpr ⟨hb, hp⟩⟩

theorem keep_congr {p q : VarId → Bool} (h : WF s) (hpq : ∀ j, s.Live j → p j = q j) :
    s.keep p = s.keep q := by
  unfold Store.keep
  congr 1
  · refine List.map_congr_left fun t ht => ?_
    unfold Tab.keep
    congr 1
    funext b
    exact List.filter_congr fun x hx => hpq x ⟨t, ht, b, hx⟩
  · exact List.filter_congr fun x hx => hpq x ((h.mem_list x).mp hx).1

/-- **Throwing a name out altogether keeps the invariant.** -/
theorem WF.keep_name (h : WF s) (n : Str) : WF (s.keep fun x => (s.heap x).name ≠ n) := by
  have hlive : ∀ {j}, (s.keep fun x => (s.heap x).name ≠ n).Live j ↔
      s.Live j ∧ (s.heap j).name ≠ n := by
    intro j
    rw [live_keep]
    simp
  have hmem : ∀ {u}, u ∈ (s.keep fun x => (s.heap x).name ≠ n).tabs →
      ∃ t ∈ s.tabs, u = t.keep fun x => (s.heap x).name ≠ n := by
    intro u hu
    obtain ⟨t, ht, rfl⟩ := List.mem_map.mp hu
    exact ⟨t, ht, rfl⟩
  refine ⟨⟨?_, ?_, ?_, ?_, ?_, ?_, ?_⟩, ⟨?_, ?_, ?_, ?_, ?_⟩⟩
  · simp only [Store.keep, List.map_map, List.length_map]
    exact h.levels
  · obtain ⟨ts, t, hs, hf⟩ := h.root
    refine ⟨ts.map (Tab.keep fun x => (s.heap x).name ≠ n),
      t.keep fun x => (s.heap x).name ≠ n, ?_, hf⟩
    simp only [Store.keep, hs, List.map_append, List.map_cons, List.map_nil]
  · exact fun id hid => h.named id (hlive.mp hid).1
  · intro u hu b id hid
    obtain ⟨t, ht, rfl⟩ := hmem hu
    exact h.home t ht b id (List.mem_filter.mp hid).1
  · intro u hu b
    obtain ⟨t, ht, rfl⟩ := hmem hu
    exact (h.sorted t ht b).filter _
  · exact fun id hid => h.fresh id (hlive.mp hid).1
  · exact fun i j hi hj => h.noprefix i j (hlive.mp hi).1 (hlive.mp hj).1
  · exact h.listSorted.filter _
  · intro id
    rw [hlive]
    simp only [Store.keep, List.mem_filter, h.mem_list, ne_eq, decide_not, Bool.not_eq_true',
      decide_eq_false_iff_not]
    tauto
  · intro id p hid hp
    obtain ⟨h1, h2, h3, h4⟩ := h.parent id p (hlive.mp hid).1 hp
    refine ⟨hlive.mpr ⟨h1, ?_⟩, h2, h3, h4⟩
    rw [h3]
    exact (hlive.mp hid).2
  · intro id c hid hc
    obtain ⟨h1, h2⟩ := h.child id c (hlive.mp hid).1 hc
    obtain ⟨-, -, h3, -⟩ := h.parent c id h1 h2
    refine ⟨hlive.mpr ⟨h1, ?_⟩, h2⟩
    rw [← h3]
    exact (hlive.mp hid).2
  · exact fun i j hi hj => h.chain i j (hlive.mp hi).1 (hlive.mp hj).1

/-- **`var_unset` throws out the name**, on every table. -/
theorem WF.unset_eq (h : WF s) {v : Str} (hn : varValid (nameOf v) = true) :
    ∃ pos, varUnset s v =
      ({ s with position := pos } : Store).keep fun x => (s.heap x).name ≠ nameOf v := by
  refine ⟨(varSearch s (nameOf v) true).2.position, ?_⟩
  have hwf := h.search (nameOf v) true
  have hiff := @Tables.search_iff s h.toTables (nameOf v) hn true
  have hnone := h.search_none hn (e := true)
  change varUnset s v = (varSearch s (nameOf v) true).2.keep _
  unfold varUnset
  rw [show varSearch s (nameOf v) true =
    ((varSearch s (nameOf v) true).1, (varSearch s (nameOf v) true).2) from rfl]
  cases hf : (varSearch s (nameOf v) true).1 with
  | none =>
    have habs := hnone.mp hf
    dsimp only
    have := keep_congr hwf (p := fun _ => true) (q := fun x => (s.heap x).name ≠ nameOf v)
      fun j hj => by simpa using habs j ((Live.congr rfl).mp hj)
    rw [← this, keep_true]
  | some id =>
    have hv := hiff.mp hf
    dsimp only
    have hlive : (varSearch s (nameOf v) true).2.Live id := (Live.congr rfl).mpr hv.live
    rw [varUnsetGo_eq, hwf.linked.foldl_cleanup]
    refine keep_congr hwf fun j hj => ?_
    have hmem := hwf.mem_chainOf _ hlive le_rfl (j := j)
    have hname : j ∈ chainOf (varSearch s (nameOf v) true).2.heap
        ((varSearch s (nameOf v) true).2.heap id).table id ↔ (s.heap j).name = nameOf v := by
      rw [hmem]
      constructor
      · rintro ⟨-, h2, -⟩
        exact h2.trans hv.name
      · intro hjn
        exact ⟨hj, hjn.trans hv.name.symm, hv.inner j ((Live.congr rfl).mp hj) hjn⟩
    simp [hname]

theorem WF.unset (h : WF s) {v : Str} (hn : varValid (nameOf v) = true) : WF (varUnset s v) := by
  obtain ⟨pos, hu⟩ := h.unset_eq hn
  rw [hu]
  have hpos : WF { s with position := pos } := h.congr rfl rfl le_rfl fun _ _ => .refl _
  exact hpos.keep_name (nameOf v)

/-! ## Pop -/

/-- The heap after `vartab_cleanup` has been through `l`: the shadowed entries have no child any
more. -/
def unshadow (heap : VarId → Var) (l : List VarId) (j : VarId) : Var :=
  if l.any fun d => (heap d).parent = some j then { heap j with child := none } else heap j

/-- `var_list` after it: what is shadowed stands where the shadow was. -/
def relist (heap : VarId → Var) (l : List VarId) (x : VarId) : Option VarId :=
  if x ∈ l then (heap x).parent else some x

theorem unshadow_parent (heap : VarId → Var) (l : List VarId) (j : VarId) :
    (unshadow heap l j).parent = (heap j).parent := by
  unfold unshadow
  split <;> rfl

/-- **`vartab_cleanup` in one go.**  The entries are distinct and none of them is another one's
parent, so the order does not matter. -/
theorem foldl_cleanupEntry : ∀ (l : List VarId) (s : Store), s.list.Nodup → l.Nodup →
    (∀ d ∈ l, ∀ p, (s.heap d).parent = some p → p ∉ l ∧ p ∉ s.list) →
    (∀ d ∈ l, ∀ e ∈ l, (s.heap d).parent = (s.heap e).parent → (s.heap d).parent ≠ none → d = e) →
    l.foldl cleanupEntry s =
      { s with heap := unshadow s.heap l, list := s.list.filterMap (relist s.heap l) }
  | [], s, _, _, _, _ => by
      have hh : unshadow s.heap [] = s.heap := by
        funext j
        simp [unshadow]
      have hl : s.list.filterMap (relist s.heap []) = s.list := by
        rw [show relist s.heap [] = some by funext x; simp [relist]]
        exact List.filterMap_some
      rw [List.foldl_nil, hh, hl]
  | id :: l, s, hnd, hl, hpar, hinj => by
      obtain ⟨hid, hl'⟩ := List.nodup_cons.mp hl
      rw [List.foldl_cons]
      cases hp : (s.heap id).parent with
      | none =>
        have hstep : cleanupEntry s id = { s with list := s.list.filter fun x => x ≠ id } := by
          rw [cleanupEntry, hp]
          dsimp only
          rw [hnd.erase_eq_filter]
          congr 1
          exact List.filter_congr fun x _ => by simp [bne, BEq.beq]
        rw [hstep, foldl_cleanupEntry l { s with list := s.list.filter fun x => x ≠ id }
          (hnd.filter _) hl' (fun d hd p hdp => ⟨fun h => (hpar d (by simp [hd]) p hdp).1 (by simp [h]),
            fun h => (hpar d (by simp [hd]) p hdp).2 (List.mem_filter.mp h).1⟩)
          (fun d hd e he => hinj d (by simp [hd]) e (by simp [he]))]
        congr 1
        · funext j
          simp [unshadow, hp]
        · dsimp only
          rw [List.filterMap_filter]
          refine List.filterMap_congr fun x _ => ?_
          by_cases hx : x = id
          · simp [hx, relist, hp]
          · simp [hx, relist]
      | some p =>
        obtain ⟨hpl, hplist⟩ := hpar id (by simp) p hp
        have hpid : p ≠ id := fun h => hpl (by simp [h])
        have hstep : cleanupEntry s id = { s with
            heap := Function.update s.heap p { s.heap p with child := none }
            list := s.list.map fun x => if x = id then p else x } := by
          rw [cleanupEntry, hp]
          rfl
        have hpeq : ∀ d, (Function.update s.heap p { s.heap p with child := none } d).parent =
            (s.heap d).parent := by
          intro d
          by_cases hd : d = p
          · simp [hd]
          · simp [hd]
        have hnd' : (s.list.map fun x => if x = id then p else x).Nodup := by
          refine hnd.map_on fun x hx y hy hxy => ?_
          split_ifs at hxy with h1 h2 h2
          · exact h1.trans h2.symm
          · exact absurd (hxy ▸ hy) hplist
          · exact absurd (hxy ▸ hx) hplist
          · exact hxy
        rw [hstep, foldl_cleanupEntry l _ hnd' hl' ?_ ?_]
        · congr 1
          · funext j
            simp only [unshadow, hpeq, List.any_cons, hp]
            by_cases hj : j = p
            · subst hj
              simp
            · have hpj : ¬ p = j := fun h => hj h.symm
              simp [hj, hpj]
          · dsimp only
            rw [List.filterMap_map]
            refine List.filterMap_congr fun x _ => ?_
            simp only [Function.comp, relist, hpeq]
            by_cases hx : x = id
            · subst hx
              have : p ∉ l := fun h => hpl (by simp [h])
              simp [hp, this]
            · simp [hx]
        · intro d hd q hdq
          dsimp only at hdq ⊢
          rw [hpeq] at hdq
          obtain ⟨h1, h2⟩ := hpar d (by simp [hd]) q hdq
          refine ⟨fun h => h1 (by simp [h]), fun h => ?_⟩
          obtain ⟨x, hx, hxq⟩ := List.mem_map.mp h
          split_ifs at hxq with hxid
          · have := hinj d (by simp [hd]) id (by simp) (by rw [hdq, hp, hxq]) (by simp [hdq])
            exact hid (this ▸ hd)
          · exact h2 (hxq ▸ hx)
        · intro d hd e he
          dsimp only
          rw [hpeq, hpeq]
          exact hinj d (by simp [hd]) e (by simp [he])

theorem bucketOf_lt (n : Str) : bucketOf n < vartabBuckets := Nat.mod_lt _ (by decide)

theorem Tables.mem_entries (h : Tables s) {t : Tab} (ht : t ∈ s.tabs) {id : VarId} :
    id ∈ t.entries ↔ s.Live id ∧ (s.heap id).table = t.level := by
  simp only [Tab.entries, List.mem_flatMap, List.mem_range]
  constructor
  · rintro ⟨b, -, hb⟩
    exact ⟨⟨t, ht, b, hb⟩, (h.home t ht b id hb).1⟩
  · rintro ⟨hid, hl⟩
    exact ⟨_, bucketOf_lt _, h.mem_bucket hid ht hl.symm⟩

theorem Tables.nodup_entries (h : Tables s) {t : Tab} (ht : t ∈ s.tabs) : t.entries.Nodup := by
  refine List.nodup_flatMap.mpr ⟨fun b _ => h.bucket_nodup ht b, ?_⟩
  refine List.nodup_range.imp fun {b c} hbc => ?_
  intro id hb hc
  exact hbc ((h.home t ht b id hb).2.symm.trans (h.home t ht c id hc).2)

/-- What is left when the innermost table `t` is popped. -/
def popped (s : Store) (t : Tab) (ts : List Tab) : Store :=
  { s with
    heap := unshadow s.heap t.entries
    list := s.list.filterMap (relist s.heap t.entries)
    tabs := ts }

/-- **`vartab_pop` in one go.** -/
theorem WF.pop_eq (h : WF s) (hp : vartabPop s = some s') :
    ∃ t t' ts, s.tabs = t :: t' :: ts ∧ s' = s.popped t (t' :: ts) := by
  unfold vartabPop at hp
  split at hp
  · rename_i t t' ts hs
    have ht : t ∈ s.tabs := by simp [hs]
    refine ⟨t, t', ts, hs, ?_⟩
    rw [← Option.some.inj hp, foldl_cleanupEntry t.entries s h.list_nodup (h.nodup_entries ht)]
    · rfl
    · intro d hd p hdp
      obtain ⟨hdl, hdt⟩ := (h.mem_entries ht).mp hd
      obtain ⟨-, h2, -, h4⟩ := h.parent d p hdl hdp
      refine ⟨fun hmem => ?_, fun hmem => ?_⟩
      · have := ((h.mem_entries ht).mp hmem).2
        omega
      · simp [((h.mem_list p).mp hmem).2] at h2
    · intro d hd e he hde hne
      obtain ⟨p, hdp⟩ := Option.ne_none_iff_exists'.mp hne
      have h1 := (h.parent d p ((h.mem_entries ht).mp hd).1 hdp).2.1
      have h2 := (h.parent e p ((h.mem_entries ht).mp he).1 (hde ▸ hdp)).2.1
      simpa [h1] using h2
  · simp at hp

/-- The entries that are left are those further out. -/
theorem Tables.live_popped (h : Tables s) {t t' : Tab} {ts : List Tab}
    (hs : s.tabs = t :: t' :: ts) {j : VarId} :
    (s.popped t (t' :: ts)).Live j ↔ s.Live j ∧ (s.heap j).table < t.level := by
  have hlt := (h.level_lt_of_split (show s.tabs = [] ++ t :: t' :: ts from hs)).2
  constructor
  · rintro ⟨u, hu, b, hb⟩
    have hum : u ∈ s.tabs := by
      rw [hs]
      exact List.mem_cons_of_mem _ hu
    exact ⟨⟨u, hum, b, hb⟩, by rw [(h.home u hum b j hb).1]; exact hlt u hu⟩
  · rintro ⟨⟨u, hu, b, hb⟩, hj⟩
    rw [(h.home u hu b j hb).1] at hj
    rw [hs] at hu
    rcases List.mem_cons.mp hu with rfl | hu
    · exact absurd hj (lt_irrefl _)
    · exact ⟨u, hu, b, hb⟩

/-- An entry keeps all but its child. -/
theorem unshadow_eq (heap : VarId → Var) (l : List VarId) (j : VarId) :
    ∃ c, unshadow heap l j = { heap j with child := c } := by
  unfold unshadow
  split
  · exact ⟨none, rfl⟩
  · exact ⟨(heap j).child, rfl⟩

theorem SameHome.unshadow (heap : VarId → Var) (l : List VarId) (j : VarId) :
    SameHome (heap j) (unshadow heap l j) := by
  obtain ⟨c, hc⟩ := unshadow_eq heap l j
  rw [hc]
  exact ⟨rfl, rfl, rfl, fun h => ⟨h.valid, h.len, h.lex, h.rnd, h.text, h.offset⟩⟩

/-- **Popping a table keeps the invariant.** -/
theorem WF.pop (h : WF s) (hp : vartabPop s = some s') : WF s' := by
  obtain ⟨t, t', ts, hs, rfl⟩ := h.pop_eq hp
  have ht : t ∈ s.tabs := by simp [hs]
  have hlive : ∀ {j}, (s.popped t (t' :: ts)).Live j ↔ s.Live j ∧ (s.heap j).table < t.level :=
    h.toTables.live_popped hs
  have hhome : ∀ j, SameHome (s.heap j) ((s.popped t (t' :: ts)).heap j) :=
    SameHome.unshadow s.heap t.entries
  have hpar : ∀ j, ((s.popped t (t' :: ts)).heap j).parent = (s.heap j).parent :=
    unshadow_parent s.heap t.entries
  have hmem : ∀ {u}, u ∈ t' :: ts → u ∈ s.tabs := fun hu => hs ▸ List.mem_cons_of_mem _ hu
  have htop : ∀ j, s.Live j → (s.heap j).table ≤ t.level := by
    intro j hj
    obtain ⟨t0, ts0, h0, hv⟩ := h.varstack_spec
    obtain ⟨rfl, -⟩ : t = t0 ∧ t' :: ts = ts0 := by simpa [hs] using h0
    exact hv ▸ h.table_le hj
  -- an entry that has lost its child is one that was shadowed from the popped table
  have hany : ∀ {j}, s.Live j → ((t.entries.any fun d => (s.heap d).parent = some j) = true ↔
      ∃ c, (s.heap j).child = some c ∧ (s.heap c).table = t.level) := by
    intro j hj
    simp only [List.any_eq_true, decide_eq_true_eq]
    constructor
    · rintro ⟨d, hd, hdp⟩
      obtain ⟨hdl, hdt⟩ := (h.mem_entries ht).mp hd
      exact ⟨d, (h.parent d j hdl hdp).2.1, hdt⟩
    · rintro ⟨c, hc, hct⟩
      obtain ⟨h1, h2⟩ := h.child j c hj hc
      exact ⟨c, (h.mem_entries ht).mpr ⟨h1, hct⟩, h2⟩
  have hchild : ∀ {j c}, s.Live j → (((s.popped t (t' :: ts)).heap j).child = some c ↔
      (s.heap j).child = some c ∧ (s.heap c).table < t.level) := by
    intro j c hj
    change (unshadow s.heap t.entries j).child = some c ↔ _
    unfold unshadow
    split
    · rename_i ha
      obtain ⟨d, hd, hdt⟩ := (hany hj).mp ha
      constructor
      · simp
      · rintro ⟨hc, hct⟩
        obtain rfl : d = c := by simpa [hd] using hc
        omega
    · rename_i ha
      refine ⟨fun hc => ⟨hc, ?_⟩, fun hc => hc.1⟩
      have hne : (s.heap c).table ≠ t.level := fun hct => ha ((hany hj).mpr ⟨c, hc, hct⟩)
      exact lt_of_le_of_ne (htop c (h.child j c hj hc).1) hne
  refine ⟨⟨?_, ?_, ?_, ?_, ?_, ?_, ?_⟩, ⟨?_, ?_, ?_, ?_, ?_⟩⟩
  · have := h.levels
    rw [hs, List.map_cons, List.length_cons, List.range_succ, List.reverse_append] at this
    exact (List.cons.inj this).2
  · obtain ⟨us, u, hu, hf⟩ := h.root
    rw [hs] at hu
    match us, hu with
    | [], hu => simp at hu
    | _ :: us, hu => exact ⟨us, u, (List.cons.inj hu).2, hf⟩
  · exact fun id hid => (hhome id).named (h.named id (hlive.mp hid).1)
  · intro u hu b id hid
    rw [(hhome id).table, (hhome id).name]
    exact h.home u (hmem hu) b id hid
  · intro u hu b
    refine (h.sorted u (hmem hu) b).imp fun {i j} hlt => ?_
    rw [(hhome i).name, (hhome j).name]
    exact hlt
  · exact fun id hid => h.fresh id (hlive.mp hid).1
  · intro i j hi hj
    rw [(hhome i).lex, (hhome j).lex, (hhome i).name, (hhome j).name]
    exact h.noprefix i j (hlive.mp hi).1 (hlive.mp hj).1
  · have hname : ∀ {x y}, x ∈ s.list → relist s.heap t.entries x = some y →
        ((s.popped t (t' :: ts)).heap y).name = (s.heap x).name := by
      intro x y hx hxy
      unfold relist at hxy
      split at hxy
      · rw [(hhome y).name, (h.parent x y ((h.mem_list x).mp hx).1 hxy).2.2.1]
      · rw [(hhome y).name, Option.some.inj hxy]
    change (s.list.filterMap (relist s.heap t.entries)).Pairwise _
    rw [List.pairwise_filterMap]
    refine h.listSorted.imp_of_mem fun {i j} hi hj hlt => ?_
    intro b hb b' hb'
    rw [hname hi hb, hname hj hb']
    exact hlt
  · intro j
    change j ∈ s.list.filterMap (relist s.heap t.entries) ↔ _
    rw [List.mem_filterMap, hlive]
    constructor
    · rintro ⟨x, hx, hxj⟩
      obtain ⟨hxl, hxc⟩ := (h.mem_list x).mp hx
      unfold relist at hxj
      split at hxj
      · rename_i hxe
        obtain ⟨h1, h2, -, h4⟩ := h.parent x j hxl hxj
        have hxt := ((h.mem_entries ht).mp hxe).2
        refine ⟨⟨h1, hxt ▸ h4⟩, ?_⟩
        cases hc : ((s.popped t (t' :: ts)).heap j).child with
        | none => rfl
        | some c =>
          obtain ⟨hc1, hc2⟩ := (hchild h1).mp hc
          obtain rfl : x = c := by simpa [h2] using hc1
          omega
      · rename_i hxe
        obtain rfl := Option.some.inj hxj
        refine ⟨⟨hxl, lt_of_le_of_ne (htop x hxl) fun hxt =>
          hxe ((h.mem_entries ht).mpr ⟨hxl, hxt⟩)⟩, ?_⟩
        cases hc : ((s.popped t (t' :: ts)).heap x).child with
        | none => rfl
        | some c =>
          have := ((hchild hxl).mp hc).1
          simp [hxc] at this
    · rintro ⟨⟨hj, hjt⟩, hjc⟩
      cases hc : (s.heap j).child with
      | none =>
        refine ⟨j, (h.mem_list j).mpr ⟨hj, hc⟩, ?_⟩
        have : j ∉ t.entries := fun he => by
          have := ((h.mem_entries ht).mp he).2
          omega
        simp [relist, this]
      | some c =>
        obtain ⟨h1, h2⟩ := h.child j c hj hc
        have hct : (s.heap c).table = t.level := by
          by_contra hne
          have := (hchild hj).mpr ⟨hc, lt_of_le_of_ne (htop c h1) hne⟩
          simp [hjc] at this
        have hcnone : (s.heap c).child = none := by
          cases hcc : (s.heap c).child with
          | none => rfl
          | some d =>
            obtain ⟨h3, h4⟩ := h.child c d h1 hcc
            have := (h.parent d c h3 h4).2.2.2
            have := htop d h3
            omega
        refine ⟨c, (h.mem_list c).mpr ⟨h1, hcnone⟩, ?_⟩
        rw [relist, if_pos ((h.mem_entries ht).mpr ⟨h1, hct⟩), h2]
  · intro id p hid hp
    rw [hpar] at hp
    obtain ⟨hidl, hidt⟩ := hlive.mp hid
    obtain ⟨h1, h2, h3, h4⟩ := h.parent id p hidl hp
    rw [hlive, (hhome p).name, (hhome id).name, (hhome p).table, (hhome id).table]
    exact ⟨⟨h1, by omega⟩, (hchild h1).mpr ⟨h2, hidt⟩, h3, h4⟩
  · intro id c hid hc
    obtain ⟨h1, h2⟩ := (hchild (hlive.mp hid).1).mp hc
    obtain ⟨h3, h4⟩ := h.child id c (hlive.mp hid).1 h1
    exact ⟨hlive.mpr ⟨h3, h2⟩, (hpar c).trans h4⟩
  · intro i j hi hj
    rw [(hhome i).name, (hhome j).name, (hhome i).table, (hhome j).table, hpar]
    intro hn hlt
    obtain ⟨p, hp, hle⟩ := h.chain i j (hlive.mp hi).1 (hlive.mp hj).1 hn hlt
    exact ⟨p, hp, by rw [(hhome p).table]; exact hle⟩

end Store

end Shish
