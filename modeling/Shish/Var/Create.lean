import Shish.Var.Invariant

/-!
# Var/Create — the entry an assignment goes to

`var_create` returns the entry it finds or adds a new one, fresh or as a shadow of the one it found.
In a store in order it keeps it in order (`Store.WF.create`), as long as the neighbours of the name
do not mislead the search (`Store.CreateOk`).
-/

namespace Shish

namespace Store

variable {s s' : Store}

/-! ## When it adds an entry -/

/-- `var_create` adds an entry, rather than to return the one it found. -/
def creates (s : Store) (n : Str) (flags : Flags) : Bool :=
  match (varSearch s n false).1 with
  | none => true
  | some id => !flags.init && (s.heap id).table ≠ s.varstack && !(s.heap id).flags.isLocal &&
      (flags.isLocal || (s.heap id).table ≠ targetTab s flags)

/-- No longer name in the bucket of `n` on the table of level `k` starts with it. -/
def NoLonger (s : Store) (n : Str) (k : ℕ) : Prop :=
  ∀ t ∈ s.tabs, t.level = k → ∀ j ∈ t.bucket (bucketOf n),
    n <+: (s.heap j).name → (s.heap j).name = n

/-- No visible name of the same hash starts `n` or is started by it. -/
def NoTwin (s : Store) (n : Str) : Prop :=
  ∀ j ∈ s.list, varLexhash (s.heap j).name = varLexhash n →
    ¬ (s.heap j).name <+: n ∧ ¬ n <+: (s.heap j).name

/-- What an entry on the table of level `k` needs of what the search found: if nothing, no twin; if
an entry to shadow, that this lies further out. -/
def Placed (s : Store) (n : Str) (k : ℕ) : Option VarId → Prop
  | none => NoTwin s n
  | some id => (s.heap id).table < k

/-- The calls of `var_create` that do what they are meant to: those that add no entry, and those
whose search is not misled by a neighbour and whose entry does not go behind the one it shadows. -/
def CreateOk (s : Store) (n : Str) (flags : Flags) : Prop :=
  s.creates n flags = true →
    NoLonger s n (targetTab s flags) ∧ Placed s n (targetTab s flags) (varSearch s n false).1

instance (s : Store) (n : Str) (k : ℕ) : Decidable (NoLonger s n k) :=
  inferInstanceAs (Decidable (∀ t ∈ s.tabs, t.level = k → ∀ j ∈ t.bucket (bucketOf n),
    n <+: (s.heap j).name → (s.heap j).name = n))

instance (s : Store) (n : Str) : Decidable (NoTwin s n) :=
  inferInstanceAs (Decidable (∀ j ∈ s.list, varLexhash (s.heap j).name = varLexhash n →
    ¬ (s.heap j).name <+: n ∧ ¬ n <+: (s.heap j).name))

instance (s : Store) (n : Str) (k : ℕ) : ∀ r, Decidable (Placed s n k r)
  | none => inferInstanceAs (Decidable (NoTwin s n))
  | some id => inferInstanceAs (Decidable ((s.heap id).table < k))

instance (s : Store) (n : Str) (flags : Flags) : Decidable (CreateOk s n flags) :=
  inferInstanceAs (Decidable (_ → _ ∧ _))

/-! ## The entry it adds -/

/-- A store with one more entry. -/
structure Extends (s s' : Store) (entry : Var) : Prop where
  live : ∀ j, s'.Live j ↔ s.Live j ∨ j = s.next
  old : ∀ j, s.Live j → ∃ c, s'.heap j = { s.heap j with child := c }
  new : s'.heap s.next = entry
  tabs : ∃ b i, s'.tabs = s.tabs.map (Tab.link entry.table b i s.next)
  scopes : s'.tabs.map (fun t => (t.level, t.function)) = s.tabs.map fun t => (t.level, t.function)
  envs : s'.envs = s.envs

/-- A fresh entry for a name on the table of level `k`. -/
def freshEntry (n : Str) (k : ℕ) : Var :=
  { varInit n with flags := { unset := true, free := true }, table := k }

/-- A shadow of the entry `p` on the table of level `k`. -/
def shadowEntry (s : Store) (n : Str) (p : VarId) (k : ℕ) : Var :=
  { freshEntry n k with
    s := (s.heap p).s
    owned := false
    parent := some p
    flags := { unset := true, free := true, readonly := (s.heap p).flags.readonly } }

theorem named_varInit {n : Str} (hn : varValid n = true) : Named (varInit n) := by
  have hname : (varInit n).name = n := by simp [Var.name, varInit]
  refine ⟨by rw [hname]; exact hn, by rw [hname]; rfl, by rw [hname]; rfl, by rw [hname]; rfl, ?_,
    le_rfl, Nat.le_succ _⟩
  rw [hname, nameOf]
  refine List.takeWhile_eq_self_iff.mpr fun c hc => ?_
  have := isNameChar_toNat (varValid_chars hn c hc)
  simp only [decide_eq_true_eq]
  rintro rfl
  revert this
  decide

theorem name_freshEntry (n : Str) (k : ℕ) : (freshEntry n k).name = n := by
  simp [freshEntry, Var.name, varInit]

theorem named_freshEntry {n : Str} (hn : varValid n = true) (k : ℕ) : Named (freshEntry n k) := by
  have h := named_varInit hn
  exact ⟨h.valid, h.len, h.lex, h.rnd, h.text, h.offset⟩

theorem name_shadowEntry {n : Str} {p : VarId} (hp : Named (s.heap p))
    (hname : (s.heap p).name = n) (k : ℕ) : (shadowEntry s n p k).name = n := by
  have hlen : (s.heap p).len = n.length := by rw [hp.len, hname]
  calc (shadowEntry s n p k).name = (s.heap p).s.take n.length := rfl
    _ = (s.heap p).name := by rw [Var.name, hlen]
    _ = n := hname

theorem named_shadowEntry {n : Str} {p : VarId} (hp : Named (s.heap p))
    (hname : (s.heap p).name = n) (k : ℕ) : Named (shadowEntry s n p k) := by
  have hn' := name_shadowEntry hp hname k
  exact ⟨by rw [hn', ← hname]; exact hp.valid, by rw [hn']; rfl, by rw [hn']; rfl,
    by rw [hn']; rfl, by rw [hn']; exact hp.text.trans hname, le_rfl, Nat.le_succ _⟩

/-! ## Adding it -/

/-- The place the search leaves in the table a new entry goes to. -/
theorem WF.fits_search (h : WF s) {n : Str} (hn : varValid n = true) {k : ℕ}
    (hk : ∃ t ∈ s.tabs, t.level = k)
    (habs : ∀ j, s.Live j → (s.heap j).name = n → (s.heap j).table < k)
    (hpre : ∀ j, s.Live j → varLexhash (s.heap j).name = varLexhash n → (s.heap j).name <+: n →
      (s.heap j).name = n)
    (hext : NoLonger s n k) :
    ∃ i, (varSearch s n false).2.position k = (bucketOf n, i) ∧
      Fits (varSearch s n false).2 k n i := by
  obtain ⟨t, ht, rfl⟩ := hk
  obtain ⟨ts, ts', hs⟩ := List.append_of_mem ht
  have hsearch : Searchable s.heap s.tabs n :=
    ⟨fun _ ht => h.ordered ht _, fun t ht j hj => hpre j ⟨t, ht, _, hj⟩⟩
  rw [hs] at hsearch
  have hnd := h.nodup
  rw [hs] at hnd
  have habs' : ∀ u ∈ ts ++ [t], ∀ j ∈ u.bucket (bucketOf n), (s.heap j).name ≠ n := by
    intro u hu j hj hname
    have hum : u ∈ s.tabs := by
      rw [hs]
      rcases List.mem_append.mp hu with hu | hu
      · simp [hu]
      · simp [List.mem_singleton.mp hu]
    have hlt := habs j ⟨u, hum, _, hj⟩ hname
    rw [(h.home u hum _ j hj).1] at hlt
    rcases List.mem_append.mp hu with hu | hu
    · exact absurd hlt (not_lt.mpr ((h.level_lt_of_split hs).1 u hu).le)
    · rw [List.mem_singleton.mp hu] at hlt
      exact lt_irrefl _ hlt
  obtain ⟨a, b, hab, hpos, ha, hb⟩ := varSearchGo_place hn ts t ts' (vartabHash n false)
    s.position (for_vartabHash n false) rfl hsearch hnd habs' (hext t ht rfl)
  rw [← hs] at hpos
  exact ⟨a.length, hpos, ⟨t, ht, rfl, a, b, hab, rfl, ha, hb⟩⟩

theorem scopes_link (tabs : List Tab) (k b i : ℕ) (id : VarId) :
    (tabs.map (Tab.link k b i id)).map (fun t => (t.level, t.function)) =
      tabs.map fun t => (t.level, t.function) := by
  rw [List.map_map]
  refine List.map_congr_left fun t _ => ?_
  simp only [Function.comp, Tab.link]
  split <;> rfl

/-- A visible name of every live one is on `var_list`. -/
theorem WF.exists_mem_list (h : WF s) {j : VarId} (hj : s.Live j) :
    ∃ i ∈ s.list, (s.heap i).name = (s.heap j).name := by
  obtain ⟨i, hi⟩ := h.exists_visible hj rfl
  exact ⟨i, (h.mem_list i).mpr ⟨hi.live, hi.child_none h⟩, hi.name⟩

theorem globalPlace_congr {heap heap' : VarId → Var} {l : List VarId} {n : Str}
    (h : ∀ j ∈ l, heap' j = heap j) : globalPlace heap' l n = globalPlace heap l n := by
  have hm : ∀ l' : List VarId, (∀ j ∈ l', j ∈ l) → l'.map heap' = l'.map heap := fun l' hl =>
    List.map_congr_left fun j hj => h j (hl j hj)
  unfold globalPlace
  rw [hm l fun _ hj => hj]
  simp only
  rw [hm _ fun _ hj => List.mem_of_mem_drop hj]

/-- **A name not seen before**, whatever else its entry holds. -/
theorem WF.add_new (h : WF s) {n : Str} (hn : varValid n = true) {k : ℕ}
    (hk : ∃ t ∈ s.tabs, t.level = k) (habs : ∀ j, s.Live j → (s.heap j).name ≠ n)
    (hext : NoLonger s n k)
    (hrel : NoTwin s n)
    (new : Var) (hnamed : Named new) (hname : new.name = n) (hpar : new.parent = none)
    (hchild : new.child = none) {s1 : Store} (hs1 : (varSearch s n false).2 = s1)
    (hs' : vartabAdd { s1 with heap := Function.update s1.heap s1.next new, next := s1.next + 1 }
      k s1.next = s') : WF s' ∧ Extends s s' { new with table := k } := by
  have hrel' : ∀ j, s.Live j → varLexhash (s.heap j).name = varLexhash n →
      ¬ (s.heap j).name <+: n ∧ ¬ n <+: (s.heap j).name := by
    intro j hj hlex
    obtain ⟨i, hi, hij⟩ := h.exists_mem_list hj
    rw [← hij] at hlex ⊢
    exact hrel i hi hlex
  obtain ⟨i, hpos, hfits⟩ := h.fits_search hn hk (fun j hj hjn => absurd hjn (habs j hj))
    (fun j hj hlex hp => absurd hp (hrel' j hj hlex).1) hext
  have hne : ∀ j, s.Live j → j ≠ s.next := fun j hj => (h.fresh j hj).ne
  have hwf := h.search n false
  rw [hs1] at hpos hfits hwf
  have hnext : s1.next = s.next := by rw [← hs1]; rfl
  have hheap : s1.heap = s.heap := by rw [← hs1]; rfl
  have htabs : s1.tabs = s.tabs := by rw [← hs1]; rfl
  have hlist : s1.list = s.list := by rw [← hs1]; rfl
  have henvs : s1.envs = s.envs := by rw [← hs1]; rfl
  have hlive : ∀ {j}, s1.Live j ↔ s.Live j := Live.congr htabs
  have hs'tabs : s'.tabs = s1.tabs.map (Tab.link k (bucketOf n) i s1.next) := by
    simp [← hs', vartabAdd, hpos]
  have hnew : s'.heap s1.next = { new with table := k } := by simp [← hs', vartabAdd]
  have hold : ∀ j, s1.Live j → s'.heap j = s1.heap j := by
    intro j hj
    have : j ≠ s1.next := hnext ▸ hne j (hlive.mp hj)
    simp [← hs', vartabAdd, this]
  refine ⟨?_, ?_, ?_, ?_, ?_, ?_, ?_⟩
  · refine hwf.addFresh hfits hs'tabs (by simp [← hs', vartabAdd])
      (fun j hj => by rw [hold j hj]; exact .refl _)
      (by rw [hnew]; exact ⟨hnamed.valid, hnamed.len, hnamed.lex, hnamed.rnd, hnamed.text,
        hnamed.offset⟩) (by rw [hnew]; exact hname)
      (by rw [hnew]) (by rw [hnew]; exact hpar) (by rw [hnew]; exact hchild)
      (fun j hj => by rw [hheap]; exact habs j (hlive.mp hj))
      (fun j hj => by rw [hheap]; exact hrel' j (hlive.mp hj)) ?_
    have hlo : Ordered s1.heap s1.list :=
      ⟨fun j hj => hwf.named j ((hwf.mem_list j).mp hj).1, hwf.listSorted⟩
    obtain ⟨a, b, hab, hplace, ha, hb⟩ := globalPlace_spec hlo hn
      (fun j hj => by rw [hheap]; exact habs j (hlive.mp ((hwf.mem_list j).mp hj).1))
      (fun j hj => by rw [hheap]; exact hrel j (hlist ▸ hj))
    refine ⟨a, b, hab, ?_, ha, hb⟩
    have hgp : globalPlace (Function.update s1.heap s1.next new) s1.list n = a.length := by
      rw [← hplace]
      refine globalPlace_congr fun j hj => Function.update_of_ne ?_ _ _
      exact hnext ▸ hne j (hlive.mp ((hwf.mem_list j).mp hj).1)
    have hlist' : s'.list = s1.list.insertIdx
        (globalPlace (Function.update s1.heap s1.next new) s1.list new.name) s1.next := by
      simp [← hs', vartabAdd, hpar, Var.name]
    rw [hlist', hname, hgp, hab, insertIdx_append]
  · exact fun j => by rw [hwf.live_add hfits hs'tabs, hlive, hnext]
  · intro j hj
    exact ⟨(s.heap j).child, by rw [hold j (hlive.mpr hj), hheap]⟩
  · rw [← hnext, hnew]
  · exact ⟨bucketOf n, i, by rw [hs'tabs, htabs, hnext]⟩
  · rw [hs'tabs, scopes_link, htabs]
  · simp [← hs', vartabAdd, henvs]

/-- **A fresh entry.** -/
theorem WF.shadow_none (h : WF s) {n : Str} (hn : varValid n = true) {k : ℕ}
    (hk : ∃ t ∈ s.tabs, t.level = k) (habs : ∀ j, s.Live j → (s.heap j).name ≠ n)
    (hext : NoLonger s n k)
    (hrel : NoTwin s n) :
    WF (varShadow (varSearch s n false).2 n none k).1 ∧
      (varShadow (varSearch s n false).2 n none k).2 = some s.next ∧
      Extends s (varShadow (varSearch s n false).2 n none k).1 (freshEntry n k) := by
  have hnamed := named_freshEntry hn 0
  obtain ⟨h1, h2⟩ := h.add_new hn hk habs hext hrel (freshEntry n 0) hnamed
    (name_freshEntry n 0) rfl rfl rfl rfl
  exact ⟨h1, rfl, h2⟩

/-- **A shadow of the visible entry, further in.** -/
theorem WF.shadow_some (h : WF s) {n : Str} (hn : varValid n = true) {k : ℕ} {p : VarId}
    (hk : ∃ t ∈ s.tabs, t.level = k) (hv : s.Visible n p) (hpk : (s.heap p).table < k)
    (hext : NoLonger s n k) :
    WF (varShadow (varSearch s n false).2 n (some p) k).1 ∧
      (varShadow (varSearch s n false).2 n (some p) k).2 = some s.next ∧
      Extends s (varShadow (varSearch s n false).2 n (some p) k).1 (shadowEntry s n p k) := by
  have hpre : ∀ j, s.Live j → varLexhash (s.heap j).name = varLexhash n →
      (s.heap j).name <+: n → (s.heap j).name = n := by
    intro j hj hlex hp
    have := h.noprefix j p hj hv.live
    rw [(h.named j hj).lex, (h.named p hv.live).lex, hv.name] at this
    exact this hlex hp
  obtain ⟨i, hpos, hfits⟩ := h.fits_search hn hk
    (fun j hj hjn => (hv.inner j hj hjn).trans_lt hpk) hpre hext
  have hne : ∀ j, s.Live j → j ≠ s.next := fun j hj => (h.fresh j hj).ne
  have hwf := h.search n false
  generalize hs1 : (varSearch s n false).2 = s1 at hpos hfits hwf
  have hnext : s1.next = s.next := by rw [← hs1]; rfl
  have hheap : s1.heap = s.heap := by rw [← hs1]; rfl
  have htabs : s1.tabs = s.tabs := by rw [← hs1]; rfl
  have henvs : s1.envs = s.envs := by rw [← hs1]; rfl
  have hlive : ∀ {j}, s1.Live j ↔ s.Live j := Live.congr htabs
  have hv1 : s1.Visible n p := by
    refine ⟨hlive.mpr hv.live, hheap ▸ hv.name, fun j hj hjn => ?_⟩
    rw [hheap] at hjn ⊢
    exact hv.inner j (hlive.mp hj) hjn
  have hpnamed := h.named p hv.live
  have hpn : p ≠ s1.next := hnext ▸ hne p hv.live
  set s' := (varShadow s1 n (some p) k).1 with hs'
  have hnew : s'.heap s1.next = shadowEntry s n p k := by
    simp [hs', varShadow, vartabAdd, shadowEntry, freshEntry, varInit, hheap]
  have hold : ∀ j, s1.Live j → j ≠ p → s'.heap j = s1.heap j := by
    intro j hj hjp
    have : j ≠ s1.next := hnext ▸ hne j (hlive.mp hj)
    simp [hs', varShadow, vartabAdd, this, hjp]
  have hpheap : s'.heap p = { s1.heap p with child := some s1.next } := by
    simp [hs', varShadow, vartabAdd, hpn]
  have hs'tabs : s'.tabs = s1.tabs.map (Tab.link k (bucketOf n) i s1.next) := by
    simp [hs', varShadow, vartabAdd, hpos]
  refine ⟨?_, by simp [varShadow, hnext], ?_, ?_, ?_, ?_, ?_, ?_⟩
  · refine hwf.addShadow hv1 (by rw [hheap]; exact hpk) hfits hs'tabs rfl
      (fun j hj hjp => by rw [hold j hj hjp]; exact .refl _) ?_ (by rw [hpheap])
      (by rw [hpheap]) (by rw [hnew]; exact named_shadowEntry hpnamed hv.name k)
      (by rw [hnew]; exact name_shadowEntry hpnamed hv.name k) (by rw [hnew]; rfl)
      (by rw [hnew]; rfl) (by rw [hnew]; rfl) ?_
    · rw [hpheap]
      exact ⟨rfl, rfl, rfl, fun h => ⟨h.valid, h.len, h.lex, h.rnd, h.text, h.offset⟩⟩
    · simp [hs', varShadow, vartabAdd]
  · exact fun j => by rw [hwf.live_add hfits hs'tabs, hlive, hnext]
  · intro j hj
    by_cases hjp : j = p
    · exact ⟨some s1.next, by rw [hjp, hpheap, hheap]⟩
    · exact ⟨(s.heap j).child, by rw [hold j (hlive.mpr hj) hjp, hheap]⟩
  · rw [← hnext, hnew]
  · exact ⟨bucketOf n, i, by rw [hs'tabs, htabs, hnext]; rfl⟩
  · rw [hs'tabs, scopes_link, htabs]
  · simp [hs', varShadow, vartabAdd, henvs]

/-! ## The call -/

/-- What a call of `var_create` for `n` leaves behind. -/
inductive Created (s : Store) (n : Str) (flags : Flags) : Store → Option VarId → Prop
  | kept (id : VarId) (pos : ℕ → ℕ × ℕ) : s.Visible n id → s.creates n flags = false →
      Created s n flags { s with position := pos } (if flags.init then none else some id)
  | fresh (s' : Store) : s.creates n flags = true → (∀ j, s.Live j → (s.heap j).name ≠ n) →
      Extends s s' (freshEntry n (targetTab s flags)) → Created s n flags s' (some s.next)
  | shadow (s' : Store) (p : VarId) : s.creates n flags = true → s.Visible n p →
      (s.heap p).table < targetTab s flags →
      Extends s s' (shadowEntry s n p (targetTab s flags)) → Created s n flags s' (some s.next)

theorem targetTab_search (s : Store) (n : Str) (e : Bool) (flags : Flags) :
    targetTab (varSearch s n e).2 flags = targetTab s flags := rfl

/-- `var_create`, by what it finds and whether it adds. -/
theorem varCreate_eq (s : Store) (v : Str) (flags : Flags) :
    varCreate s v flags = match (varSearch s (nameOf v) false).1 with
      | none => varShadow (varSearch s (nameOf v) false).2 (nameOf v) none (targetTab s flags)
      | some id =>
          if s.creates (nameOf v) flags then
            varShadow (varSearch s (nameOf v) false).2 (nameOf v) (some id) (targetTab s flags)
          else ((varSearch s (nameOf v) false).2, if flags.init then none else some id) := by
  have hheap : (varSearch s (nameOf v) false).2.heap = s.heap := rfl
  have hvs : (varSearch s (nameOf v) false).2.varstack = s.varstack := rfl
  simp only [varCreate, targetTab_search, hheap, hvs]
  cases hf : (varSearch s (nameOf v) false).1 with
  | none => rfl
  | some id =>
    have hc : s.creates (nameOf v) flags = (!flags.init && (s.heap id).table ≠ s.varstack &&
        !(s.heap id).flags.isLocal && (flags.isLocal || (s.heap id).table ≠ targetTab s flags)) := by
      simp [creates, hf]
    rw [hc]
    dsimp only
    split_ifs <;> simp_all

/-- **`var_create` in a store in order**: the invariant is kept, and the entry is the visible one, a
fresh one, or a shadow of the visible one. -/
theorem WF.create (h : WF s) {v : Str} {flags : Flags} (hn : varValid (nameOf v) = true)
    (hok : CreateOk s (nameOf v) flags) :
    WF (varCreate s v flags).1 ∧
      Created s (nameOf v) flags (varCreate s v flags).1 (varCreate s v flags).2 := by
  set n := nameOf v with hnv
  have hk := h.targetTab_mem flags
  have hsplit := varCreate_eq s v flags
  rw [← hnv] at hsplit
  cases hf : (varSearch s n false).1 with
  | none =>
    rw [hf] at hsplit
    have habs := (h.search_none hn).mp hf
    have hc : s.creates n flags = true := by simp [creates, hf]
    obtain ⟨hext, hrel⟩ := hok hc
    rw [hf] at hrel
    obtain ⟨h1, h2, h3⟩ := h.shadow_none hn hk habs hext hrel
    rw [hsplit]
    exact ⟨h1, h2 ▸ .fresh _ hc habs h3⟩
  | some p =>
    rw [hf] at hsplit
    have hv := (h.search_iff hn false).mp hf
    dsimp only at hsplit
    cases hc : s.creates n flags with
    | true =>
      obtain ⟨hext, hlt⟩ := hok hc
      rw [hf] at hlt
      rw [hc, if_pos rfl] at hsplit
      obtain ⟨h1, h2, h3⟩ := h.shadow_some hn hk hv hlt hext
      rw [hsplit]
      exact ⟨h1, h2 ▸ .shadow _ p hc hv hlt h3⟩
    | false =>
      rw [hc, if_neg (by simp)] at hsplit
      rw [hsplit]
      exact ⟨h.search n false, .kept p _ hv hc⟩

end Store

end Shish
