import Shish.Var.Run

/-!
# Var/Isolation — a subshell and the variables around it

A subshell runs in the same process: it pushes a table and pops it again.  What keeps it from
changing the variables outside is that an assignment goes to a shadow on the new table.  Two
operations get around that: `var_unset` takes away what it shadows too, and an outer entry marked
`V_LOCAL` is returned as it is.  `Store.subshell_isolated` is what holds when neither happens,
`Store.unset_escapes` what does when one does.
-/

namespace Shish

/-! ## What `var_get` reports -/

/-- What a name reports: whether it is set, the text behind the offset, and the attributes. -/
structure View where
  unset : Bool
  value : Str
  exported : Bool
  readonly : Bool
  deriving DecidableEq

def Var.view (v : Var) : View where
  unset := v.flags.unset
  value := v.value
  exported := v.flags.exported
  readonly := v.flags.readonly

namespace Store

variable {s s' s0 : Store}

/-- What `var_get` and `var_search` report for a name. -/
def view (s : Store) (n : Str) : Option View := (varGet s n).map Var.view

/-- Where the last searches stopped makes no difference to what is found. -/
theorem view_position (s : Store) (pos : ℕ → ℕ × ℕ) (n : Str) :
    ({ s with position := pos } : Store).view n = s.view n := by
  unfold view varGet varSearch
  dsimp only
  rw [varSearchGo_fst s.tabs _ pos s.position]

theorem WF.view_visible (h : WF s) {n : Str} (hn : varValid n = true) {id : VarId}
    (hv : s.Visible n id) : s.view n = some (s.heap id).view := by
  simp [view, varGet, nameOf_of_valid hn, (h.search_iff hn true).mpr hv]

theorem WF.view_none (h : WF s) {n : Str} (hn : varValid n = true)
    (habs : ∀ j, s.Live j → (s.heap j).name ≠ n) : s.view n = none := by
  simp [view, varGet, nameOf_of_valid hn, (h.search_none hn (e := true)).mpr habs]

/-- A name is visible as one entry or is not there at all. -/
theorem Tables.visible_or_absent (h : Tables s) (n : Str) :
    (∃ id, s.Visible n id) ∨ ∀ j, s.Live j → (s.heap j).name ≠ n := by
  by_cases hex : ∃ j, s.Live j ∧ (s.heap j).name = n
  · obtain ⟨j, hj, hjn⟩ := hex
    exact .inl (h.exists_visible hj hjn)
  · exact .inr fun j hj hjn => hex ⟨j, hj, hjn⟩

/-! ## What a subshell leaves alone -/

/-- `s` has the tables of `s0` at the bottom of its stack, as they were, under a table that is not a
function's; and their entries as they were but for who shadows them. -/
structure Frozen (s0 s : Store) : Prop where
  tabs : ∃ inner t, s.tabs = inner ++ t :: s0.tabs ∧ t.function = false
  heap : ∀ j, s0.Live j → ∃ c, s.heap j = { s0.heap j with child := c }

theorem Frozen.live (hf : Frozen s0 s) {j : VarId} (hj : s0.Live j) : s.Live j := by
  obtain ⟨inner, t, hs, -⟩ := hf.tabs
  obtain ⟨u, hu, b, hb⟩ := hj
  exact ⟨u, by simp [hs, hu], b, hb⟩

/-- The tables on top lie further in than those that are left alone. -/
theorem Frozen.level_le (h0 : WF s0) (h : WF s) {inner : List Tab} {t : Tab}
    (hs : s.tabs = inner ++ t :: s0.tabs) {u : Tab} (hu : u ∈ inner ++ [t]) :
    s0.tabs.length ≤ u.level := by
  obtain ⟨t0, ht0, hl0⟩ := h0.exists_level
    (Nat.sub_lt (List.length_pos_iff.mpr h0.ne_nil) Nat.one_pos)
  have hsplit : s.tabs = (inner ++ [t]) ++ s0.tabs := by rw [hs]; simp
  have hp : (s.tabs.map Tab.level).Pairwise (· > ·) := by
    rw [h.levels, List.pairwise_reverse]
    exact List.pairwise_lt_range
  rw [List.pairwise_map, hsplit, List.pairwise_append] at hp
  have hgt := hp.2.2 u hu t0 ht0
  have hpos := List.length_pos_iff.mpr h0.ne_nil
  rw [hl0] at hgt
  omega

theorem Frozen.table_lt (h0 : WF s0) (hf : Frozen s0 s) {j : VarId} (hj : s0.Live j) :
    (s.heap j).table < s0.tabs.length := by
  obtain ⟨c, hc⟩ := hf.heap j hj
  rw [hc]
  exact h0.table_lt hj

/-- An entry that lies further out than the top tables is one of those that are left alone. -/
theorem Frozen.live_of_table_lt (h0 : WF s0) (h : WF s) (hf : Frozen s0 s) {j : VarId}
    (hj : s.Live j) (hlt : (s.heap j).table < s0.tabs.length) : s0.Live j := by
  obtain ⟨inner, t, hs, -⟩ := hf.tabs
  obtain ⟨u, hu, b, hb⟩ := hj
  rw [(h.home u hu b j hb).1] at hlt
  have hu' : u ∈ (inner ++ [t]) ++ s0.tabs := by
    rw [hs] at hu
    simpa using hu
  rcases List.mem_append.mp hu' with hu' | hu'
  · exact absurd hlt (not_lt.mpr (Frozen.level_le h0 h hs hu'))
  · exact ⟨u, hu', b, hb⟩

theorem Frozen.le_varstack (h0 : WF s0) (h : WF s) (hf : Frozen s0 s) :
    s0.tabs.length ≤ s.varstack := by
  obtain ⟨inner, t, hs, -⟩ := hf.tabs
  exact (Frozen.level_le h0 h hs (u := t) (by simp)).trans (h.le_varstack (by simp [hs]))

/-- **New entries go to the tables on top.** -/
theorem Frozen.le_target (h0 : WF s0) (h : WF s) (hf : Frozen s0 s) (flags : Flags) :
    s0.tabs.length ≤ targetTab s flags := by
  unfold targetTab
  split
  · exact hf.le_varstack h0 h
  · obtain ⟨inner, t, hs, hfn⟩ := hf.tabs
    have hstop : ∀ l : List Tab, ∃ u ∈ l ++ [t], skipFunctions (l ++ t :: s0.tabs) = u.level := by
      intro l
      induction l with
      | nil => exact ⟨t, by simp, by simp [skipFunctions, hfn]⟩
      | cons a l ih =>
        obtain ⟨u, hu, hl⟩ := ih
        by_cases ha : a.function
        · exact ⟨u, List.mem_cons_of_mem _ hu, by simp [skipFunctions, ha, hl]⟩
        · exact ⟨a, by simp, by simp [skipFunctions, ha]⟩
    obtain ⟨u, hu, hl⟩ := hstop inner
    rw [hs, hl]
    exact Frozen.level_le h0 h hs hu

/-- The steps a subshell may take, `L` being the level of its table: it unsets no name that has an
entry outside, writes to no outer entry that is local, and does not pop its own table. -/
def Inside (L : ℕ) (s : Store) : Op → Prop
  | .setv v _ flags _ | .setsa v flags _ | .setvint v _ flags | .set v flags =>
      ∀ id ∈ (varSearch s (nameOf v) false).1, (s.heap id).table < L →
        (s.heap id).flags.isLocal = true →
          flags.init = true ∨ (s.heap id).flags.readonly = true
  | .copys v flags =>
      ∀ id ∈ (varSearch s (nameOf v) false).1, (s.heap id).table < L →
        (s.heap id).flags.isLocal = true → flags.init = true
  | .chflg v _ _ =>
      ∀ id ∈ (varSearch s (nameOf v) false).1, (s.heap id).table < L →
        (s.heap id).flags.isLocal = true → (s.heap id).table ≠ s.shVarstack ∧
          ((s.heap id).flags.unset = false ∨ (s.heap id).flags.readonly = true)
  | .hide v =>
      ∀ id ∈ (varSearch s (nameOf v) false).1, (s.heap id).table < L →
        (s.heap id).flags.isLocal = false
  | .unset v => ∀ t ∈ s.tabs, t.level < L → ∀ j ∈ t.bucket (bucketOf (nameOf v)),
      (s.heap j).name ≠ nameOf v
  | .pop => L < s.varstack
  | .import_ _ _ => False
  | .get _ | .push _ | .shPush | .shPop => True

instance (L : ℕ) (s : Store) : ∀ op : Op, Decidable (Inside L s op)
  | .setv v _ flags _ | .setsa v flags _ | .setvint v _ flags | .set v flags =>
      inferInstanceAs (Decidable (∀ id ∈ (varSearch s (nameOf v) false).1, (s.heap id).table < L →
        (s.heap id).flags.isLocal = true →
          flags.init = true ∨ (s.heap id).flags.readonly = true))
  | .copys v flags =>
      inferInstanceAs (Decidable (∀ id ∈ (varSearch s (nameOf v) false).1, (s.heap id).table < L →
        (s.heap id).flags.isLocal = true → flags.init = true))
  | .chflg v _ _ =>
      inferInstanceAs (Decidable (∀ id ∈ (varSearch s (nameOf v) false).1, (s.heap id).table < L →
        (s.heap id).flags.isLocal = true → (s.heap id).table ≠ s.shVarstack ∧
          ((s.heap id).flags.unset = false ∨ (s.heap id).flags.readonly = true)))
  | .hide v =>
      inferInstanceAs (Decidable (∀ id ∈ (varSearch s (nameOf v) false).1, (s.heap id).table < L →
        (s.heap id).flags.isLocal = false))
  | .unset v =>
      inferInstanceAs (Decidable (∀ t ∈ s.tabs, t.level < L →
        ∀ j ∈ t.bucket (bucketOf (nameOf v)), (s.heap j).name ≠ nameOf v))
  | .pop => inferInstanceAs (Decidable (L < s.varstack))
  | .import_ _ _ => isFalse id
  | .get _ | .push _ | .shPush | .shPop => isTrue trivial

theorem Tab.link_of_ne {t : Tab} {k b i : ℕ} {id : VarId} (h : t.level ≠ k) :
    t.link k b i id = t := by
  simp [Tab.link, h]

theorem Frozen.extend (h0 : WF s0) (hf : Frozen s0 s) {e : Var}
    (hk : s0.tabs.length ≤ e.table) (hext : Extends s s' e) : Frozen s0 s' := by
  refine ⟨?_, ?_⟩
  · obtain ⟨inner, t, hs, hfn⟩ := hf.tabs
    obtain ⟨b, i, htabs⟩ := hext.tabs
    refine ⟨inner.map (Tab.link e.table b i s.next), t.link e.table b i s.next, ?_, ?_⟩
    · have hid : s0.tabs.map (Tab.link e.table b i s.next) = s0.tabs := by
        conv_rhs => rw [← List.map_id s0.tabs]
        refine List.map_congr_left fun u hu => Tab.link_of_ne ?_
        exact ((h0.level_lt hu).trans_le hk).ne
      rw [htabs, hs, List.map_append, List.map_cons, hid]
    · unfold Tab.link
      split <;> exact hfn
  · intro j hj
    obtain ⟨c, hc⟩ := hf.heap j hj
    obtain ⟨c', hc'⟩ := hext.old j (hf.live hj)
    exact ⟨c', by rw [hc', hc]⟩

theorem Frozen.create (h0 : WF s0) (h : WF s) (hf : Frozen s0 s) {n : Str} {flags : Flags}
    {r : Option VarId} (hc : Created s n flags s' r) : Frozen s0 s' := by
  cases hc with
  | kept => exact ⟨hf.tabs, hf.heap⟩
  | fresh _ _ _ hext => exact hf.extend h0 (hf.le_target h0 h flags) hext
  | shadow _ _ _ _ _ hext => exact hf.extend h0 (hf.le_target h0 h flags) hext

/-- **The entry returned is an outer one only when that is local.** -/
theorem Frozen.outer_local (h0 : WF s0) (h : WF s) (hf : Frozen s0 s) {n : Str}
    (hn : varValid n = true) {flags : Flags} {id : VarId}
    (hc : Created s n flags s' (some id)) (hid : s0.Live id) :
    id ∈ (varSearch s n false).1 ∧ flags.init = false ∧ s'.heap id = s.heap id ∧
      (s.heap id).table < s0.tabs.length ∧ (s.heap id).flags.isLocal = true := by
  have hlt := hf.table_lt h0 hid
  have hnext : id ≠ s.next := (h.fresh id (hf.live hid)).ne
  generalize hr : some id = r at hc
  cases hc with
  | kept p pos hv hcr =>
    split at hr
    · simp at hr
    · rename_i hinit
      obtain rfl := Option.some.inj hr
      refine ⟨(h.search_iff hn false).mpr hv, by simpa using hinit, rfl, hlt, ?_⟩
      rw [creates_visible h hn hv] at hcr
      have h1 : (s.heap id).table ≠ s.varstack := (hlt.trans_le (hf.le_varstack h0 h)).ne
      have h2 : (s.heap id).table ≠ targetTab s flags := (hlt.trans_le (hf.le_target h0 h flags)).ne
      simpa [hinit, h1, h2] using hcr
  | fresh => exact absurd (Option.some.inj hr) hnext
  | shadow => exact absurd (Option.some.inj hr) hnext

theorem Frozen.modify (hf : Frozen s0 s) {id : VarId} {w : Var → Var}
    (hid : s0.Live id → w (s.heap id) = s.heap id) : Frozen s0 (s.modify id w) := by
  refine ⟨hf.tabs, fun j hj => ?_⟩
  obtain ⟨c, hc⟩ := hf.heap j hj
  refine ⟨c, ?_⟩
  by_cases hji : j = id
  · subst hji
    simp only [Store.modify, Function.update_self]
    rw [hid hj, hc]
  · simp only [Store.modify, Function.update_of_ne hji]
    exact hc

theorem Frozen.assign (h0 : WF s0) (h : WF s) (hf : Frozen s0 s) {v : Str} {flags : Flags}
    (hn : varValid (nameOf v) = true) (hok : CreateOk s (nameOf v) flags)
    (hin : ∀ id ∈ (varSearch s (nameOf v) false).1, (s.heap id).table < s0.tabs.length →
      (s.heap id).flags.isLocal = true →
        flags.init = true ∨ (s.heap id).flags.readonly = true) {w : Var → Var} {r : Bool}
    (ha : Shish.assign s v flags w = some (s', r)) : Frozen s0 s' := by
  obtain ⟨-, hc⟩ := h.create hn hok
  unfold Shish.assign at ha
  split at ha
  · simp at ha
  · rename_i s1 id hs1
    rw [hs1] at hc
    have hf1 := hf.create h0 h hc
    split at ha
    · obtain ⟨rfl, -⟩ := Prod.mk.inj (Option.some.inj ha)
      exact hf1
    · rename_i hro
      obtain ⟨rfl, -⟩ := Prod.mk.inj (Option.some.inj ha)
      refine hf1.modify fun hid => ?_
      obtain ⟨h1, h2, h3, h4, h5⟩ := hf.outer_local h0 h hn hc hid
      rw [show (s1.heap id) = s.heap id from h3] at hro
      rcases hin id h1 h4 h5 with h6 | h6
      · simp [h2] at h6
      · exact absurd h6 hro

theorem Frozen.set (h0 : WF s0) (h : WF s) (hf : Frozen s0 s) {v : Str} {own : Bool}
    {flags : Flags} (hn : varValid (nameOf v) = true) (hok : CreateOk s (nameOf v) flags)
    (hin : ∀ id ∈ (varSearch s (nameOf v) false).1, (s.heap id).table < s0.tabs.length →
      (s.heap id).flags.isLocal = true → flags.init = true ∨
        (s.heap id).flags.readonly = true ∨ (own = true ∧ (s.heap id).flags.unset = false)) :
    Frozen s0 (varSet s v own flags).1 := by
  obtain ⟨-, hc⟩ := h.create hn hok
  unfold varSet
  split
  · rename_i s1 hs1
    rw [hs1] at hc
    exact hf.create h0 h hc
  · rename_i s1 id hs1
    rw [hs1] at hc
    have hf1 := hf.create h0 h hc
    split
    · exact hf1
    · rename_i hro
      refine hf1.modify fun hid => ?_
      obtain ⟨h1, h2, h3, h4, h5⟩ := hf.outer_local h0 h hn hc hid
      have h3 : s1.heap id = s.heap id := h3
      rw [h3] at hro ⊢
      rcases hin id h1 h4 h5 with h6 | h6 | ⟨h6, h7⟩
      · simp [h2] at h6
      · exact absurd h6 hro
      · simp [setWrite, h6, h7]

theorem Frozen.copys (h0 : WF s0) (h : WF s) (hf : Frozen s0 s) {v : Str} {flags : Flags}
    (hn : varValid (nameOf v) = true) (hok : CreateOk s (nameOf v) flags)
    (hin : ∀ id ∈ (varSearch s (nameOf v) false).1, (s.heap id).table < s0.tabs.length →
      (s.heap id).flags.isLocal = true → flags.init = true) : Frozen s0 (varCopys s v flags) := by
  obtain ⟨-, hc⟩ := h.create hn hok
  unfold varCopys
  split
  · rename_i s1 hs1
    rw [hs1] at hc
    exact hf.create h0 h hc
  · rename_i s1 id hs1
    rw [hs1] at hc
    refine (hf.create h0 h hc).modify fun hid => ?_
    obtain ⟨h1, h2, -, h4, h5⟩ := hf.outer_local h0 h hn hc hid
    simp [hin id h1 h4 h5] at h2

theorem Frozen.hide (h0 : WF s0) (h : WF s) (hf : Frozen s0 s) {v : Str}
    (hn : varValid (nameOf v) = true) (hok : CreateOk s (nameOf v) { isLocal := true })
    (hin : ∀ id ∈ (varSearch s (nameOf v) false).1, (s.heap id).table < s0.tabs.length →
      (s.heap id).flags.isLocal = false) : Frozen s0 (envHide s v) := by
  obtain ⟨-, hc⟩ := h.create hn hok
  unfold envHide
  split
  · rename_i s1 hs1
    rw [hs1] at hc
    exact hf.create h0 h hc
  · rename_i s1 id hs1
    rw [hs1] at hc
    refine (hf.create h0 h hc).modify fun hid => ?_
    obtain ⟨h1, -, -, h4, h5⟩ := hf.outer_local h0 h hn hc hid
    simp [hin id h1 h4] at h5

theorem Frozen.chflg (h0 : WF s0) (h : WF s) (hf : Frozen s0 s) {v : Str} {flags : Flags}
    {set : Bool} (hn : varValid (nameOf v) = true) (hok : ChflgOk s (nameOf v) flags set)
    (hin : ∀ id ∈ (varSearch s (nameOf v) false).1, (s.heap id).table < s0.tabs.length →
      (s.heap id).flags.isLocal = true → (s.heap id).table ≠ s.shVarstack ∧
        ((s.heap id).flags.unset = false ∨ (s.heap id).flags.readonly = true)) :
    Frozen s0 (varChflg s v flags set) := by
  obtain ⟨hwf, hc⟩ := h.create hn hok.1
  unfold varChflg
  split
  · rename_i s1 hs1
    rw [hs1] at hc
    exact hf.create h0 h hc
  · rename_i s1 id hs1
    rw [hs1] at hc hwf
    have hf1 := hf.create h0 h hc
    obtain ⟨hl, hname⟩ := hc.live h
    have htext : nameOf (s1.heap id).s = nameOf v := (hwf.named id hl).text.trans hname
    have henv : s1.shVarstack = s.shVarstack := by unfold shVarstack; rw [hc.envs]
    have hout : s0.Live id → (s1.heap id).table ≠ s1.shVarstack ∧
        ((s1.heap id).flags.unset = false ∨ (s1.heap id).flags.readonly = true) := by
      intro hid
      obtain ⟨h1, -, h3, h4, h5⟩ := hf.outer_local h0 h hn hc hid
      have h3 : s1.heap id = s.heap id := h3
      rw [h3, henv]
      exact hin id h1 h4 h5
    dsimp only
    split
    · rename_i htab
      exact hf1.modify fun hid => absurd htab (hout hid).1
    · refine hf1.set h0 hwf (by rw [htext]; exact hn) ?_ ?_
      · rw [htext]
        exact hc.second_chflg h hwf hn hok
      · intro j hj hjt _
        rw [htext] at hj
        obtain rfl : id = j := by
          have := (hwf.search_iff hn false).mpr (hc.visible h)
          simpa [Option.mem_def, this] using hj
        have hid : s0.Live id := hf1.live_of_table_lt h0 hwf hl hjt
        rcases (hout hid).2 with h6 | h6
        · exact .inr (.inr ⟨rfl, h6⟩)
        · exact .inr (.inl h6)

theorem Frozen.unset (h0 : WF s0) (h : WF s) (hf : Frozen s0 s) {v : Str}
    (hn : varValid (nameOf v) = true)
    (hin : ∀ t ∈ s.tabs, t.level < s0.tabs.length → ∀ j ∈ t.bucket (bucketOf (nameOf v)),
      (s.heap j).name ≠ nameOf v) : Frozen s0 (varUnset s v) := by
  obtain ⟨pos, hu⟩ := h.unset_eq hn
  rw [hu]
  refine ⟨?_, hf.heap⟩
  obtain ⟨inner, t, hs, hfn⟩ := hf.tabs
  have hid : s0.tabs.map (Tab.keep fun x => (s.heap x).name ≠ nameOf v) = s0.tabs := by
    conv_rhs => rw [← List.map_id s0.tabs]
    refine List.map_congr_left fun u hu => ?_
    have hum : u ∈ s.tabs := by simp [hs, hu]
    have hb : (fun b => (u.bucket b).filter fun x => (s.heap x).name ≠ nameOf v) = u.bucket := by
      funext b
      refine List.filter_eq_self.mpr fun j hj => ?_
      simp only [decide_eq_true_eq]
      intro hname
      obtain ⟨-, hjb⟩ := h.home u hum b j hj
      rw [hname] at hjb
      exact hin u hum (h0.level_lt hu) j (hjb ▸ hj) hname
    rw [Tab.keep, hb]
    rfl
  refine ⟨inner.map (Tab.keep fun x => (s.heap x).name ≠ nameOf v),
    t.keep fun x => (s.heap x).name ≠ nameOf v, ?_, hfn⟩
  simp only [Store.keep, hs, List.map_append, List.map_cons, hid]

/-- The table that is popped is not the last of those on top. -/
theorem Frozen.pop (h : WF s) (hf : Frozen s0 s) (hin : s0.tabs.length < s.varstack)
    (hp : vartabPop s = some s') : Frozen s0 s' := by
  obtain ⟨t, t', ts, hs, rfl⟩ := h.pop_eq hp
  refine ⟨?_, fun j hj => ?_⟩
  · obtain ⟨inner, u, hsu, hfn⟩ := hf.tabs
    match inner, hsu with
    | [], hsu =>
      -- then the innermost table is the one at the bottom of those on top
      have hlen := h.varstack_succ
      rw [hsu, List.nil_append, List.length_cons] at hlen
      omega
    | a :: inner, hsu =>
      refine ⟨inner, u, ?_, hfn⟩
      rw [hs] at hsu
      exact (List.cons.inj hsu).2
  · obtain ⟨c, hc⟩ := hf.heap j hj
    obtain ⟨c', hc'⟩ := unshadow_eq s.heap t.entries j
    refine ⟨c', ?_⟩
    change unshadow s.heap t.entries j = _
    rw [hc', hc]

/-- **No step inside touches what lies outside.** -/
theorem Frozen.step (h0 : WF s0) (h : WF s) (hf : Frozen s0 s) {op : Op} (hok : Ok s op)
    (hin : Inside s0.tabs.length s op) (hs : Shish.step s op = some s') : Frozen s0 s' := by
  obtain ⟨hval, hok⟩ := hok
  have hfst : ∀ {r : Option (Store × Bool)}, r.map Prod.fst = some s' → ∃ b, r = some (s', b) := by
    rintro (_ | ⟨s1, b⟩) hr
    · simp at hr
    · exact ⟨b, by simpa using hr⟩
  cases op with
  | setv v value flags ae =>
    obtain ⟨b, hb⟩ := hfst hs
    exact hf.assign h0 h hval hok hin hb
  | setsa sa flags ae =>
    obtain ⟨b, hb⟩ := hfst hs
    exact hf.assign h0 h hval hok hin hb
  | setvint v i flags =>
    obtain ⟨b, hb⟩ := hfst hs
    exact hf.assign h0 h hval hok hin hb
  | set v flags =>
    rw [← Option.some.inj hs]
    exact hf.set h0 h hval hok fun id h1 h2 h3 => (hin id h1 h2 h3).imp_right .inl
  | copys v flags =>
    rw [← Option.some.inj hs]
    exact hf.copys h0 h hval hok hin
  | chflg v flags set =>
    rw [← Option.some.inj hs]
    exact hf.chflg h0 h hval hok hin
  | import_ v flags => exact absurd hin id
  | hide v =>
    rw [← Option.some.inj hs]
    exact hf.hide h0 h hval hok hin
  | unset v =>
    rw [← Option.some.inj hs]
    exact hf.unset h0 h hval hin
  | get v =>
    rw [← Option.some.inj hs]
    exact ⟨hf.tabs, hf.heap⟩
  | push function =>
    rw [← Option.some.inj hs]
    obtain ⟨inner, t, hs, hfn⟩ := hf.tabs
    exact ⟨⟨_ :: inner, t, by simp only [vartabPush, hs]; rfl, hfn⟩, hf.heap⟩
  | pop => exact hf.pop h hin hs
  | shPush =>
    rw [← Option.some.inj hs]
    exact ⟨hf.tabs, hf.heap⟩
  | shPop =>
    simp only [Shish.step, Shish.shPop] at hs
    split at hs
    · split at hs
      · rw [← Option.some.inj hs]
        exact ⟨hf.tabs, hf.heap⟩
      · simp at hs
    · simp at hs

/-! ## The subshell -/

theorem frozen_push (s : Store) : Frozen s (vartabPush s false) :=
  ⟨⟨[], _, rfl, rfl⟩, fun j _ => ⟨(s.heap j).child, rfl⟩⟩

/-- Entries that differ in who shadows them alone report the same. -/
theorem WF.view_congr (h : WF s) (h' : WF s') (ht : s'.tabs = s.tabs)
    (hheap : ∀ j, s.Live j → ∃ c, s'.heap j = { s.heap j with child := c }) {n : Str}
    (hn : varValid n = true) : s'.view n = s.view n := by
  have hlive : ∀ {j}, s'.Live j ↔ s.Live j := Live.congr ht
  rcases h.visible_or_absent n with ⟨id, hv⟩ | habs
  · obtain ⟨c, hc⟩ := hheap id hv.live
    have hv' : s'.Visible n id := by
      refine ⟨hlive.mpr hv.live, by rw [hc]; exact hv.name, fun j hj hjn => ?_⟩
      obtain ⟨c', hc'⟩ := hheap j (hlive.mp hj)
      rw [hc'] at hjn
      rw [hc, hc']
      exact hv.inner j (hlive.mp hj) hjn
    rw [h.view_visible hn hv, h'.view_visible hn hv', hc]
    rfl
  · have habs' : ∀ j, s'.Live j → (s'.heap j).name ≠ n := by
      intro j hj
      obtain ⟨c, hc⟩ := hheap j (hlive.mp hj)
      rw [hc]
      exact habs j (hlive.mp hj)
    rw [h.view_none hn habs, h'.view_none hn habs']

/-- **A subshell leaves every name as it was.**  From a state a run reaches, push the subshell's
table, take any steps that neither mislead the search nor reach around the new table, and pop it:
every name reports what it reported before. -/
theorem subshell_isolated {pre ops : List Op} {s0 s1 : Store} (hpre : Along Shish.step Ok {} pre)
    (h0 : Shish.run {} pre = some s0)
    (hin : Along Shish.step (fun s op => Ok s op ∧ Inside (s0.varstack + 1) s op)
      (vartabPush s0 false) ops)
    (h1 : Shish.run (vartabPush s0 false) ops = some s1)
    (hbal : s1.varstack = s0.varstack + 1) :
    ∃ s2, vartabPop s1 = some s2 ∧ ∀ n, varValid n = true → s2.view n = s0.view n := by
  have hwf0 := WF.init.run hpre h0
  have hlen : s0.varstack + 1 = s0.tabs.length := hwf0.varstack_succ
  rw [hlen] at hin
  obtain ⟨hwf1, hf⟩ := run_invariant (fun s => WF s ∧ Frozen s0 s)
    (fun s op s' ⟨h, hf⟩ ⟨hok, hin⟩ hs => ⟨h.step hok.1 hok.2 hs, hf.step hwf0 h hok hin hs⟩)
    ops ⟨hwf0.push false, frozen_push s0⟩ hin h1
  obtain ⟨inner, t, hs1, -⟩ := hf.tabs
  have hinner : inner = [] := by
    have := hwf1.varstack_succ
    rw [hbal, hlen, hs1] at this
    simp only [List.length_append, List.length_cons] at this
    exact List.length_eq_zero_iff.mp (by omega)
  subst hinner
  obtain ⟨t0, ts0, hts0⟩ := List.exists_cons_of_ne_nil hwf0.ne_nil
  have hp : ∃ s2, vartabPop s1 = some s2 := by
    unfold vartabPop
    rw [hs1, hts0]
    exact ⟨_, rfl⟩
  obtain ⟨s2, hp⟩ := hp
  refine ⟨s2, hp, fun n hn => ?_⟩
  obtain ⟨u, u', us, hsu, rfl⟩ := hwf1.pop_eq hp
  refine hwf0.view_congr (hwf1.pop hp) ?_ ?_ hn
  · rw [hs1] at hsu
    exact (List.cons.inj hsu).2.symm
  · intro j hj
    obtain ⟨c, hc⟩ := hf.heap j hj
    obtain ⟨c', hc'⟩ := unshadow_eq s1.heap u.entries j
    exact ⟨c', by change unshadow s1.heap u.entries j = _; rw [hc', hc]⟩

/-- One variable, set at the top. -/
def outerOps : List Op := [.setv "x".toList "1".toList {} false]

/-- A subshell that assigns, calls a function with a local of its own, and exports. -/
def tameOps : List Op :=
  [.shPush, .setv "x".toList "2".toList {} false, .push true,
    .setv "x".toList "3".toList { isLocal := true } false, .setv "y".toList "4".toList {} false, .pop,
    .chflg "x".toList { exported := true } true, .shPop]

/-- The state around the subshell. -/
def outer : Store := (Shish.run {} outerOps).getD {}

theorem isolated_tame : ∃ s1 s2, Shish.run {} outerOps = some outer ∧
    Shish.run (vartabPush outer false) tameOps = some s1 ∧ vartabPop s1 = some s2 ∧
    ∀ n, varValid n = true → s2.view n = outer.view n := by
  have hpre : Along Shish.step Ok {} outerOps := by decide
  have h0 : Shish.run {} outerOps = some outer := by
    cases h : Shish.run {} outerOps with
    | none => exact absurd h (Option.isSome_iff_ne_none.mp (by decide))
    | some s0 => simp [outer, h]
  have hin : Along Shish.step (fun s op => Ok s op ∧ Inside (outer.varstack + 1) s op)
      (vartabPush outer false) tameOps := by decide
  have hbal : (Shish.run (vartabPush outer false) tameOps).map Store.varstack =
      some (outer.varstack + 1) := by decide
  obtain ⟨s1, h1, hs1⟩ := Option.map_eq_some_iff.mp hbal
  obtain ⟨s2, h2, hview⟩ := subshell_isolated hpre h0 hin h1 hs1
  exact ⟨s1, s2, h0, h1, h2, hview⟩

/-- What `x` reports before a subshell that runs `ops`, and after it. -/
def viewsAround (ops : List Op) : Option (Option View × Option View) := do
  let s0 ← Shish.run {} outerOps
  let s1 ← Shish.run (vartabPush s0 false) ops
  let s2 ← vartabPop s1
  return (s0.view "x".toList, s2.view "x".toList)

/-- **An unset inside a subshell reaches outside**: the variable is gone after it. -/
theorem unset_escapes : ∃ s0 s1 s2, Shish.run {} outerOps = some s0 ∧
    Shish.run (vartabPush s0 false) [.unset "x".toList] = some s1 ∧ vartabPop s1 = some s2 ∧
    s2.view "x".toList ≠ s0.view "x".toList := by
  have hv : viewsAround [.unset "x".toList] = some (some ⟨false, "1".toList, false, false⟩, none) := by
    decide
  simp only [viewsAround, Option.bind_eq_bind, Option.bind_eq_some_iff, Option.pure_def,
    Option.some.injEq, Prod.mk.injEq] at hv
  obtain ⟨s0, h0, s1, h1, s2, h2, hx0, hx2⟩ := hv
  exact ⟨s0, s1, s2, h0, h1, h2, by rw [hx0, hx2]; simp⟩

end Store

end Shish
