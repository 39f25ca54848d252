import Mathlib
import Shish.Var.Isolation

/-!
# Var/Local — the locals of a function and the functions around it

A function call pushes a table, and `local` assigns with `V_LOCAL`, so that the entry goes to that
table.  But `var_create` looks first, and an entry that is marked `V_LOCAL` is returned wherever it
lies: a name that is local to a caller is overwritten there.  `Store.local_leaves_callers_iff` says
that this is the only way a callee's `local` reaches a caller.
-/

namespace Shish

/-! ## The builtin -/

/-- What `local` does for one argument: for one without a value the length wraps around, and
nothing is appended. -/
def localOp (arg : Str) (allexport : Bool) : Op :=
  .setv arg (arg.drop ((nameOf arg).length + 1)) { isLocal := true } allexport

/-- `builtin_local` with arguments: names that are none are passed over. -/
def builtinLocal (args : List Str) (allexport : Bool) : List Op :=
  (args.filter fun a => varValid (nameOf a)).map fun a => localOp a allexport

/-- The steps of a callee that does nothing to `n` but declare it local, `L` being the level of its
table, which it does not pop. -/
def Callee (n : Str) (L : ℕ) (s : Store) : Op → Prop
  | .setv v value flags _ => nameOf v = n →
      value = v.drop ((nameOf v).length + 1) ∧ flags = { isLocal := true }
  | .setsa v _ _ | .setvint v _ _ | .set v _ | .copys v _ | .chflg v _ _ | .hide v | .unset v =>
      nameOf v ≠ n
  | .pop => L < s.varstack
  | .import_ _ _ => False
  | .get _ | .push _ | .shPush | .shPop => True

instance (n : Str) (L : ℕ) (s : Store) : ∀ op : Op, Decidable (Callee n L s op)
  | .setv v value flags _ => inferInstanceAs (Decidable (nameOf v = n →
      value = v.drop ((nameOf v).length + 1) ∧ flags = { isLocal := true }))
  | .setsa v _ _ | .setvint v _ _ | .set v _ | .copys v _ | .chflg v _ _ | .hide v | .unset v =>
      inferInstanceAs (Decidable (nameOf v ≠ n))
  | .pop => inferInstanceAs (Decidable (L < s.varstack))
  | .import_ _ _ => isFalse id
  | .get _ | .push _ | .shPush | .shPop => isTrue trivial

namespace Store

variable {s s' s0 : Store} {n m : Str}

/-! ## The entries of a name -/

/-- An entry for the name `n`. -/
structure Carries (s : Store) (n : Str) (j : VarId) : Prop where
  live : s.Live j
  name : (s.heap j).name = n

/-- The entries for `n` are the same ones, but for who shadows them. -/
structure SameEntries (n : Str) (s s' : Store) : Prop where
  depth : s'.tabs.length = s.tabs.length
  carries : ∀ j, s'.Carries n j ↔ s.Carries n j
  heap : ∀ j, s.Carries n j → ∃ c, s'.heap j = { s.heap j with child := c }

theorem SameEntries.refl (n : Str) (s : Store) : SameEntries n s s :=
  ⟨rfl, fun _ => .rfl, fun j _ => ⟨(s.heap j).child, rfl⟩⟩

theorem SameEntries.trans {s'' : Store} (h : SameEntries n s s') (h' : SameEntries n s' s'') :
    SameEntries n s s'' := by
  refine ⟨h'.depth.trans h.depth, fun j => (h'.carries j).trans (h.carries j), fun j hj => ?_⟩
  obtain ⟨c, hc⟩ := h.heap j hj
  obtain ⟨c', hc'⟩ := h'.heap j ((h.carries j).mpr hj)
  exact ⟨c', by rw [hc', hc]⟩

theorem SameEntries.congr (ht : s'.tabs = s.tabs) (hheap : s'.heap = s.heap) :
    SameEntries n s s' := by
  refine ⟨by rw [ht], fun j => ?_, fun j _ => ⟨(s.heap j).child, by rw [hheap]⟩⟩
  exact ⟨fun h => ⟨(Live.congr ht).mp h.live, hheap ▸ h.name⟩,
    fun h => ⟨(Live.congr ht).mpr h.live, hheap.symm ▸ h.name⟩⟩

theorem SameEntries.extend {e : Var} (hext : Extends s s' e) (hne : e.name ≠ n) :
    SameEntries n s s' := by
  refine ⟨by simpa using congrArg List.length hext.scopes, fun j => ?_, fun j hj => hext.old j hj.live⟩
  constructor
  · rintro ⟨hj, hname⟩
    rcases (hext.live j).mp hj with hj | rfl
    · obtain ⟨c, hc⟩ := hext.old j hj
      exact ⟨hj, by rw [hc] at hname; exact hname⟩
    · rw [hext.new] at hname
      exact absurd hname hne
  · rintro ⟨hj, hname⟩
    obtain ⟨c, hc⟩ := hext.old j hj
    exact ⟨(hext.live j).mpr (.inl hj), by rw [hc]; exact hname⟩

/-- `var_create` for another name. -/
theorem SameEntries.create (h : WF s) (hne : m ≠ n) {flags : Flags} {r : Option VarId}
    (hc : Created s m flags s' r) : SameEntries n s s' := by
  cases hc with
  | kept => exact .congr rfl rfl
  | fresh _ _ _ hext =>
    exact .extend hext (by rw [name_freshEntry]; exact hne)
  | shadow _ p _ hv _ hext =>
    exact .extend hext (by rw [name_shadowEntry (h.named p hv.live) hv.name]; exact hne)

theorem SameEntries.modify {id : VarId} (hname : (s.heap id).name = m) (hne : m ≠ n)
    {w : Var → Var} (hw : (w (s.heap id)).name = m) : SameEntries n s (s.modify id w) := by
  have hheap : ∀ j, j ≠ id → (s.modify id w).heap j = s.heap j := fun j hj => by
    simp [Store.modify, hj]
  refine ⟨rfl, fun j => ?_, fun j hj => ?_⟩
  · by_cases hj : j = id
    · subst hj
      constructor
      · rintro ⟨-, hname'⟩
        simp only [Store.modify, Function.update_self] at hname'
        exact absurd (hw.symm.trans hname') hne
      · rintro ⟨-, hname'⟩
        exact absurd (hname.symm.trans hname') hne
    · exact ⟨fun h => ⟨h.live, hheap j hj ▸ h.name⟩, fun h => ⟨h.live, (hheap j hj).symm ▸ h.name⟩⟩
  · have hji : j ≠ id := by
      rintro rfl
      exact hne (hname.symm.trans hj.name)
    exact ⟨(s.heap j).child, by rw [hheap j hji]⟩

theorem SameEntries.write (h : WF s) {id : VarId} (hl : s.Live id) (hname : (s.heap id).name = m)
    (hne : m ≠ n) {w : Var → Var} (hw : Writes m w) : SameEntries n s (s.modify id w) :=
  .modify hname hne ((hw _ (h.named id hl) hname).name.trans hname)

theorem SameEntries.assign (h : WF s) {v : Str} {flags : Flags} (hn : varValid (nameOf v) = true)
    (hok : CreateOk s (nameOf v) flags) (hne : nameOf v ≠ n) {w : Var → Var}
    (hw : Writes (nameOf v) w) {r : Bool} (ha : Shish.assign s v flags w = some (s', r)) :
    SameEntries n s s' := by
  obtain ⟨hwf, hc⟩ := h.create hn hok
  unfold Shish.assign at ha
  split at ha
  · simp at ha
  · rename_i s1 id hs1
    rw [hs1] at hwf hc
    have h1 := SameEntries.create h hne hc
    obtain ⟨hl, hname⟩ := hc.live h
    split at ha
    · obtain ⟨rfl, -⟩ := Prod.mk.inj (Option.some.inj ha)
      exact h1
    · obtain ⟨rfl, -⟩ := Prod.mk.inj (Option.some.inj ha)
      exact h1.trans (.write hwf hl hname hne hw)

theorem SameEntries.set (h : WF s) {v : Str} {own : Bool} {flags : Flags}
    (hn : varValid (nameOf v) = true) (hok : CreateOk s (nameOf v) flags) (hne : nameOf v ≠ n) :
    SameEntries n s (varSet s v own flags).1 := by
  obtain ⟨hwf, hc⟩ := h.create hn hok
  unfold varSet
  split
  · rename_i s1 hs1
    rw [hs1] at hc
    exact .create h hne hc
  · rename_i s1 id hs1
    rw [hs1] at hwf hc
    have h1 := SameEntries.create h hne hc
    obtain ⟨hl, hname⟩ := hc.live h
    split
    · exact h1
    · exact h1.trans (.write hwf hl hname hne (writes_setWrite own))

theorem SameEntries.copys (h : WF s) {v : Str} {flags : Flags} (hn : varValid (nameOf v) = true)
    (hok : CreateOk s (nameOf v) flags) (hne : nameOf v ≠ n) :
    SameEntries n s (varCopys s v flags) := by
  obtain ⟨hwf, hc⟩ := h.create hn hok
  unfold varCopys
  split
  · rename_i s1 hs1
    rw [hs1] at hc
    exact .create h hne hc
  · rename_i s1 id hs1
    rw [hs1] at hwf hc
    obtain ⟨hl, hname⟩ := hc.live h
    exact (SameEntries.create h hne hc).trans (.write hwf hl hname hne (writes_text true _))

theorem SameEntries.hide (h : WF s) {v : Str} (hn : varValid (nameOf v) = true)
    (hok : CreateOk s (nameOf v) { isLocal := true }) (hne : nameOf v ≠ n) :
    SameEntries n s (envHide s v) := by
  obtain ⟨hwf, hc⟩ := h.create hn hok
  unfold envHide
  split
  · rename_i s1 hs1
    rw [hs1] at hc
    exact .create h hne hc
  · rename_i s1 id hs1
    rw [hs1] at hwf hc
    obtain ⟨hl, hname⟩ := hc.live h
    exact (SameEntries.create h hne hc).trans (.write hwf hl hname hne (writes_flags _ _))

theorem SameEntries.chflg (h : WF s) {v : Str} {flags : Flags} {set : Bool}
    (hn : varValid (nameOf v) = true) (hok : ChflgOk s (nameOf v) flags set) (hne : nameOf v ≠ n) :
    SameEntries n s (varChflg s v flags set) := by
  obtain ⟨hwf, hc⟩ := h.create hn hok.1
  unfold varChflg
  split
  · rename_i s1 hs1
    rw [hs1] at hc
    exact .create h hne hc
  · rename_i s1 id hs1
    rw [hs1] at hwf hc
    have h1 := SameEntries.create h hne hc
    obtain ⟨hl, hname⟩ := hc.live h
    have htext : nameOf (s1.heap id).s = nameOf v := (hwf.named id hl).text.trans hname
    dsimp only
    split
    · exact h1.trans (.write hwf hl hname hne (writes_flags _ fun _ => _))
    · refine h1.trans (.set hwf ?_ ?_ ?_)
      · rw [htext]
        exact hn
      · rw [htext]
        exact hc.second_chflg h hwf hn hok
      · rw [htext]
        exact hne

theorem SameEntries.unset (h : WF s) {v : Str} (hn : varValid (nameOf v) = true)
    (hne : nameOf v ≠ n) : SameEntries n s (varUnset s v) := by
  obtain ⟨pos, hu⟩ := h.unset_eq hn
  rw [hu]
  refine ⟨by simp [Store.keep], fun j => ?_, fun j _ => ⟨(s.heap j).child, rfl⟩⟩
  constructor
  · rintro ⟨hj, hname⟩
    exact ⟨(Live.congr rfl).mp (live_keep.mp hj).1, hname⟩
  · rintro ⟨hj, hname⟩
    refine ⟨live_keep.mpr ⟨(Live.congr rfl).mpr hj, ?_⟩, hname⟩
    rw [hname]
    simpa using Ne.symm hne

/-- **Names report what their entries do.** -/
theorem SameEntries.view (hsame : SameEntries n s s') (h : WF s) (h' : WF s')
    (hn : varValid n = true) : s'.view n = s.view n := by
  rcases h.visible_or_absent n with ⟨id, hv⟩ | habs
  · obtain ⟨c, hc⟩ := hsame.heap id ⟨hv.live, hv.name⟩
    have hv' : s'.Visible n id := by
      refine ⟨((hsame.carries id).mpr ⟨hv.live, hv.name⟩).live, by rw [hc]; exact hv.name, ?_⟩
      intro j hj hjn
      have hj' := (hsame.carries j).mp ⟨hj, hjn⟩
      obtain ⟨c', hc'⟩ := hsame.heap j hj'
      rw [hc, hc']
      exact hv.inner j hj'.live hj'.name
    rw [h.view_visible hn hv, h'.view_visible hn hv', hc]
    rfl
  · have habs' : ∀ j, s'.Live j → (s'.heap j).name ≠ n := fun j hj hjn =>
      have hj' := (hsame.carries j).mp ⟨hj, hjn⟩
      habs j hj'.live hj'.name
    rw [h.view_none hn habs, h'.view_none hn habs']

/-! ## What a callee leaves alone -/

/-- The entries for `n` on the tables of `s0` are as they were, with more tables on top. -/
structure Outer (n : Str) (s0 s : Store) : Prop where
  depth : s0.tabs.length < s.tabs.length
  out : ∀ j, s0.Carries n j → s.Carries n j ∧ ∃ c, s.heap j = { s0.heap j with child := c }
  only : ∀ j, s.Carries n j → (s.heap j).table < s0.tabs.length → s0.Carries n j

theorem Outer.same (ho : Outer n s0 s) (hsame : SameEntries n s s') : Outer n s0 s' := by
  refine ⟨hsame.depth ▸ ho.depth, fun j hj => ?_, fun j hj hlt => ?_⟩
  · obtain ⟨hj', c, hc⟩ := ho.out j hj
    obtain ⟨c', hc'⟩ := hsame.heap j hj'
    exact ⟨(hsame.carries j).mpr hj', c', by rw [hc', hc]⟩
  · have hj' := (hsame.carries j).mp hj
    obtain ⟨c, hc⟩ := hsame.heap j hj'
    rw [hc] at hlt
    exact ho.only j hj' hlt

theorem Outer.le_varstack (h : WF s) (ho : Outer n s0 s) : s0.tabs.length ≤ s.varstack := by
  have := h.varstack_succ
  have := ho.depth
  omega

/-- A new entry for the name goes to a table on top. -/
theorem Outer.extend (ho : Outer n s0 s) {e : Var} (hext : Extends s s' e)
    (he : s0.tabs.length ≤ e.table) : Outer n s0 s' := by
  have hlen : s'.tabs.length = s.tabs.length := by simpa using congrArg List.length hext.scopes
  refine ⟨hlen ▸ ho.depth, fun j hj => ?_, fun j hj hlt => ?_⟩
  · obtain ⟨hj', c, hc⟩ := ho.out j hj
    obtain ⟨c', hc'⟩ := hext.old j hj'.live
    refine ⟨⟨(hext.live j).mpr (.inl hj'.live), ?_⟩, c', by rw [hc', hc]⟩
    rw [hc']
    exact hj'.name
  · rcases (hext.live j).mp hj.live with hl | rfl
    · obtain ⟨c, hc⟩ := hext.old j hl
      have hname := hj.name
      rw [hc] at hlt hname
      exact ho.only j ⟨hl, hname⟩ hlt
    · rw [hext.new] at hlt
      omega

theorem Outer.modify (h : WF s) (ho : Outer n s0 s) {id : VarId} (hid : ¬ s0.Carries n id)
    (hl : s.Live id) (hname : (s.heap id).name = n) {w : Var → Var} (hw : Writes n w) :
    Outer n s0 (s.modify id w) := by
  have hheap : ∀ j, j ≠ id → (s.modify id w).heap j = s.heap j := fun j hj => by
    simp [Store.modify, hj]
  refine ⟨ho.depth, fun j hj => ?_, fun j hj hlt => ?_⟩
  · have hji : j ≠ id := by
      rintro rfl
      exact hid hj
    obtain ⟨hj', c, hc⟩ := ho.out j hj
    exact ⟨⟨hj'.live, (hheap j hji).symm ▸ hj'.name⟩, c, by rw [hheap j hji, hc]⟩
  · by_cases hji : j = id
    · subst hji
      simp only [Store.modify, Function.update_self] at hlt
      rw [(hw _ (h.named j hl) hname).table] at hlt
      exact ho.only j ⟨hl, hname⟩ hlt
    · rw [hheap j hji] at hlt
      exact ho.only j ⟨hj.live, hheap j hji ▸ hj.name⟩ hlt

/-- What is visible and belongs to a caller is what the caller sees. -/
theorem Outer.visible (ho : Outer n s0 s) {id : VarId} (hv : s.Visible n id)
    (hid : s0.Carries n id) : s0.Visible n id := by
  refine ⟨hid.live, hid.name, fun j hj hjn => ?_⟩
  obtain ⟨hj', c, hc⟩ := ho.out j ⟨hj, hjn⟩
  obtain ⟨-, c', hc'⟩ := ho.out id hid
  have := hv.inner j hj'.live hj'.name
  rwa [hc, hc'] at this

/-- The entry a caller has for the name is not one that `local` writes to. -/
def Shadowable (s0 : Store) (n : Str) : Prop :=
  ∀ id, s0.Visible n id → (s0.heap id).flags.isLocal = true → (s0.heap id).flags.readonly = true

/-- **`local` in the callee.** -/
theorem Outer.assign (h0 : WF s0) (h : WF s) (ho : Outer n s0 s) (hsh : s0.Shadowable n) {v : Str}
    (hv : nameOf v = n) (hn : varValid n = true) (hok : CreateOk s n { isLocal := true })
    {w : Var → Var} (hw : Writes n w) {r : Bool}
    (ha : Shish.assign s v { isLocal := true } w = some (s', r)) : Outer n s0 s' := by
  subst hv
  obtain ⟨hwf, hc⟩ := h.create hn hok
  unfold Shish.assign at ha
  split at ha
  · simp at ha
  · rename_i s1 id hs1
    rw [hs1] at hwf hc
    obtain ⟨hl, hname⟩ := hc.live h
    have htgt : targetTab s { isLocal := true } = s.varstack := rfl
    generalize hr : some id = x at hc
    -- an entry of a caller is returned only if it is local, and then it is readonly
    have hcase : Outer (nameOf v) s0 s1 ∧
        (s0.Carries (nameOf v) id → (s1.heap id).flags.readonly = true) := by
      cases hc with
      | kept p pos hvis hcr =>
        obtain rfl : id = p := by simpa using hr
        refine ⟨ho.same (.congr rfl rfl), fun hid => ?_⟩
        obtain ⟨-, c, hheap⟩ := ho.out id hid
        have hlt : (s.heap id).table < s0.tabs.length := by
          rw [hheap]
          exact h0.table_lt hid.live
        have hloc : (s.heap id).flags.isLocal = true := by
          rw [creates_visible h hn hvis] at hcr
          have hne : (s.heap id).table ≠ s.varstack := (hlt.trans_le (ho.le_varstack h)).ne
          simpa [hne] using hcr
        change (s.heap id).flags.readonly = true
        rw [hheap] at hloc ⊢
        exact hsh id (ho.visible hvis hid) hloc
      | fresh _ _ _ hext =>
        obtain rfl : id = s.next := by simpa using hr
        exact ⟨ho.extend hext (ho.le_varstack h), fun hid => absurd (h.fresh _ (ho.out _ hid).1.live)
          (lt_irrefl _)⟩
      | shadow _ p _ hvis _ hext =>
        obtain rfl : id = s.next := by simpa using hr
        exact ⟨ho.extend hext (ho.le_varstack h), fun hid => absurd (h.fresh _ (ho.out _ hid).1.live)
          (lt_irrefl _)⟩
    split at ha
    · obtain ⟨rfl, -⟩ := Prod.mk.inj (Option.some.inj ha)
      exact hcase.1
    · rename_i hro
      obtain ⟨rfl, -⟩ := Prod.mk.inj (Option.some.inj ha)
      exact hcase.1.modify hwf (fun hid => hro (hcase.2 hid)) hl hname hw

/-- The entries for `n` a pop leaves. -/
theorem carries_pop (h : WF s) (hp : vartabPop s = some s') {j : VarId} :
    (s'.Carries n j ↔ s.Carries n j ∧ (s.heap j).table < s.varstack) ∧
      ∃ c, s'.heap j = { s.heap j with child := c } := by
  obtain ⟨t, t', ts, hs, rfl⟩ := h.pop_eq hp
  have hvs : s.varstack = t.level := by simp [Store.varstack, hs]
  obtain ⟨c, hc⟩ := unshadow_eq s.heap t.entries j
  have hc : (s.popped t (t' :: ts)).heap j = { s.heap j with child := c } := hc
  refine ⟨⟨fun hcar => ?_, fun hcar => ?_⟩, c, hc⟩
  · obtain ⟨hj, hname⟩ := hcar
    obtain ⟨hj, hlt⟩ := (h.toTables.live_popped hs).mp hj
    rw [hc] at hname
    exact ⟨⟨hj, hname⟩, hvs ▸ hlt⟩
  · obtain ⟨⟨hj, hname⟩, hlt⟩ := hcar
    exact ⟨(h.toTables.live_popped hs).mpr ⟨hj, hvs ▸ hlt⟩, by rw [hc]; exact hname⟩

/-- What is visible stays so when a table further in is popped. -/
theorem Visible.pop {id : VarId} (hv : s.Visible n id) (h : WF s) (hp : vartabPop s = some s')
    (hlt : (s.heap id).table < s.varstack) : s'.Visible n id := by
  obtain ⟨hiff, c, hc⟩ := @carries_pop s s' n h hp id
  have hid := hiff.mpr ⟨⟨hv.live, hv.name⟩, hlt⟩
  refine ⟨hid.live, hid.name, fun j hj hjn => ?_⟩
  obtain ⟨hiff', c', hc'⟩ := @carries_pop s s' n h hp j
  have hj' := (hiff'.mp ⟨hj, hjn⟩).1
  rw [hc, hc']
  exact hv.inner j hj'.live hj'.name

/-- The table that is popped is not the callee's. -/
theorem Outer.pop (h0 : WF s0) (h : WF s) (ho : Outer n s0 s) (hin : s0.tabs.length < s.varstack)
    (hp : vartabPop s = some s') : Outer n s0 s' := by
  have hlen : s'.tabs.length + 1 = s.tabs.length := by
    obtain ⟨t, t', ts, hs, rfl⟩ := h.pop_eq hp
    simp [Store.popped, hs]
  have hvs := h.varstack_succ
  refine ⟨by omega, fun j hj => ?_, fun j hj hlt => ?_⟩
  · obtain ⟨hj', c, hc⟩ := ho.out j hj
    obtain ⟨hiff, c', hc'⟩ := carries_pop h hp
    refine ⟨hiff.mpr ⟨hj', ?_⟩, c', by rw [hc', hc]⟩
    have := h0.table_lt hj.live
    rw [hc]
    exact this.trans hin
  · obtain ⟨hiff, c, hc⟩ := carries_pop h hp
    rw [hc] at hlt
    exact ho.only j (hiff.mp hj).1 hlt

theorem Outer.push (ho : Outer n s0 s) (function : Bool) : Outer n s0 (vartabPush s function) := by
  have hcar : ∀ j, (vartabPush s function).Carries n j ↔ s.Carries n j := fun j =>
    ⟨fun h => ⟨live_push.mp h.live, h.name⟩, fun h => ⟨live_push.mpr h.live, h.name⟩⟩
  refine ⟨ho.depth.trans (Nat.lt_succ_self _), fun j hj => ?_, fun j hj hlt => ?_⟩
  · exact ⟨(hcar j).mpr (ho.out j hj).1, (ho.out j hj).2⟩
  · exact ho.only j ((hcar j).mp hj) hlt

/-- **No step of the callee touches the entries of the callers.** -/
theorem Outer.step (h0 : WF s0) (h : WF s) (ho : Outer n s0 s) (hsh : s0.Shadowable n)
    (hn : varValid n = true) {op : Op} (hok : Ok s op) (hin : Callee n s0.tabs.length s op)
    (hs : Shish.step s op = some s') : Outer n s0 s' := by
  obtain ⟨hval, hok⟩ := hok
  have hfst : ∀ {r : Option (Store × Bool)}, r.map Prod.fst = some s' → ∃ b, r = some (s', b) := by
    rintro (_ | ⟨s1, b⟩) hr
    · simp at hr
    · exact ⟨b, by simpa using hr⟩
  cases op with
  | setv v value flags ae =>
    obtain ⟨b, hb⟩ := hfst hs
    by_cases hv : nameOf v = n
    · obtain ⟨-, rfl⟩ := hin hv
      subst hv
      exact ho.assign h0 h hsh rfl hn hok (writes_setv _ _) hb
    · exact ho.same (.assign h hval hok hv (writes_setv _ _) hb)
  | setsa sa flags ae =>
    obtain ⟨b, hb⟩ := hfst hs
    exact ho.same (.assign h hval hok hin (writes_text _ _) hb)
  | setvint v i flags =>
    obtain ⟨b, hb⟩ := hfst hs
    exact ho.same (.assign h hval hok hin (writes_setvint _ _) hb)
  | set v flags =>
    rw [← Option.some.inj hs]
    exact ho.same (.set h hval hok hin)
  | copys v flags =>
    rw [← Option.some.inj hs]
    exact ho.same (.copys h hval hok hin)
  | chflg v flags set =>
    rw [← Option.some.inj hs]
    exact ho.same (.chflg h hval hok hin)
  | import_ v flags => exact absurd hin id
  | hide v =>
    rw [← Option.some.inj hs]
    exact ho.same (.hide h hval hok hin)
  | unset v =>
    rw [← Option.some.inj hs]
    exact ho.same (.unset h hval hin)
  | get v =>
    rw [← Option.some.inj hs]
    exact ho.same (.congr rfl rfl)
  | push function =>
    rw [← Option.some.inj hs]
    exact ho.push function
  | pop => exact ho.pop h0 h hin hs
  | shPush =>
    rw [← Option.some.inj hs]
    exact ho.same (.congr rfl rfl)
  | shPop =>
    simp only [Shish.step, Shish.shPop] at hs
    split at hs
    · split at hs
      · rw [← Option.some.inj hs]
        exact ho.same (.congr rfl rfl)
      · simp at hs
    · simp at hs

/-! ## The call -/

/-- What a callee that has run `ops` on its table leaves of `n`: the entries of the callers, and what
the name reports. -/
def Leaves (s0 : Store) (n : Str) (ops : List Op) : Prop :=
  ∀ s1, Shish.run (vartabPush s0 true) ops = some s1 → s1.varstack = s0.varstack + 1 →
    ∃ s2, vartabPop s1 = some s2 ∧ s2.view n = s0.view n ∧
      ∀ j, s0.Carries n j → s2.Carries n j ∧ (s2.heap j).view = (s0.heap j).view

theorem outer_push (n : Str) (s : Store) : Outer n s (vartabPush s true) := by
  have hcar : ∀ j, (vartabPush s true).Carries n j ↔ s.Carries n j := fun j =>
    ⟨fun h => ⟨live_push.mp h.live, h.name⟩, fun h => ⟨live_push.mpr h.live, h.name⟩⟩
  exact ⟨Nat.lt_succ_self _, fun j hj => ⟨(hcar j).mpr hj, (s.heap j).child, rfl⟩,
    fun j hj _ => (hcar j).mp hj⟩

theorem exists_pop (h1 : 1 < s.tabs.length) : ∃ s', vartabPop s = some s' := by
  unfold vartabPop
  match hs : s.tabs, h1 with
  | t :: t' :: ts, _ => exact ⟨_, rfl⟩

/-- A callee whose table is the only one on top leaves the entries as they were. -/
theorem Outer.leave (h0 : WF s0) (h : WF s) (ho : Outer n s0 s)
    (hbal : s.varstack = s0.varstack + 1) :
    ∃ s', vartabPop s = some s' ∧ SameEntries n s0 s' := by
  have hlen := h.varstack_succ
  have hlen0 := h0.varstack_succ
  obtain ⟨s', hp⟩ := exists_pop (by omega : 1 < s.tabs.length)
  refine ⟨s', hp, ?_, fun j => ?_, fun j hj => ?_⟩
  · obtain ⟨t, t', ts, hs, rfl⟩ := h.pop_eq hp
    rw [hs, List.length_cons] at hlen
    simp only [Store.popped]
    omega
  · obtain ⟨hiff, -⟩ := @carries_pop s s' n h hp j
    rw [hiff]
    constructor
    · rintro ⟨hj, hlt⟩
      exact ho.only j hj (by omega)
    · intro hj
      obtain ⟨hj', c, hc⟩ := ho.out j hj
      refine ⟨hj', ?_⟩
      have := h0.table_lt hj.live
      rw [hc]
      change (s0.heap j).table < s.varstack
      omega
  · obtain ⟨-, c, hc⟩ := ho.out j hj
    obtain ⟨-, c', hc'⟩ := @carries_pop s s' n h hp j
    exact ⟨c', by rw [hc', hc]⟩

/-- The value behind an assignment is the one assigned. -/
theorem value_setv {x : Var} (hx : Named x) {name : Str} (hname : x.name = nameOf name)
    (value : Str) (fl : Flags) :
    Var.value { x with
      s := (if x.owned then x.s else name).take x.len ++ '=' :: value
      owned := true
      offset := x.len + 1
      flags := fl } = value := by
  have hlen : ((if x.owned then x.s else name).take x.len).length = x.len := by
    split
    · exact hx.len.symm
    · rw [hx.len, hname, take_nameOf]
  simp only [Var.value]
  rw [List.drop_append, hlen]
  simp [List.drop_eq_nil_iff, hlen]

/-- A local entry of a caller that is not readonly is overwritten. -/
theorem not_leaves (h0 : WF s0) (hn : varValid n = true) {id : VarId} (hv : s0.Visible n id)
    (hloc : (s0.heap id).flags.isLocal = true) (hro : (s0.heap id).flags.readonly = false) :
    ∃ arg, Ok (vartabPush s0 true) (localOp arg false) ∧ ¬ Leaves s0 n [localOp arg false] := by
  set value := (s0.heap id).value ++ ['x'] with hvalue
  set arg := n ++ '=' :: value with harg
  have hname : nameOf arg = n := nameOf_append_eq hn _
  have hdrop : arg.drop ((nameOf arg).length + 1) = value := by
    rw [hname, harg]
    simp
  set s := vartabPush s0 true with hs
  have hwf : WF s := h0.push true
  have hvs : s.Visible n id :=
    ⟨live_push.mpr hv.live, hv.name, fun j hj hjn => hv.inner j (live_push.mp hj) hjn⟩
  have hcr : s.creates n { isLocal := true } = false := by
    rw [creates_visible hwf hn hvs, show (s.heap id).flags.isLocal = true from hloc]
    simp
  have hok : Ok s (localOp arg false) := by
    refine ⟨?_, fun h => ?_⟩
    · change varValid (nameOf arg) = true
      rw [hname]
      exact hn
    · rw [hname, hcr] at h
      exact absurd h Bool.false_ne_true
  refine ⟨arg, hok, fun hleaves => ?_⟩
  -- `var_create` returns the entry of the caller
  have hcreate : varCreate s arg { isLocal := true } = ((varSearch s n false).2, some id) := by
    rw [varCreate_eq, hname, (hwf.search_iff hn false).mpr hvs]
    simp [hcr]
  set s1 := (varSearch s n false).2.modify id fun x =>
    { x with
      s := (if x.owned then x.s else arg).take x.len ++ '=' :: value
      owned := true
      offset := x.len + 1
      flags := (x.flags.or (Flags.allexport { isLocal := true } false)).clearUnset } with hs1
  have hstep : Shish.step s (localOp arg false) = some s1 := by
    simp only [Shish.step, localOp, varSetv, Shish.assign, hcreate, hdrop]
    rw [if_neg]
    · rfl
    · change ¬ (s0.heap id).flags.readonly = true
      simp [hro]
  have hwf1 : WF s1 := hwf.step hok.1 hok.2 hstep
  obtain ⟨s2, hp, hview, -⟩ := hleaves s1 (by simp [Shish.run, runs, ← hs, hstep]) rfl
  have hnamed : Named (s0.heap id) := h0.named id hv.live
  have hwrite := (writes_setv value fun x =>
    (x.flags.or (Flags.allexport { isLocal := true } false)).clearUnset) (s0.heap id) hnamed
      (hv.name.trans hname.symm)
  have hv1 : s1.Visible n id :=
    @Visible.modify (varSearch s n false).2 n id id ⟨hvs.live, hvs.name, hvs.inner⟩ _ hwrite.home
  have hlt : (s1.heap id).table < s1.varstack := by
    have htab : (s1.heap id).table = (s0.heap id).table := by
      simp only [hs1, Store.modify, Function.update_self]
      rfl
    have hlt0 := h0.table_lt hv.live
    have hlen := h0.varstack_succ
    change _ < s0.varstack + 1
    omega
  obtain ⟨-, c, hc⟩ := @carries_pop s1 s2 n hwf1 hp id
  rw [(hwf1.pop hp).view_visible hn (hv1.pop hwf1 hp hlt), h0.view_visible hn hv, hc] at hview
  have hval := congrArg View.value (Option.some.inj hview)
  have hnew : (s1.heap id).value = value := by
    simp only [hs1, Store.modify, Function.update_self]
    exact value_setv hnamed (hv.name.trans hname.symm) value _
  have hval : value = (s0.heap id).value := hnew.symm.trans hval
  simpa [hvalue] using congrArg List.length hval

/-- **The locals of a callee and the callers.**  From a state a run reaches, a callee that does
nothing to a name but declare it local leaves the entries of the callers as they were, whatever else
it does, exactly where the entry the caller sees is not itself a local that can be written to. -/
theorem local_leaves_callers_iff {pre : List Op} {s0 : Store} (hpre : Along Shish.step Ok {} pre)
    (h0 : Shish.run {} pre = some s0) {n : Str} (hn : varValid n = true) :
    (∀ ops, Along Shish.step (fun s op => Ok s op ∧ Callee n (s0.varstack + 1) s op)
      (vartabPush s0 true) ops → Leaves s0 n ops) ↔ s0.Shadowable n := by
  have hwf0 := WF.init.run hpre h0
  have hlen : s0.varstack + 1 = s0.tabs.length := hwf0.varstack_succ
  constructor
  · intro hall id hv hloc
    by_contra hro
    obtain ⟨arg, hok, hno⟩ := not_leaves hwf0 hn hv hloc (by simpa using hro)
    exact hno (hall _ ⟨⟨hok, fun _ => ⟨rfl, rfl⟩⟩, fun _ _ => trivial⟩)
  · intro hsh ops hin s1 h1 hbal
    rw [hlen] at hin
    obtain ⟨hwf1, ho⟩ := run_invariant (fun s => WF s ∧ Outer n s0 s)
      (fun s op s' ⟨h, ho⟩ ⟨hok, hin⟩ hs =>
        ⟨h.step hok.1 hok.2 hs, ho.step hwf0 h hsh hn hok hin hs⟩)
      ops ⟨hwf0.push true, outer_push n s0⟩ hin h1
    obtain ⟨s2, hp, hsame⟩ := ho.leave hwf0 hwf1 hbal
    refine ⟨s2, hp, hsame.view hwf0 (hwf1.pop hp) hn, fun j hj => ⟨(hsame.carries j).mpr hj, ?_⟩⟩
    obtain ⟨c, hc⟩ := hsame.heap j hj
    rw [hc]
    rfl

/-- A function with a local of its own. -/
def callerOps : List Op := .push true :: builtinLocal ["x=1".toList] false

/-- A callee that declares the same name, assigns another, and calls a function that does so too. -/
def calleeOps : List Op :=
  builtinLocal ["x=2".toList, "y".toList] false ++
    [.setv "z".toList "3".toList {} false, .push true] ++ builtinLocal ["x".toList] false ++
    [.unset "z".toList, .pop]

theorem local_leaves_global : ∃ s0 s1 s2, Shish.run {} outerOps = some s0 ∧
    Shish.run (vartabPush s0 true) calleeOps = some s1 ∧ vartabPop s1 = some s2 ∧
    s2.view "x".toList = s0.view "x".toList := by
  have hpre : Along Shish.step Ok {} outerOps := by decide
  have h0 : Shish.run {} outerOps = some outer := by
    cases h : Shish.run {} outerOps with
    | none => exact absurd h (Option.isSome_iff_ne_none.mp (by decide))
    | some s0 => simp [outer, h]
  have hin : Along Shish.step (fun s op => Ok s op ∧ Callee "x".toList (outer.varstack + 1) s op)
      (vartabPush outer true) calleeOps := by decide
  have hbal : (Shish.run (vartabPush outer true) calleeOps).map Store.varstack =
      some (outer.varstack + 1) := by decide
  obtain ⟨s1, h1, hs1⟩ := Option.map_eq_some_iff.mp hbal
  have hn : varValid "x".toList = true := by decide
  have hsh : outer.Shadowable "x".toList := by
    intro id hv hloc
    have hfound := ((WF.init.run hpre h0).search_iff hn false).mpr hv
    have hflag : (varSearch outer "x".toList false).1.map (fun id => (outer.heap id).flags.isLocal) =
        some false := by decide
    rw [hfound, Option.map_some, hloc] at hflag
    exact absurd hflag (by decide)
  obtain ⟨s2, hp, hview, -⟩ :=
    (local_leaves_callers_iff hpre h0 hn).mpr hsh _ hin s1 h1 hs1
  exact ⟨outer, s1, s2, h0, h1, hp, hview⟩

/-- What `x` reports in the caller before the callee runs `ops`, and after it. -/
def viewsCaller (ops : List Op) : Option (Option View × Option View) := do
  let s0 ← Shish.run {} callerOps
  let s1 ← Shish.run (vartabPush s0 true) ops
  let s2 ← vartabPop s1
  return (s0.view "x".toList, s2.view "x".toList)

/-- **A callee's `local` overwrites the local of its caller.** -/
theorem local_escapes : ∃ s0 s1 s2, Shish.run {} callerOps = some s0 ∧
    Shish.run (vartabPush s0 true) (builtinLocal ["x=2".toList] false) = some s1 ∧
    vartabPop s1 = some s2 ∧ s2.view "x".toList ≠ s0.view "x".toList := by
  have hv : viewsCaller (builtinLocal ["x=2".toList] false) =
      some (some ⟨false, "1".toList, false, false⟩, some ⟨false, "2".toList, false, false⟩) := by
    decide
  simp only [viewsCaller, Option.bind_eq_bind, Option.bind_eq_some_iff, Option.pure_def,
    Option.some.injEq, Prod.mk.injEq] at hv
  obtain ⟨s0, h0, s1, h1, s2, h2, hx0, hx2⟩ := hv
  exact ⟨s0, s1, s2, h0, h1, h2, by rw [hx0, hx2]; decide⟩

end Store

end Shish
