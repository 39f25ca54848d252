import Shish.Var.Readonly

/-!
# Var/Export — the environment of a command

`export` sets `V_EXPORT` through `var_chflg`, after `var_copys` when a value is given.  `var_chflg`
changes the flags of the entry only when that is on `sh->varstack`; everywhere else it goes through
`var_set`, which drops them, and where `var_create` has made a shadow this is unset and `var_export`
leaves it out.  `Store.export_followed` says when the environment shows what `export` asked for.
-/

namespace Shish

/-- `var_export`: the texts of everything visible that is exported and set. -/
def varExport (s : Store) : List Str :=
  (s.list.filter fun id => (s.heap id).flags.exported && !(s.heap id).flags.unset).map
    fun id => (s.heap id).s

namespace Store

variable {s s' : Store}

/-! ## What the environment shows of a name -/

theorem WF.mem_list_visible (h : WF s) {n : Str} {id : VarId} (hv : s.Visible n id) :
    id ∈ s.list := (h.mem_list id).mpr ⟨hv.live, hv.child_none h⟩

theorem WF.visible_of_mem (h : WF s) {j : VarId} (hj : j ∈ s.list) :
    s.Visible (s.heap j).name j := by
  obtain ⟨hl, -⟩ := (h.mem_list j).mp hj
  obtain ⟨i, hi⟩ := h.exists_visible hl rfl
  have ho : Ordered s.heap s.list :=
    ⟨fun k hk => h.named k ((h.mem_list k).mp hk).1, h.listSorted⟩
  obtain rfl : i = j := ho.eq_of_name (h.mem_list_visible hi) hj hi.name
  exact hi

/-- **The environment shows a name through its visible entry.** -/
theorem WF.mem_varExport (h : WF s) {n : Str} {id : VarId} (hv : s.Visible n id) {e : Str}
    (he : nameOf e = n) : e ∈ varExport s ↔ (s.heap id).flags.exported = true ∧
      (s.heap id).flags.unset = false ∧ (s.heap id).s = e := by
  simp only [varExport, List.mem_map, List.mem_filter, Bool.and_eq_true, Bool.not_eq_true']
  constructor
  · rintro ⟨j, ⟨hj, h1, h2⟩, rfl⟩
    have hvj := h.visible_of_mem hj
    rw [← (h.named j hvj.live).text, he] at hvj
    obtain rfl := h.visible_unique hv hvj
    exact ⟨h1, h2, rfl⟩
  · rintro ⟨h1, h2, rfl⟩
    exact ⟨id, ⟨h.mem_list_visible hv, h1, h2⟩, rfl⟩

theorem WF.exported_iff (h : WF s) {n : Str} {id : VarId} (hv : s.Visible n id) :
    (∃ e ∈ varExport s, nameOf e = n) ↔
      (s.heap id).flags.exported = true ∧ (s.heap id).flags.unset = false := by
  have htext : nameOf (s.heap id).s = n := (h.named id hv.live).text.trans hv.name
  constructor
  · rintro ⟨e, he, hen⟩
    obtain ⟨h1, h2, -⟩ := (h.mem_varExport hv hen).mp he
    exact ⟨h1, h2⟩
  · rintro ⟨h1, h2⟩
    exact ⟨_, (h.mem_varExport hv htext).mpr ⟨h1, h2, rfl⟩, htext⟩

/-- The environment has `n` with the value `$n` expands to. -/
def Exports (s : Store) (n : Str) : Prop :=
  ∃ w, s.view n = some w ∧ n ++ '=' :: w.value ∈ varExport s

theorem WF.exports_iff (h : WF s) {n : Str} (hn : varValid n = true) {id : VarId}
    (hv : s.Visible n id) : Exports s n ↔ (s.heap id).flags.exported = true ∧
      (s.heap id).flags.unset = false ∧ (s.heap id).s = n ++ '=' :: (s.heap id).value := by
  simp only [Exports, h.view_visible hn hv, Option.some.injEq, exists_eq_left']
  exact h.mem_varExport hv (nameOf_append_eq hn _)

/-! ## What `var_chflg` leaves of an entry -/

/-- `var_chflg` on the entry `var_create` returned: on `sh->varstack` the flags change; elsewhere
the text and what is exported stay, and what was set stays set. -/
theorem WF.chflg_entry (h : WF s) {v : Str} (hn : varValid (nameOf v) = true) {flags : Flags}
    {set : Bool} (hok : ChflgOk s (nameOf v) flags set) (hloc : flags.isLocal = false)
    {s1 : Store} {id : VarId} (hc : varCreate s v {} = (s1, some id)) :
    (varChflg s v flags set).Visible (nameOf v) id ∧
      ((varChflg s v flags set).heap id).s = (s1.heap id).s ∧
      ((varChflg s v flags set).heap id).offset = (s1.heap id).offset ∧
      ((s1.heap id).table = s.shVarstack →
        ((varChflg s v flags set).heap id).flags = (s1.heap id).flags.change flags set) ∧
      ((s1.heap id).table ≠ s.shVarstack →
        ((varChflg s v flags set).heap id).flags.exported = (s1.heap id).flags.exported ∧
        ((s1.heap id).flags.unset = false →
          ((varChflg s v flags set).heap id).flags.unset = false)) := by
  obtain ⟨hwf, hcr⟩ := h.create hn hok.1
  rw [hc] at hwf hcr
  have hwf : WF s1 := hwf
  have hcr : Created s (nameOf v) {} s1 (some id) := hcr
  have hv := hcr.visible h
  have henv : s1.shVarstack = s.shVarstack := by unfold shVarstack; rw [hcr.envs]
  have hsecond := hcr.second_chflg h hwf hn hok
  have htext : nameOf (s1.heap id).s = nameOf v := (hwf.named id hv.live).text.trans hv.name
  have hnamed := hwf.named id hv.live
  have heq : varChflg s v flags set = if (s1.heap id).table = s1.shVarstack then
      s1.modify id fun x => { x with flags := (s1.heap id).flags.change flags set }
      else (varSet s1 (s1.heap id).s true ((s1.heap id).flags.change flags set)).1 := by
    simp only [varChflg, hc]
  rw [heq, henv]
  split
  · rename_i htab
    refine ⟨hv.modify (writes_flags (nameOf v) (fun _ => _) _ hnamed hv.name).home, ?_⟩
    simp [Store.modify, htab]
  · rename_i htab
    generalize hnew : (s1.heap id).flags.change flags set = new at hsecond ⊢
    have hloc' : new.isLocal = (s1.heap id).flags.isLocal := by
      rw [← hnew]
      cases set <;> simp [Flags.change, Flags.or, Flags.diff, hloc]
    have hnc : s1.creates (nameOf v) new = false := by
      cases hcs : s1.creates (nameOf v) new with
      | false => rfl
      | true =>
        obtain ⟨h1, h2, -⟩ := hcr.local_of_creates h hwf hn hcs
        simp [hloc', h2] at h1
    have hcall : varCreate s1 (s1.heap id).s new =
        ((varSearch s1 (nameOf v) false).2, if new.init then none else some id) := by
      rw [varCreate_eq, htext, (hwf.search_iff hn false).mpr hv]
      simp only [hnc]
      rfl
    have hvpos : (varSearch s1 (nameOf v) false).2.Visible (nameOf v) id :=
      hv.congr (varSearch s1 (nameOf v) false).2 rfl fun _ _ => .refl _
    simp only [varSet, hcall]
    split
    · rename_i hs2
      obtain rfl : _ = _ := (Prod.mk.inj hs2).1
      exact ⟨hvpos, rfl, rfl, fun ht => absurd ht htab, fun _ => ⟨rfl, fun hu => hu⟩⟩
    · rename_i s2 id2 hs2
      obtain ⟨rfl, hid2⟩ := Prod.mk.inj hs2
      obtain rfl : id = id2 := by
        split at hid2
        · simp at hid2
        · exact Option.some.inj hid2
      split
      · exact ⟨hvpos, rfl, rfl, fun ht => absurd ht htab, fun _ => ⟨rfl, fun hu => hu⟩⟩
      · refine ⟨hvpos.modify ?_, ?_⟩
        · have := writes_setWrite (v := (s1.heap id).s) true (s1.heap id) hnamed
            (hnamed.text.symm)
          exact this.home
        · have hheap : (varSearch s1 (nameOf v) false).2.heap = s1.heap := rfl
          simp only [Store.modify, Function.update_self, hheap, setWrite]
          refine ⟨?_, ?_, fun ht => absurd ht htab, fun _ => ?_⟩
          · split <;> rfl
          · split <;> rfl
          · split <;> simp_all [Flags.clearUnset]

/-! ## `export` -/

theorem nameOf_split {v : Str} (h : '=' ∈ v) :
    v = nameOf v ++ '=' :: v.drop ((nameOf v).length + 1) := by
  have hsplit : nameOf v ++ v.dropWhile (· ≠ '=') = v := List.takeWhile_append_dropWhile
  cases hd : v.dropWhile (· ≠ '=') with
  | nil => exact absurd (List.dropWhile_eq_nil_iff.mp hd '=' h) (by simp)
  | cons c t =>
    have hc : c = '=' := by
      have := List.head_dropWhile_not (l := v) (fun c => decide (c ≠ '=')) (by rw [hd]; simp)
      simp only [hd, List.head_cons] at this
      simpa using this
    have hdrop : v.drop ((nameOf v).length + 1) = t := by
      have := congrArg (List.drop ((nameOf v).length + 1)) hsplit
      rw [hd] at this
      simpa using this.symm
    rw [hdrop]
    nth_rewrite 1 [← hsplit]
    rw [hd, hc]

/-- What `export v` calls: `var_copys` when there is a value, and `var_chflg`. -/
def exportOps (v : Str) : List Op :=
  (if '=' ∈ v then [.copys v { exported := true }] else []) ++
    [.chflg v { exported := true } true]

/-- The entry of the name is on `sh->varstack`, or exported already. -/
def Reached (s : Store) (id : VarId) : Prop :=
  (s.heap id).table = s.shVarstack ∨ (s.heap id).flags.exported = true

/-- The calls of `export` the environment follows.  With a value: the entry it goes to is reached,
or is new on `sh->varstack`.  Without one: no entry is added, the one there is reached, and its text
has the value behind an equal sign. -/
def ExportOk (s : Store) (v : Str) : Prop :=
  if '=' ∈ v then
    if s.creates (nameOf v) {} then targetTab s {} = s.shVarstack
    else ∀ id ∈ (varSearch s (nameOf v) false).1, Reached s id
  else s.creates (nameOf v) {} = false ∧ ∀ id ∈ (varSearch s (nameOf v) false).1, Reached s id ∧
    (s.heap id).s = nameOf v ++ '=' :: (s.heap id).value

instance (s : Store) (id : VarId) : Decidable (Reached s id) :=
  inferInstanceAs (Decidable (_ ∨ _))

instance (s : Store) (v : Str) : Decidable (ExportOk s v) :=
  inferInstanceAs (Decidable (if '=' ∈ v then if s.creates (nameOf v) {} then _ else _ else _))

/-- Without a value. -/
theorem WF.export_plain (h : WF s) {v : Str} (hn : varValid (nameOf v) = true)
    (hok : ChflgOk s (nameOf v) { exported := true } true) {id : VarId}
    (hv : s.Visible (nameOf v) id) (hset : (s.heap id).flags.unset = false) :
    Exports (varChflg s v { exported := true } true) (nameOf v) ↔
      s.creates (nameOf v) {} = false ∧ Reached s id ∧
        (s.heap id).s = nameOf v ++ '=' :: (s.heap id).value := by
  have hwf' := h.chflg hn hok
  obtain ⟨-, hc⟩ := h.create hn hok.1
  generalize hs1 : varCreate s v {} = r at hc
  obtain ⟨s1, r⟩ := r
  cases hc with
  | kept p pos hvp hcf =>
    obtain rfl := h.visible_unique hv hvp
    obtain ⟨h1, h2, h3, h4, h5⟩ := h.chflg_entry hn hok rfl hs1
    have hval : ((varChflg s v { exported := true } true).heap id).value = (s.heap id).value := by
      rw [Var.value, h2, h3]
      rfl
    rw [hwf'.exports_iff hn h1, hval, h2]
    simp only [hcf, true_and, Reached]
    by_cases ht : (s.heap id).table = s.shVarstack
    · rw [h4 ht]
      simp [Flags.change, Flags.or, ht, hset]
    · obtain ⟨h6, h7⟩ := h5 ht
      rw [h6, h7 hset]
      simp [ht]
  | fresh _ _ habs _ => exact absurd hv.name (habs id hv.live)
  | shadow _ p hcr hvp _ hext =>
    obtain ⟨h1, -, -, h4, h5⟩ := h.chflg_entry hn hok rfl hs1
    rw [hwf'.exports_iff hn h1]
    simp only [hcr, Bool.true_eq_false, false_and, iff_false]
    rintro ⟨he, hu, -⟩
    by_cases ht : (s1.heap s.next).table = s.shVarstack
    · rw [h4 ht, hext.new] at hu
      simp [Flags.change, Flags.or, shadowEntry] at hu
    · rw [(h5 ht).1, hext.new] at he
      simp [shadowEntry, freshEntry] at he

/-- `var_create` looks at `V_LOCAL` and `V_INIT` alone. -/
theorem Created.default {n : Str} {flags : Flags} {r : Option VarId} (hc : Created s n flags s' r)
    (hl : flags.isLocal = false) (hi : flags.init = false) : Created s n {} s' r := by
  have hcr : s.creates n flags = s.creates n {} := by simp [creates, targetTab, hl, hi]
  have htt : targetTab s flags = targetTab s {} := by simp [targetTab, hl]
  cases hc with
  | kept p pos hv hk =>
    rw [hi]
    exact .kept p pos hv (hcr ▸ hk)
  | fresh _ hk habs hext => exact .fresh _ (hcr ▸ hk) habs (htt ▸ hext)
  | shadow _ p hk hv hlt hext => exact .shadow _ p (hcr ▸ hk) hv (htt ▸ hlt) (htt ▸ hext)

/-- `var_copys` with a value leaves an entry of that text, set, in its place; it is exported if it
was before. -/
theorem WF.copys_entry (h : WF s) {v : Str} (hn : varValid (nameOf v) = true)
    (heq : '=' ∈ v) (hok : CreateOk s (nameOf v) { exported := true }) :
    ∃ id, (varCopys s v { exported := true }).Visible (nameOf v) id ∧
      (varCopys s v { exported := true }).shVarstack = s.shVarstack ∧
      ((varCopys s v { exported := true }).heap id).s =
        nameOf v ++ '=' :: ((varCopys s v { exported := true }).heap id).value ∧
      ((varCopys s v { exported := true }).heap id).flags.unset = false ∧
      (varCopys s v { exported := true }).creates (nameOf v) {} = false ∧
      (Reached (varCopys s v { exported := true }) id ↔
        if s.creates (nameOf v) {} then targetTab s {} = s.shVarstack
        else ∀ j ∈ (varSearch s (nameOf v) false).1, Reached s j) := by
  have hcreates : s.creates (nameOf v) { exported := true } = s.creates (nameOf v) {} := rfl
  obtain ⟨hwf1, hc⟩ := h.create hn hok
  generalize hs1 : varCreate s v { exported := true } = r at hc hwf1
  obtain ⟨s1, r⟩ := r
  obtain ⟨id, rfl⟩ : ∃ id, r = some id := by
    cases hc with
    | kept p _ _ _ => exact ⟨p, rfl⟩
    | fresh => exact ⟨_, rfl⟩
    | shadow => exact ⟨_, rfl⟩
  have hwf1 : WF s1 := hwf1
  have hc : Created s (nameOf v) { exported := true } s1 (some id) := hc
  have hv := hc.visible h
  have hnamed := hwf1.named id hv.live
  have hlen : (s1.heap id).len = (nameOf v).length := by rw [hnamed.len, hv.name]
  have hlt : (nameOf v).length < v.length := by
    have := congrArg List.length (nameOf_split heq)
    simp only [List.length_append, List.length_cons] at this
    omega
  let w : Var → Var := fun x =>
    { x with
      s := v
      owned := true
      offset := if x.len < v.length then x.len + 1 else x.offset
      flags := x.flags.clearUnset }
  have hcopy : varCopys s v { exported := true } = s1.modify id w := by
    simp only [varCopys, hs1]
    rfl
  have hwf' := h.copys hn hok
  rw [hcopy] at hwf' ⊢
  have hw : Writes (nameOf v) w := writes_text true _
  have hv' := hv.modify (hw _ hnamed hv.name).home
  have hself : (s1.modify id w).heap id = w (s1.heap id) := by simp [Store.modify]
  have hdef : Created s (nameOf v) {} s1 (some id) := hc.default rfl rfl
  refine ⟨id, hv', ?_, ?_, by rw [hself]; rfl, ?_, ?_⟩
  · change s1.shVarstack = _
    unfold shVarstack
    rw [hc.envs]
  · simp only [hself, w, Var.value, hlen, hlt, if_true]
    exact nameOf_split heq
  · have h1 : s1.creates (nameOf v) {} = false := by
      cases hcs : s1.creates (nameOf v) {} with
      | false => rfl
      | true =>
        have := (hdef.local_of_creates h hwf1 hn hcs).1
        simp at this
    rw [creates_visible hwf1 hn hv] at h1
    rw [creates_visible hwf' hn hv', hself]
    exact h1
  · have hreach : Reached (s1.modify id w) id ↔ (s1.heap id).table = s.shVarstack ∨
        (s1.heap id).flags.exported = true := by
      have henv : (s1.modify id w).shVarstack = s.shVarstack := by
        change s1.shVarstack = _
        unfold shVarstack
        rw [hc.envs]
      rw [Reached, hself, henv]
      exact Iff.rfl
    rw [hreach]
    generalize hr : some id = r at hdef
    cases hdef with
    | kept p pos hvp hcf =>
      obtain rfl : p = id := by simpa using hr.symm
      simp only [hcf, Bool.false_eq_true, if_false, (h.search_iff hn false).mpr hvp, Option.mem_def,
        Option.some.injEq, forall_eq']
      exact Iff.rfl
    | fresh _ hcr _ hext =>
      obtain rfl := Option.some.inj hr
      simp [hcr, hext.new, freshEntry]
    | shadow _ p hcr _ _ hext =>
      obtain rfl := Option.some.inj hr
      simp [hcr, hext.new, shadowEntry, freshEntry]

theorem WF.export_iff (h : WF s) {v : Str} (hok : Along Shish.step Ok s (exportOps v))
    (hset : '=' ∉ v → ∃ id, s.Visible (nameOf v) id ∧ (s.heap id).flags.unset = false)
    (hr : Shish.run s (exportOps v) = some s') : Exports s' (nameOf v) ↔ ExportOk s v := by
  unfold ExportOk
  unfold exportOps at hok hr
  split
  · rename_i heq
    rw [if_pos heq] at hok hr
    obtain ⟨⟨hn, hcr⟩, hrest⟩ := hok
    obtain ⟨⟨-, hch⟩, -⟩ := hrest _ rfl
    obtain rfl := Option.some.inj hr
    obtain ⟨id, hv, henv, htext, hu, hnc, hreach⟩ := h.copys_entry hn heq hcr
    rw [(h.copys hn hcr).export_plain hn hch hv hu, hreach]
    simp [hnc, ← htext]
  · rename_i heq
    rw [if_neg heq] at hok hr
    obtain ⟨⟨hn, hch⟩, -⟩ := hok
    obtain rfl := Option.some.inj hr
    obtain ⟨id, hv, hu⟩ := hset heq
    rw [h.export_plain hn hch hv hu]
    simp [(h.search_iff hn false).mpr hv]

/-- The calls of `export -n` the environment follows: a shadow is added, or the entry is on
`sh->varstack`, or was not exported. -/
def UnexportOk (s : Store) (v : Str) : Prop :=
  s.creates (nameOf v) {} = true ∨ ∀ id ∈ (varSearch s (nameOf v) false).1,
    (s.heap id).table = s.shVarstack ∨ (s.heap id).flags.exported = false

theorem WF.unexport_iff (h : WF s) {v : Str} (hok : Ok s (.chflg v { exported := true } false))
    {id : VarId} (hv : s.Visible (nameOf v) id) (hset : (s.heap id).flags.unset = false) :
    (∀ e ∈ varExport (varChflg s v { exported := true } false), nameOf e ≠ nameOf v) ↔
      UnexportOk s v := by
  obtain ⟨hn, hch⟩ := hok
  have hwf' := h.chflg hn hch
  obtain ⟨-, hc⟩ := h.create hn hch.1
  generalize hs1 : varCreate s v {} = r at hc
  obtain ⟨s1, r⟩ := r
  have hfound := (h.search_iff hn false).mpr hv
  have hnone : ∀ {id'}, (varChflg s v { exported := true } false).Visible (nameOf v) id' →
      ((∀ e ∈ varExport (varChflg s v { exported := true } false), nameOf e ≠ nameOf v) ↔
        ¬ (((varChflg s v { exported := true } false).heap id').flags.exported = true ∧
          ((varChflg s v { exported := true } false).heap id').flags.unset = false)) := by
    intro id' hv'
    rw [← hwf'.exported_iff hv']
    simp
  cases hc with
  | kept p pos hvp hcf =>
    obtain rfl := h.visible_unique hv hvp
    obtain ⟨h1, -, -, h4, h5⟩ := h.chflg_entry hn hch rfl hs1
    rw [hnone h1]
    simp only [UnexportOk, hcf, hfound, Option.mem_def, Option.some.injEq, forall_eq',
      Bool.false_eq_true, false_or]
    by_cases ht : (s.heap id).table = s.shVarstack
    · rw [h4 ht]
      simp [Flags.change, Flags.diff, ht]
    · obtain ⟨h6, h7⟩ := h5 ht
      rw [h6, h7 hset]
      simp [ht]
  | fresh _ _ habs _ => exact absurd hv.name (habs id hv.live)
  | shadow _ p hcr hvp _ hext =>
    obtain ⟨h1, -, -, h4, h5⟩ := h.chflg_entry hn hch rfl hs1
    rw [hnone h1]
    simp only [UnexportOk, hcr, true_or, iff_true]
    rintro ⟨he, -⟩
    by_cases ht : (s1.heap s.next).table = s.shVarstack
    · rw [h4 ht] at he
      simp [Flags.change, Flags.diff] at he
    · rw [(h5 ht).1, hext.new] at he
      simp [shadowEntry, freshEntry] at he

/-- **When the environment follows `export` and `export -n`**, in any state a run reaches whose
searches were not misled, for a name that is set or given a value. -/
theorem export_followed {pre : List Op} {s : Store} (hpre : Along Shish.step Ok {} pre)
    (hs : Shish.run {} pre = some s) {v : Str}
    (hset : '=' ∉ v → ∃ w, s.view (nameOf v) = some w ∧ w.unset = false) :
    (∀ s', Along Shish.step Ok s (exportOps v) → Shish.run s (exportOps v) = some s' →
      (Exports s' (nameOf v) ↔ ExportOk s v)) ∧
    ('=' ∉ v → Ok s (.chflg v { exported := true } false) →
      ((∀ e ∈ varExport (varChflg s v { exported := true } false), nameOf e ≠ nameOf v) ↔
        UnexportOk s v)) := by
  have h := WF.init.run hpre hs
  have hvis : varValid (nameOf v) = true → '=' ∉ v →
      ∃ id, s.Visible (nameOf v) id ∧ (s.heap id).flags.unset = false := by
    intro hn heq
    obtain ⟨w, hw, hu⟩ := hset heq
    rcases h.visible_or_absent (nameOf v) with ⟨id, hv⟩ | habs
    · refine ⟨id, hv, ?_⟩
      rw [h.view_visible hn hv] at hw
      rw [← Option.some.inj hw] at hu
      exact hu
    · rw [h.view_none hn habs] at hw
      simp at hw
  constructor
  · intro s' hok hr
    refine h.export_iff hok (fun heq => hvis ?_ heq) hr
    unfold exportOps at hok
    rw [if_neg heq] at hok
    exact hok.1.1
  · intro heq hok
    obtain ⟨id, hv, hu⟩ := hvis hok.1 heq
    exact h.unexport_iff hok hv hu

/-- `x=1`, and a function called after it or not. -/
def setOps (fn : Bool) : List Op :=
  .setv "x".toList "1".toList {} false :: if fn then [.push true, .shPush] else []

/-- At the top the environment shows the variable. -/
theorem exported_at_top : ∃ s s', Shish.run {} (setOps false) = some s ∧
    Shish.run s (exportOps "x".toList) = some s' ∧ Exports s' "x".toList := by
  have hpre : Along Shish.step Ok {} (setOps false ++ exportOps "x".toList) := by decide
  have hcheck : ((Shish.run {} (setOps false)).bind fun s =>
      (Shish.run s (exportOps "x".toList)).map fun _ =>
        (s.view "x".toList, decide (ExportOk s "x".toList))) =
      some (some ⟨false, "1".toList, false, false⟩, true) := by decide
  obtain ⟨s, hs, hrest⟩ := Option.bind_eq_some_iff.mp hcheck
  obtain ⟨s', hs', hvals⟩ := Option.map_eq_some_iff.mp hrest
  obtain ⟨hview, hexp⟩ := Prod.mk.inj hvals
  obtain ⟨hok1, hok2⟩ := along_append (setOps false) (exportOps "x".toList) hpre
  have hiff := (export_followed hok1 hs (v := "x".toList) fun _ => ⟨_, hview, rfl⟩).1 s'
    (hok2 s hs) hs'
  exact ⟨s, s', hs, hs', hiff.mpr (of_decide_eq_true hexp)⟩

/-- **`export` inside a function is lost**: the variable lives on the table below, and the
environment stays empty. -/
theorem export_lost : ∃ s s', Shish.run {} (setOps true) = some s ∧
    (∃ w, s.view "x".toList = some w ∧ w.unset = false) ∧
    Shish.run s (exportOps "x".toList) = some s' ∧ ¬ Exports s' "x".toList := by
  have hcheck : ((Shish.run {} (setOps true)).bind fun s =>
      (Shish.run s (exportOps "x".toList)).map fun s' => (s.view "x".toList, varExport s')) =
      some (some ⟨false, "1".toList, false, false⟩, []) := by decide
  obtain ⟨s, hs, hrest⟩ := Option.bind_eq_some_iff.mp hcheck
  obtain ⟨s', hs', hvals⟩ := Option.map_eq_some_iff.mp hrest
  obtain ⟨hview, henv⟩ := Prod.mk.inj hvals
  refine ⟨s, s', hs, ⟨_, hview, rfl⟩, hs', ?_⟩
  rintro ⟨w, -, hw⟩
  simp [henv] at hw

end Store

end Shish
