import Shish.Var.Create
import Shish.Var.Remove

/-!
# Var/Run — the store along a run

Every operation keeps the store well formed when its search is not misled (`Store.WF.step`), so a
run of such operations ends in order (`Store.inOrder_of_run`).  Without the condition it does not:
two names of eleven and twelve letters, the one a prefix of the other, end up in `var_list` the
wrong way round (`Store.inOrder_broken`).
-/

namespace Shish

/-! ## What the operations write -/

theorem take_nameOf (v : Str) : v.take (nameOf v).length = nameOf v :=
  (List.prefix_iff_eq_take.mp (List.takeWhile_prefix _)).symm

theorem nameOf_of_valid {n : Str} (hn : varValid n = true) : nameOf n = n := by
  have h := (Store.named_varInit hn).text
  simpa [varInit, Var.name] using h

theorem nameOf_append_eq {n : Str} (hn : varValid n = true) (t : Str) :
    nameOf (n ++ '=' :: t) = n := by
  have h : ∀ c ∈ n, decide (c ≠ '=') = true := by
    have := nameOf_of_valid hn
    exact List.takeWhile_eq_self_iff.mp this
  rw [nameOf, List.takeWhile_append_of_pos h]
  simp

/-- **A new text of the same name** and new flags leave the entry where it is. -/
theorem Same.write {x : Var} (hx : Named x) {txt : Str} (htxt : nameOf txt = x.name) {o : ℕ}
    (ho : x.len ≤ o ∧ o ≤ x.len + 1) (ow : Bool) (fl : Flags) :
    Same x { x with s := txt, owned := ow, offset := o, flags := fl } := by
  have hname : txt.take x.len = x.name := by
    rw [hx.len, ← htxt, take_nameOf]
  refine ⟨⟨hname, rfl, rfl, fun _ => ?_⟩, rfl, rfl⟩
  refine ⟨?_, ?_, ?_, ?_, ?_, ho⟩
  · change varValid (txt.take x.len) = true
    rw [hname]
    exact hx.valid
  · change x.len = (txt.take x.len).length
    rw [hname, hx.len]
  · change x.lexhash = varLexhash (txt.take x.len)
    rw [hname, hx.lex]
  · change x.rndhash = varRndhash (txt.take x.len)
    rw [hname, hx.rnd]
  · change nameOf txt = txt.take x.len
    rw [hname, htxt]

/-- A write that keeps the entries of a name where they are. -/
def Writes (n : Str) (w : Var → Var) : Prop := ∀ x, Named x → x.name = n → Same x (w x)

theorem offset_after {x : Var} (hx : Named x) (m : ℕ) :
    x.len ≤ (if x.len < m then x.len + 1 else x.offset) ∧
      (if x.len < m then x.len + 1 else x.offset) ≤ x.len + 1 := by
  have := hx.offset
  split <;> omega

theorem writes_setv {name : Str} (value : Str) (fl : Var → Flags) :
    Writes (nameOf name) fun v =>
      { v with
        s := (if v.owned then v.s else name).take v.len ++ '=' :: value
        owned := true
        offset := v.len + 1
        flags := fl v } := by
  intro x hx hname
  refine Same.write hx ?_ ⟨Nat.le_succ _, le_rfl⟩ true (fl x)
  have : (if x.owned then x.s else name).take x.len = x.name := by
    split
    · rfl
    · rw [hx.len, hname, take_nameOf]
  rw [this, nameOf_append_eq hx.valid]

theorem writes_text {v : Str} (ow : Bool) (fl : Var → Flags) :
    Writes (nameOf v) fun x =>
      { x with
        s := v
        owned := ow
        offset := if x.len < v.length then x.len + 1 else x.offset
        flags := fl x } :=
  fun x hx hname => Same.write hx hname.symm (offset_after hx _) ow (fl x)

theorem writes_setvint {name : Str} (i : Int) (fl : Var → Flags) :
    Writes (nameOf name) fun v =>
      { v with
        s := name.take v.len ++ '=' :: catlong i
        owned := true
        offset := v.len + 1
        flags := fl v } := by
  intro x hx hname
  refine Same.write hx ?_ ⟨Nat.le_succ _, le_rfl⟩ true (fl x)
  have : name.take x.len = x.name := by rw [hx.len, hname, take_nameOf]
  rw [this, nameOf_append_eq hx.valid]

theorem writes_flags (n : Str) (fl : Var → Flags) : Writes n fun x => { x with flags := fl x } :=
  fun x hx _ => Same.write hx hx.text hx.offset x.owned (fl x)

theorem nameOf_take_offset {x : Var} (hx : Named x) : nameOf (x.s.take x.offset) = x.name := by
  obtain ⟨h1, h2⟩ := hx.offset
  have htext := hx.text
  have htake : x.s.take x.len = x.name := rfl
  rcases Nat.lt_or_ge x.len x.offset with h | h
  · have ho : x.offset = x.len + 1 := by omega
    rw [ho]
    have hsplit : x.s = x.name ++ x.s.drop x.len := by rw [← htake, List.take_append_drop]
    have hl : x.name.length = x.len := hx.len.symm
    rw [hsplit, List.take_append, List.take_of_length_le (by omega), hl,
      show x.len + 1 - x.len = 1 by omega]
    cases hd : x.s.drop x.len with
    | nil => simpa using nameOf_of_valid hx.valid
    | cons c t =>
      -- what stands behind the name can only be the equal sign
      have hc : c = '=' := by
        by_contra hne
        have hv : ∀ d ∈ x.name, decide (d ≠ '=') = true :=
          List.takeWhile_eq_self_iff.mp (nameOf_of_valid hx.valid)
        rw [hsplit, hd, nameOf, List.takeWhile_append_of_pos hv] at htext
        simp [hne] at htext
      rw [hc]
      exact nameOf_append_eq hx.valid []
  · rw [show x.offset = x.len by omega, htake, nameOf_of_valid hx.valid]

theorem writes_setWrite {v : Str} (own : Bool) : Writes (nameOf v) (setWrite v own) := by
  intro x hx hname
  unfold setWrite
  split
  · exact Same.write hx hname.symm hx.offset true _
  · split
    · exact .refl x
    · split
      · exact Same.write hx (nameOf_take_offset hx) hx.offset true _
      · exact Same.write hx hname.symm ⟨Nat.le_succ _, le_rfl⟩ false _

namespace Store

variable {s s' : Store}

/-! ## The invariant along a step -/

/-- What `var_create` returns is there and carries the name. -/
theorem Created.live {n : Str} {flags : Flags} {id : VarId} (h : WF s)
    (hc : Created s n flags s' (some id)) : s'.Live id ∧ (s'.heap id).name = n := by
  generalize hr : some id = r at hc
  cases hc with
  | kept p pos hv =>
    split at hr
    · simp at hr
    · obtain rfl := Option.some.inj hr
      exact ⟨(Live.congr rfl).mpr hv.live, hv.name⟩
  | fresh _ _ _ hext =>
    obtain rfl := Option.some.inj hr
    exact ⟨(hext.live _).mpr (.inr rfl), by rw [hext.new]; exact name_freshEntry n _⟩
  | shadow _ p _ hv _ hext =>
    obtain rfl := Option.some.inj hr
    refine ⟨(hext.live _).mpr (.inr rfl), ?_⟩
    rw [hext.new]
    exact name_shadowEntry (h.named p hv.live) hv.name _

theorem WF.modify_name (h : WF s) {n : Str} {id : VarId} (hname : (s.heap id).name = n)
    {w : Var → Var} (hw : Writes n w) : WF (s.modify id w) :=
  h.modify fun hl => hw _ (h.named id hl) hname

theorem WF.assign (h : WF s) {v : Str} {flags : Flags} (hn : varValid (nameOf v) = true)
    (hok : CreateOk s (nameOf v) flags) {w : Var → Var} (hw : Writes (nameOf v) w) {r : Bool}
    (ha : Shish.assign s v flags w = some (s', r)) : WF s' := by
  obtain ⟨hwf, hc⟩ := h.create hn hok
  unfold Shish.assign at ha
  split at ha
  · simp at ha
  · rename_i s1 id hs1
    rw [hs1] at hwf hc
    split at ha
    · obtain ⟨rfl, -⟩ := Prod.mk.inj (Option.some.inj ha)
      exact hwf
    · obtain ⟨rfl, -⟩ := Prod.mk.inj (Option.some.inj ha)
      exact hwf.modify_name (hc.live h).2 hw

theorem WF.set (h : WF s) {v : Str} {own : Bool} {flags : Flags}
    (hn : varValid (nameOf v) = true) (hok : CreateOk s (nameOf v) flags) :
    WF (varSet s v own flags).1 := by
  obtain ⟨hwf, hc⟩ := h.create hn hok
  unfold varSet
  split
  · rename_i s1 hs1
    rw [hs1] at hwf
    exact hwf
  · rename_i s1 id hs1
    rw [hs1] at hwf hc
    split
    · exact hwf
    · exact hwf.modify_name (hc.live h).2 (writes_setWrite own)

theorem WF.copys (h : WF s) {v : Str} {flags : Flags} (hn : varValid (nameOf v) = true)
    (hok : CreateOk s (nameOf v) flags) : WF (varCopys s v flags) := by
  obtain ⟨hwf, hc⟩ := h.create hn hok
  unfold varCopys
  split
  · rename_i s1 hs1
    rw [hs1] at hwf
    exact hwf
  · rename_i s1 id hs1
    rw [hs1] at hwf hc
    exact hwf.modify_name (hc.live h).2 (writes_text true _)

theorem WF.hide (h : WF s) {v : Str} (hn : varValid (nameOf v) = true)
    (hok : CreateOk s (nameOf v) { isLocal := true }) : WF (envHide s v) := by
  obtain ⟨hwf, hc⟩ := h.create hn hok
  unfold envHide
  split
  · rename_i s1 hs1
    rw [hs1] at hwf
    exact hwf
  · rename_i s1 id hs1
    rw [hs1] at hwf hc
    exact hwf.modify_name (hc.live h).2 (writes_flags _ _)

end Store

/-- The names of an operation are valid ones. -/
def Op.Valid : Op → Prop
  | .setv v _ _ _ | .setsa v _ _ | .setvint v _ _ | .set v _ | .copys v _ | .chflg v _ _
  | .hide v | .unset v | .get v => varValid (nameOf v) = true
  | .import_ _ _ | .push _ | .pop | .shPush | .shPop => True

namespace Store

variable {s s' : Store}

theorem varstack_congr (h : s'.tabs.map (fun t => (t.level, t.function)) =
    s.tabs.map fun t => (t.level, t.function)) : s'.varstack = s.varstack := by
  unfold varstack
  cases hs : s.tabs with
  | nil =>
    rw [hs, List.map_nil] at h
    rw [List.map_eq_nil_iff.mp h]
  | cons t ts =>
    rw [hs, List.map_cons] at h
    obtain ⟨t', ts', hs', ht, -⟩ := List.map_eq_cons_iff.mp h
    rw [hs']
    exact (Prod.mk.inj ht).1

theorem skipFunctions_congr : ∀ {ts ts' : List Tab},
    ts'.map (fun t => (t.level, t.function)) = ts.map (fun t => (t.level, t.function)) →
      skipFunctions ts' = skipFunctions ts
  | [], ts', h => by rw [List.map_eq_nil_iff.mp h]
  | t :: ts, ts', h => by
      obtain ⟨t', us, rfl, ht, hts⟩ := List.map_eq_cons_iff.mp h
      obtain ⟨h1, h2⟩ := Prod.mk.inj ht
      simp only [skipFunctions]
      rw [h1, h2, skipFunctions_congr hts]

theorem targetTab_congr (h : s'.tabs.map (fun t => (t.level, t.function)) =
    s.tabs.map fun t => (t.level, t.function)) (flags : Flags) :
    targetTab s' flags = targetTab s flags := by
  unfold targetTab
  rw [varstack_congr h, skipFunctions_congr h]

/-- The tables stay the same ones. -/
theorem Created.scopes {n : Str} {flags : Flags} {r : Option VarId}
    (hc : Created s n flags s' r) : s'.tabs.map (fun t => (t.level, t.function)) =
      s.tabs.map fun t => (t.level, t.function) := by
  cases hc with
  | kept => rfl
  | fresh _ _ _ hext => exact hext.scopes
  | shadow _ _ _ _ _ hext => exact hext.scopes

theorem Created.envs {n : Str} {flags : Flags} {r : Option VarId}
    (hc : Created s n flags s' r) : s'.envs = s.envs := by
  cases hc with
  | kept => rfl
  | fresh _ _ _ hext => exact hext.envs
  | shadow _ _ _ _ _ hext => exact hext.envs

/-- What `var_create` returns is what the name stands for from then on. -/
theorem Created.visible {n : Str} {flags : Flags} {id : VarId} (h : WF s)
    (hc : Created s n flags s' (some id)) : s'.Visible n id := by
  obtain ⟨hl, hname⟩ := hc.live h
  refine ⟨hl, hname, ?_⟩
  generalize hr : some id = r at hc
  cases hc with
  | kept p pos hv =>
    split at hr
    · simp at hr
    · obtain rfl := Option.some.inj hr
      exact fun j hj hjn => hv.inner j ((Live.congr rfl).mp hj) hjn
  | fresh _ _ habs hext =>
    obtain rfl := Option.some.inj hr
    intro j hj hjn
    rcases (hext.live j).mp hj with hj | rfl
    · obtain ⟨c, hjc⟩ := hext.old j hj
      rw [hjc] at hjn
      exact absurd hjn (habs j hj)
    · exact le_rfl
  | shadow _ p _ hv hlt hext =>
    obtain rfl := Option.some.inj hr
    intro j hj hjn
    rcases (hext.live j).mp hj with hj | rfl
    · obtain ⟨c, hjc⟩ := hext.old j hj
      rw [hjc] at hjn ⊢
      rw [hext.new]
      exact ((hv.inner j hj hjn).trans_lt hlt).le
    · exact le_rfl

/-- `creates`, for a name that is visible. -/
theorem creates_visible (h : WF s) {n : Str} (hn : varValid n = true) {id : VarId}
    (hv : s.Visible n id) (flags : Flags) :
    s.creates n flags = (!flags.init && (s.heap id).table ≠ s.varstack &&
      !(s.heap id).flags.isLocal && (flags.isLocal || (s.heap id).table ≠ targetTab s flags)) := by
  simp [creates, (h.search_iff hn false).mpr hv]

/-- A second call of `var_create` finds what a first one with `V_DEFAULT` returned, so it adds an
entry only when it asks for `V_LOCAL`. -/
theorem Created.local_of_creates {n : Str} {id : VarId} (h : WF s) (h' : WF s')
    (hn : varValid n = true) (hc : Created s n {} s' (some id)) {new : Flags}
    (hcr : s'.creates n new = true) : new.isLocal = true ∧
      (s'.heap id).flags.isLocal = false ∧ (s'.heap id).table ≠ s.varstack := by
  have hv := hc.visible h
  have hscopes := hc.scopes
  rw [creates_visible h' hn hv] at hcr
  simp only [Bool.and_eq_true, Bool.not_eq_true', decide_eq_true_eq, Bool.or_eq_true] at hcr
  obtain ⟨⟨⟨-, htop⟩, hloc⟩, htarget⟩ := hcr
  rw [varstack_congr hscopes] at htop
  -- the entry is neither on the innermost table nor local, so it is on the target of `V_DEFAULT`
  have hdef : (s'.heap id).table = targetTab s {} := by
    generalize hr : some id = r at hc
    cases hc with
    | kept p pos hvp hcf =>
      obtain rfl : p = id := by simpa using hr.symm
      rw [creates_visible h hn hvp] at hcf
      have htop' : (s.heap p).table ≠ s.varstack := htop
      have hloc' : (s.heap p).flags.isLocal = false := hloc
      simpa [htop', hloc'] using hcf
    | fresh _ _ _ hext =>
      obtain rfl := Option.some.inj hr
      rw [hext.new]
      rfl
    | shadow _ p _ _ _ hext =>
      obtain rfl := Option.some.inj hr
      rw [hext.new]
      rfl
  refine ⟨?_, hloc, htop⟩
  by_contra hnl
  rcases htarget with h1 | h1
  · exact hnl h1
  · refine h1 ?_
    rw [hdef, targetTab_congr hscopes]
    simp [targetTab, hnl]

/-- **The second call of `var_create` in `var_chflg`** is as good as the call says. -/
theorem Created.second {n : Str} {id : VarId} (h : WF s) (h' : WF s') (hn : varValid n = true)
    (hc : Created s n {} s' (some id)) {new : Flags}
    (hl : new.isLocal = true → (s'.heap id).flags.isLocal = false →
      CreateOk s n { isLocal := true }) : CreateOk s' n new := by
  intro hcr
  have hv := hc.visible h
  have hscopes := hc.scopes
  have hvs := varstack_congr hscopes
  obtain ⟨hnew, hloc, htop⟩ := hc.local_of_creates h h' hn hcr
  have hok := hl hnew hloc
  have hlocal : s.creates n { isLocal := true } = true := by
    generalize hr : some id = r at hc
    cases hc with
    | kept p pos hvp _ =>
      obtain rfl : p = id := by simpa using hr.symm
      rw [creates_visible h hn hvp]
      have htop' : (s.heap p).table ≠ s.varstack := htop
      have hloc' : (s.heap p).flags.isLocal = false := hloc
      simp [htop', hloc']
    | fresh _ _ habs _ => simp [creates, (h.search_none hn).mpr habs]
    | shadow _ p hcs hvp _ _ =>
      rw [creates_visible h hn hvp] at hcs ⊢
      simp only [Bool.and_eq_true] at hcs
      simp [hcs.1.1.2, hcs.1.2]
  have htgt : targetTab s' new = s.varstack := by
    rw [targetTab_congr hscopes]
    simp [targetTab, hnew]
  refine ⟨fun t ht htl j hj hp => ?_, ?_⟩
  · have hjl : s'.Live j := ⟨t, ht, _, hj⟩
    obtain ⟨hjt, hjb⟩ := h'.home t ht _ j hj
    have hjtop : (s'.heap j).table = s.varstack := by rw [hjt, htl, htgt]
    obtain ⟨t0, ts0, hs0, hv0⟩ := h.varstack_spec
    have key : s.Live j → (s.heap j).name = (s'.heap j).name →
        (s.heap j).table = (s'.heap j).table → (s'.heap j).name = n := by
      intro hjs hjn hjt'
      rw [← hjn] at hp hjb ⊢
      refine (hok hlocal).1 t0 (by simp [hs0]) (by simp [targetTab, hv0]) j ?_ hp
      rw [← hjb]
      exact h.mem_bucket hjs (by simp [hs0]) (by rw [hjt', hjtop, hv0])
    have hjid : j ≠ id := fun hji => htop (hji ▸ hjtop)
    generalize hr : some id = r at hc
    cases hc with
    | kept p pos _ _ => exact key ((Live.congr rfl).mp hjl) rfl rfl
    | fresh _ _ _ hext =>
      obtain rfl := Option.some.inj hr
      rcases (hext.live j).mp hjl with hjs | rfl
      · obtain ⟨c, hjc⟩ := hext.old j hjs
        exact key hjs (by rw [hjc]; rfl) (by rw [hjc])
      · exact absurd rfl hjid
    | shadow _ p _ _ _ hext =>
      obtain rfl := Option.some.inj hr
      rcases (hext.live j).mp hjl with hjs | rfl
      · obtain ⟨c, hjc⟩ := hext.old j hjs
        exact key hjs (by rw [hjc]; rfl) (by rw [hjc])
      · exact absurd rfl hjid
  · rw [(h'.search_iff hn false).mpr hv]
    change (s'.heap id).table < targetTab s' new
    rw [htgt, ← hvs]
    exact lt_of_le_of_ne (h'.table_le hv.live) (hvs ▸ htop)

/-- The calls of `var_chflg` that do what they are meant to. -/
def ChflgOk (s : Store) (n : Str) (flags : Flags) (set : Bool) : Prop :=
  CreateOk s n {} ∧ (set = true → flags.isLocal = true → CreateOk s n { isLocal := true })

theorem Created.second_chflg {n : Str} {id : VarId} {flags : Flags} {set : Bool} (h : WF s)
    (h' : WF s') (hn : varValid n = true) (hc : Created s n {} s' (some id))
    (hok : ChflgOk s n flags set) :
    CreateOk s' n ((s'.heap id).flags.change flags set) := by
  refine hc.second h h' hn fun hnew hloc => ?_
  cases set with
  | true =>
    refine hok.2 rfl ?_
    simpa [Flags.change, Flags.or, hloc] using hnew
  | false => simp [Flags.change, Flags.diff, hloc] at hnew

theorem WF.chflg (h : WF s) {v : Str} {flags : Flags} {set : Bool}
    (hn : varValid (nameOf v) = true) (hok : ChflgOk s (nameOf v) flags set) :
    WF (varChflg s v flags set) := by
  obtain ⟨hwf, hc⟩ := h.create hn hok.1
  unfold varChflg
  split
  · rename_i s1 hs1
    rw [hs1] at hwf
    exact hwf
  · rename_i s1 id hs1
    rw [hs1] at hwf hc
    obtain ⟨hl, hname⟩ := hc.live h
    have htext : nameOf (s1.heap id).s = nameOf v := (hwf.named id hl).text.trans hname
    dsimp only
    split
    · exact hwf.modify_name hname (writes_flags _ fun _ => _)
    · refine hwf.set (by rw [htext]; exact hn) ?_
      rw [htext]
      exact hc.second_chflg h hwf hn hok

/-- The calls of `var_import` that do what they are meant to: as for `CreateOk`, on
`sh->varstack`. -/
def ImportOk (s : Store) (n : Str) : Prop :=
  (varSearch s n false).1 = none → NoLonger s n s.shVarstack ∧ NoTwin s n

theorem Tables.exists_level (h : Tables s) {k : ℕ} (hk : k < s.tabs.length) :
    ∃ t ∈ s.tabs, t.level = k := by
  have : k ∈ s.tabs.map Tab.level := by
    rw [h.levels]
    simpa using hk
  exact List.mem_map.mp this

theorem WF.import_ (h : WF s) {v : Str} {flags : Flags} (hroot : s.shVarstack = 0)
    (hok : ImportOk s (nameOf v)) : WF (varImport s v flags) := by
  unfold varImport
  split
  · exact h
  · rename_i hval
    have hn : varValid (nameOf v) = true := by simpa using hval
    have hw : Writes (nameOf v) fun x => { x with
        s := v
        flags := flags
        offset := if x.len < v.length then x.len + 1 else x.offset } :=
      fun x hx hname => Same.write hx hname.symm (offset_after hx _) x.owned flags
    dsimp only
    split
    · rename_i id s1 hs1
      have hs1' : s1 = (varSearch s (nameOf v) false).2 := by rw [hs1]
      have hf : (varSearch s (nameOf v) false).1 = some id := by rw [hs1]
      have hv := (h.search_iff hn false).mp hf
      have hwf := h.search (nameOf v) false
      rw [hs1']
      split
      · exact hwf
      · exact hwf.modify_name
          (show ((varSearch s (nameOf v) false).2.heap id).name = nameOf v from hv.name) hw
    · rename_i s1 hs1
      have hs1' : (varSearch s (nameOf v) false).2 = s1 := by rw [hs1]
      have hf : (varSearch s (nameOf v) false).1 = none := by rw [hs1]
      have habs := (h.search_none hn).mp hf
      have henv : s1.shVarstack = s.shVarstack := by rw [← hs1']; rfl
      have hnext : s1.next = s.next := by rw [← hs1']; rfl
      obtain ⟨hext, hrel⟩ := hok hf
      have hnm := named_varInit hn
      have hk : ∃ t ∈ s.tabs, t.level = s.shVarstack := by
        rw [hroot]
        exact h.exists_level (List.length_pos_iff.mpr h.ne_nil)
      obtain ⟨h1, h2⟩ := h.add_new hn hk habs hext hrel
        { varInit (nameOf v) with owned := false }
        ⟨hnm.valid, hnm.len, hnm.lex, hnm.rnd, hnm.text, hnm.offset⟩
        (by simp [Var.name, varInit]) rfl rfl hs1' rfl
      rw [henv]
      refine h1.modify_name (n := nameOf v) ?_ hw
      have h3 := h2.new
      rw [← hnext] at h3
      rw [h3]
      simp [Var.name, varInit]

/-! ## Push -/

theorem WF.varstack_succ (h : WF s) : s.varstack + 1 = s.tabs.length := by
  obtain ⟨t, ts, hs, hv⟩ := h.varstack_spec
  have hl := h.levels
  rw [hs, List.map_cons, List.length_cons, List.range_succ, List.reverse_append] at hl
  rw [hv, hs, List.length_cons, (List.cons.inj hl).1]

theorem live_push {function : Bool} {j : VarId} : (vartabPush s function).Live j ↔ s.Live j := by
  constructor
  · rintro ⟨t, ht, b, hb⟩
    rcases List.mem_cons.mp ht with rfl | ht
    · simp at hb
    · exact ⟨t, ht, b, hb⟩
  · rintro ⟨t, ht, b, hb⟩
    exact ⟨t, List.mem_cons_of_mem _ ht, b, hb⟩

theorem WF.push (h : WF s) (function : Bool) : WF (vartabPush s function) := by
  have hlive : ∀ {j}, (vartabPush s function).Live j ↔ s.Live j := live_push
  refine ⟨⟨?_, ?_, ?_, ?_, ?_, ?_, ?_⟩, ⟨h.listSorted, ?_, ?_, ?_, ?_⟩⟩
  · simp only [vartabPush, List.map_cons, List.length_cons, h.varstack_succ, List.range_succ,
      List.reverse_append, h.levels]
    rfl
  · obtain ⟨ts, t, hs, hf⟩ := h.root
    exact ⟨_ :: ts, t, by simp only [vartabPush, hs]; rfl, hf⟩
  · exact fun id hid => h.named id (hlive.mp hid)
  · intro t ht b id hid
    rcases List.mem_cons.mp ht with rfl | ht
    · simp at hid
    · exact h.home t ht b id hid
  · intro t ht b
    rcases List.mem_cons.mp ht with rfl | ht
    · simp
    · exact h.sorted t ht b
  · exact fun id hid => h.fresh id (hlive.mp hid)
  · exact fun i j hi hj => h.noprefix i j (hlive.mp hi) (hlive.mp hj)
  · intro id
    rw [hlive]
    exact h.mem_list id
  · intro id p hid hp
    rw [hlive]
    exact h.parent id p (hlive.mp hid) hp
  · intro id c hid hc
    rw [hlive]
    exact h.child id c (hlive.mp hid) hc
  · exact fun i j hi hj => h.chain i j (hlive.mp hi) (hlive.mp hj)

/-! ## Steps and runs -/

/-- The steps whose search is not misled, and whose entry does not go behind the one it shadows. -/
def StepOk (s : Store) : Op → Prop
  | .setv v _ flags _ | .setsa v flags _ | .setvint v _ flags | .set v flags | .copys v flags =>
      CreateOk s (nameOf v) flags
  | .chflg v flags set => ChflgOk s (nameOf v) flags set
  | .import_ v _ => ImportOk s (nameOf v)
  | .hide v => CreateOk s (nameOf v) { isLocal := true }
  | .unset _ | .get _ | .push _ | .pop | .shPush | .shPop => True

instance : ∀ op : Op, Decidable op.Valid
  | .setv v _ _ _ | .setsa v _ _ | .setvint v _ _ | .set v _ | .copys v _ | .chflg v _ _
  | .hide v | .unset v | .get v => inferInstanceAs (Decidable (varValid (nameOf v) = true))
  | .import_ _ _ | .push _ | .pop | .shPush | .shPop => isTrue trivial

instance (s : Store) : ∀ op : Op, Decidable (StepOk s op)
  | .setv v _ flags _ | .setsa v flags _ | .setvint v _ flags | .set v flags | .copys v flags =>
      inferInstanceAs (Decidable (CreateOk s (nameOf v) flags))
  | .chflg v flags set => inferInstanceAs (Decidable (CreateOk s (nameOf v) {} ∧
      (set = true → flags.isLocal = true → CreateOk s (nameOf v) { isLocal := true })))
  | .import_ v _ => inferInstanceAs (Decidable ((varSearch s (nameOf v) false).1 = none →
      NoLonger s (nameOf v) s.shVarstack ∧ NoTwin s (nameOf v)))
  | .hide v => inferInstanceAs (Decidable (CreateOk s (nameOf v) { isLocal := true }))
  | .unset _ | .get _ | .push _ | .pop | .shPush | .shPop => isTrue trivial

/-- **Every such step keeps the invariant.** -/
theorem WF.step (h : WF s) {op : Op} (hval : op.Valid) (hok : StepOk s op)
    (hs : Shish.step s op = some s') : WF s' := by
  have hfst : ∀ {r : Option (Store × Bool)}, r.map Prod.fst = some s' → ∃ b, r = some (s', b) := by
    rintro (_ | ⟨s1, b⟩) hr
    · simp at hr
    · exact ⟨b, by simpa using hr⟩
  cases op with
  | setv v value flags ae =>
    obtain ⟨b, hb⟩ := hfst hs
    exact h.assign hval hok (writes_setv _ _) hb
  | setsa sa flags ae =>
    obtain ⟨b, hb⟩ := hfst hs
    exact h.assign hval hok (writes_text _ _) hb
  | setvint v i flags =>
    obtain ⟨b, hb⟩ := hfst hs
    exact h.assign hval hok (writes_setvint _ _) hb
  | set v flags =>
    rw [← Option.some.inj hs]
    exact h.set hval hok
  | copys v flags =>
    rw [← Option.some.inj hs]
    exact h.copys hval hok
  | chflg v flags set =>
    rw [← Option.some.inj hs]
    exact h.chflg hval hok
  | import_ v flags =>
    simp only [Shish.step] at hs
    split at hs
    · rw [← Option.some.inj hs]
      exact h.import_ (by assumption) hok
    · simp at hs
  | hide v =>
    rw [← Option.some.inj hs]
    exact h.hide hval hok
  | unset v =>
    rw [← Option.some.inj hs]
    exact h.unset hval
  | get v =>
    rw [← Option.some.inj hs]
    exact h.search _ _
  | push function =>
    rw [← Option.some.inj hs]
    exact h.push function
  | pop => exact h.pop hs
  | shPush =>
    rw [← Option.some.inj hs]
    exact h.congr rfl rfl le_rfl fun _ _ => .refl _
  | shPop =>
    simp only [Shish.step, Shish.shPop] at hs
    split at hs
    · split at hs
      · rw [← Option.some.inj hs]
        exact h.congr rfl rfl le_rfl fun _ _ => .refl _
      · simp at hs
    · simp at hs

/-- The store before the first operation. -/
theorem WF.init : WF {} := by
  have hno : ∀ {j}, ¬ ({} : Store).Live j := by
    rintro j ⟨t, ht, b, hb⟩
    obtain rfl : t = {} := by simpa using ht
    simp at hb
  exact ⟨⟨rfl, ⟨[], {}, rfl, rfl⟩, fun _ h => absurd h hno,
      fun t ht b id hid => absurd ⟨t, ht, b, hid⟩ hno,
      fun t ht b => by obtain rfl : t = {} := by simpa using ht
                       simp,
      fun _ h => absurd h hno, fun _ _ h => absurd h hno⟩,
    ⟨by simp, fun id => by simp [hno], fun _ _ h => absurd h hno, fun _ _ h => absurd h hno,
      fun _ _ h => absurd h hno⟩⟩

/-! ## The store in order -/

/-- What the store is meant to be at any time: no table with two entries of one name, every bucket
by lexical hash, `var_list` exactly the entries without a child, one for each name and by name, and
parent and child each other's inverse, the parent strictly further out. -/
structure InOrder (s : Store) : Prop where
  unique : ∀ t ∈ s.tabs, (t.entries.map fun i => (s.heap i).name).Nodup
  buckets : ∀ t ∈ s.tabs, ∀ b, (t.bucket b).Pairwise fun i j => (s.heap i).lexhash ≤ (s.heap j).lexhash
  list_mem : ∀ id, id ∈ s.list ↔ s.Live id ∧ (s.heap id).child = none
  list_names : ∀ id, s.Live id → ∃! i, i ∈ s.list ∧ (s.heap i).name = (s.heap id).name
  list_sorted : s.list.Pairwise fun i j => (s.heap i).name < (s.heap j).name
  parent : ∀ id p, s.Live id → (s.heap id).parent = some p →
    s.Live p ∧ (s.heap p).child = some id ∧ (s.heap p).table < (s.heap id).table
  child : ∀ id c, s.Live id → (s.heap id).child = some c →
    s.Live c ∧ (s.heap c).parent = some id ∧ (s.heap id).table < (s.heap c).table

theorem WF.inOrder (h : WF s) : InOrder s := by
  refine ⟨?_, ?_, h.mem_list, ?_, h.listSorted, ?_, ?_⟩
  · intro t ht
    refine (h.nodup_entries ht).map_on fun i hi j hj hn => ?_
    obtain ⟨hil, hit⟩ := (h.mem_entries ht).mp hi
    obtain ⟨hjl, hjt⟩ := (h.mem_entries ht).mp hj
    exact h.unique hil hjl hn (hit.trans hjt.symm)
  · intro t ht b
    refine (h.sorted t ht b).imp_of_mem fun {i j} hi hj hlt => ?_
    exact (h.named i ⟨t, ht, b, hi⟩).lex_le (h.named j ⟨t, ht, b, hj⟩) hlt.le
  · intro id hid
    obtain ⟨i, hi, hn⟩ := h.exists_mem_list hid
    refine ⟨i, ⟨hi, hn⟩, fun j ⟨hj, hjn⟩ => ?_⟩
    have ho : Ordered s.heap s.list :=
      ⟨fun k hk => h.named k ((h.mem_list k).mp hk).1, h.listSorted⟩
    exact ho.eq_of_name hj hi (hjn.trans hn.symm)
  · intro id p hid hp
    obtain ⟨h1, h2, -, h4⟩ := h.parent id p hid hp
    exact ⟨h1, h2, h4⟩
  · intro id c hid hc
    obtain ⟨h1, h2⟩ := h.child id c hid hc
    exact ⟨h1, h2, (h.parent c id h1 h2).2.2.2⟩

/-- The condition of a run: every step over valid names, none of them misled. -/
def Ok (s : Store) (op : Op) : Prop := op.Valid ∧ StepOk s op

instance (s : Store) (op : Op) : Decidable (Ok s op) :=
  inferInstanceAs (Decidable (op.Valid ∧ StepOk s op))

/-- **A run none of whose steps is misled ends well formed.** -/
theorem WF.run (h : WF s) {ops : List Op} (hok : Along Shish.step Ok s ops)
    (hr : Shish.run s ops = some s') : WF s' :=
  run_invariant WF (fun _ _ _ h ⟨hv, hok⟩ hs => h.step hv hok hs) ops h hok hr

/-- **The store is in order after every run whose searches were not misled.** -/
theorem inOrder_of_run {ops : List Op} {s : Store} (hok : Along Shish.step Ok {} ops)
    (hr : Shish.run {} ops = some s) : InOrder s :=
  (WF.init.run hok hr).inOrder

/-- Two names of eleven and twelve letters, the one a prefix of the other. -/
def twinOps : List Op :=
  [.setv "abcdefghijk".toList "1".toList {} false, .setv "abcdefghijkl".toList "2".toList {} false]

theorem twin_list : (Shish.run {} twinOps).map (fun s => s.list.map fun i => (s.heap i).name) =
    some ["abcdefghijkl".toList, "abcdefghijk".toList] := by
  decide +kernel

/-- **The list is out of order after two assignments**: the search for the longer name stops at the
shorter one, and the longer one goes in front of it. -/
theorem inOrder_broken : ∃ s, Shish.run {} twinOps = some s ∧ (∀ op ∈ twinOps, op.Valid) ∧
    ¬ InOrder s := by
  cases hr : Shish.run {} twinOps with
  | none =>
    have := twin_list
    simp [hr] at this
  | some s =>
    have hl := twin_list
    rw [hr, Option.map_some, Option.some.injEq] at hl
    refine ⟨s, rfl, ?_, fun h => ?_⟩
    · intro op hop
      simp only [twinOps, List.mem_cons, List.not_mem_nil, or_false] at hop
      rcases hop with rfl | rfl <;> decide
    · have hs := List.pairwise_map.mpr h.list_sorted
      rw [hl] at hs
      revert hs
      decide

/-- Assign at the top, in a function and in a subshell. -/
def plainOps : List Op :=
  [.setv "x".toList "1".toList {} false, .push true, .setv "x".toList "2".toList { isLocal := true } false,
    .setv "y".toList "3".toList {} false, .pop, .push false, .chflg "x".toList { exported := true } true,
    .unset "y".toList, .pop]

theorem inOrder_plain : ∃ s, Shish.run {} plainOps = some s ∧ InOrder s := by
  have hok : Along Shish.step Ok {} plainOps := by decide +kernel
  have hsome : (Shish.run {} plainOps).isSome = true := by decide +kernel
  obtain ⟨s, hr⟩ := Option.isSome_iff_exists.mp hsome
  exact ⟨s, hr, inOrder_of_run hok hr⟩

end Store

end Shish
