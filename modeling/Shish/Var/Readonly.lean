import Shish.Var.Isolation

/-!
# Var/Readonly — assignments that are refused

An assignment asks for its entry first and looks at `V_READONLY` then, so a refused one may have
added a shadow: an unset one, not exported, with the offset of an entry that was never assigned.
Refused assignments that add nothing are invisible in any state; of the others only those are whose
readonly entry reports what such a shadow does (`Store.rejected_silent`).
-/

namespace Shish

/-- The text and the flags an assignment passes to `var_create`. -/
def Op.assigns : Op → Option (Str × Flags)
  | .setv v _ flags _ | .setsa v flags _ | .setvint v _ flags | .set v flags => some (v, flags)
  | _ => none

/-- The state an assignment that was refused leaves behind. -/
def rejected (s : Store) : Op → Option Store
  | .setv v value flags ae => (varSetv s v value flags ae).bind fun r => if r.2 then none else some r.1
  | .setsa sa flags ae => (varSetsa s sa flags ae).bind fun r => if r.2 then none else some r.1
  | .setvint v i flags => (varSetvint s v i flags).bind fun r => if r.2 then none else some r.1
  | .set v flags => if (varSet s v false flags).2 then none else some (varSet s v false flags).1
  | _ => none

namespace Store

variable {s s' : Store}

theorem assign_rejected {v : Str} {flags : Flags} {w : Var → Var}
    (h : ((assign s v flags w).bind fun r => if r.2 then none else some r.1) = some s') :
    ∃ id, varCreate s v flags = (s', some id) ∧ (s'.heap id).flags.readonly = true := by
  unfold assign at h
  split at h
  · simp at h
  · rename_i s1 id hs1
    split at h
    · rename_i hro
      obtain rfl : s1 = s' := by simpa using h
      exact ⟨id, hs1, hro⟩
    · simp at h

theorem set_rejected {v : Str} {own : Bool} {flags : Flags} (h : (varSet s v own flags).2 = false) :
    (varCreate s v flags).1 = (varSet s v own flags).1 ∧ ∀ id ∈ (varCreate s v flags).2,
      ((varSet s v own flags).1.heap id).flags.readonly = true := by
  revert h
  unfold varSet
  rcases varCreate s v flags with ⟨s1, _ | id⟩
  · simp
  · intro h
    dsimp only at h ⊢
    split at h
    · rename_i hro
      simp [hro]
    · simp at h

/-- **A refused assignment has called `var_create` and done nothing else**; the entry it got was
readonly, or it got none. -/
theorem rejected_create {op : Op} {v : Str} {flags : Flags} (ha : op.assigns = some (v, flags))
    (hr : rejected s op = some s') : (varCreate s v flags).1 = s' ∧
      ∀ id ∈ (varCreate s v flags).2, (s'.heap id).flags.readonly = true := by
  have hassign : ∀ {w : Var → Var}, ((assign s v flags w).bind fun r =>
      if r.2 then none else some r.1) = some s' → (varCreate s v flags).1 = s' ∧
        ∀ id ∈ (varCreate s v flags).2, (s'.heap id).flags.readonly = true := by
    intro w h
    obtain ⟨id, hc, hro⟩ := assign_rejected h
    rw [hc]
    refine ⟨rfl, fun j hj => ?_⟩
    obtain rfl : id = j := by simpa using hj
    exact hro
  cases op with
  | setv u value fl ae =>
    obtain ⟨rfl, rfl⟩ : u = v ∧ fl = flags := by simpa [Op.assigns] using ha
    exact hassign hr
  | setsa sa fl ae =>
    obtain ⟨rfl, rfl⟩ : sa = v ∧ fl = flags := by simpa [Op.assigns] using ha
    exact hassign hr
  | setvint u i fl =>
    obtain ⟨rfl, rfl⟩ : u = v ∧ fl = flags := by simpa [Op.assigns] using ha
    exact hassign hr
  | set u fl =>
    obtain ⟨rfl, rfl⟩ : u = v ∧ fl = flags := by simpa [Op.assigns] using ha
    simp only [rejected] at hr
    split at hr
    · simp at hr
    · rename_i hb
      obtain rfl := Option.some.inj hr
      exact set_rejected (by simpa using hb)
  | _ => simp [Op.assigns] at ha

/-- A call that adds no entry leaves what every name reports. -/
theorem view_of_not_creates {v : Str} {flags : Flags} (hc : s.creates (nameOf v) flags = false)
    (n : Str) : (varCreate s v flags).1.view n = s.view n := by
  rw [varCreate_eq]
  cases hf : (varSearch s (nameOf v) false).1 with
  | none => simp [creates, hf] at hc
  | some id =>
    dsimp only
    rw [hc, if_neg (by simp)]
    exact view_position s _ n

/-- The refused assignments nobody can see: no entry was added, or the readonly entry looks like the
shadow it got. -/
def Silent (s : Store) (n : Str) (flags : Flags) : Prop :=
  s.creates n flags = false ∨ ∀ id ∈ (varSearch s n false).1,
    (s.heap id).flags.unset = true ∧ (s.heap id).flags.exported = false ∧
      (s.heap id).value = (s.heap id).s.drop (s.heap id).len

/-- The names other than the one an entry was added for report what they did. -/
theorem Extends.view_ne (h : WF s) (h' : WF s') {e : Var} (hext : Extends s s' e) {n : Str}
    (hn : varValid n = true) (hne : e.name ≠ n) : s'.view n = s.view n := by
  have hnext : ∀ j, s'.Live j → (s'.heap j).name = n → s.Live j := by
    intro j hj hjn
    rcases (hext.live j).mp hj with hj | rfl
    · exact hj
    · rw [hext.new] at hjn
      exact absurd hjn hne
  rcases h.visible_or_absent n with ⟨id, hv⟩ | habs
  · obtain ⟨c, hc⟩ := hext.old id hv.live
    have hv' : s'.Visible n id := by
      refine ⟨(hext.live id).mpr (.inl hv.live), by rw [hc]; exact hv.name, fun j hj hjn => ?_⟩
      have hjl := hnext j hj hjn
      obtain ⟨c', hc'⟩ := hext.old j hjl
      rw [hc'] at hjn
      rw [hc, hc']
      exact hv.inner j hjl hjn
    rw [h.view_visible hn hv, h'.view_visible hn hv', hc]
    rfl
  · have habs' : ∀ j, s'.Live j → (s'.heap j).name ≠ n := by
      intro j hj hjn
      have hjl := hnext j hj hjn
      obtain ⟨c, hc⟩ := hext.old j hjl
      rw [hc] at hjn
      exact habs j hjl hjn
    rw [h.view_none hn habs, h'.view_none hn habs']

theorem view_shadowEntry (s : Store) (n : Str) (p : VarId) (k : ℕ) :
    (shadowEntry s n p k).view =
      ⟨true, (s.heap p).s.drop n.length, false, (s.heap p).flags.readonly⟩ := rfl

/-- **When a refused assignment is invisible**, in a store in order. -/
theorem WF.rejected_silent_iff (h : WF s) {op : Op} {v : Str} {flags : Flags}
    (ha : op.assigns = some (v, flags)) (hok : Ok s op) (hr : rejected s op = some s') :
    (∀ n, varValid n = true → s'.view n = s.view n) ↔ Silent s (nameOf v) flags := by
  obtain ⟨rfl, hro⟩ := rejected_create ha hr
  obtain ⟨hn, hcr⟩ : varValid (nameOf v) = true ∧ CreateOk s (nameOf v) flags := by
    cases op <;> simp only [Op.assigns, reduceCtorEq, Option.some.injEq, Prod.mk.injEq] at ha <;>
      obtain ⟨rfl, rfl⟩ := ha <;> exact hok
  obtain ⟨hwf, hc⟩ := h.create hn hcr
  cases hcf : s.creates (nameOf v) flags with
  | false => exact ⟨fun _ => .inl hcf, fun _ n _ => view_of_not_creates hcf n⟩
  | true =>
    generalize hs1 : (varCreate s v flags).1 = s1 at hc hwf hro ⊢
    generalize hr1 : (varCreate s v flags).2 = r1 at hc hro
    cases hc with
    | kept _ _ _ hk => simp [hcf] at hk
    | fresh _ _ _ hext =>
      -- an entry that shadows nothing is not readonly
      have := hro s.next (by simp)
      rw [hext.new] at this
      simp [freshEntry] at this
    | shadow _ p _ hv _ hext =>
      have hpro : (s.heap p).flags.readonly = true := by
        have := hro s.next (by simp)
        rw [hext.new] at this
        exact this
      have hpn := h.named p hv.live
      have hname : (shadowEntry s (nameOf v) p (targetTab s flags)).name = nameOf v :=
        name_shadowEntry hpn hv.name _
      have hlen : (nameOf v).length = (s.heap p).len := by rw [hpn.len, hv.name]
      have hv1 : s1.Visible (nameOf v) s.next := by
        refine ⟨(hext.live _).mpr (.inr rfl), by rw [hext.new]; exact hname, fun j hj hjn => ?_⟩
        rcases (hext.live j).mp hj with hj | rfl
        · obtain ⟨c, hjc⟩ := hext.old j hj
          rw [hjc] at hjn ⊢
          rw [hext.new]
          exact ((hv.inner j hj hjn).trans_lt ‹_›).le
        · exact le_rfl
      have hfound := (h.search_iff hn false).mpr hv
      have hmine : s1.view (nameOf v) = s.view (nameOf v) ↔ Silent s (nameOf v) flags := by
        rw [h.view_visible hn hv, hwf.view_visible hn hv1, hext.new, view_shadowEntry, hlen]
        simp only [Silent, hcf, hfound, Option.mem_def, Option.some.injEq, forall_eq',
          Bool.true_eq_false, false_or, Var.view, View.mk.injEq, hpro, and_true]
        constructor
        · rintro ⟨h1, h2, h3⟩
          exact ⟨h1.symm, h3.symm, h2.symm⟩
        · rintro ⟨h1, h2, h3⟩
          exact ⟨h1.symm, h3.symm, h2.symm⟩
      constructor
      · exact fun hall => hmine.mp (hall (nameOf v) hn)
      · intro hsil n hnv
        by_cases hne : n = nameOf v
        · exact hne ▸ hmine.mpr hsil
        · exact hext.view_ne h hwf hnv (by rw [hname]; exact fun h => hne h.symm)

/-- **Which refused assignments are invisible.**  Those that add no entry are, in any state at all;
in a state a run reaches whose searches were not misled, exactly the silent ones are. -/
theorem rejected_silent {op : Op} {v : Str} {flags : Flags} (ha : op.assigns = some (v, flags)) :
    (∀ s s' : Store, rejected s op = some s' → s.creates (nameOf v) flags = false →
      ∀ n, s'.view n = s.view n) ∧
    ∀ (pre : List Op) (s s' : Store), Along Shish.step Ok {} (pre ++ [op]) →
      Shish.run {} pre = some s → rejected s op = some s' →
        ((∀ n, varValid n = true → s'.view n = s.view n) ↔ Silent s (nameOf v) flags) := by
  refine ⟨fun s s' hr hc n => ?_, fun pre s s' hok hrun hr => ?_⟩
  · rw [← (rejected_create ha hr).1]
    exact view_of_not_creates hc n
  · obtain ⟨hpre, hop⟩ := along_append pre [op] hok
    exact (WF.init.run hpre hrun).rejected_silent_iff ha (hop s hrun).1 hr

/-- `readonly x=1`, and a subshell opened after it or not. -/
def readonlyOps (sub : Bool) : List Op :=
  [.setv "x".toList "1".toList {} false, .chflg "x".toList { readonly := true } true] ++
    if sub then [.push false] else []

/-- `x=2`. -/
def assignX : Op := .setv "x".toList "2".toList {} false

/-- What `x` reports before `x=2` is refused, and after it. -/
def viewsRejected (sub : Bool) : Option (Option View × Option View) := do
  let s ← Shish.run {} (readonlyOps sub)
  let s' ← rejected s assignX
  return (s.view "x".toList, s'.view "x".toList)

/-- At the level of the variable itself the refused assignment is invisible. -/
theorem silent_same_level : ∃ s s', Shish.run {} (readonlyOps false) = some s ∧
    rejected s assignX = some s' ∧ ∀ n, varValid n = true → s'.view n = s.view n := by
  have hok : Along Shish.step Ok {} (readonlyOps false ++ [assignX]) := by decide
  have hsome : ((Shish.run {} (readonlyOps false)).bind fun s => (rejected s assignX).map fun _ =>
      s.creates "x".toList {}) = some false := by decide
  obtain ⟨s, hs, hr⟩ := Option.bind_eq_some_iff.mp hsome
  obtain ⟨s', hr, hc⟩ := Option.map_eq_some_iff.mp hr
  have ha : assignX.assigns = some ("x".toList, {}) := rfl
  exact ⟨s, s', hs, hr,
    ((rejected_silent ha).2 (readonlyOps false) s s' hok hs hr).mpr (.inl hc)⟩

/-- **In a subshell a refused assignment unsets the variable**, and its value has grown an equal
sign. -/
theorem rejected_shadows : ∃ s s', Shish.run {} (readonlyOps true) = some s ∧
    rejected s assignX = some s' ∧ s'.view "x".toList ≠ s.view "x".toList := by
  have hv : viewsRejected true = some (some ⟨false, "1".toList, false, true⟩,
      some ⟨true, "=1".toList, false, true⟩) := by decide
  simp only [viewsRejected, Option.bind_eq_bind, Option.bind_eq_some_iff, Option.pure_def,
    Option.some.injEq, Prod.mk.injEq] at hv
  obtain ⟨s, hs, s', hs', h1, h2⟩ := hv
  exact ⟨s, s', hs, hs', by rw [h1, h2]; simp⟩

end Store

end Shish
