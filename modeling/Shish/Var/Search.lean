import Shish.Var.Store

/-!
# Var/Search — what the two-stage search finds, and where it stops

A search walks the tables from the innermost one.  In each it skips by lexical hash and then
compares names, and leaves behind the place it stopped at.  On a bucket in the order of its names
the search is right about what it finds (`vartabSearch_sound`), but it misses a name when an entry
in front is a prefix of it with the same hash, and leaves a wrong place when an entry is longer than
the wanted name and starts with it: `var_bsearch` goes on where a wanted name runs out and stops
where an entry does.  `vartabSearch_complete` and `vartabSearch_place` are what holds without such
neighbours; `globalPlace_spec` is the same for `var_list`.
-/

namespace Shish

/-! ## One list, in order -/

/-- What an entry of a table keeps of its name. -/
structure Named (v : Var) : Prop where
  valid : varValid v.name = true
  len : v.len = v.name.length
  lex : v.lexhash = varLexhash v.name
  rnd : v.rndhash = varRndhash v.name
  text : nameOf v.s = v.name
  offset : v.len ≤ v.offset ∧ v.offset ≤ v.len + 1

/-- A search context for `n`, as `vartab_hash` makes it; only `hdist` moves afterwards. -/
structure For (n : Str) (ctx : Search) : Prop where
  name : ctx.name = n
  lex : ctx.lexhash = varLexhash n
  rnd : ctx.rndhash = varRndhash n
  bucket : ctx.bucket = bucketOf n

theorem for_vartabHash (n : Str) (e : Bool) : For n (vartabHash n e) :=
  ⟨rfl, rfl, rfl, rfl⟩

example (ctx : Search) : varHsearch ctx [] = (-1, 0) ∧ varBsearch ctx [] = (-1, 0) ∧ varBcmp [] [] = some 0 := by
  simp [varHsearch, varBsearch, varBcmp]

/-- **Where `var_hsearch` stops**: everything in front was passed by, and the entry it stands at, if
there is one, was not. -/
theorem varHsearch_spec (ctx : Search) : ∀ l : List Var, ∃ a b, l = a ++ b ∧
    (varHsearch ctx l).2 = a.length ∧ (∀ v ∈ a, hskip ctx v = true) ∧
    ((b = [] ∧ (varHsearch ctx l).1 = -1) ∨
      ∃ v t, b = v :: t ∧ hskip ctx v = false ∧ (varHsearch ctx l).1 = v.lexhash - ctx.lexhash)
  | [] => ⟨[], [], rfl, rfl, by simp, .inl ⟨rfl, rfl⟩⟩
  | v :: t => by
      obtain ⟨a, b, rfl, hi, ha, hb⟩ := varHsearch_spec ctx t
      cases hs : hskip ctx v with
      | true =>
        have he : varHsearch ctx (v :: (a ++ b)) =
            ((varHsearch ctx (a ++ b)).1, (varHsearch ctx (a ++ b)).2 + 1) := by
          rw [varHsearch, if_pos hs]
        refine ⟨v :: a, b, rfl, by simp [he, hi], ?_, by simpa only [he] using hb⟩
        intro w hw
        rcases List.mem_cons.mp hw with rfl | hw
        · exact hs
        · exact ha w hw
      | false =>
        have he : varHsearch ctx (v :: (a ++ b)) = (v.lexhash - ctx.lexhash, 0) := by
          rw [varHsearch, if_neg (by simpa [hskip] using hs)]
        exact ⟨[], v :: (a ++ b), rfl, by simp [he], by simp, .inr ⟨v, a ++ b, rfl, hs, by simp [he]⟩⟩

/-- **Where `var_bsearch` stops.** -/
theorem varBsearch_spec (ctx : Search) : ∀ l : List Var, ∃ a b, l = a ++ b ∧
    (varBsearch ctx l).2 = a.length ∧ (∀ v ∈ a, varBcmp v.name ctx.name = none) ∧
    ((b = [] ∧ (varBsearch ctx l).1 = -1) ∨
      ∃ v t d, b = v :: t ∧ varBcmp v.name ctx.name = some d ∧ (varBsearch ctx l).1 = d)
  | [] => ⟨[], [], rfl, rfl, by simp, .inl ⟨rfl, rfl⟩⟩
  | v :: t => by
      obtain ⟨a, b, rfl, hi, ha, hb⟩ := varBsearch_spec ctx t
      cases hs : varBcmp v.name ctx.name with
      | none =>
        have he : varBsearch ctx (v :: (a ++ b)) =
            ((varBsearch ctx (a ++ b)).1, (varBsearch ctx (a ++ b)).2 + 1) := by
          rw [varBsearch, hs]
        refine ⟨v :: a, b, rfl, by simp [he, hi], ?_, by simpa only [he] using hb⟩
        intro w hw
        rcases List.mem_cons.mp hw with rfl | hw
        · exact hs
        · exact ha w hw
      | some d =>
        have he : varBsearch ctx (v :: (a ++ b)) = (d, 0) := by rw [varBsearch, hs]
        exact ⟨[], v :: (a ++ b), rfl, by simp [he], by simp,
          .inr ⟨v, a ++ b, d, rfl, hs, by simp [he]⟩⟩

/-! ## The comparison -/

/-- The comparison goes on past smaller names and, as it should not, past longer ones. -/
theorem varBcmp_eq_none : ∀ {m w : Str}, varBcmp m w = none →
    (m < w ∧ ¬ m <+: w) ∨ (w <+: m ∧ w ≠ m)
  | [], [], h => by simp [varBcmp] at h
  | [], w :: ws, h => by simp [varBcmp] at h
  | m :: ms, [], _ => .inr ⟨List.nil_prefix, by simp⟩
  | m :: ms, w :: ws, h => by
      rw [varBcmp] at h
      split_ifs at h with hmw hlt
      · subst hmw
        rcases varBcmp_eq_none h with ⟨h1, h2⟩ | ⟨h1, h2⟩
        · exact .inl ⟨List.cons_lt_cons_iff.mpr (.inr ⟨rfl, h1⟩), by simpa using h2⟩
        · exact .inr ⟨by simpa using h1, by simpa using h2⟩
      · exact .inl ⟨List.cons_lt_cons_iff.mpr (.inl hlt), by simp [hmw]⟩

/-- It stops at larger names and, as it should not, at shorter ones. -/
theorem varBcmp_eq_some : ∀ {m w : Str} {d : UInt64}, varBcmp m w = some d → m ≠ w →
    (w < m ∧ ¬ w <+: m) ∨ (m <+: w)
  | [], [], _, _, hne => absurd rfl hne
  | [], w :: ws, _, _, _ => .inr List.nil_prefix
  | m :: ms, [], _, h, _ => by simp [varBcmp] at h
  | m :: ms, w :: ws, d, h, hne => by
      rw [varBcmp] at h
      split_ifs at h with hmw hlt
      · subst hmw
        rcases varBcmp_eq_some h (by simpa using hne) with ⟨h1, h2⟩ | h1
        · exact .inl ⟨List.cons_lt_cons_iff.mpr (.inr ⟨rfl, h1⟩), by simpa using h2⟩
        · exact .inr (by simpa using h1)
      · refine .inl ⟨List.cons_lt_cons_iff.mpr (.inl ?_), by simp [Ne.symm hmw]⟩
        exact lt_of_le_of_ne (not_lt.mp hlt) (Ne.symm hmw)

theorem varBcmp_self : ∀ w : Str, varBcmp w w = some 0
  | [] => rfl
  | w :: ws => by rw [varBcmp, if_pos rfl, varBcmp_self ws]

/-- Distance zero is equality, names having no `NUL` in them. -/
theorem eq_of_varBcmp_zero : ∀ {m w : Str}, (∀ c ∈ w, isNameChar c = true) →
    varBcmp m w = some 0 → m = w
  | [], [], _, _ => rfl
  | [], w :: ws, hw, h => by
      have hc := isNameChar_toNat (hw w (by simp))
      have h0 := congrArg UInt64.toNat (Option.some.inj h)
      rw [UInt64.toNat_ofNat', Nat.mod_eq_of_lt (by omega)] at h0
      simp at h0
      omega
  | m :: ms, [], _, h => by simp [varBcmp] at h
  | m :: ms, w :: ws, hw, h => by
      rw [varBcmp] at h
      split_ifs at h with hmw hlt
      · rw [hmw, eq_of_varBcmp_zero (fun c hc => hw c (by simp [hc])) h]
      · exfalso
        have hgt : w.toNat < m.toNat := lt_of_le_of_ne (not_lt.mp hlt) fun he =>
          hmw (Char.toNat_inj.mp he.symm)
        have hm : m.toNat < 2 ^ 64 := lt_trans m.val.toNat_lt (by norm_num)
        have h0 := congrArg UInt64.toNat (Option.some.inj h)
        rw [UInt64.toNat_ofNat', Nat.mod_eq_of_lt (by omega)] at h0
        simp at h0
        omega

/-! ## One bucket -/

/-- A list of entries in the order of their names. -/
structure Ordered (heap : VarId → Var) (l : List VarId) : Prop where
  named : ∀ id ∈ l, Named (heap id)
  sorted : l.Pairwise fun i j => (heap i).name < (heap j).name

theorem Ordered.of_append_right {heap : VarId → Var} {a b : List VarId}
    (h : Ordered heap (a ++ b)) : Ordered heap b :=
  ⟨fun id hid => h.named id (by simp [hid]), (List.pairwise_append.mp h.sorted).2.1⟩

theorem Ordered.head_le {heap : VarId → Var} {v : VarId} {t : List VarId}
    (h : Ordered heap (v :: t)) {j : VarId} (hj : j ∈ v :: t) :
    (heap v).name ≤ (heap j).name := by
  rcases List.mem_cons.mp hj with rfl | hj
  · exact le_rfl
  · exact ((List.pairwise_cons.mp h.sorted).1 j hj).le

theorem Ordered.eq_of_name {heap : VarId → Var} {l : List VarId} (h : Ordered heap l)
    {i j : VarId} (hi : i ∈ l) (hj : j ∈ l) (hn : (heap i).name = (heap j).name) : i = j := by
  have hd : (l.map fun i => (heap i).name).Nodup := List.pairwise_map.mpr (h.sorted.imp ne_of_lt)
  exact List.inj_on_of_nodup_map hd hi hj hn

theorem prefix_le {a b : Str} (h : a <+: b) : a ≤ b := not_lt.mp h.le

theorem lexhash_le_of_le {a b : Str} (ha : varValid a = true) (hb : varValid b = true)
    (h : a ≤ b) : varLexhash a ≤ varLexhash b := by
  rcases h.eq_or_lt with rfl | h
  · exact UInt64.le_refl _
  · exact lexhash_le_of_lt ha hb h

theorem Named.lex_le {v w : Var} (hv : Named v) (hw : Named w) (h : v.name ≤ w.name) :
    v.lexhash ≤ w.lexhash := by
  rw [hv.lex, hw.lex]
  exact lexhash_le_of_le hv.valid hw.valid h

/-- `var_hsearch` on a list of entries. -/
theorem hsearch_split (heap : VarId → Var) (ctx : Search) (l : List VarId) : ∃ a b, l = a ++ b ∧
    (varHsearch ctx (l.map heap)).2 = a.length ∧ (∀ j ∈ a, hskip ctx (heap j) = true) ∧
    ((b = [] ∧ (varHsearch ctx (l.map heap)).1 = -1) ∨
      ∃ v t, b = v :: t ∧ hskip ctx (heap v) = false ∧
        (varHsearch ctx (l.map heap)).1 = (heap v).lexhash - ctx.lexhash) := by
  obtain ⟨a, b, hl, hi, ha, hb⟩ := varHsearch_spec ctx (l.map heap)
  obtain ⟨a, b, rfl, rfl, rfl⟩ := List.map_eq_append_iff.mp hl
  refine ⟨a, b, rfl, by simpa using hi, by simpa using ha, ?_⟩
  rcases hb with ⟨hb, hd⟩ | ⟨v, t, hb, hs, hd⟩
  · exact .inl ⟨by simpa using hb, hd⟩
  · obtain ⟨v, t, rfl, rfl, rfl⟩ := List.map_eq_cons_iff.mp hb
    exact .inr ⟨v, t, rfl, hs, hd⟩

/-- `var_bsearch` on a list of entries. -/
theorem bsearch_split (heap : VarId → Var) (ctx : Search) (l : List VarId) : ∃ a b, l = a ++ b ∧
    (varBsearch ctx (l.map heap)).2 = a.length ∧
    (∀ j ∈ a, varBcmp (heap j).name ctx.name = none) ∧
    ((b = [] ∧ (varBsearch ctx (l.map heap)).1 = -1) ∨
      ∃ v t d, b = v :: t ∧ varBcmp (heap v).name ctx.name = some d ∧
        (varBsearch ctx (l.map heap)).1 = d) := by
  obtain ⟨a, b, hl, hi, ha, hb⟩ := varBsearch_spec ctx (l.map heap)
  obtain ⟨a, b, rfl, rfl, rfl⟩ := List.map_eq_append_iff.mp hl
  refine ⟨a, b, rfl, by simpa using hi, by simpa using ha, ?_⟩
  rcases hb with ⟨hb, hd⟩ | ⟨v, t, d, hb, hs, hd⟩
  · exact .inl ⟨by simpa using hb, hd⟩
  · obtain ⟨v, t, rfl, rfl, rfl⟩ := List.map_eq_cons_iff.mp hb
    exact .inr ⟨v, t, d, rfl, hs, hd⟩

theorem hskip_false {ctx : Search} {v : Var} (h : hskip ctx v = false) :
    ctx.lexhash ≤ v.lexhash := by
  simp only [hskip, Bool.or_eq_false_iff, decide_eq_false_iff_not] at h
  exact UInt64.not_lt.mp h.1

theorem not_hskip_of_name {n : Str} {ctx : Search} (hc : For n ctx) {v : Var} (hv : Named v)
    (h : v.name = n) : hskip ctx v = false := by
  simp [hskip, hc.name, hc.lex, hc.rnd, hv.lex, hv.rnd, hv.len, h]

theorem hskip_lt {n : Str} {ctx : Search} (hc : For n ctx) (he : ctx.exact = false)
    (hn : varValid n = true) {v : Var} (hv : Named v) (h : hskip ctx v = true) : v.name < n := by
  by_contra hlt
  have hle := lexhash_le_of_le hn hv.valid (not_lt.mp hlt)
  simp only [hskip, he, Bool.false_and, Bool.or_false, decide_eq_true_eq, hc.lex, hv.lex] at h
  exact UInt64.not_lt.mpr hle h

theorem name_of_short {n : Str} (hn : varValid n = true) {v : Var} (hv : Named v)
    (hl : v.lexhash = varLexhash n)
    (h : n.length < varChars ∨ (n.length ≤ varChars ∧ v.len ≤ varChars)) : v.name = n := by
  rw [hv.lex] at hl
  rw [hv.len] at h
  exact (eq_of_lexhash_eq hn hv.valid hl.symm h).symm

theorem varValid_chars {n : Str} (hn : varValid n = true) : ∀ c ∈ n, isNameChar c = true := by
  match n, hn with
  | c :: t, hn =>
    obtain ⟨h1, -, h2⟩ := varValid_cons hn
    simpa using ⟨h1, h2⟩

/-- **What `vartab_search` finds carries the name it looked for.** -/
theorem vartabSearch_sound {heap : VarId → Var} {l : List VarId} {n : Str} {ctx : Search}
    (hl : Ordered heap l) (hn : varValid n = true) (hc : For n ctx) {id : VarId}
    (h : (vartabSearch heap l ctx).1 = some id) : id ∈ l ∧ (heap id).name = n := by
  obtain ⟨a, b, rfl, hi, -, hb⟩ := hsearch_split heap ctx l
  unfold vartabSearch at h
  split_ifs at h with h0
  simp only [hi] at h
  split_ifs at h with h1 h2 h3 h4
  · simp only [Bool.and_eq_true, decide_eq_true_eq, Bool.or_eq_true] at h1
    obtain ⟨hd, hlen⟩ := h1
    rcases hb with ⟨rfl, hd'⟩ | ⟨v, t, rfl, -, hd'⟩
    · rw [hd'] at hd
      exact absurd hd (by decide)
    · have hv : (a ++ v :: t)[a.length]? = some v := by simp
      rw [hv] at h
      obtain rfl : v = id := by simpa using h
      have hmem : v ∈ a ++ v :: t := by simp
      refine ⟨hmem, name_of_short hn (hl.named v hmem) ?_ ?_⟩
      · rw [hd', hc.lex] at hd
        grind
      · simpa [hv, hc.name] using hlen
  · rw [show (a ++ b).drop a.length = b by simp] at h h4
    obtain ⟨a2, b2, rfl, hj, -, hb2⟩ := bsearch_split heap ctx b
    rcases hb2 with ⟨rfl, hd⟩ | ⟨w, t, d, rfl, hcmp, hd⟩
    · rw [hd] at h4
      exact absurd h4 (by decide)
    · have hw : (a ++ (a2 ++ w :: t))[a.length + a2.length]? = some w := by simp
      rw [hj, hw] at h
      obtain rfl : w = id := by simpa using h
      rw [hd] at h4
      rw [h4, hc.name] at hcmp
      exact ⟨by simp, eq_of_varBcmp_zero (varValid_chars hn) hcmp⟩

/-- **The place `vartab_search` leaves behind** for a name that is not there keeps the list in order:
no longer name may start with it, and no shorter one with the same hash may start it. -/
theorem vartabSearch_place {heap : VarId → Var} {l : List VarId} {n : Str} {ctx : Search}
    (hl : Ordered heap l) (hn : varValid n = true) (hc : For n ctx) (he : ctx.exact = false)
    (hpre : ∀ j ∈ l, varLexhash (heap j).name = varLexhash n → (heap j).name <+: n →
      (heap j).name = n)
    (hext : ∀ j ∈ l, n <+: (heap j).name → (heap j).name = n)
    (habs : ∀ j ∈ l, (heap j).name ≠ n) :
    ∃ a b, l = a ++ b ∧ (vartabSearch heap l ctx).2.1 = a.length ∧
      (∀ j ∈ a, (heap j).name < n) ∧ ∀ j ∈ b, n < (heap j).name := by
  obtain ⟨a, b, rfl, hi, ha, hb⟩ := hsearch_split heap ctx l
  have halt : ∀ j ∈ a, (heap j).name < n := fun j hj =>
    hskip_lt hc he hn (hl.named j (by simp [hj])) (ha j hj)
  have hlb := hl.of_append_right
  have hnofind : (vartabSearch heap (a ++ b) ctx).1 = none := by
    cases h : (vartabSearch heap (a ++ b) ctx).1 with
    | none => rfl
    | some id =>
      obtain ⟨h1, h2⟩ := vartabSearch_sound hl hn hc h
      exact absurd h2 (habs id h1)
  unfold vartabSearch at hnofind ⊢
  split
  · rename_i h0
    obtain ⟨rfl, rfl⟩ : a = [] ∧ b = [] := by simpa using h0
    exact ⟨[], [], rfl, rfl, by simp, by simp⟩
  rename_i h0
  rw [if_neg h0] at hnofind
  simp only [hi] at hnofind ⊢
  -- the short names are found, so this branch is not taken
  split
  · rename_i h1
    rw [if_pos h1] at hnofind
    simp only [Bool.and_eq_true, decide_eq_true_eq] at h1
    rcases hb with ⟨rfl, hd⟩ | ⟨v, t, rfl, -, -⟩
    · rw [hd] at h1
      exact absurd h1.1 (by decide)
    · simp at hnofind
  rename_i h1
  rw [if_neg h1, he] at hnofind
  rw [he]
  simp only [Bool.and_false, Bool.false_eq_true, if_false] at hnofind ⊢
  rw [show (a ++ b).drop a.length = b by simp] at hnofind ⊢
  split
  · rename_i h3
    rw [if_pos h3] at hnofind
    obtain ⟨a2, b2, rfl, hj, ha2, hb2⟩ := bsearch_split heap ctx b
    have ha2lt : ∀ j ∈ a2, (heap j).name < n := by
      intro j hjm
      have hcmp := ha2 j hjm
      rw [hc.name] at hcmp
      rcases varBcmp_eq_none hcmp with ⟨h, -⟩ | ⟨hp, hne⟩
      · exact h
      · exact absurd (hext j (by simp [hjm]) hp) hne.symm
    have hb2gt : ∀ j ∈ b2, n < (heap j).name := by
      rcases hb2 with ⟨rfl, -⟩ | ⟨w, t, d, rfl, hcmp, -⟩
      · simp
      · have hwabs := habs w (by simp)
        have hwb : w ∈ a2 ++ w :: t := by simp
        have hnw : n < (heap w).name := by
          rw [hc.name] at hcmp
          rcases varBcmp_eq_some hcmp hwabs with ⟨h, -⟩ | hp
          · exact h
          · exfalso
            refine hwabs (hpre w (by simp) ?_ hp)
            have hwn := hlb.named w hwb
            refine UInt64.le_antisymm (lexhash_le_of_le hwn.valid hn (prefix_le hp)) ?_
            rcases hb with ⟨h, -⟩ | ⟨v, t', hv, hvs, -⟩
            · simp at h
            · rw [hv] at hwb hlb
              rw [← hc.lex, ← hwn.lex]
              exact UInt64.le_trans (hskip_false hvs)
                ((hlb.named v (by simp)).lex_le hwn (hlb.head_le hwb))
        intro j hjm
        exact lt_of_lt_of_le hnw (hlb.of_append_right.head_le hjm)
    split
    · rename_i h4
      rcases hb2 with ⟨rfl, hd⟩ | ⟨w, t, d, rfl, -, -⟩
      · rw [hd] at h4
        exact absurd h4 (by decide)
      · rw [if_pos h4, hj] at hnofind
        simp at hnofind
    · refine ⟨a ++ a2, b2, by simp, by simp only [hj, List.length_append], ?_, hb2gt⟩
      intro j hjm
      rcases List.mem_append.mp hjm with h | h
      · exact halt j h
      · exact ha2lt j h
  · rename_i h3
    refine ⟨a, b, rfl, rfl, halt, ?_⟩
    rcases hb with ⟨rfl, -⟩ | ⟨v, t, rfl, hvs, hd⟩
    · simp
    · have hvn := hlb.named v (by simp)
      have hlt : n < (heap v).name := by
        by_contra hle
        refine h3 ?_
        have h1 := lexhash_le_of_le hvn.valid hn (not_lt.mp hle)
        have h2 := hskip_false hvs
        rw [← hvn.lex, ← hc.lex] at h1
        rw [hd, UInt64.le_antisymm h1 h2]
        have : ctx.lexhash - ctx.lexhash = 0 := by grind
        rw [this]
        exact UInt64.zero_le
      intro j hjm
      exact lt_of_lt_of_le hlt (hlb.head_le hjm)

/-- **A name that is there is found**, unless an entry in front of it is a prefix of it with the same
hash. -/
theorem vartabSearch_complete {heap : VarId → Var} {l : List VarId} {n : Str} {ctx : Search}
    (hl : Ordered heap l) (hn : varValid n = true) (hc : For n ctx)
    (hpre : ∀ j ∈ l, varLexhash (heap j).name = varLexhash n → (heap j).name <+: n →
      (heap j).name = n)
    {id : VarId} (hid : id ∈ l) (hname : (heap id).name = n) :
    (vartabSearch heap l ctx).1 = some id := by
  obtain ⟨a, b, rfl, hi, ha, hb⟩ := hsearch_split heap ctx l
  have hidb : id ∈ b := by
    rcases List.mem_append.mp hid with h | h
    · have := not_hskip_of_name hc (hl.named id hid) hname
      rw [ha id h] at this
      simp at this
    · exact h
  have hlb := hl.of_append_right
  -- every entry between the one `var_hsearch` stopped at and the wanted one has the wanted hash
  rcases hb with ⟨rfl, -⟩ | ⟨v, t, rfl, hv, hd⟩
  · simp at hidb
  have hmid : ∀ j ∈ v :: t, (heap j).name ≤ n → varLexhash (heap j).name = varLexhash n := by
    intro j hj hle
    have hjn := hlb.named j hj
    refine UInt64.le_antisymm (lexhash_le_of_le hjn.valid hn hle) ?_
    rw [← hc.lex, ← hjn.lex]
    exact UInt64.le_trans (hskip_false hv) ((hlb.named v (by simp)).lex_le hjn (hlb.head_le hj))
  have hvn := hlb.named v (by simp)
  have hvlex : (heap v).lexhash = ctx.lexhash := by
    rw [hvn.lex, hc.lex]
    exact hmid v (by simp) (hname ▸ hlb.head_le hidb)
  have hd0 : (varHsearch ctx ((a ++ v :: t).map heap)).1 = 0 := by rw [hd, hvlex]; grind
  have hav : (a ++ v :: t)[a.length]? = some v := by simp
  unfold vartabSearch
  rw [if_neg (by simp)]
  simp only [hi, hd0, decide_true, Bool.true_and, hav, Option.map_some, Option.getD_some]
  split
  · rename_i h1
    have hlen : n.length < varChars ∨ (n.length ≤ varChars ∧ (heap v).len ≤ varChars) := by
      simpa [hc.name] using h1
    have := name_of_short hn hvn (hvlex.trans hc.lex) hlen
    rw [hl.eq_of_name (by simp) hid (this.trans hname.symm)]
  · rw [if_neg (by simp), if_pos UInt64.zero_le,
      show (a ++ v :: t).drop a.length = v :: t by simp]
    obtain ⟨a2, b2, hsplit, hj, ha2, hb2⟩ := bsearch_split heap ctx (v :: t)
    have hidb2 : id ∈ b2 := by
      rcases List.mem_append.mp (hsplit ▸ hidb) with h | h
      · have := ha2 id h
        rw [hname, hc.name, varBcmp_self] at this
        simp at this
      · exact h
    rcases hb2 with ⟨rfl, -⟩ | ⟨w, t2, d, rfl, hcmp, hdw⟩
    · simp at hidb2
    · have hlw : Ordered heap (w :: t2) := (hsplit ▸ hlb).of_append_right
      have hwmem : w ∈ v :: t := by simp [hsplit]
      have hwn : (heap w).name = n := by
        by_contra hne
        have hwle : (heap w).name ≤ n := hname ▸ hlw.head_le hidb2
        rw [hc.name] at hcmp
        rcases varBcmp_eq_some hcmp hne with ⟨hlt, -⟩ | hp
        · exact absurd hlt (not_lt.mpr hwle)
        · exact hne (hpre w (by simp [hsplit]) (hmid w hwmem hwle) hp)
      rw [hwn, hc.name, varBcmp_self] at hcmp
      have hd2 : (varBsearch ctx ((v :: t).map heap)).1 = 0 := by
        rw [hdw]; exact (Option.some.inj hcmp).symm
      rw [hd2, if_pos rfl, hj]
      have hget : (a ++ v :: t)[a.length + a2.length]? = some w := by simp [hsplit]
      rw [hget, hl.eq_of_name (by simp [hsplit]) hid (hwn.trans hname.symm)]

/-! ## The list of everything visible -/

theorem lexhashGo_append : ∀ (k : ℕ) (h : UInt64) (n x : Str), k < n.length →
    lexhashGo k h (n ++ x) = lexhashGo k h n
  | 0, _, _ :: _, _, _ => rfl
  | k + 1, _, c :: t, x, hk => by
      simp only [List.cons_append, lexhashGo]
      exact lexhashGo_append k _ t x (by simpa using hk)

/-- Past the eleventh character nothing counts. -/
theorem lexhash_eq_longer {n m : Str} (h : n <+: m) (hlen : 10 < n.length) :
    varLexhash m = varLexhash n := by
  obtain ⟨x, rfl⟩ := h
  exact lexhashGo_append 10 _ n x hlen

/-- **The place `vartab_add` finds in `var_list`** keeps it in order, as long as no name of the same
hash starts the new one or is started by it. -/
theorem globalPlace_spec {heap : VarId → Var} {l : List VarId} {n : Str} (hl : Ordered heap l)
    (hn : varValid n = true) (habs : ∀ j ∈ l, (heap j).name ≠ n)
    (hrel : ∀ j ∈ l, varLexhash (heap j).name = varLexhash n →
      ¬ (heap j).name <+: n ∧ ¬ n <+: (heap j).name) :
    ∃ a b, l = a ++ b ∧ globalPlace heap l n = a.length ∧
      (∀ j ∈ a, (heap j).name < n) ∧ ∀ j ∈ b, n < (heap j).name := by
  have hc := for_vartabHash n false
  obtain ⟨a, b, rfl, hi, ha, hb⟩ := hsearch_split heap (vartabHash n false) l
  have halt : ∀ j ∈ a, (heap j).name < n := fun j hj =>
    hskip_lt hc rfl hn (hl.named j (by simp [hj])) (ha j hj)
  have hlb := hl.of_append_right
  simp only [globalPlace, hi]
  rcases hb with ⟨rfl, hd⟩ | ⟨v, t, rfl, hvs, hd⟩
  · rw [hd, if_neg (by decide)]
    exact ⟨a, [], rfl, rfl, halt, by simp⟩
  have hvn := hlb.named v (by simp)
  have hvle : varLexhash n ≤ varLexhash (heap v).name := by
    rw [← hvn.lex]
    exact hskip_false hvs
  rw [hd, hc.lex, hvn.lex]
  split
  · rename_i h0
    have heq : varLexhash (heap v).name = varLexhash n := by grind
    -- the hashes being equal, the new name has more than the ten full characters
    have hlong : 10 < n.length := by
      by_contra hshort
      have ht := take_eq_of_lexhash_eq hvn.valid hn heq
      rw [List.take_of_length_le (l := n) (by omega)] at ht
      exact (hrel v (by simp) heq).2 (ht ▸ List.take_prefix _ _)
    rw [show (a ++ v :: t).drop a.length = v :: t by simp]
    obtain ⟨a2, b2, hsplit, hj, ha2, hb2⟩ := bsearch_split heap (vartabHash n false) (v :: t)
    rw [hj]
    have hmem : ∀ {j}, j ∈ a2 ++ b2 → j ∈ a ++ v :: t := fun h => by
      rw [hsplit]; exact List.mem_append_right _ h
    refine ⟨a ++ a2, b2, by simp [hsplit], by simp, ?_, ?_⟩
    · intro j hjm
      rcases List.mem_append.mp hjm with h | h
      · exact halt j h
      · rcases varBcmp_eq_none (ha2 j h) with ⟨hlt, -⟩ | ⟨hp, -⟩
        · exact hlt
        · exact absurd hp (hrel j (hmem (by simp [h])) (lexhash_eq_longer hp hlong)).2
    · rcases hb2 with ⟨rfl, -⟩ | ⟨w, t2, d, rfl, hcmp, -⟩
      · simp
      · have hwm := hmem (show w ∈ a2 ++ w :: t2 by simp)
        have hwb : w ∈ v :: t := by simp [hsplit]
        have hwn := hlb.named w hwb
        have hnw : n < (heap w).name := by
          rcases varBcmp_eq_some hcmp (habs w hwm) with ⟨h, -⟩ | hp
          · exact h
          · have hlex : varLexhash (heap w).name = varLexhash n := by
              refine UInt64.le_antisymm (lexhash_le_of_le hwn.valid hn (prefix_le hp)) ?_
              rw [← heq]
              exact lexhash_le_of_le hvn.valid hwn.valid (hlb.head_le hwb)
            exact absurd hp (hrel w hwm hlex).1
        intro j hjm
        exact lt_of_lt_of_le hnw ((hsplit ▸ hlb).of_append_right.head_le hjm)
  · rename_i h0
    refine ⟨a, v :: t, rfl, rfl, halt, ?_⟩
    have hlt : n < (heap v).name := by
      by_contra hle
      have h1 := lexhash_le_of_le hvn.valid hn (not_lt.mp hle)
      refine h0 ?_
      rw [UInt64.le_antisymm h1 hvle]
      grind
    intro j hjm
    exact lt_of_lt_of_le hlt (hlb.head_le hjm)

/-! ## All the tables -/

theorem vartabSearch_ctx (heap : VarId → Var) (l : List VarId) {n : Str} {ctx : Search}
    (hc : For n ctx) : For n (vartabSearch heap l ctx).2.2 ∧
      (vartabSearch heap l ctx).2.2.exact = ctx.exact := by
  unfold vartabSearch
  dsimp only
  split_ifs <;> exact ⟨⟨hc.name, hc.lex, hc.rnd, hc.bucket⟩, rfl⟩

/-- What a search needs of the tables: each bucket in order, and no shorter name of the same hash
starting the wanted one. -/
structure Searchable (heap : VarId → Var) (tabs : List Tab) (n : Str) : Prop where
  ordered : ∀ t ∈ tabs, Ordered heap (t.bucket (bucketOf n))
  noprefix : ∀ t ∈ tabs, ∀ j ∈ t.bucket (bucketOf n), varLexhash (heap j).name = varLexhash n →
    (heap j).name <+: n → (heap j).name = n

theorem Searchable.tail {heap : VarId → Var} {t : Tab} {ts : List Tab} {n : Str}
    (h : Searchable heap (t :: ts) n) : Searchable heap ts n :=
  ⟨fun t ht => h.ordered t (by simp [ht]), fun t ht => h.noprefix t (by simp [ht])⟩

theorem varSearchGo_cons (heap : VarId → Var) (t : Tab) (ts : List Tab) (ctx : Search)
    (pos : ℕ → ℕ × ℕ) : varSearchGo heap (t :: ts) ctx pos =
      let r := vartabSearch heap (t.bucket ctx.bucket) ctx
      let pos := Function.update pos t.level (ctx.bucket, r.2.1)
      match r.1 with
      | some v => (some v, pos)
      | none => varSearchGo heap ts r.2.2 pos := by
  rw [varSearchGo]
  rcases vartabSearch heap (t.bucket ctx.bucket) ctx with ⟨_ | v, i, c⟩ <;> rfl

theorem varSearchGo_fst {heap : VarId → Var} : ∀ (tabs : List Tab) (ctx : Search)
    (pos pos' : ℕ → ℕ × ℕ), (varSearchGo heap tabs ctx pos).1 = (varSearchGo heap tabs ctx pos').1
  | [], _, _, _ => rfl
  | t :: ts, ctx, pos, pos' => by
      rw [varSearchGo_cons, varSearchGo_cons]
      dsimp only
      split
      · rfl
      · exact varSearchGo_fst ts _ _ _

/-- **The search finds the innermost entry of the name**, and nothing only when there is none. -/
theorem varSearchGo_spec {heap : VarId → Var} {n : Str} (hn : varValid n = true) :
    ∀ (tabs : List Tab) (ctx : Search) (pos : ℕ → ℕ × ℕ), For n ctx → Searchable heap tabs n →
      match (varSearchGo heap tabs ctx pos).1 with
      | some id => ∃ ts t ts', tabs = ts ++ t :: ts' ∧ id ∈ t.bucket (bucketOf n) ∧
          (heap id).name = n ∧ ∀ t' ∈ ts, ∀ j ∈ t'.bucket (bucketOf n), (heap j).name ≠ n
      | none => ∀ t ∈ tabs, ∀ j ∈ t.bucket (bucketOf n), (heap j).name ≠ n
  | [], _, _, _, _ => by simp [varSearchGo]
  | t :: ts, ctx, pos, hc, hs => by
      have ht := hs.ordered t (by simp)
      rw [varSearchGo_cons, hc.bucket]
      dsimp only
      cases hr : (vartabSearch heap (t.bucket (bucketOf n)) ctx).1 with
      | some id =>
        obtain ⟨h1, h2⟩ := vartabSearch_sound ht hn hc hr
        exact ⟨[], t, ts, rfl, h1, h2, by simp⟩
      | none =>
        have habs : ∀ j ∈ t.bucket (bucketOf n), (heap j).name ≠ n := by
          intro j hj hjn
          have := vartabSearch_complete ht hn hc (hs.noprefix t (by simp)) hj hjn
          rw [hr] at this
          simp at this
        have ih := varSearchGo_spec hn ts (vartabSearch heap (t.bucket (bucketOf n)) ctx).2.2
          (Function.update pos t.level
            (bucketOf n, (vartabSearch heap (t.bucket (bucketOf n)) ctx).2.1))
          (vartabSearch_ctx heap _ hc).1 hs.tail
        dsimp only
        revert ih
        cases (varSearchGo heap ts (vartabSearch heap (t.bucket (bucketOf n)) ctx).2.2 _).1 with
        | some id =>
          rintro ⟨ts1, t1, ts2, rfl, h1, h2, h3⟩
          refine ⟨t :: ts1, t1, ts2, rfl, h1, h2, ?_⟩
          intro t' ht'
          rcases List.mem_cons.mp ht' with rfl | ht'
          · exact habs
          · exact h3 t' ht'
        | none =>
          intro ih t' ht'
          rcases List.mem_cons.mp ht' with rfl | ht'
          · exact habs
          · exact ih t' ht'

/-- Tables the search does not reach keep their positions. -/
theorem varSearchGo_position {heap : VarId → Var} : ∀ (tabs : List Tab) (ctx : Search)
    (pos : ℕ → ℕ × ℕ) (k : ℕ), (∀ t ∈ tabs, t.level ≠ k) →
    (varSearchGo heap tabs ctx pos).2 k = pos k
  | [], _, _, _, _ => rfl
  | t :: ts, ctx, pos, k, h => by
      have hk : k ≠ t.level := (h t (by simp)).symm
      rw [varSearchGo_cons]
      dsimp only
      split
      · simp [hk]
      · rw [varSearchGo_position ts _ _ k fun t' ht' => h t' (by simp [ht'])]
        simp [hk]

/-- **The position left in a table without the name** splits its bucket there. -/
theorem varSearchGo_place {heap : VarId → Var} {n : Str} (hn : varValid n = true) :
    ∀ (ts : List Tab) (t : Tab) (ts' : List Tab) (ctx : Search) (pos : ℕ → ℕ × ℕ),
      For n ctx → ctx.exact = false → Searchable heap (ts ++ t :: ts') n →
      ((ts ++ t :: ts').map Tab.level).Nodup →
      (∀ t' ∈ ts ++ [t], ∀ j ∈ t'.bucket (bucketOf n), (heap j).name ≠ n) →
      (∀ j ∈ t.bucket (bucketOf n), n <+: (heap j).name → (heap j).name = n) →
      ∃ a b, t.bucket (bucketOf n) = a ++ b ∧
        (varSearchGo heap (ts ++ t :: ts') ctx pos).2 t.level = (bucketOf n, a.length) ∧
        (∀ j ∈ a, (heap j).name < n) ∧ ∀ j ∈ b, n < (heap j).name
  | [], t, ts', ctx, pos, hc, he, hs, hnd, habs, hext => by
      have ht := hs.ordered t (by simp)
      obtain ⟨a, b, hab, hi, ha, hb⟩ := vartabSearch_place ht hn hc he (hs.noprefix t (by simp))
        hext (habs t (by simp))
      refine ⟨a, b, hab, ?_, ha, hb⟩
      rw [List.nil_append, varSearchGo_cons, hc.bucket]
      dsimp only
      rw [hi]
      split
      · simp
      · rw [varSearchGo_position]
        · simp
        · intro t' ht' hlev
          have := (List.nodup_cons.mp hnd).1
          exact this (List.mem_map.mpr ⟨t', ht', hlev⟩)
  | t0 :: ts, t, ts', ctx, pos, hc, he, hs, hnd, habs, hext => by
      have ht := hs.ordered t0 (by simp)
      have hnone : (vartabSearch heap (t0.bucket (bucketOf n)) ctx).1 = none := by
        cases hr : (vartabSearch heap (t0.bucket (bucketOf n)) ctx).1 with
        | none => rfl
        | some id =>
          obtain ⟨h1, h2⟩ := vartabSearch_sound ht hn hc hr
          exact absurd h2 (habs t0 (by simp) id h1)
      obtain ⟨hc', he'⟩ := vartabSearch_ctx heap (t0.bucket (bucketOf n)) hc
      rw [List.cons_append, varSearchGo_cons, hc.bucket]
      dsimp only
      rw [hnone]
      exact varSearchGo_place hn ts t ts' _ _ hc' (he'.trans he) hs.tail
        (List.nodup_cons.mp hnd).2 (fun t' ht' => habs t' (by
          rw [List.cons_append]; exact List.mem_cons_of_mem _ ht')) hext

/-- What the search finds is on some table and carries the name, whatever else is there. -/
theorem varSearchGo_sound {heap : VarId → Var} {n : Str} (hn : varValid n = true) :
    ∀ (tabs : List Tab) (ctx : Search) (pos : ℕ → ℕ × ℕ), For n ctx →
      (∀ t ∈ tabs, Ordered heap (t.bucket (bucketOf n))) → ∀ {id : VarId},
      (varSearchGo heap tabs ctx pos).1 = some id →
      ∃ t ∈ tabs, id ∈ t.bucket (bucketOf n) ∧ (heap id).name = n
  | [], _, _, _, _, _, h => by simp [varSearchGo] at h
  | t :: ts, ctx, pos, hc, ho, id, h => by
      rw [varSearchGo_cons, hc.bucket] at h
      dsimp only at h
      cases hr : (vartabSearch heap (t.bucket (bucketOf n)) ctx).1 with
      | some v =>
        rw [hr] at h
        obtain rfl : v = id := by simpa using h
        exact ⟨t, by simp, vartabSearch_sound (ho t (by simp)) hn hc hr⟩
      | none =>
        rw [hr] at h
        obtain ⟨t', ht', hid⟩ := varSearchGo_sound hn ts _ _ (vartabSearch_ctx heap _ hc).1
          (fun t' ht' => ho t' (by simp [ht'])) h
        exact ⟨t', by simp [ht'], hid⟩

end Shish
