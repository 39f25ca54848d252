import Shish.Path.Canon

/-!
# Path/Relative — the way from one path to another

`path_rel` leaves out the components that both paths have in front, goes up once for each other one of the base and
down the other ones of the path.  What it writes is as long as it says, and from an absolute base it leads to the path.
From a relative base it does so when no `..` of the base is to be undone, and the base is not `.`, which is taken for a
name (`path_rel_iff`).
-/

namespace Shish

/-! ## The model -/

/-- `SEPLEN(p + i, n - i)`. -/
def sepAt (p : Str) (i : ℕ) : ℕ := ((p.drop i).takeWhile (· == '/')).length

/-- `COMLEN(p + i, n - i)`. -/
def comAt (p : Str) (i : ℕ) : ℕ := ((p.drop i).takeWhile (· != '/')).length

/-- `path_rootlen`. -/
def pathRootlen (p : Str) : ℕ := if 0 < p.length then sepAt p 0 else 0

/-- `SAMEROOT`. -/
def sameRoot (a b : Str) : Bool := (pathRootlen a == 0) == (pathRootlen b == 0)

theorem comAt_le (p : Str) (i : ℕ) : comAt p i ≤ p.length - i := by
  rw [← List.length_drop]
  exact (List.takeWhile_sublist _).length_le

/-- There is always a component or a separator. -/
theorem comAt_add_sepAt_pos {p : Str} {i : ℕ} (hi : i < p.length) : 0 < comAt p i + sepAt p (i + comAt p i) := by
  have hne : p.drop i ≠ [] := fun hnil => absurd (List.drop_eq_nil_iff.1 hnil) (Nat.not_le.2 hi)
  obtain ⟨x, t, hx⟩ := List.exists_cons_of_ne_nil hne
  by_cases hsep : x = '/'
  · have hcom : comAt p i = 0 := by simp [comAt, hx, hsep]
    rw [hcom, Nat.zero_add, Nat.add_zero, sepAt, hx, hsep]
    simp
  · have hcom : 0 < comAt p i := by simp [comAt, hx, hsep]
    omega

/-- The loop of `path_common`. -/
def commonLoop (a b : Str) (ia ib ea eb : ℕ) : ℕ × ℕ :=
  let ca := comAt a ia
  let cb := comAt b ib
  if _h : ca = 0 ∨ ca ≠ cb ∨ (a.drop ia).take ca ≠ (b.drop ib).take ca then (ea, eb)
  else
    have := comAt_le a ia
    commonLoop a b (ia + ca + sepAt a (ia + ca)) (ib + cb + sepAt b (ib + cb)) (ia + ca) (ib + cb)
termination_by a.length - ia

/-- `path_common`: the length in either path of the components they have in common in front. -/
def pathCommon (a b : Str) : ℕ × ℕ :=
  if sameRoot a b then
    let ra := pathRootlen a
    let rb := pathRootlen b
    commonLoop a b (ra + sepAt a ra) (rb + sepAt b rb) ra rb
  else (0, 0)

/-- The loop that counts the components of the rest of `base`. -/
def upLoop (base : Str) (i : ℕ) : ℕ :=
  if _h : i < base.length then
    have := comAt_add_sepAt_pos _h
    upLoop base (i + comAt base i + sepAt base (i + comAt base i)) + 1
  else 0
termination_by base.length - i

/-- The loop that writes them as `..`. -/
def upText (up : ℕ) : Str := (List.range up).flatMap fun i => (if i ≠ 0 then ['/'] else []) ++ dotdot

/-- The length of `up` times `..` and `pn` bytes behind them. -/
def relLen (up pn : ℕ) : ℕ :=
  let len := up * 2 + (if up ≠ 0 then up - 1 else 0) + (if up ≠ 0 ∧ pn ≠ 0 then 1 else 0) + pn
  if len = 0 then 1 else len

/-- What is written for them. -/
def relText (up : ℕ) (rest : Str) : Str :=
  let out := upText up ++ (if up ≠ 0 ∧ rest.length ≠ 0 then ['/'] else []) ++ rest
  if out = [] then dot else out

/-- `path_rel`: the length it returns and what it writes, which is nothing in a buffer that is too small; `none` is
`(size_t)-1`. -/
def pathRel (cap : ℕ) (p base : Str) : Option (ℕ × Option Str) :=
  if sameRoot p base then
    let c := pathCommon p base
    let rest := (p.drop (c.1 + sepAt p c.1)).rdropWhile (· == '/')
    let up := upLoop base (c.2 + sepAt base c.2)
    let len := relLen up rest.length
    some (len, if len < cap then some (relText up rest) else none)
  else none

/-- `path_cat` with a buffer: the length it returns and what it writes, which is nothing in one that is too small. -/
def pathCatBuf (cap : ℕ) (a b : Str) : ℕ × Option Str :=
  let need :=
    if b.length = 0 then a.length
    else if a.length = 0 ∨ isAbs b then b.length
    else a.length + (if a.getLast? = some '/' then 0 else 1) + b.length
  (need, if need < cap then some (pathCat a b) else none)

/-! ## What it is for -/

/-- **A relative path** is as long as `path_rel` says, and behind the base it leads to `p`. -/
def RelRight (p base : Str) : Prop :=
  ∀ cap len out, pathRel cap p base = some (len, out) → len < cap → ∃ rel, out = some rel ∧ rel.length = len ∧
    ∀ cap' need q, pathCatBuf cap' base rel = (need, some q) →
      ∀ inPlace buf cap'' s, pathCanon inPlace buf cap'' q = some s → s.text = p

/-- How often a path goes up in front. -/
def leadingUps (p : Str) : ℕ := ((components '/' p).takeWhile (· == dotdot)).length

/-! ## Up and down -/

section Ways

variable {abs : Bool} {zs xs ys names : List Str}

/-- How many `..` there are in front. -/
def ups (st : List Str) : ℕ := (st.takeWhile (· == dotdot)).length

theorem ups_replicate (i : ℕ) (l : List Str) : ups (List.replicate i dotdot ++ l) = i + ups l := by
  rw [ups, List.takeWhile_append_of_pos (by simp), List.length_append, List.length_replicate, ups]

theorem ups_names (h : ∀ c ∈ names, IsName c) : ups names = 0 := by
  cases names with
  | nil => rfl
  | cons c names =>
    rw [ups, List.takeWhile_cons_of_neg (by simpa using (h c (.head _)).2.2)]
    rfl

theorem ups_append_names (h : ∀ c ∈ names, IsName c) (zs : List Str) : ups (zs ++ names) = ups zs := by
  rw [ups, List.takeWhile_append]
  split_ifs with hall
  · have hnames := ups_names h
    rw [ups] at hnames
    rw [List.length_append, hnames, Nat.add_zero, ← hall, ups]
  · rfl

theorem ups_le_append (zs xs : List Str) : ups zs ≤ ups (zs ++ xs) := by
  rw [ups, ups, List.takeWhile_append]
  split_ifs with hall
  · rw [List.length_append, ← hall]
    exact Nat.le_add_right ..
  · exact le_rfl

/-- What stands behind canonical components. -/
theorem Canonical.suffix (h : Canonical abs (zs ++ xs)) : ∃ e names, xs = List.replicate e dotdot ++ names ∧
    (∀ c ∈ names, IsName c) ∧ (e ≠ 0 → abs = false ∧ ∃ i, zs = List.replicate i dotdot) := by
  obtain ⟨k, names, heq, habs, hnames⟩ := h
  rcases List.append_eq_append_iff.1 heq with ⟨us, hups, rfl⟩ | ⟨vs, rfl, rfl⟩
  · obtain ⟨-, hzs, hus⟩ := List.append_eq_replicate_iff.1 hups.symm
    refine ⟨us.length, names, by rw [← hus], hnames, fun he => ⟨?_, zs.length, hzs⟩⟩
    by_contra htrue
    have hk := habs (by simpa using htrue)
    have hlen := congrArg List.length hups
    rw [List.length_replicate, List.length_append] at hlen
    omega
  · exact ⟨0, xs, rfl, fun c hc => hnames c (List.mem_append_right _ hc), fun he => absurd rfl he⟩

theorem Canonical.front (h : Canonical abs (zs ++ xs)) : Canonical abs zs := by
  obtain ⟨k, names, heq, habs, hnames⟩ := h
  have hzs : zs = (List.replicate k dotdot ++ names).take zs.length := by rw [← heq, List.take_left]
  refine ⟨min zs.length k, names.take (zs.length - k), ?_, fun ht => by rw [habs ht, Nat.min_zero],
    fun c hc => hnames c (List.mem_of_mem_take hc)⟩
  rw [List.take_append, List.take_replicate, List.length_replicate] at hzs
  exact hzs

theorem Canonical.ne_dot {st : List Str} {c : Str} (h : Canonical abs st) (hc : c ∈ st) : c ≠ dot := by
  obtain ⟨k, names, rfl, -, hnames⟩ := h
  rcases List.mem_append.1 hc with hc | hc
  · rw [List.eq_of_mem_replicate hc]
    decide
  · exact (hnames c hc).2.1

theorem Canonical.dotdot_cons {st : List Str} (h : Canonical false st) : Canonical false (dotdot :: st) := by
  obtain ⟨k, names, rfl, -, hnames⟩ := h
  exact ⟨k + 1, names, rfl, nofun, hnames⟩

/-- Canonical components go on top. -/
theorem Canonical.foldl_front (h : Canonical abs (zs ++ xs)) : xs.foldl (canonStep abs) zs = zs ++ xs := by
  have hall := h.foldl_eq
  rwa [List.foldl_append, h.front.foldl_eq] at hall

/-- **Going up** takes the names away again. -/
theorem foldl_ups (hnames : ∀ c ∈ names, IsName c) (st : List Str) :
    (List.replicate names.length dotdot).foldl (canonStep abs) (st ++ names) = st := by
  induction names using List.reverseRecOn with
  | nil => rw [List.append_nil]; rfl
  | append_singleton names d ih =>
    have hd := hnames d (List.mem_append_right _ (List.mem_singleton_self d))
    have hup : canonStep abs (st ++ (names ++ [d])) dotdot = st ++ names := by
      rw [canonStep, if_neg (by decide), if_pos rfl, ← List.append_assoc, List.getLast?_concat]
      exact (if_neg hd.2.2).trans List.dropLast_concat
    rw [List.length_append, List.length_singleton, List.replicate_succ, List.foldl_cons, hup]
    exact ih fun c hc => hnames c (List.mem_append_left _ hc)

/-- A `..` of the base is not undone but met by another one. -/
theorem foldl_up_down {xnames : List Str} (hnames : ∀ c ∈ names, IsName c) (hxnames : ∀ c ∈ xnames, IsName c)
    (i u : ℕ) : (List.replicate (names.length + u) dotdot ++ xnames).foldl (canonStep false)
      (List.replicate i dotdot ++ (List.replicate u dotdot ++ names)) =
        List.replicate (i + u) dotdot ++ (List.replicate u dotdot ++ xnames) := by
  have hcanon : Canonical false (List.replicate (i + u) dotdot ++ (List.replicate u dotdot ++ xnames)) :=
    ⟨i + u + u, xnames, by rw [← List.append_assoc, List.replicate_append_replicate], nofun, hxnames⟩
  calc (List.replicate (names.length + u) dotdot ++ xnames).foldl (canonStep false)
        (List.replicate i dotdot ++ (List.replicate u dotdot ++ names))
      = (List.replicate names.length dotdot ++ (List.replicate u dotdot ++ xnames)).foldl (canonStep false)
          (List.replicate (i + u) dotdot ++ names) := by
        rw [← List.append_assoc, ← List.append_assoc, List.replicate_append_replicate, List.replicate_append_replicate]
    _ = (List.replicate u dotdot ++ xnames).foldl (canonStep false) (List.replicate (i + u) dotdot) := by
        rw [List.foldl_append, foldl_ups hnames]
    _ = List.replicate (i + u) dotdot ++ (List.replicate u dotdot ++ xnames) := hcanon.foldl_front

/-- **Up from the other ones of the base and down those of the path** leads to the path unless the base has a `..` that
would have to be undone. -/
theorem way_iff (hx : Canonical abs (zs ++ xs)) (hy : Canonical abs (zs ++ ys))
    (hne : ∀ x ∈ xs.head?, x ∉ ys.head?) :
    (List.replicate ys.length dotdot ++ xs).foldl (canonStep abs) (zs ++ ys) = zs ++ xs ↔
      ups (zs ++ ys) ≤ ups (zs ++ xs) := by
  obtain ⟨e, names, rfl, hnames, he⟩ := hy.suffix
  cases e with
  | zero =>
    rw [List.replicate_zero, List.nil_append, List.foldl_append, foldl_ups hnames, hx.foldl_front]
    refine iff_of_true rfl ?_
    rw [ups_append_names hnames]
    exact ups_le_append zs xs
  | succ e =>
    obtain ⟨rfl, i, rfl⟩ := he (Nat.succ_ne_zero e)
    obtain ⟨f, xnames, rfl, hxnames, -⟩ := hx.suffix
    obtain rfl : f = 0 := by
      by_contra hf
      obtain ⟨f, rfl⟩ := Nat.exists_eq_succ_of_ne_zero hf
      exact hne dotdot rfl rfl
    rw [List.replicate_zero, List.nil_append]
    have hlen : (List.replicate (e + 1) dotdot ++ names).length = names.length + (e + 1) := by
      rw [List.length_append, List.length_replicate, Nat.add_comm]
    rw [hlen, foldl_up_down hnames hxnames, ups_replicate, ups_replicate, ups_replicate, ups_names hnames, ups_names hxnames]
    refine iff_of_false (fun heq => ?_) (by omega)
    have hcount := congrArg List.length heq
    simp only [List.length_append, List.length_replicate] at hcount
    omega

end Ways

/-! ## The loops on components -/

section Loops

variable {a b : Str} {c : Str} {as bs cs : List Str} {i ia ib : ℕ}

/-- Behind place `i` stand these components, with a separator between them. -/
def StandAt (p : Str) (i : ℕ) (cs : List Str) : Prop := p.drop i = joined '/' cs ∧ ∀ c ∈ cs, IsComponent '/' c

theorem takeWhile_component (hc : IsComponent '/' c) (rest : Str) (hrest : ∀ x ∈ rest.head?, x = '/') :
    (c ++ rest).takeWhile (· != '/') = c := by
  have hall : ∀ x ∈ c, (x != '/') = true := fun x hx => by
    rw [bne_iff_ne]
    rintro rfl
    exact hc.2 hx
  rw [List.takeWhile_append_of_pos hall]
  cases rest with
  | nil => simp
  | cons x rest =>
    obtain rfl := hrest x rfl
    simp

theorem StandAt.nil_iff {p : Str} (h : StandAt p i cs) : cs = [] ↔ p.length ≤ i := by
  rw [← List.drop_eq_nil_iff, h.1]
  constructor
  · rintro rfl
    rfl
  · intro hnil
    by_contra hne
    exact joined_ne_nil h.2 hne hnil

/-- No separator stands in front. -/
theorem takeWhile_joined (hcs : ∀ c ∈ cs, IsComponent '/' c) : (joined '/' cs).takeWhile (· == '/') = [] := by
  have hhead := head?_joined hcs
  cases hj : joined '/' cs with
  | nil => rfl
  | cons x t =>
    rw [hj] at hhead
    exact List.takeWhile_cons_of_neg (by simpa using hhead x rfl)

/-- The first component, and where the next one is. -/
theorem StandAt.cons {p : Str} (h : StandAt p i (c :: cs)) : comAt p i = c.length ∧ (p.drop i).take c.length = c ∧
    StandAt p (i + comAt p i + sepAt p (i + comAt p i)) cs := by
  obtain ⟨hp, hcs⟩ := h
  obtain ⟨hc, htail⟩ := List.forall_mem_cons.1 hcs
  obtain ⟨rest, hrest, hsep, hskip⟩ : ∃ rest, joined '/' (c :: cs) = c ++ rest ∧ (∀ x ∈ rest.head?, x = '/') ∧
      rest.drop (rest.takeWhile (· == '/')).length = joined '/' cs := by
    cases cs with
    | nil => exact ⟨[], by simp, nofun, rfl⟩
    | cons d cs =>
      refine ⟨'/' :: joined '/' (d :: cs), joined_cons_cons .., fun x hx => (Option.some.inj hx).symm, ?_⟩
      rw [List.takeWhile_cons_of_pos (by simp), takeWhile_joined htail]
      rfl
  have hcom : comAt p i = c.length := by rw [comAt, hp, hrest, takeWhile_component hc rest hsep]
  have hdrop : p.drop (i + c.length) = rest := by rw [← List.drop_drop, hp, hrest, List.drop_left]
  refine ⟨hcom, by rw [hp, hrest, List.take_left], ?_, htail⟩
  rw [hcom, ← List.drop_drop, sepAt, hdrop, hskip]

theorem StandAt.comAt_nil {p : Str} (h : StandAt p i []) : comAt p i = 0 := by
  rw [comAt, h.1]
  rfl

/-- **`path_common`** is at the components that are not shared. -/
theorem commonLoop_standAt {ea eb : ℕ} (ha : StandAt a ia as) (hb : StandAt b ib bs) (hia : ia = ea + sepAt a ea)
    (hib : ib = eb + sepAt b eb) : ∃ ea' eb', commonLoop a b ia ib ea eb = (ea', eb') ∧
      StandAt a (ea' + sepAt a ea') (unshared as bs).1 ∧ StandAt b (eb' + sepAt b eb') (unshared as bs).2 := by
  induction as generalizing bs ia ib ea eb with
  | nil =>
    have hun : unshared [] bs = ([], bs) := unshared_of_ne nofun
    refine ⟨ea, eb, ?_, ?_⟩
    · rw [commonLoop, dif_pos (.inl ha.comAt_nil)]
    · rw [hun, ← hia, ← hib]
      exact ⟨ha, hb⟩
  | cons c as ih =>
    obtain ⟨hca, htake, hnext⟩ := ha.cons
    have hc0 : comAt a ia ≠ 0 := by
      rw [hca]
      exact fun hzero => (ha.2 c (.head _)).1 (List.length_eq_zero_iff.1 hzero)
    cases bs with
    | nil =>
      have hun : unshared (c :: as) [] = (c :: as, []) := unshared_of_ne fun _ _ => nofun
      refine ⟨ea, eb, ?_, ?_⟩
      · rw [commonLoop, dif_pos (.inr (.inl fun heq => hc0 (heq.trans hb.comAt_nil)))]
      · rw [hun, ← hia, ← hib]
        exact ⟨ha, hb⟩
    | cons d bs =>
      obtain ⟨hcb, htake', hnext'⟩ := hb.cons
      by_cases hcd : c = d
      · subst hcd
        have hgo : ¬(comAt a ia = 0 ∨ comAt a ia ≠ comAt b ib ∨
            (a.drop ia).take (comAt a ia) ≠ (b.drop ib).take (comAt a ia)) := by
          rw [hca, hcb, htake, htake']
          simp [(ha.2 c (.head _)).1]
        obtain ⟨ea', eb', heq, hstand⟩ := ih hnext hnext' rfl rfl
        refine ⟨ea', eb', ?_, ?_⟩
        · rw [commonLoop, dif_neg hgo]
          exact heq
        · rwa [unshared_cons_self]
      · have hstop : comAt a ia = 0 ∨ comAt a ia ≠ comAt b ib ∨
            (a.drop ia).take (comAt a ia) ≠ (b.drop ib).take (comAt a ia) := by
          by_cases hlen : comAt a ia = comAt b ib
          · refine .inr (.inr ?_)
            rw [hca, htake, ← hca, hlen, hcb, htake']
            exact hcd
          · exact .inr (.inl hlen)
        have hun : unshared (c :: as) (d :: bs) = (c :: as, d :: bs) := if_neg hcd
        refine ⟨ea, eb, ?_, ?_⟩
        · rw [commonLoop, dif_pos hstop]
        · rw [hun, ← hia, ← hib]
          exact ⟨ha, hb⟩

/-- The loop counts the components. -/
theorem upLoop_eq (hb : StandAt b i bs) : upLoop b i = bs.length := by
  induction bs generalizing i with
  | nil =>
    have hle := hb.nil_iff.1 rfl
    rw [upLoop, dif_neg (Nat.not_lt.2 hle)]
    rfl
  | cons d bs ih =>
    obtain ⟨-, -, hnext⟩ := hb.cons
    have hlt : i < b.length := Nat.not_le.1 fun hle => absurd (hb.nil_iff.2 hle) (List.cons_ne_nil d bs)
    rw [upLoop, dif_pos hlt, ih hnext]
    rfl

theorem length_upText (up : ℕ) : (upText up).length = up * 2 + (if up ≠ 0 then up - 1 else 0) := by
  induction up with
  | zero => rfl
  | succ up ih =>
    rw [upText] at ih ⊢
    rw [List.range_succ, List.flatMap_append, List.length_append, ih, List.flatMap_singleton]
    cases up with
    | zero => rfl
    | succ up =>
      simp only [ne_eq, Nat.succ_ne_zero, not_false_eq_true, if_true, List.length_append, dotdot, List.length_cons,
        List.length_nil]
      omega

/-- **What `path_rel` writes is as long as it says.** -/
theorem length_relText (up : ℕ) (rest : Str) : (relText up rest).length = relLen up rest.length := by
  have hlen : (upText up ++ (if up ≠ 0 ∧ rest.length ≠ 0 then ['/'] else []) ++ rest).length =
      up * 2 + (if up ≠ 0 then up - 1 else 0) + (if up ≠ 0 ∧ rest.length ≠ 0 then 1 else 0) + rest.length := by
    rw [List.length_append, List.length_append, length_upText]
    split_ifs <;> rfl
  rw [relText, relLen, ← hlen]
  by_cases hnil : upText up ++ (if up ≠ 0 ∧ rest.length ≠ 0 then ['/'] else []) ++ rest = []
  · rw [if_pos hnil, if_pos (by rw [hnil]; rfl)]
    rfl
  · rw [if_neg hnil, if_neg (mt List.length_eq_zero_iff.1 hnil)]

/-- It writes that many `..`. -/
theorem upText_eq (up : ℕ) : upText up = joined '/' (List.replicate up dotdot) := by
  induction up with
  | zero => rfl
  | succ up ih =>
    rw [upText] at ih ⊢
    rw [List.range_succ, List.flatMap_append, ih]
    cases up with
    | zero => rfl
    | succ up =>
      rw [List.replicate_succ' (n := up + 1), joined_concat (by simp)]
      rfl

end Loops

/-! ## Canonical paths -/

section Texts

variable {abs : Bool} {st : List Str}

/-- The components of the text of a path; `.` is one. -/
theorem components_pathText_eq (h : ∀ c ∈ st, IsComponent '/' c) :
    components '/' (pathText abs st) = if abs = false ∧ st = [] then [dot] else st := by
  unfold pathText
  split_ifs with hst
  · decide
  · cases abs with
    | true => rw [rootText, if_pos rfl, List.singleton_append, components_sep, components_joined h]
    | false => rw [rootText, if_neg Bool.false_ne_true, List.nil_append, components_joined h]

/-- A canonical path is the text of canonical components. -/
theorem exists_canonical {p : Str} (h : canonPath p = p) : ∃ st, Canonical (isAbs p) st ∧ p = pathText (isAbs p) st :=
  ⟨_, canonical_path p, h.symm⟩

theorem pathText_eq (abs : Bool) (st : List Str) :
    pathText abs st = rootText abs ++ joined '/' (if abs = false ∧ st = [] then [dot] else st) := by
  unfold pathText
  split_ifs with hst
  · rw [hst.1]
    rfl
  · rfl

/-- Behind the root stand the components. -/
theorem standAt_root (abs : Bool) (h : ∀ c ∈ st, IsComponent '/' c) :
    pathRootlen (pathText abs st) = (rootText abs).length ∧ StandAt (pathText abs st)
      (pathRootlen (pathText abs st) + sepAt (pathText abs st) (pathRootlen (pathText abs st)))
      (components '/' (pathText abs st)) := by
  have hcs : ∀ c ∈ (if abs = false ∧ st = [] then [dot] else st), IsComponent '/' c := by
    split_ifs
    · decide
    · exact h
  have htake := takeWhile_joined hcs
  rw [components_pathText_eq h, pathText_eq]
  generalize (if abs = false ∧ st = [] then [dot] else st) = cs at hcs htake
  have hroot : pathRootlen (rootText abs ++ joined '/' cs) = (rootText abs).length := by
    rw [pathRootlen, sepAt, List.drop_zero]
    cases abs with
    | true =>
      rw [rootText, if_pos rfl, List.singleton_append, List.takeWhile_cons_of_pos (by simp), htake]
      simp
    | false =>
      rw [rootText, if_neg Bool.false_ne_true, List.nil_append, htake]
      simp
  refine ⟨hroot, ?_, hcs⟩
  rw [hroot, sepAt, ← List.drop_drop, List.drop_left, htake]
  rfl

/-- What is written are the components of the way. -/
theorem relText_eq {xs ys : List Str} (hxs : ∀ c ∈ xs, IsComponent '/' c) :
    relText ys.length (joined '/' xs) = joined '/' (if ys = [] ∧ xs = [] then [dot] else
      List.replicate ys.length dotdot ++ xs) := by
  rw [relText, upText_eq]
  by_cases hys : ys = []
  · subst hys
    by_cases hnil : xs = []
    · subst hnil
      rfl
    · have hne := joined_ne_nil hxs hnil
      simp [hne, hnil]
  · have hlen : ys.length ≠ 0 := mt List.length_eq_zero_iff.1 hys
    have hrep : List.replicate ys.length dotdot ≠ [] := by simpa using hys
    have hups : joined '/' (List.replicate ys.length dotdot) ≠ [] := by
      refine joined_ne_nil (fun c hc => ?_) hrep
      rw [List.eq_of_mem_replicate hc]
      exact isComponent_dotdot
    by_cases hnil : xs = []
    · subst hnil
      simp [hups, hys]
    · have hne := joined_ne_nil hxs hnil
      have hpn : (joined '/' xs).length ≠ 0 := mt List.length_eq_zero_iff.1 hne
      have hsep : (if ys.length ≠ 0 ∧ (joined '/' xs).length ≠ 0 then ['/'] else []) = ['/'] := if_pos ⟨hlen, hpn⟩
      have hall : ¬(ys = [] ∧ xs = []) := fun h => hys h.1
      rw [hsep, if_neg (by simp), if_neg hall, joined_append hrep hnil, List.append_assoc]
      rfl

/-- **`path_rel`** writes the way from the components of the base to those of the path. -/
theorem pathRel_eq {sp sb xs ys : List Str} (hp : ∀ c ∈ sp, IsComponent '/' c) (hb : ∀ c ∈ sb, IsComponent '/' c)
    (hun : unshared (components '/' (pathText abs sp)) (components '/' (pathText abs sb)) = (xs, ys)) (cap : ℕ) :
    pathRel cap (pathText abs sp) (pathText abs sb) =
      some ((relText ys.length (joined '/' xs)).length,
        if (relText ys.length (joined '/' xs)).length < cap then some (relText ys.length (joined '/' xs)) else none) ∧
      ∀ c ∈ xs, IsComponent '/' c := by
  obtain ⟨hrp, hsp⟩ := standAt_root abs hp
  obtain ⟨hrb, hsb⟩ := standAt_root abs hb
  have hsame : sameRoot (pathText abs sp) (pathText abs sb) = true := by
    rw [sameRoot, hrp, hrb]
    exact beq_self_eq_true _
  obtain ⟨ea, eb, hcommon, ha, hb⟩ := commonLoop_standAt hsp hsb rfl rfl
  rw [hun] at ha hb
  have hrest : ((pathText abs sp).drop (ea + sepAt (pathText abs sp) ea)).rdropWhile (· == '/') = joined '/' xs := by
    rw [ha.1, List.rdropWhile_eq_self_iff]
    intro hne hsep
    exact getLast?_joined ha.2 _ (List.getLast?_eq_some_getLast hne) (by simpa using hsep)
  have hcom : pathCommon (pathText abs sp) (pathText abs sb) = (ea, eb) := by
    rw [pathCommon, if_pos hsame]
    exact hcommon
  refine ⟨?_, ha.2⟩
  rw [pathRel, if_pos hsame]
  simp only [hcom, hrest, upLoop_eq hb, length_relText]

theorem pathText_ne_nil {st : List Str} (h : ∀ c ∈ st, IsComponent '/' c) : pathText abs st ≠ [] := by
  rw [pathText_eq]
  cases abs with
  | true => exact List.append_ne_nil_of_left_ne_nil (by decide) _
  | false =>
    refine List.append_ne_nil_of_right_ne_nil _ ?_
    split_ifs with hst
    · decide
    · exact joined_ne_nil h fun hnil => hst ⟨rfl, hnil⟩

/-- **The way behind the base**: its components are those of the base and of the way. -/
theorem pathCat_eq (abs : Bool) {sb ws : List Str} (hb : ∀ c ∈ sb, IsComponent '/' c) (hws : ∀ c ∈ ws, IsComponent '/' c)
    (hne : ws ≠ []) : isAbs (pathCat (pathText abs sb) (joined '/' ws)) = abs ∧
      components '/' (pathCat (pathText abs sb) (joined '/' ws)) = components '/' (pathText abs sb) ++ ws := by
  have hnil := joined_ne_nil hws hne
  have hbase : pathText abs sb ≠ [] := pathText_ne_nil hb
  have habs : isAbs (pathText abs sb) = abs := isAbs_pathText hb
  have hcat : ¬(pathText abs sb = [] ∨ (joined '/' ws).head? = some '/') := by
    rintro (h | h)
    · exact hbase h
    · exact head?_joined hws '/' h rfl
  rw [pathCat, if_neg hnil, if_neg hcat]
  generalize pathText abs sb = base at hbase habs
  split_ifs with hlast
  · obtain ⟨front, x, rfl⟩ := List.eq_nil_or_concat base |>.resolve_left hbase
    rw [List.concat_eq_append, List.getLast?_concat, Option.some.injEq] at hlast
    subst hlast
    refine ⟨?_, ?_⟩
    · rw [← habs, isAbs, isAbs, List.head?_append_of_ne_nil _ hbase]
    · rw [List.concat_eq_append, List.append_assoc, List.singleton_append, components_append, components_append,
        components_nil, components_joined hws, List.append_nil]
  · refine ⟨?_, ?_⟩
    · rw [← habs, isAbs, isAbs, List.head?_append_of_ne_nil _ hbase]
    · rw [components_append, components_joined hws]

/-- **Where the way leads**, by components. -/
theorem canonPath_cat {sb xs : List Str} (ys : List Str) (hb : Canonical abs sb) (hxs : ∀ c ∈ xs, IsComponent '/' c) :
    canonPath (pathCat (pathText abs sb) (relText ys.length (joined '/' xs))) =
      pathText abs ((List.replicate ys.length dotdot ++ xs).foldl (canonStep abs) sb) := by
  have hws : ∀ c ∈ (if ys = [] ∧ xs = [] then [dot] else List.replicate ys.length dotdot ++ xs), IsComponent '/' c := by
    split_ifs
    · decide
    · intro c hc
      rcases List.mem_append.1 hc with hc | hc
      · rw [List.eq_of_mem_replicate hc]
        exact isComponent_dotdot
      · exact hxs c hc
  have hne : (if ys = [] ∧ xs = [] then [dot] else List.replicate ys.length dotdot ++ xs) ≠ [] := by
    split_ifs with h
    · decide
    · simpa using h
  obtain ⟨habs, hcs⟩ := pathCat_eq abs hb.isComponent hws hne
  rw [relText_eq hxs, canonPath, habs, hcs, List.foldl_append, components_pathText hb.isComponent, hb.foldl_eq]
  split_ifs with h
  · obtain ⟨rfl, rfl⟩ := h
    rw [List.foldl_cons, canonStep, if_pos rfl]
    rfl
  · rfl

/-- Canonical paths are equal when their components are. -/
theorem pathText_inj {sp sb : List Str} (hp : Canonical abs sp) (hb : Canonical abs sb) :
    pathText abs sp = pathText abs sb ↔ sp = sb := by
  refine ⟨fun h => ?_, congrArg _⟩
  have hp' : (components '/' (pathText abs sp)).foldl (canonStep abs) [] = sp.foldl (canonStep abs) [] :=
    components_pathText hp.isComponent
  rw [h, components_pathText hb.isComponent, hb.foldl_eq, hp.foldl_eq] at hp'
  exact hp'.symm

end Texts

/-! ## The way -/

/-- **A way is right** when it leads to the components of the path. -/
theorem relRight_iff {abs : Bool} {sp sb xs ys : List Str} (hp : Canonical abs sp) (hb : Canonical abs sb)
    (hun : unshared (components '/' (pathText abs sp)) (components '/' (pathText abs sb)) = (xs, ys)) :
    RelRight (pathText abs sp) (pathText abs sb) ↔
      (List.replicate ys.length dotdot ++ xs).foldl (canonStep abs) sb = sp := by
  have hrel := fun cap => pathRel_eq hp.isComponent hb.isComponent hun cap
  have hcat := canonPath_cat ys hb (hrel 0).2
  generalize relText ys.length (joined '/' xs) = rel at hrel hcat
  have hcanon : Canonical abs ((List.replicate ys.length dotdot ++ xs).foldl (canonStep abs) sb) := by
    refine Canonical.foldl (fun c hc => ?_) hb
    rcases List.mem_append.1 hc with hc | hc
    · rw [List.eq_of_mem_replicate hc]
      exact isComponent_dotdot
    · exact (hrel 0).2 c hc
  rw [← pathText_inj hcanon hp, ← hcat]
  constructor
  · intro h
    obtain ⟨rel', hout, -, hway⟩ := h _ _ _ (hrel (rel.length + 1)).1 (Nat.lt_succ_self _)
    rw [if_pos (Nat.lt_succ_self _)] at hout
    obtain rfl := Option.some.inj hout
    obtain ⟨s, hs, htext, -⟩ := pathCanon_eq false (fun _ => 'x') (pathCat (pathText abs sb) rel) le_rfl
    rw [← htext]
    refine hway ((pathCatBuf 0 (pathText abs sb) rel).1 + 1) (pathCatBuf 0 (pathText abs sb) rel).1 _ ?_ _ _ _ _ hs
    exact Prod.ext rfl (if_pos (Nat.lt_succ_self _))
  · rintro h cap len out hout hlt
    rw [(hrel cap).1] at hout
    obtain ⟨rfl, rfl⟩ := Prod.mk.inj (Option.some.inj hout)
    refine ⟨rel, if_pos hlt, rfl, fun cap' need q hq inPlace buf cap'' s hs => ?_⟩
    obtain rfl : pathCat (pathText abs sb) rel = q := by
      have hq₂ : (if (pathCatBuf cap' (pathText abs sb) rel).1 < cap' then some (pathCat (pathText abs sb) rel)
          else none) = some q := congrArg Prod.snd hq
      split_ifs at hq₂
      exact Option.some.inj hq₂
    have hcap : (pathCat (pathText abs sb) rel).length + 2 ≤ cap'' := by
      by_contra hsmall
      rw [pathCanon, if_pos (Nat.not_le.1 hsmall)] at hs
      cases hs
    obtain ⟨s', hs', htext, -⟩ := pathCanon_eq inPlace buf (pathCat (pathText abs sb) rel) hcap
    obtain rfl : s = s' := Option.some.inj (hs.symm.trans hs')
    exact htext.trans h

theorem leadingUps_pathText {abs : Bool} {st : List Str} (h : Canonical abs st) :
    leadingUps (pathText abs st) = ups st := by
  rw [leadingUps, components_pathText_eq h.isComponent]
  split_ifs with hst
  · rw [hst.2]
    decide
  · rfl

/-- Behind the root nothing goes up. -/
theorem ups_abs {st : List Str} (h : Canonical true st) : ups st = 0 := by
  obtain ⟨k, names, rfl, hk, hnames⟩ := h
  rw [hk rfl, ups_replicate, ups_names hnames]

/-- A relative path has components, of which none is `.`. -/
theorem relRight_iff_of_ne {abs : Bool} {sp sb : List Str} (hp : Canonical abs sp) (hb : Canonical abs sb)
    (hsp : components '/' (pathText abs sp) = sp) (hsb : components '/' (pathText abs sb) = sb) :
    RelRight (pathText abs sp) (pathText abs sb) ↔ ups sb ≤ ups sp := by
  obtain ⟨zs, hzp, hzb, hne⟩ := exists_shared sp sb
  have hway := relRight_iff hp hb (by rw [hsp, hsb])
  rw [hway]
  have hp' := hp
  have hb' := hb
  rw [hzp] at hp'
  rw [hzb] at hb'
  have hiff := way_iff hp' hb' hne
  rwa [← hzp, ← hzb] at hiff

/-- **`path_rel`** leads from a canonical base to a canonical path, both absolute or both relative, when they are
absolute or the base is not `.` for another path and goes up no more often. -/
theorem path_rel_iff {p base : Str} (hp : canonPath p = p) (hbase : canonPath base = base)
    (habs : isAbs p = isAbs base) : RelRight p base ↔
      isAbs p = true ∨ ((base = dot → p = dot) ∧ leadingUps base ≤ leadingUps p) := by
  obtain ⟨sp, hsp, hpe⟩ := exists_canonical hp
  obtain ⟨sb, hsb, hbe⟩ := exists_canonical hbase
  rw [← habs] at hsb hbe
  generalize isAbs p = abs at hsp hpe hsb hbe
  subst hpe hbe
  rw [leadingUps_pathText hsp, leadingUps_pathText hsb]
  cases abs with
  | true =>
    have hall : ∀ {st : List Str}, Canonical true st → components '/' (pathText true st) = st := fun h =>
      (components_pathText_eq h.isComponent).trans (if_neg fun h => absurd h.1 (by decide))
    rw [relRight_iff_of_ne hsp hsb (hall hsp) (hall hsb), ups_abs hsp, ups_abs hsb]
    simp
  | false =>
    have hall : ∀ {st : List Str}, Canonical false st → st ≠ [] → components '/' (pathText false st) = st :=
      fun h hne => (components_pathText_eq h.isComponent).trans (if_neg fun h => hne h.2)
    have hdot : ∀ {st : List Str}, Canonical false st → (pathText false st = dot ↔ st = []) := fun h =>
      pathText_inj h Canonical.nil
    rw [hdot hsp, hdot hsb]
    by_cases hb : sb = []
    · subst hb
      by_cases hp : sp = []
      · subst hp
        have hun : unshared (components '/' (pathText false [])) (components '/' (pathText false [])) = ([], []) := by
          decide
        rw [relRight_iff hsp hsb hun]
        simp
      · have hun : unshared (components '/' (pathText false sp)) (components '/' (pathText false [])) = (sp, [dot]) := by
          rw [hall hsp hp]
          exact unshared_of_ne fun c hc hc' => hsp.ne_dot (List.mem_of_mem_head? hc) (Option.some.inj hc').symm
        rw [relRight_iff hsp hsb hun]
        refine iff_of_false (fun h => ?_) fun h => hp ((h.resolve_left Bool.false_ne_true).1 rfl)
        have hup := hsp.dotdot_cons.foldl_eq
        exact List.cons_ne_self _ _ (hup.symm.trans h)
    · by_cases hp : sp = []
      · subst hp
        have hun : unshared (components '/' (pathText false [])) (components '/' (pathText false sb)) = ([dot], sb) := by
          rw [hall hsb hb]
          exact unshared_of_ne fun c hc hc' => hsb.ne_dot (List.mem_of_mem_head? hc') (Option.some.inj hc).symm
        have hback := @way_iff false [] [] sb hsp hsb nofun
        rw [relRight_iff hsp hsb hun, List.foldl_append, List.foldl_cons, canonStep, if_pos rfl]
        rw [List.append_nil] at hback
        simpa [hb] using hback
      · rw [relRight_iff_of_ne hsp hsb (hall hsp hp) (hall hsb hb)]
        simp [hb]

/-- From one directory to a file in another one. -/
theorem path_rel_sibling : RelRight "a/b".toList "a/c".toList :=
  (path_rel_iff (by decide) (by decide) (by decide)).2 (.inr (by decide))

/-- From `.` it goes up first. -/
theorem path_rel_dot : canonPath ['a'] = ['a'] ∧ canonPath dot = dot ∧ isAbs ['a'] = isAbs dot ∧
    ¬RelRight ['a'] dot := by
  have hname : Canonical false [['a']] := ⟨0, [['a']], rfl, nofun, fun c hc => by
    rw [List.mem_singleton.1 hc]
    exact ⟨by decide, by decide, by decide⟩⟩
  refine ⟨by decide, by decide, rfl, fun h => ?_⟩
  have hun : unshared (components '/' (pathText false [['a']])) (components '/' (pathText false [])) =
      ([['a']], [dot]) := by decide
  have hway := (relRight_iff hname Canonical.nil hun).1 h
  exact absurd hway (by decide)

end Shish
