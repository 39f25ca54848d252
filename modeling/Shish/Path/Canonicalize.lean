import Shish.Lib.Split
import Shish.Path.Canon

/-!
# Path/Canonicalize — canonical paths with symbolic links followed

`pathCanonicalize` takes the components of what is still to be walked one by one; a link puts its
target in front of the rest, and starts again at the root when the target is absolute.  Without links
it is the lexical form (`canonicalize_lexical`).  With links, the path it comes to is the one the
components lead to when they are resolved one after another (`canonicalize_resolves`).
-/

namespace Shish

/-- What `lstat` and `readlink` say: the target of a path that is a symbolic link. -/
abbrev Links := Str → Option Str

/-- `sa`, its root, what of `rest` is still to do, and how many links have been followed. -/
structure Walk where
  sa : Str
  root : ℕ
  rest : Str
  links : ℕ

namespace Walk

/-- `pop`. -/
def pop (sa : Str) (root : ℕ) : Str :=
  sa.take root ++ ((sa.drop root).rdropWhile (· != '/')).rdropWhile (· == '/')

/-- `ISDOTDOT`, of the last component. -/
def upOnTop (sa : Str) : Bool := sa.rtakeWhile (· != '/') == dotdot

/-- `restart`: the root of the rest. -/
def restart (rest : Str) (links : ℕ) : Walk :=
  if isAbs rest then { sa := ['/'], root := 1, rest := rest.drop 1, links }
  else { sa := [], root := 0, rest, links }

end Walk

/-- A turn of the loop goes on, or is the last; `none` is `ELOOP`. -/
inductive WalkTurn where
  | on (s : Walk)
  | done (result : Option (Str × ℕ))

namespace Walk

/-- A component that is a name: it is kept, unless it is a link. -/
def name (fs : Links) (symbolic : Bool) (s : Walk) (c rest : Str) : WalkTurn :=
  let sa := (if s.root < s.sa.length then s.sa ++ ['/'] else s.sa) ++ c
  match if symbolic then none else fs sa with
  | none => .on { s with sa, rest }
  | some link =>
      if s.links + 1 > 40 then .done none
      else
        let rest := link ++ '/' :: rest
        if isAbs rest then .on (restart rest (s.links + 1))
        else .on { s with sa := pop sa s.root, rest, links := s.links + 1 }

/-- One component. -/
def component (fs : Links) (symbolic : Bool) (s : Walk) (c rest : Str) : WalkTurn :=
  if c = dot then .on { s with rest }
  else if c = dotdot then
    if s.root < s.sa.length ∧ upOnTop s.sa = false then .on { s with sa := pop s.sa s.root, rest }
    else if s.root = 0 then
      .on { s with sa := (if s.sa = [] then [] else s.sa ++ ['/']) ++ dotdot, rest }
    else .on { s with rest }
  else s.name fs symbolic c rest

/-- One turn of the loop of `path_canonicalize`. -/
def turn (fs : Links) (symbolic : Bool) (s : Walk) : WalkTurn :=
  match s.rest.dropWhile (· == '/') with
  | [] => .done (some (if s.sa = [] then dot else s.sa, 1 + s.links))
  | x :: l => s.component fs symbolic ((x :: l).takeWhile (· != '/')) ((x :: l).dropWhile (· != '/'))

variable {fs : Links} {symbolic : Bool} {s s' : Walk} {c rest : Str}

/-- A name is taken off, or a link is counted. -/
theorem name_lt (h : s.name fs symbolic c rest = .on s') :
    s.links < s'.links ∧ s'.links ≤ 40 ∨ s'.links = s.links ∧ s'.rest = rest := by
  unfold name at h
  dsimp only at h
  split at h
  · cases h
    exact .inr ⟨rfl, rfl⟩
  · rename_i link _
    by_cases hmany : s.links + 1 > 40
    · rw [if_pos hmany] at h
      exact nomatch h
    · rw [if_neg hmany] at h
      refine .inl ?_
      by_cases habs : isAbs (link ++ '/' :: rest) = true
      · rw [if_pos habs] at h
        cases h
        unfold restart
        split_ifs
        exact ⟨Nat.lt_succ_self _, by dsimp; omega⟩
      · rw [if_neg habs] at h
        cases h
        exact ⟨Nat.lt_succ_self _, by dsimp; omega⟩

theorem component_lt (h : s.component fs symbolic c rest = .on s') :
    s.links < s'.links ∧ s'.links ≤ 40 ∨ s'.links = s.links ∧ s'.rest = rest := by
  unfold component at h
  by_cases hdot : c = dot
  · rw [if_pos hdot] at h
    cases h
    exact .inr ⟨rfl, rfl⟩
  · by_cases hup : c = dotdot
    · rw [if_neg hdot, if_pos hup] at h
      refine .inr ?_
      by_cases hpop : s.root < s.sa.length ∧ upOnTop s.sa = false
      · rw [if_pos hpop] at h
        cases h
        exact ⟨rfl, rfl⟩
      · rw [if_neg hpop] at h
        by_cases hroot : s.root = 0
        · rw [if_pos hroot] at h
          cases h
          exact ⟨rfl, rfl⟩
        · rw [if_neg hroot] at h
          cases h
          exact ⟨rfl, rfl⟩
    · rw [if_neg hdot, if_neg hup] at h
      exact name_lt h

/-- **Each turn takes a component off, or counts a link.** -/
theorem turn_lt (h : s.turn fs symbolic = .on s') :
    s.links < s'.links ∧ s'.links ≤ 40 ∨ s'.links = s.links ∧ s'.rest.length < s.rest.length := by
  have hle : (s.rest.dropWhile (· == '/')).length ≤ s.rest.length := (List.dropWhile_sublist _).length_le
  unfold turn at h
  split at h
  · exact nomatch h
  · next x l hl =>
    have hx : x ≠ '/' := by
      have := List.head?_dropWhile_not (· == '/') s.rest
      rw [hl, List.head?_cons] at this
      simpa using this
    have hlt := (List.dropWhile_sublist (l := l) (· != '/')).length_le
    rw [hl, List.length_cons] at hle
    refine (component_lt h).imp id fun hrest => ⟨hrest.1, ?_⟩
    rw [hrest.2, List.dropWhile_cons_of_pos (by simpa using hx)]
    omega

end Walk

/-- The loop. -/
def walkPath (fs : Links) (symbolic : Bool) (s : Walk) : Option (Str × ℕ) :=
  match _h : s.turn fs symbolic with
  | .on s' => walkPath fs symbolic s'
  | .done result => result
termination_by (40 - s.links, s.rest.length)
decreasing_by
  rcases Walk.turn_lt _h with ⟨hlt, hle⟩ | ⟨heq, hlt⟩
  · exact .left _ _ (by omega)
  · rw [heq]
    exact .right _ hlt

/-- `path_canonicalize`: the path, and 1 and the number of links followed. -/
def pathCanonicalize (fs : Links) (symbolic : Bool) (path : Str) : Option (Str × ℕ) :=
  walkPath fs symbolic (Walk.restart path 0)

theorem walkPath_on {fs : Links} {symbolic : Bool} {s s' : Walk} (h : s.turn fs symbolic = .on s') :
    walkPath fs symbolic s = walkPath fs symbolic s' := by
  rw [walkPath]
  split
  · next heq =>
    rw [h] at heq
    rw [WalkTurn.on.inj heq]
  · next heq =>
    rw [h] at heq
    exact nomatch heq

theorem walkPath_done {fs : Links} {symbolic : Bool} {s : Walk} {result : Option (Str × ℕ)}
    (h : s.turn fs symbolic = .done result) : walkPath fs symbolic s = result := by
  rw [walkPath]
  split
  · next heq =>
    rw [h] at heq
    exact nomatch heq
  · next heq =>
    rw [h] at heq
    rw [WalkTurn.done.inj heq]

/-! ## One turn -/

namespace Walk

variable {fs : Links} {symbolic : Bool} {s s' : Walk} {c rest : Str} {abs : Bool} {st : List Str}

/-- The path so far stands for these components. -/
structure Shows (s : Walk) (abs : Bool) (st : List Str) : Prop where
  sa : s.sa = rootText abs ++ joined '/' st
  root : s.root = (rootText abs).length
  canonical : Canonical abs st

theorem shows_restart (path : Str) (links : ℕ) :
    (restart path links).Shows (isAbs path) [] ∧
      components '/' (restart path links).rest = components '/' path ∧
      (restart path links).links = links := by
  unfold restart
  split_ifs with habs
  · rw [habs]
    refine ⟨⟨rfl, rfl, Canonical.nil⟩, ?_, rfl⟩
    cases path with
    | nil => exact nomatch habs
    | cons x path =>
      obtain rfl : x = '/' := by simpa [isAbs] using habs
      exact (components_sep path).symm
  · rw [Bool.not_eq_true] at habs
    rw [habs]
    exact ⟨⟨rfl, rfl, Canonical.nil⟩, rfl, rfl⟩

/-- `pop` takes the last component off. -/
theorem pop_joined {d : Str} (h : ∀ c ∈ st, IsComponent '/' c) (hd : IsComponent '/' d) :
    pop (rootText abs ++ joined '/' (st ++ [d])) (rootText abs).length = rootText abs ++ joined '/' st := by
  rw [pop, List.take_left, List.drop_left, joined_back hd h]

theorem upOnTop_joined {d : Str} (hd : IsComponent '/' d) :
    upOnTop (rootText abs ++ joined '/' (st ++ [d])) = (d == dotdot) := by
  have hall : ∀ x ∈ d, (x != '/') = true := fun x hx => by
    rw [bne_iff_ne]
    rintro rfl
    exact hd.2 hx
  obtain ⟨l, hl, hlast⟩ : ∃ l, rootText abs ++ joined '/' (st ++ [d]) = l ++ d ∧
      ∀ x ∈ l.reverse.head?, (x != '/') = false := by
    by_cases hst : st = []
    · refine ⟨rootText abs, by rw [hst, List.nil_append, joined_singleton], ?_⟩
      cases abs with
      | true => simp [rootText]
      | false =>
        intro x hx
        cases hx
    · refine ⟨rootText abs ++ joined '/' st ++ ['/'], ?_, by simp⟩
      rw [joined_concat hst]
      simp
  have htake : (l ++ d).rtakeWhile (· != '/') = d := by
    rw [List.rtakeWhile, List.reverse_append,
      takeWhile_append_of (x := d.reverse) (by simpa using hall) hlast, List.reverse_reverse]
  rw [hl, upOnTop, htake]

/-- The separator in front of one more component. -/
theorem Shows.concat (h : s.Shows abs st) (c : Str) :
    (if s.root < s.sa.length then s.sa ++ ['/'] else s.sa) ++ c = rootText abs ++ joined '/' (st ++ [c]) := by
  have hlen : s.sa.length = s.root + (joined '/' st).length := by
    rw [h.sa, h.root, List.length_append]
  by_cases hst : st = []
  · subst hst
    rw [if_neg (by rw [hlen, joined_nil, List.length_nil]; omega), h.sa]
    simp
  · have hpos := List.length_pos_iff.2 (joined_ne_nil h.canonical.isComponent hst)
    rw [if_pos (by omega), h.sa, joined_concat hst]
    simp

/-- **A component that is no link** goes on as the canonical form says. -/
theorem Shows.component (h : s.Shows abs st) (rest : Str) (hc : IsComponent '/' c)
    (hname : IsName c → symbolic = true ∨ fs (rootText abs ++ joined '/' (st ++ [c])) = none) :
    ∃ s', s.component fs symbolic c rest = .on s' ∧ s'.Shows abs (canonStep abs st c) ∧ s'.rest = rest ∧
      s'.links = s.links := by
  have hcan := h.canonical.step hc
  unfold Walk.component
  rcases h.canonical.step_cases c with ⟨hd, heq⟩ | ⟨hd, st', d, hdname, hst', rfl, heq⟩ |
    ⟨hd, rfl, rfl, heq⟩ | ⟨hd, rfl, k, rfl, heq⟩ | ⟨hd, hdd, heq⟩
  · rw [if_pos hd, heq]
    exact ⟨_, rfl, ⟨h.sa, h.root, h.canonical⟩, rfl, rfl⟩
  · have hne : c ≠ dot := by rw [hd]; decide
    have hpos := List.length_pos_iff.2 (joined_ne_nil h.canonical.isComponent (by simp))
    have hlen : s.root < s.sa.length := by
      rw [h.sa, h.root, List.length_append]
      omega
    have htop : upOnTop s.sa = false := by
      rw [h.sa, upOnTop_joined hdname.1, beq_eq_false_iff_ne]
      exact hdname.2.2
    rw [if_neg hne, if_pos hd, if_pos ⟨hlen, htop⟩, heq]
    refine ⟨_, rfl, ⟨?_, h.root, hst'⟩, rfl, rfl⟩
    rw [h.sa, h.root, pop_joined hst'.isComponent hdname.1]
  · have hne : c ≠ dot := by rw [hd]; decide
    have hlen : ¬ s.root < s.sa.length := by
      rw [h.sa, h.root]
      exact Nat.lt_irrefl _
    have hroot : s.root ≠ 0 := by
      rw [h.root]
      decide
    rw [if_neg hne, if_pos hd, if_neg fun hp => hlen hp.1, if_neg hroot, heq]
    exact ⟨_, rfl, ⟨h.sa, h.root, Canonical.nil⟩, rfl, rfl⟩
  · have hne : c ≠ dot := by rw [hd]; decide
    have hroot : s.root = 0 := h.root
    have htop : ¬ (s.root < s.sa.length ∧ upOnTop s.sa = false) := by
      rintro ⟨hlt, htop⟩
      cases k with
      | zero =>
        rw [h.sa, h.root] at hlt
        exact Nat.lt_irrefl _ hlt
      | succ k =>
        rw [h.sa, List.replicate_succ', upOnTop_joined isComponent_dotdot] at htop
        exact nomatch htop
    rw [if_neg hne, if_pos hd, if_neg htop, if_pos hroot]
    refine ⟨_, rfl, ⟨?_, h.root, hcan⟩, rfl, rfl⟩
    have hconcat := h.concat dotdot
    rw [← List.replicate_succ', ← heq] at hconcat
    rw [← hconcat, hroot]
    by_cases hsa : s.sa = []
    · rw [if_pos hsa, hsa]
      rfl
    · rw [if_neg hsa, if_pos (List.length_pos_iff.2 hsa)]
  · have hnolink := hname ⟨hc, hd, hdd⟩
    rw [if_neg hd, if_neg hdd, name]
    dsimp only
    rw [h.concat c]
    have hnone : (if symbolic then none else fs (rootText abs ++ joined '/' (st ++ [c]))) = none := by
      rcases hnolink with hs | hs
      · rw [if_pos hs]
      · rw [hs, ite_self]
    rw [hnone]
    exact ⟨_, rfl, ⟨by rw [heq], h.root, hcan⟩, rfl, rfl⟩

/-- **A link**: its target goes in front of the rest. -/
theorem Shows.link {target : Str} (h : s.Shows abs st) (rest : Str) (hc : IsName c)
    (hlink : fs (rootText abs ++ joined '/' (st ++ [c])) = some target) (hmany : ¬ s.links + 1 > 40)
    (htarget : target ≠ []) :
    ∃ s', s.component fs false c rest = .on s' ∧
      s'.Shows (abs || isAbs target) (if isAbs target then [] else st) ∧
      components '/' s'.rest = components '/' target ++ components '/' rest ∧ s'.links = s.links + 1 := by
  have habs : isAbs (target ++ '/' :: rest) = isAbs target := by
    obtain ⟨x, l, rfl⟩ := List.exists_cons_of_ne_nil htarget
    rfl
  have hrest : components '/' (target ++ '/' :: rest) = components '/' target ++ components '/' rest :=
    components_append target rest
  rw [Walk.component, if_neg hc.2.1, if_neg hc.2.2, name]
  dsimp only
  rw [h.concat c, if_neg Bool.false_ne_true, hlink]
  dsimp only
  rw [if_neg hmany, habs]
  cases ht : isAbs target with
  | true =>
    rw [if_pos rfl, Bool.or_true]
    obtain ⟨hshows, hcomp, hlinks⟩ := shows_restart (target ++ '/' :: rest) (s.links + 1)
    rw [habs, ht] at hshows
    exact ⟨_, rfl, hshows, hcomp.trans hrest, hlinks⟩
  | false =>
    rw [if_neg Bool.false_ne_true, Bool.or_false]
    refine ⟨_, rfl, ⟨?_, h.root, h.canonical⟩, hrest, rfl⟩
    rw [h.root, pop_joined h.canonical.isComponent hc.1]
    rfl

/-- **A turn is the end, or a component.** -/
theorem turn_cases (fs : Links) (symbolic : Bool) (s : Walk) :
    (components '/' s.rest = [] ∧
      s.turn fs symbolic = .done (some (if s.sa = [] then dot else s.sa, 1 + s.links))) ∨
    ∃ c rest, IsComponent '/' c ∧ components '/' s.rest = c :: components '/' rest ∧
      s.turn fs symbolic = s.component fs symbolic c rest := by
  have hdrop : components '/' (s.rest.dropWhile (· == '/')) = components '/' s.rest :=
    components_dropWhile s.rest
  unfold turn
  split
  · next hl =>
    rw [hl, components_nil] at hdrop
    exact .inl ⟨hdrop.symm, rfl⟩
  · next x l hl =>
    have hx : x ≠ '/' := by
      have := List.head?_dropWhile_not (· == '/') s.rest
      rw [hl, List.head?_cons] at this
      simpa using this
    have hc : IsComponent '/' ((x :: l).takeWhile (· != '/')) := by
      refine ⟨?_, fun hmem => ?_⟩
      · rw [List.takeWhile_cons_of_pos (by simpa using hx)]
        exact List.cons_ne_nil _ _
      · have := List.all_eq_true.1 List.all_takeWhile '/' hmem
        simp at this
    refine .inr ⟨_, _, hc, ?_, rfl⟩
    rw [← hdrop, hl, ← components_cut hc]
    · rw [List.takeWhile_append_dropWhile]
    · intro y hy
      have := List.head?_dropWhile_not (· != '/') (x :: l)
      rw [Option.mem_def.1 hy] at this
      simpa using this

end Walk

/-! ## Without links -/

variable {fs : Links} {symbolic : Bool} {s : Walk} {abs : Bool} {st : List Str}

theorem Walk.Shows.text_eq (h : s.Shows abs st) :
    (if s.sa = [] then dot else s.sa) = pathText abs st := by
  have hsa : s.sa = [] ↔ abs = false ∧ st = [] := by
    rw [h.sa, List.append_eq_nil_iff]
    refine and_congr ?_ ?_
    · cases abs <;> simp [rootText]
    · exact ⟨fun hj => by_contra fun hst => joined_ne_nil h.canonical.isComponent hst hj,
        fun hst => by rw [hst, joined_nil]⟩
  rw [pathText, if_congr hsa rfl rfl, h.sa]

/-- **Resolution, one component after another**, in a directory: what it comes to. -/
inductive Resolves (fs : Links) : List Str → List Str → List Str → Prop where
  | nil {dir} : Resolves fs dir [] dir
  | dot {dir cs r} : Resolves fs dir cs r → Resolves fs dir (dot :: cs) r
  | up {dir cs r} : Resolves fs dir.dropLast cs r → Resolves fs dir (dotdot :: cs) r
  | entry {dir c cs r} : IsName c → fs (pathText true (dir ++ [c])) = none →
      Resolves fs (dir ++ [c]) cs r → Resolves fs dir (c :: cs) r
  | link {dir c cs r target} : IsName c → fs (pathText true (dir ++ [c])) = some target →
      Resolves fs (if isAbs target then [] else dir) (components '/' target ++ cs) r →
      Resolves fs dir (c :: cs) r

theorem Resolves.unique {dir cs r r' : List Str} (h : Resolves fs dir cs r) :
    Resolves fs dir cs r' → r' = r := by
  induction h with
  | nil => exact fun | .nil => rfl
  | dot _ ih =>
    intro h'
    cases h' with
    | dot h' => exact ih h'
    | entry hc => exact absurd rfl hc.2.1
    | link hc => exact absurd rfl hc.2.1
  | up _ ih =>
    intro h'
    cases h' with
    | up h' => exact ih h'
    | entry hc => exact absurd rfl hc.2.2
    | link hc => exact absurd rfl hc.2.2
  | entry hc hfs _ ih =>
    intro h'
    cases h' with
    | dot => exact absurd rfl hc.2.1
    | up => exact absurd rfl hc.2.2
    | entry _ _ h' => exact ih h'
    | link _ hfs' => exact nomatch hfs.symm.trans hfs'
  | link hc hfs _ ih =>
    intro h'
    cases h' with
    | dot => exact absurd rfl hc.2.1
    | up => exact absurd rfl hc.2.2
    | entry _ hfs' => exact nomatch hfs'.symm.trans hfs
    | link _ hfs' h' =>
      obtain rfl := Option.some.inj (hfs'.symm.trans hfs)
      exact ih h'

/-- No directory on the way is a link. -/
def Direct (fs : Links) (dir : List Str) : Prop := ∀ d ≠ [], d <+: dir → fs (pathText true d) = none

theorem Direct.nil : Direct fs [] := fun _ hd hpre => absurd (List.prefix_nil.1 hpre) hd

theorem Direct.mono {dir dir' : List Str} (h : Direct fs dir) (hpre : dir' <+: dir) : Direct fs dir' :=
  fun d hd hd' => h d hd (hd'.trans hpre)

theorem Direct.concat {dir : List Str} {c : Str} (h : Direct fs dir)
    (hc : fs (pathText true (dir ++ [c])) = none) : Direct fs (dir ++ [c]) := by
  intro d hd hpre
  rcases List.prefix_concat_iff.1 hpre with rfl | hpre
  · exact hc
  · exact h d hd hpre

theorem pathText_true (dir : List Str) : pathText true dir = rootText true ++ joined '/' dir :=
  if_neg fun h => nomatch h.1

theorem canonStep_up (h : Canonical true st) : canonStep true st dotdot = st.dropLast := by
  rcases h.step_cases dotdot with ⟨hd, -⟩ | ⟨-, st', d, -, -, rfl, heq⟩ | ⟨-, -, rfl, heq⟩ |
    ⟨-, ht, -⟩ | ⟨-, hd, -⟩
  · exact absurd hd (by decide)
  · rw [heq, List.dropLast_concat]
  · exact heq
  · exact nomatch ht
  · exact absurd rfl hd

/-- **The walk resolves what is still to do.** -/
theorem Walk.Shows.resolves (hfs : ∀ p target, fs p = some target → target ≠ []) {r : Str} {n : ℕ} :
    ∀ {s : Walk} {dir : List Str}, s.Shows true dir → Direct fs dir → walkPath fs false s = some (r, n) →
      ∃ dir', Resolves fs dir (components '/' s.rest) dir' ∧ Direct fs dir' ∧ Canonical true dir' ∧
        r = pathText true dir' := by
  intro s
  induction s using walkPath.induct fs false with
  | case1 s s' hturn ih =>
    intro dir h hdirect hw
    rw [walkPath_on hturn] at hw
    rcases Walk.turn_cases fs false s with ⟨-, hdone⟩ | ⟨c, rest, hc, hcomp, hon⟩
    · rw [hturn] at hdone
      cases hdone
    rw [hcomp]
    by_cases hlink : IsName c ∧ ∃ target, fs (pathText true (dir ++ [c])) = some target
    · obtain ⟨hname, target, htarget⟩ := hlink
      have hmany : ¬ s.links + 1 > 40 := fun hmany => by
        have hstop : s.component fs false c rest = .done none := by
          rw [Walk.component, if_neg hname.2.1, if_neg hname.2.2, Walk.name]
          dsimp only
          rw [h.concat c, if_neg Bool.false_ne_true, ← pathText_true, htarget]
          exact if_pos hmany
        rw [hturn, hstop] at hon
        cases hon
      obtain ⟨s₁, hs₁, hshows, hrest, -⟩ :=
        h.link rest hname (by rw [← pathText_true]; exact htarget) hmany (hfs _ _ htarget)
      obtain rfl := WalkTurn.on.inj (hturn.symm.trans (hon.trans hs₁))
      rw [Bool.true_or] at hshows
      have hdir : Direct fs (if isAbs target then [] else dir) := by
        split_ifs
        · exact Direct.nil
        · exact hdirect
      obtain ⟨dir', hres, hrest'⟩ := ih hshows hdir hw
      rw [hrest] at hres
      exact ⟨dir', .link hname htarget hres, hrest'⟩
    · have hnone : IsName c → fs (rootText true ++ joined '/' (dir ++ [c])) = none := fun hname => by
        rw [← pathText_true]
        exact Option.eq_none_iff_forall_ne_some.2 fun t ht => hlink ⟨hname, t, ht⟩
      obtain ⟨s₁, hs₁, hshows, hrest, -⟩ := h.component rest hc
        fun hname => .inr (hnone hname)
      obtain rfl := WalkTurn.on.inj (hturn.symm.trans (hon.trans hs₁))
      rw [← hrest]
      by_cases hdot : c = dot
      · rw [hdot, canonStep, if_pos rfl] at hshows
        obtain ⟨dir', hres, hrest'⟩ := ih hshows hdirect hw
        exact ⟨dir', hdot ▸ .dot hres, hrest'⟩
      · by_cases hup : c = dotdot
        · rw [hup, canonStep_up h.canonical] at hshows
          obtain ⟨dir', hres, hrest'⟩ := ih hshows (hdirect.mono (List.dropLast_prefix dir)) hw
          exact ⟨dir', hup ▸ .up hres, hrest'⟩
        · have hname : IsName c := ⟨hc, hdot, hup⟩
          have hnolink : fs (pathText true (dir ++ [c])) = none := by
            rw [pathText_true]
            exact hnone hname
          rw [canonStep, if_neg hdot, if_neg hup] at hshows
          obtain ⟨dir', hres, hrest'⟩ := ih hshows (hdirect.concat hnolink) hw
          exact ⟨dir', .entry hname hnolink hres, hrest'⟩
  | case2 s result hturn =>
    intro dir h hdirect hw
    rw [walkPath_done hturn] at hw
    rcases Walk.turn_cases fs false s with ⟨hnil, hdone⟩ | ⟨c, rest, hc, -, hon⟩
    · rw [hturn] at hdone
      obtain rfl := WalkTurn.done.inj hdone
      obtain ⟨rfl, -⟩ := Prod.mk.inj (Option.some.inj hw)
      rw [hnil]
      exact ⟨dir, .nil, hdirect, h.canonical, h.text_eq⟩
    · rw [hturn, hw] at hon
      by_cases hlink : IsName c ∧ ∃ target, fs (pathText true (dir ++ [c])) = some target
      · obtain ⟨hname, target, htarget⟩ := hlink
        have hcomp : s.component fs false c rest ≠ .done (some (r, n)) := by
          rw [Walk.component, if_neg hname.2.1, if_neg hname.2.2, Walk.name]
          dsimp only
          rw [h.concat c, if_neg Bool.false_ne_true, ← pathText_true, htarget]
          dsimp only
          split_ifs <;> rintro ⟨⟩
        exact absurd hon.symm hcomp
      · obtain ⟨s₁, hs₁, -⟩ := h.component rest hc
          fun hname => .inr (by
            rw [← pathText_true]
            exact Option.eq_none_iff_forall_ne_some.2 fun t ht => hlink ⟨hname, t, ht⟩)
        rw [hs₁] at hon
        cases hon

/-- A path that no link is on is walked to its end without following one. -/
theorem Walk.Shows.direct {cs dir : List Str} (h : s.Shows true dir) (hcs : components '/' s.rest = cs)
    (hnames : ∀ c ∈ cs, IsName c) (hdirect : Direct fs (dir ++ cs)) :
    walkPath fs false s = some (pathText true (dir ++ cs), 1 + s.links) := by
  induction cs generalizing s dir with
  | nil =>
    rcases Walk.turn_cases fs false s with ⟨-, hturn⟩ | ⟨c, rest, -, hcomp, -⟩
    · rw [walkPath_done hturn, h.text_eq, List.append_nil]
    · rw [hcs] at hcomp
      exact nomatch hcomp
  | cons c cs ih =>
    rw [List.forall_mem_cons] at hnames
    obtain ⟨hname, hnames⟩ := hnames
    rcases Walk.turn_cases fs false s with ⟨hnil, -⟩ | ⟨c', rest, hc, hcomp, hturn⟩
    · rw [hcs] at hnil
      exact nomatch hnil
    rw [hcs] at hcomp
    obtain ⟨rfl, hrest⟩ := List.cons.inj hcomp
    have happend : dir ++ c :: cs = dir ++ [c] ++ cs := by simp
    have hnone : fs (rootText true ++ joined '/' (dir ++ [c])) = none := by
      rw [← pathText_true]
      exact hdirect _ (by simp) ⟨cs, happend.symm⟩
    obtain ⟨s', hs', hshows, hrest', hlinks⟩ := h.component rest hc
      fun _ => .inr hnone
    rw [canonStep, if_neg hname.2.1, if_neg hname.2.2] at hshows
    rw [walkPath_on (hturn.trans hs'), happend,
      ih hshows (by rw [hrest']; exact hrest.symm) hnames (happend ▸ hdirect), hlinks]

/-- **Links followed**: what `path_canonicalize` gives for an absolute path is where the components lead
to one after another.  It has names only, none of the directories on the way is a link, and taken
again it stays as it is without a link followed. -/
theorem canonicalize_resolves (fs : Links) (hfs : ∀ p target, fs p = some target → target ≠ [])
    {path r : Str} {n : ℕ} (habs : isAbs path = true) (h : pathCanonicalize fs false path = some (r, n)) :
    ∃ dir, r = pathText true dir ∧ (∀ c ∈ dir, IsName c) ∧
      (∀ d ≠ [], d <+: dir → fs (pathText true d) = none) ∧
      (∀ dir', Resolves fs [] (components '/' path) dir' ↔ dir' = dir) ∧
      pathCanonicalize fs false r = some (r, 1) := by
  obtain ⟨hshows, hcomp, -⟩ := Walk.shows_restart path 0
  rw [habs] at hshows
  obtain ⟨dir, hres, hdirect, hcan, rfl⟩ := hshows.resolves hfs Direct.nil h
  rw [hcomp] at hres
  have hnames : ∀ c ∈ dir, IsName c := by
    obtain ⟨k, names, rfl, hk, hnames⟩ := hcan
    rw [hk rfl]
    exact hnames
  refine ⟨dir, rfl, hnames, hdirect, fun dir' => ⟨hres.unique, fun heq => heq ▸ hres⟩, ?_⟩
  obtain ⟨hshows', hcomp', hlinks'⟩ := Walk.shows_restart (pathText true dir) 0
  rw [isAbs_pathText hcan.isComponent] at hshows'
  have hcs : components '/' (pathText true dir) = dir := by
    rw [pathText_true, rootText, if_pos rfl, List.singleton_append, components_sep,
      components_joined hcan.isComponent]
  rw [pathCanonicalize, hshows'.direct (hcomp'.trans hcs) hnames hdirect, hlinks']
  rfl

/-- `/a` is a link to `b/../c`. -/
def aLink : Links := fun p => if p = "/a".toList then some "b/../c".toList else none

theorem canonicalize_resolves_link :
    pathCanonicalize aLink false "/a/x".toList = some ("/c/x".toList, 2) ∧
      ∃ dir, "/c/x".toList = pathText true dir ∧ (∀ c ∈ dir, IsName c) ∧
        (∀ d ≠ [], d <+: dir → aLink (pathText true d) = none) ∧
        (∀ dir', Resolves aLink [] (components '/' "/a/x".toList) dir' ↔ dir' = dir) ∧
        pathCanonicalize aLink false "/c/x".toList = some ("/c/x".toList, 1) := by
  have hwalk : pathCanonicalize aLink false "/a/x".toList = some ("/c/x".toList, 2) := by
    have h₁ : (Walk.restart "/a/x".toList 0).turn aLink false = .on ⟨['/'], 1, "b/../c//x".toList, 1⟩ := rfl
    have h₂ : (Walk.mk ['/'] 1 "b/../c//x".toList 1).turn aLink false =
        .on ⟨"/b".toList, 1, "/../c//x".toList, 1⟩ := rfl
    have h₃ : (Walk.mk "/b".toList 1 "/../c//x".toList 1).turn aLink false =
        .on ⟨['/'], 1, "/c//x".toList, 1⟩ := rfl
    have h₄ : (Walk.mk ['/'] 1 "/c//x".toList 1).turn aLink false = .on ⟨"/c".toList, 1, "//x".toList, 1⟩ := rfl
    have h₅ : (Walk.mk "/c".toList 1 "//x".toList 1).turn aLink false = .on ⟨"/c/x".toList, 1, [], 1⟩ := rfl
    have h₆ : (Walk.mk "/c/x".toList 1 [] 1).turn aLink false = .done (some ("/c/x".toList, 2)) := rfl
    rw [pathCanonicalize, walkPath_on h₁, walkPath_on h₂, walkPath_on h₃, walkPath_on h₄, walkPath_on h₅,
      walkPath_done h₆]
  have htarget : ∀ p target, aLink p = some target → target ≠ [] := by
    intro p target h
    unfold aLink at h
    split_ifs at h
    cases h
    decide
  exact ⟨hwalk, canonicalize_resolves aLink htarget (by decide) hwalk⟩

end Shish
