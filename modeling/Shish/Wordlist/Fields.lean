import Mathlib.Data.List.Chain
import Shish.Wordlist.Conserve

/-!
# Wordlist/Fields — field splitting

The results of unquoted expansions, appended chunk by chunk to a fresh wordlist, come out as the
fields of `split`: whatever the chunks are, as long as no cut touches a character of `ifs`.
-/

namespace Shish

/-- Flags of the result of an unquoted expansion, not to be globbed. -/
structure XFlags.Expansion (flags : XFlags) (noglob : Bool) : Prop extends flags.Plain noglob where
  quoted : flags.quoted = false
  nosplit : flags.nosplit = false

namespace Wordlist

/-- The state while only results of expansions were appended to a fresh wordlist. -/
structure Mid (wl : Wordlist) : Prop where
  ok : wl.Ok
  text : ∀ a ∈ wl.cur, isIfs wl.ifs a = false
  nonempty : wl.isOpen → wl.cur ≠ []
  lone : wl.closed → (wl.pend ↔ wl.fields = [[]])
  fresh : wl.has = false → wl.fields = []

variable {wl : Wordlist} {flags : XFlags} {b t : Str}

theorem Mid.isOpen_eq (h : wl.Mid) : (wl.isOpen && !wl.cur.isEmpty) = wl.isOpen := by
  by_cases ho : wl.isOpen
  · simp [ho, h.nonempty ho]
  · simp [ho]

/-- Text opens a field or goes on with it. -/
theorem Mid.catText (h : wl.Mid) (hf : flags.Plain wl.noglob) (hb : b ≠ [])
    (hb' : ∀ a ∈ b, isIfs wl.ifs a = false) :
    let wl' := catText flags wl.isOpen b wl
    wl'.Mid ∧ wl'.isOpen ∧ wl'.fields = wl.fields ∧ wl'.cur = wl.cur ++ b ∧ wl'.ifs = wl.ifs ∧
      wl'.noglob = wl.noglob := by
  intro wl'
  have hwl : wl' = wl.start.extend b flags := catText_eq id hb
  have ho : wl'.isOpen := hwl ▸ @isOpen_start wl
  have hcur : wl'.cur = wl.cur ++ b := by
    rw [hwl, extend, h.ok.start_cur]
  have hifs : wl'.ifs = wl.ifs := by rw [hwl]; exact start_ifs
  refine ⟨⟨?_, ?_, ?_, ?_, ?_⟩, ho, ?_, hcur, hifs, ?_⟩
  · rw [hwl]
    exact h.ok.start.extend isOpen_start (by rwa [start_noglob])
  · rw [hcur, hifs]
    intro a ha
    exact (List.mem_append.1 ha).elim (h.text a) (hb' a)
  · intro _
    simp [hcur, hb]
  · intro hc
    exact absurd hc (by simp [(isOpen_iff.1 ho).2])
  · intro hh
    exact absurd hh (by simp [(isOpen_iff.1 ho).1])
  · rw [hwl, fields_extend, fields_start]
  · rw [hwl]
    exact start_noglob

theorem append_ne_lone {fs : List Str} (hb : b ≠ []) : fs ++ [b] ≠ [[]] := fun h =>
  hb (by simpa using congrArg List.getLast? h)

/-- A delimiter closes the open field, or an empty one where none is open. -/
theorem Mid.delimiter (h : wl.Mid) :
    let wl' := wl.start.freeze
    wl'.Mid ∧ wl'.closed ∧ wl'.fields = wl.fields ++ [wl.cur] ∧ wl'.ifs = wl.ifs ∧
      wl'.noglob = wl.noglob := by
  intro wl'
  have hok : wl'.Ok := h.ok.start.freeze isOpen_start
  have hfields : wl'.fields = wl.fields ++ [wl.cur] := by
    rw [fields_freeze, fields_start, h.ok.start_cur]
  refine ⟨⟨hok, nofun, ?_, fun _ => ?_, ?_⟩, rfl, hfields, start_ifs, start_noglob⟩
  · intro ho
    exact absurd ho (by simp [isOpen, wl', freeze])
  · -- only an empty field opened on a fresh list is dropped if nothing follows
    have hpend : wl'.pend = (wl.cur.isEmpty && !wl.start.keep) := by
      rw [← h.ok.start_cur]
      rfl
    rw [hpend, hfields]
    by_cases ho : wl.isOpen
    · simp [h.nonempty ho, append_ne_lone (h.nonempty ho)]
    · rw [h.ok.cur (by simpa using ho)]
      by_cases hh : wl.has
      · have hc : wl.closed := by
          by_contra hc
          exact ho (isOpen_iff.2 ⟨hh, by simpa using hc⟩)
        have hne : wl.fields ≠ [] := by
          rw [← List.length_pos_iff, length_fields]
          exact Nat.zero_lt_of_lt (h.ok.closed hc)
        rw [start_eq_sibling hh hc]
        simp [keep, sibling, hne]
      · have hh : wl.has = false := by simpa using hh
        simp [keep, start, hh, XFlags.default, h.fresh hh]
  · intro hh
    exact absurd (hok.has rfl) (by simp [hh])

/-- Each further delimiter adds an empty field. -/
theorem Mid.catEmpty : ∀ (k : ℕ) {wl : Wordlist}, wl.Mid → wl.closed → flags.Plain wl.noglob →
    let wl' := catEmpty flags k wl
    wl'.Mid ∧ wl'.closed ∧ wl'.fields = wl.fields ++ List.replicate k [] ∧ wl'.ifs = wl.ifs ∧
      wl'.noglob = wl.noglob
  | 0, wl, h, hc, _ => by simpa [Wordlist.catEmpty] using ⟨h, hc⟩
  | k + 1, wl, h, hc, hf => by
      have hs := start_eq_sibling (h.ok.has hc) hc
      have hcur : wl.cur = [] := h.ok.cur (by simp [isOpen, hc])
      obtain ⟨h₁, hc₁, hf₁, hi₁, hn₁⟩ := h.delimiter
      obtain ⟨h₂, hc₂, hf₂, hi₂, hn₂⟩ := h₁.catEmpty k hc₁ (hn₁.symm ▸ hf)
      intro wl'
      have hwl : wl' = Wordlist.catEmpty flags k wl.start.freeze := by
        change Wordlist.catEmpty flags k (wl.sibling.finish flags) = _
        rw [← hs, finish_eq (by rwa [start_noglob])]
      rw [hwl]
      refine ⟨h₂, hc₂, ?_, hi₂.trans hi₁, hn₂.trans hn₁⟩
      rw [hf₂, hf₁, hcur, List.append_assoc]
      rfl

/-- A run of delimiters behind a field, or one with characters that are no white space. -/
theorem Mid.catRun (h : wl.Mid) (hf : flags.Plain wl.noglob) {nws : ℕ}
    (hrun : wl.isOpen ∨ nws ≠ 0) :
    let wl' := catRun flags wl.isOpen nws wl
    wl'.Mid ∧ wl'.closed ∧ wl'.fields = wl.fields ++ wl.cur :: List.replicate (nws - 1) [] ∧
      wl'.ifs = wl.ifs ∧ wl'.noglob = wl.noglob := by
  obtain ⟨h₁, hc₁, hf₁, hi₁, hn₁⟩ := h.delimiter
  have hstart : (if wl.isOpen then wl else wl.start) = wl.start := by
    split_ifs with ho
    · rw [start_eq_self ho]
    · rfl
  have hfin : wl.start.finish flags = wl.start.freeze := finish_eq (by rwa [start_noglob])
  intro wl'
  by_cases hn : nws = 0
  · have ho := hrun.resolve_right (not_not.2 hn)
    have hwl : wl' = wl.start.freeze := by
      rw [← hfin, start_eq_self ho]
      simp [wl', Wordlist.catRun, hn, ho]
    rw [hwl]
    exact ⟨h₁, hc₁, by simp [hf₁, hn], hi₁, hn₁⟩
  · have hwl : wl' = Wordlist.catEmpty flags (nws - 1) wl.start.freeze := by
      rw [← hfin, ← hstart]
      simp [wl', Wordlist.catRun, hn]
    obtain ⟨h₂, hc₂, hf₂, hi₂, hn₂⟩ := h₁.catEmpty (nws - 1) hc₁ (hn₁.symm ▸ hf)
    rw [hwl]
    refine ⟨h₂, hc₂, ?_, hi₂.trans hi₁, hn₂.trans hn₁⟩
    rw [hf₂, hf₁, List.append_assoc]
    rfl

/-- **The loop cuts what it appends into pieces**, unless it starts with a delimiter. -/
theorem Mid.catLoop {ifs : Str} {noglob : Bool} (hf : flags.Plain noglob) (b : Str) :
    ∀ {wl : Wordlist}, wl.Mid → wl.ifs = ifs → wl.noglob = noglob →
      (wl.isOpen = false → ∀ a ∈ b.head?, isIfs ifs a = false) →
      let wl' := wl.catLoop flags wl.isOpen b
      wl'.Mid ∧ wl'.ifs = ifs ∧ wl'.noglob = noglob ∧
        wl'.fields ++ [wl'.cur] = wl.fields ++ pieces (isIfs ifs) (isWs ifs) (wl.cur ++ b) := by
  induction b using cut_induction (isIfs ifs) with
  | text b hb =>
    rintro wl h rfl rfl -
    have hcur : ∀ a ∈ wl.cur ++ b, isIfs wl.ifs a = false := fun a ha =>
      (List.mem_append.1 ha).elim (h.text a) (hb a)
    simp only [catLoop_text hb, pieces_text hcur]
    rcases eq_or_ne b [] with rfl | hb'
    · simpa [catText_nil] using h
    · obtain ⟨h₁, -, hf₁, hc₁, hi₁, hn₁⟩ := h.catText hf hb' hb
      exact ⟨h₁, hi₁, hn₁, by rw [hf₁, hc₁]⟩
  | run x r y hx hr hr' hy ih =>
    rintro wl h rfl rfl hhead
    have hx' : wl.isOpen = false → x ≠ [] := by
      rintro ho rfl
      obtain ⟨c, r, rfl⟩ := List.exists_cons_of_ne_nil hr'
      exact absurd (hr c List.mem_cons_self) (by simp [hhead ho c rfl])
    -- there is a field for the run to close
    obtain ⟨w, hw, h₁, ho₁, hf₁, hc₁, hi₁, hn₁⟩ : ∃ w, Wordlist.catText flags wl.isOpen x wl = w ∧ w.Mid ∧
        w.isOpen ∧ w.fields = wl.fields ∧ w.cur = wl.cur ++ x ∧ w.ifs = wl.ifs ∧
        w.noglob = wl.noglob := by
      rcases eq_or_ne x [] with rfl | hne
      · refine ⟨wl, rfl, h, ?_, rfl, by simp, rfl, rfl⟩
        by_contra ho
        exact hx' (by simpa using ho) rfl
      · exact ⟨_, rfl, h.catText hf hne hx⟩
    have hhave : (wl.isOpen || !x.isEmpty) = w.isOpen := by
      rw [ho₁]
      by_cases ho : wl.isOpen
      · simp [ho]
      · simp [hx' (by simpa using ho)]
    obtain ⟨h₂, hc₂, hf₂, hi₂, hn₂⟩ := @Mid.catRun w flags h₁ (hn₁.symm ▸ hf)
      (r.countP (!isWs wl.ifs ·)) (.inl ho₁)
    set w₂ := Wordlist.catRun flags w.isOpen (r.countP (!isWs wl.ifs ·)) w with hw₂
    have hcur₂ : w₂.cur = [] := h₂.ok.cur (by simp [isOpen, hc₂])
    have hopen₂ : w₂.isOpen = false := by simp [isOpen, hc₂]
    obtain ⟨h₃, hi₃, hn₃, hf₃⟩ := ih h₂ (hi₂.trans hi₁) (hn₂.trans hn₁) fun _ => hy
    rw [hopen₂] at h₃ hi₃ hn₃ hf₃
    rw [catLoop_run hx hr hr' hy, hw, hhave, ← hw₂]
    refine ⟨h₃, hi₃, hn₃, ?_⟩
    have htext : ∀ a ∈ wl.cur ++ x, isIfs wl.ifs a = false := fun a ha =>
      (List.mem_append.1 ha).elim (h.text a) (hx a)
    rw [hf₃, hcur₂, hf₂, hf₁, hc₁, List.nil_append, ← List.append_assoc wl.cur,
      pieces_run htext hr hr' hy]
    simp

variable {ifs : Str} {noglob : Bool}

/-- The state once the text `t` was appended to a fresh wordlist. -/
structure Upto (ifs : Str) (noglob : Bool) (t : Str) (wl : Wordlist) : Prop where
  mid : wl.Mid
  ifs_eq : wl.ifs = ifs
  noglob_eq : wl.noglob = noglob
  cut : wl.fields ++ [wl.cur] = pieces (isIfs ifs) (isWs ifs) (t.dropWhile (isWs ifs))
  fresh : t = [] → wl.has = false

theorem dropWhile_isWs (hb : ∀ a ∈ b.head?, isIfs ifs a = false) :
    b.dropWhile (isWs ifs) = b := by
  have : ∀ a ∈ b.head?, isWs ifs a = false := fun a ha => by
    rw [isWs, hb a ha, Bool.and_false]
  exact dropWhile_append_of (x := []) (fun _ h => by cases h) this

/-- **The first chunk**: a run of white space in front is ignored, any other run is as many
delimiters as it has other characters. -/
theorem Mid.catFresh (h : wl.Mid) (hh : wl.has = false) (hf : flags.Plain wl.noglob) (b : Str) :
    let wl' := wl.catLoop flags false b
    wl'.Mid ∧ wl'.ifs = wl.ifs ∧ wl'.noglob = wl.noglob ∧
      wl'.fields ++ [wl'.cur] = pieces (isIfs wl.ifs) (isWs wl.ifs) (b.dropWhile (isWs wl.ifs)) := by
  have ho : wl.isOpen = false := by simp [isOpen, hh]
  have hcur := h.ok.cur ho
  have htext {y : Str} (hy : ∀ a ∈ y.head?, isIfs wl.ifs a = false) :
      let wl' := wl.catLoop flags false y
      wl'.Mid ∧ wl'.ifs = wl.ifs ∧ wl'.noglob = wl.noglob ∧
        wl'.fields ++ [wl'.cur] = pieces (isIfs wl.ifs) (isWs wl.ifs) y := by
    have := h.catLoop hf y rfl rfl fun _ => hy
    rwa [ho, h.fresh hh, hcur, List.nil_append, List.nil_append] at this
  by_cases hhead : ∀ a ∈ b.head?, isIfs wl.ifs a = false
  · rw [dropWhile_isWs hhead]
    exact htext hhead
  rcases cut_cases (isIfs wl.ifs) b with hb | ⟨x, r, y, rfl, hx, hr, hr', hy, -⟩
  · exact absurd (fun a ha => hb a (List.mem_of_mem_head? ha)) hhead
  obtain rfl : x = [] := by
    by_contra hne
    obtain ⟨c, x, rfl⟩ := List.exists_cons_of_ne_nil hne
    exact hhead fun a ha => hx a (List.mem_of_mem_head? ha)
  rw [catLoop_run hx hr hr' hy, catText_nil, List.nil_append]
  by_cases hn : r.countP (!isWs wl.ifs ·) = 0
  · -- white space alone leaves the fresh list as it is
    have hrun : Wordlist.catRun flags (false || !([] : Str).isEmpty) 0 wl = wl := by
      simp [Wordlist.catRun, hh]
    have hws : ∀ a ∈ r, isWs wl.ifs a := by
      simpa [List.countP_eq_zero] using hn
    rw [hn, hrun, dropWhile_append_of hws fun a ha => by rw [isWs, hy a ha, Bool.and_false]]
    exact htext hy
  · obtain ⟨h₁, hc₁, hf₁, hi₁, hn₁⟩ := @Mid.catRun wl flags h hf (r.countP (!isWs wl.ifs ·)) (.inr hn)
    rw [ho] at h₁ hc₁ hf₁ hi₁ hn₁
    set w := Wordlist.catRun flags false (r.countP (!isWs wl.ifs ·)) wl with hw
    have how : w.isOpen = false := by simp [isOpen, hc₁]
    have := h₁.catLoop hf y hi₁ hn₁ fun _ => hy
    rw [how, h₁.ok.cur how, hf₁, hcur, h.fresh hh, List.nil_append, List.nil_append] at this
    refine ⟨this.1, this.2.1, this.2.2.1, ?_⟩
    have hpieces := pieces_front (fun a => isWs_isIfs a) hr hy
    obtain ⟨k, hk⟩ := Nat.exists_eq_succ_of_ne_zero hn
    rw [hk, List.replicate_succ] at hpieces
    rw [hpieces]
    refine this.2.2.2.trans ?_
    rw [hk]
    rfl

/-- Text at the end stays there when white space in front goes away. -/
theorem dropWhile_ws_last (ht : ∀ a ∈ t.getLast?, isIfs ifs a = false) (hne : t ≠ []) :
    t.dropWhile (isWs ifs) ≠ [] ∧
      ∀ a ∈ (t.dropWhile (isWs ifs)).getLast?, isIfs ifs a = false := by
  obtain ⟨t, c, rfl⟩ := (List.eq_nil_or_concat' t).resolve_left hne
  have hc : isIfs ifs c = false := ht c (by simp)
  have hw : isWs ifs c = false := by rw [isWs, hc, Bool.and_false]
  rw [List.dropWhile_append]
  split_ifs
  · simp [hw, hc]
  · simp [hc]

/-- **One more chunk.** -/
theorem Upto.cat (h : Upto ifs noglob t wl) (hf : flags.Expansion noglob)
    (ht : ∀ a ∈ t.getLast?, isIfs ifs a = false)
    (hb : t ≠ [] → ∀ a ∈ b.head?, isIfs ifs a = false) :
    Upto ifs noglob (t ++ b) (wl.cat b flags) := by
  obtain ⟨hmid, rfl, rfl, hcut, hfresh⟩ := h
  rw [cat_unquoted hmid.ok hf.toPlain hf.quoted hf.nosplit, hmid.isOpen_eq]
  split_ifs with hnil
  · rw [List.isEmpty_iff.1 hnil, List.append_nil]
    exact ⟨hmid, rfl, rfl, hcut, hfresh⟩
  have hnil : b ≠ [] := by simpa using hnil
  rcases eq_or_ne t [] with rfl | hne
  · have hh := hfresh rfl
    have := hmid.catFresh hh hf.toPlain b
    rw [show wl.isOpen = false by simp [isOpen, hh]]
    exact ⟨this.1, this.2.1, this.2.2.1, this.2.2.2, fun h => absurd h hnil⟩
  · -- the last character is text, so that there is an open field
    obtain ⟨hx, hlast⟩ := dropWhile_ws_last ht hne
    obtain ⟨fs, z, hz, hfs, hfs'⟩ := pieces_append (w := isWs wl.ifs) (y := b) hlast hx
    obtain ⟨rfl, hcur⟩ := List.append_inj' (hcut.trans hfs) rfl
    obtain rfl := (List.cons.inj hcur).1
    have := hmid.catLoop hf.toPlain b rfl rfl fun ho => absurd (hmid.ok.cur ho) hz
    refine ⟨this.1, this.2.1, this.2.2.1, ?_, fun h => absurd h (by simp [hne])⟩
    rw [this.2.2.2, ← hfs', List.dropWhile_append, if_neg (by simpa using hx)]

/-- `cut x y`: a cut between the chunks touches no character of `ifs`. -/
def Uncut (ifs : Str) (x y : Str × XFlags) : Prop :=
  (∀ a ∈ x.1.getLast?, isIfs ifs a = false) ∧ ∀ a ∈ y.1.head?, isIfs ifs a = false

/-- All the chunks. -/
theorem Upto.cats : ∀ (chunks : List (Str × XFlags)) {t : Str} {wl : Wordlist},
    Upto ifs noglob t wl → (∀ c ∈ chunks, c.2.Expansion noglob) → chunks.IsChain (Uncut ifs) →
    (∀ c ∈ chunks.head?, (∀ a ∈ t.getLast?, isIfs ifs a = false) ∧
      (t ≠ [] → ∀ a ∈ c.1.head?, isIfs ifs a = false)) →
    Upto ifs noglob (t ++ (chunks.map Prod.fst).flatten)
      (chunks.foldl (fun wl c => wl.cat c.1 c.2) wl)
  | [], t, wl, h, _, _, _ => by simpa using h
  | c :: cs, t, wl, h, hf, hcut, hhead => by
      obtain ⟨ht, hb⟩ := hhead c rfl
      have h₁ := h.cat (b := c.1) (hf c List.mem_cons_self) ht hb
      have := Upto.cats cs h₁ (fun d hd => hf d (List.mem_cons_of_mem _ hd))
        (List.isChain_cons.1 hcut).2 fun d hd => ?_
      · simpa [List.append_assoc] using this
      · obtain ⟨hc, hd'⟩ := (List.isChain_cons.1 hcut).1 d hd
        refine ⟨fun a ha => ?_, fun _ => hd'⟩
        rcases eq_or_ne c.1 [] with hnil | hnil
        · rw [hnil, List.append_nil] at ha
          exact ht a ha
        · rw [List.getLast?_append_of_ne_nil _ hnil] at ha
          exact hc a ha

/-- The end of the word drops what is no field. -/
theorem Upto.close (h : Upto ifs noglob t wl) :
    wl.close.1.fields = split (isIfs ifs) (isWs ifs) t := by
  rw [split_eq (fun a => isWs_isIfs a), ← h.cut, close_eq h.mid.ok]
  change wl.done.fields = _
  by_cases ho : wl.isOpen
  · have hcur := h.mid.nonempty ho
    have hpend : wl.freeze.pend = false := by simp [freeze, push, hcur]
    rw [done, if_pos ho, fields_leave, hpend, fields_freeze]
    simp [dropEnd, dropLone, hcur]
  · have hcur := h.mid.ok.cur (by simpa using ho)
    rw [done, if_neg ho, fields_leave, hcur]
    have hend : dropEnd (wl.fields ++ [[]]) = wl.fields := by simp [dropEnd]
    rw [hend]
    by_cases hc : wl.closed
    · split_ifs with hp
      · rw [(h.mid.lone hc).1 hp]
        rfl
      · rw [dropLone_of_ne (mt (h.mid.lone hc).2 hp)]
    · have hh : wl.has = false := by
        by_contra hh
        exact ho (isOpen_iff.2 ⟨by simpa using hh, by simpa using hc⟩)
      rw [h.mid.fresh hh]
      simp [dropLone]

theorem init_upto (ifs : Option Str) (noglob : Bool) (junk : ℕ → Option Str)
    (globbed : Str → Option (List Str)) :
    Upto (ifs.getD []) noglob [] (init ifs noglob junk globbed) where
  mid := ⟨init_ok ifs noglob junk globbed, nofun, nofun, nofun, fun _ => rfl⟩
  ifs_eq := rfl
  noglob_eq := rfl
  cut := (pieces_text nofun).symm
  fresh := fun _ => rfl

/-- **Field splitting.**  The chunks of a value come out as its fields. -/
theorem cat_split (ifs : Option Str) (noglob : Bool) (junk : ℕ → Option Str)
    (globbed : Str → Option (List Str)) (chunks : List (Str × XFlags))
    (hflags : ∀ c ∈ chunks, c.2.Expansion noglob)
    (hcut : chunks.IsChain (Uncut (ifs.getD []))) :
    (chunks.foldl (fun wl c => wl.cat c.1 c.2) (init ifs noglob junk globbed)).close.1.fields =
      split (isIfs (ifs.getD [])) (isWs (ifs.getD [])) (chunks.map Prod.fst).flatten := by
  have h := (init_upto ifs noglob junk globbed).cats chunks hflags hcut fun _ _ =>
    ⟨nofun, fun hne => absurd rfl hne⟩
  exact h.close

/-- `1= =` in two chunks, with a blank and `=` in `IFS`. -/
theorem cat_split_cut :
    let chunks := [(['1'], XFlags.default), (['2', '=', ' ', '='], XFlags.default)]
    (∀ c ∈ chunks, c.2.Expansion false) ∧ chunks.IsChain (Uncut [' ', '=']) ∧
    (chunks.foldl (fun wl c => wl.cat c.1 c.2)
      (init (some [' ', '=']) false (fun _ => none) fun _ => none)).close.1.fields =
        [['1', '2'], []] := by
  intro chunks
  have hflags : ∀ c ∈ chunks, c.2.Expansion false := by
    intro c hc
    have : c.2 = .default := by
      rcases List.mem_cons.1 hc with rfl | hc
      · rfl
      · exact List.mem_singleton.1 hc ▸ rfl
    rw [this]
    exact ⟨⟨rfl, rfl, nofun, nofun⟩, rfl, rfl⟩
  have hcut : chunks.IsChain (Uncut [' ', '=']) := by
    simp [chunks, Uncut, isIfs]
  refine ⟨hflags, hcut, ?_⟩
  rw [cat_split (some [' ', '=']) false (fun _ => none) (fun _ => none) chunks hflags hcut]
  decide +kernel

end Wordlist

end Shish
