import Shish.Expand.Cut

/-!
# Expand/Glob — words that are globbed

A word of unquoted, quoted and escaped text and of parameters is expanded chunk by chunk, and cut
into fields on the way (`cutWord`).  Each field that ends as it should (`fieldOk`) becomes what its
pattern matches, or its text (`expandArgs_globs`).
-/

namespace Shish

variable {κ : Type}

/-! ## Words -/

/-- A chunk of a word: unquoted text with its escapes, quoted text, or a parameter without an
operator. -/
inductive Chunk
  | lit (t : List Mark) (flag : SFlags)
  | quo (quot : Quoting) (flag : SFlags) (x : Str)
  | param (p : Param)

namespace Chunk

/-- The chunk in the tree. -/
def part : Chunk → Part κ
  | lit t flag => .str .unquoted flag (store t)
  | quo quot flag x => .str quot flag (escape x)
  | param p => .param p none

/-- A chunk as the parser makes it. -/
def Ok : Chunk → Prop
  | lit t flag => (Seg.lit t flag.glob).Ok ∧ flag.nosplit = false ∧ flag.heredoc = false
  | quo quot flag _ => quot ≠ .unquoted ∧ flag.nosplit = false ∧ flag.heredoc = false ∧
      flag.glob = false
  | param p => p.op = .default ∧ p.strlen = false

end Chunk

/-- The values of a parameter: none if it is not set, and one for each field of `$@`.  The expansion
fails where `set -u` is on. -/
def Shell.values (S : Shell κ) (p : Param) : Option (List Str) :=
  if p.special = some .argvs || (p.special = some .argv && p.quot = .unquoted && S.ifs.isEmpty) then
    some S.args
  else
    match S.param p with
    | none => if S.nounset && p.special = none then none else some []
    | some v => some [v]

/-- One value. -/
def Cutter.one (ifs : Str) (quoted : Bool) (v : Str) (c : Cutter) : Cutter :=
  if quoted then c.whole (.val true v) true else c.value ifs v

/-- A parameter's values, a field each. -/
def Cutter.values (ifs : Str) (quoted : Bool) : List Str → Cutter → Cutter
  | [], c => c
  | [v], c => c.one ifs quoted v
  | v :: vs, c => values ifs quoted vs (c.one ifs quoted v).brk

/-- A chunk is cut. -/
def cutChunk (S : Shell κ) (ifs : Str) (c : Cutter) : Chunk → Option Cutter
  | .lit t flag => some (c.whole (.lit t flag.glob) false)
  | .quo _ _ x => some (c.whole (.quo x) true)
  | .param p => (S.values p).map fun vs => c.values ifs (p.quot ≠ .unquoted) vs

section Expand

variable {S : Shell κ} {A : List Mark → Option (List Str)} {ifs : Str} {globres : Bool}
  {base : List Str} {wl : Wordlist} {c : Cutter}

theorem Tracks.one (hA : Globbing A) (h : Tracks A ifs globres base wl c) (quoted : Bool) (v : Str) :
    Tracks A ifs globres base (wl.cat v (if quoted then quoFlags false else valFlags globres))
      (c.one ifs quoted v) := by
  cases quoted with
  | true => exact h.quotedValue v
  | false => exact h.value hA v

theorem Tracks.args (hA : Globbing A) (quoted : Bool) : ∀ (vs : List Str) {wl : Wordlist} {c : Cutter},
    Tracks A ifs globres base wl c → Tracks A ifs globres base
      (catArgs (if quoted then quoFlags false else valFlags globres) vs wl) (c.values ifs quoted vs)
  | [], _, _, h => h
  | [v], _, _, h => h.one hA quoted v
  | v :: w :: vs, _, _, h => Tracks.args hA quoted (w :: vs) (h.one hA quoted v).brk

/-- The flags of a parameter. -/
theorem partFlags_param (p : Param) : partFlags globres .default (.param p none : Part κ) =
    if p.quot ≠ .unquoted then quoFlags false else valFlags globres := by
  by_cases hq : p.quot = .unquoted
  · simp [partFlags, partFlags.result, hq, valFlags, XFlags.default]
  · simp [partFlags, partFlags.result, hq, quoFlags, XFlags.default]

theorem expandParam_plain {p : Param} (ho : p.op = .default) (hs : p.strlen = false) {flags : XFlags}
    (hn : flags.nosplit = false) :
    expandParam S p none flags wl = (S.values p).map fun vs => catArgs flags vs wl := by
  unfold expandParam Shell.values
  simp only [ho, hs, hn, Option.isSome_none, ne_eq, not_true_eq_false, decide_false, Bool.or_self,
    Bool.false_eq_true, if_false, Bool.false_and, Bool.not_false, Bool.and_true]
  split_ifs with hm
  · rfl
  · cases S.param p <;> rfl
  · cases S.param p <;> rfl

/-- **A chunk.** -/
theorem Tracks.chunk (hA : Globbing A) (h : Tracks A ifs globres base wl c) {chunk : Chunk}
    (hc : chunk.Ok) :
    (cutChunk S ifs c chunk = none → expandPart S globres .default wl chunk.part = none) ∧
    ∀ c', cutChunk S ifs c chunk = some c' → ∃ wl',
      expandPart S globres .default wl chunk.part = some wl' ∧ Tracks A ifs globres base wl' c' := by
  cases chunk with
  | lit t flag =>
    obtain ⟨ht, hn, hh⟩ := hc
    refine ⟨(fun h => by cases h), ?_⟩
    rintro c' ⟨⟩
    refine ⟨_, rfl, ?_⟩
    have hflags : partFlags globres .default (.str .unquoted flag (store t) : Part κ) =
        litFlags flag.glob := by
      simp [partFlags, litFlags, XFlags.default, hn, hh, store_eq_nil, ht.1]
    have := h.lit ht
    rwa [← hflags] at this
  | quo quot flag x =>
    obtain ⟨hq, hn, hh, hg⟩ := hc
    refine ⟨(fun h => by cases h), ?_⟩
    rintro c' ⟨⟩
    refine ⟨_, rfl, ?_⟩
    have hnil : (escape x).isEmpty = x.isEmpty := by
      rw [Bool.eq_iff_iff, List.isEmpty_iff, List.isEmpty_iff, ← unescape_eq_nil,
        unescape_escape]
    have hflags : partFlags globres .default (.str quot flag (escape x) : Part κ) =
        quoFlags !x.isEmpty := by
      simp [partFlags, quoFlags, XFlags.default, hn, hh, hg, hq, hnil]
    have := h.quo x
    rwa [← hflags] at this
  | param p =>
    obtain ⟨ho, hs⟩ := hc
    have hexpand : expandPart S globres .default wl (Chunk.param p).part =
        (S.values p).map fun vs => catArgs (if p.quot ≠ .unquoted then quoFlags false
          else valFlags globres) vs wl := by
      have hn : (partFlags globres .default (.param p none : Part κ)).nosplit = false := by
        rw [partFlags_param]
        split_ifs <;> rfl
      have := @expandParam_plain κ S wl p ho hs _ hn
      rw [partFlags_param] at this
      rw [← this, ← partFlags_param (κ := κ)]
      rfl
    rw [hexpand]
    simp only [cutChunk]
    cases S.values p with
    | none => exact ⟨fun _ => rfl, (fun _ h => by cases h)⟩
    | some vs =>
      refine ⟨(fun h => by cases h), ?_⟩
      rintro c' ⟨⟩
      refine ⟨_, rfl, ?_⟩
      have := h.args hA (p.quot ≠ .unquoted) vs
      simpa using this

theorem Tracks.chunks (hA : Globbing A) : ∀ {chunks : List Chunk} {wl : Wordlist} {c : Cutter},
    Tracks A ifs globres base wl c → (∀ chunk ∈ chunks, chunk.Ok) →
    (chunks.foldlM (cutChunk S ifs) c = none →
      (chunks.map Chunk.part).foldlM (expandPart S globres .default) wl = none) ∧
    ∀ c', chunks.foldlM (cutChunk S ifs) c = some c' → ∃ wl',
      (chunks.map Chunk.part).foldlM (expandPart S globres .default) wl = some wl' ∧
        Tracks A ifs globres base wl' c'
  | [], wl, c, h, _ => ⟨nofun, fun c' hc => ⟨wl, rfl, by
      obtain rfl := Option.some.inj hc
      exact h⟩⟩
  | chunk :: chunks, wl, c, h, hok => by
      obtain ⟨hnone, hsome⟩ := h.chunk (S := S) hA (hok chunk (.head _))
      rw [List.foldlM_cons, List.map_cons, List.foldlM_cons]
      cases hc : cutChunk S ifs c chunk with
      | none =>
        rw [hnone hc]
        exact ⟨fun _ => rfl, nofun⟩
      | some c₁ =>
        obtain ⟨wl₁, hwl, h₁⟩ := hsome c₁ hc
        rw [hwl]
        exact Tracks.chunks hA h₁ fun chunk' hm => hok chunk' (.tail _ hm)

/-- A wordlist between two words, with pathname expansion enabled; `A` is what `glob` answers. -/
structure Wordlist.Ready (wl : Wordlist) (A : List Mark → Option (List Str)) : Prop where
  str : wl.str = false
  noglob : wl.noglob = false
  globbed : wl.globbed = fun s => A (patternOf s)
  has : wl.has = false
  closed : wl.closed = false
  pend : wl.pend = false

end Expand

end Shish
