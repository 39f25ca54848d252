import Shish.Term.Line

/-!
# Term/Recall — lines from the history

The arrow keys go through the commands that were entered before, and `^R` searches them.  The line that was being
typed is set aside and comes back behind the newest of them.

`history_prev` takes the line away before it knows that there is a command to put in its place; where there is
none, the line is gone.
-/

namespace Shish

variable (e : Terminal) (t : Term)

/-- `history_show`: the command that many positions back becomes the line. -/
def historyShow (cursor : ℕ) : Term :=
  match e.history[cursor - 1]? with
  | some x => termSetline e t x
  | none => t

/-- `history_prev`; `none` where the line is taken away and nothing put there. -/
def historyPrev : Option Term :=
  let next := t.cursor + 1
  let live := t.cmdline.takeWhile (· ≠ 0)
  let t' := if t.cursor = 0 then { t with pending := live } else t
  if next ≤ e.history.length then some (historyShow e { t' with cursor := next } next)
  else if t.cursor = 0 ∧ live ≠ [] then none
  else some t'

/-- `history_next`. -/
def historyNext : Term :=
  if t.cursor = 0 then t
  else
    let t' := { t with cursor := t.cursor - 1 }
    if t'.cursor = 0 then termSetline e t' t.pending else historyShow e t' t'.cursor

/-! ## The search -/

/-- `query`, `line`, `k` and `failed` of `term_search`. -/
structure Isearch where
  query : Bytes
  line : Bytes
  k : ℕ
  failed : Bool

/-- `term_search_contains`. -/
def termSearchContains (hay needle : Bytes) : Bool := hay.tails.any needle.isPrefixOf

/-- The loop of `term_search_find`: the entries from the `k`-th on. -/
def termSearchFrom (query : Bytes) : ℕ → List Bytes → Option (ℕ × Bytes)
  | _, [] => none
  | k, x :: xs => if termSearchContains x query then some (k, x) else termSearchFrom query (k + 1) xs

/-- `term_search_find`. -/
def termSearchFind (history : List Bytes) (query : Bytes) (start : ℕ) : Option (ℕ × Bytes) :=
  termSearchFrom query (max start 1) (history.drop (max start 1 - 1))

/-- What a match, or that there is none, makes of a search. -/
def Isearch.found (q : Isearch) : Option (ℕ × Bytes) → Isearch
  | some (k, line) => { q with line, k, failed := false }
  | none => { q with failed := true }

/-- What a key makes of a search that goes on; `saved` is the line it began with. -/
def Isearch.key (history : List Bytes) (saved : Bytes) (q : Isearch) (c : UInt8) : Isearch :=
  if c = 18 then q.found (termSearchFind history q.query (q.k + 1))
  else if c = 127 ∨ c = 8 then
    let query := q.query.dropLast
    if query = [] then { query, line := saved, k := 0, failed := false }
    else { q with query }.found (termSearchFind history query 1)
  else
    let query := q.query ++ [c]
    { q with query }.found (termSearchFind history query q.k)

/-- `term_search_show`. -/
def termSearchShow (q : Isearch) : Term :=
  (termErase t).put (ascii (if q.failed then "(failed reverse-i-search)`" else "(reverse-i-search)`") ++ q.query ++
    ascii "': " ++ q.line)

/-- The loop of `term_search`, and whether it was left by `^G` or `^C`.  A key that ends it is handed back. -/
def termSearchLoop (history : List Bytes) (saved : Bytes) : List Key → Isearch → Term → Term × Isearch × Bool
  | [], q, t => ({ t with input := [] }, q, false)
  | k :: ks, q, t =>
      if k.byte = 18 ∧ q.query = [] then termSearchLoop history saved ks q t
      else if k.byte = 7 ∨ k.byte = 3 then ({ t with input := ks }, q, true)
      else if k.byte ≠ 18 ∧ k.byte ≠ 8 ∧ (k.byte < 32 ∨ 128 ≤ k.byte) then ({ t with input := k :: ks }, q, false)
      else
        let q' := q.key history saved k.byte
        termSearchLoop history saved ks q' (termSearchShow t q')

/-- `term_search`. -/
def termSearch : Term :=
  let saved := t.cmdline
  let q := { query := [], line := saved, k := 0, failed := false }
  let r := termSearchLoop e.history saved t.input q (termSearchShow t q)
  let t' := termErase r.1
  if r.2.2 ∨ r.2.1.k = 0 then
    termCompleteRedraw e { t' with cursor := t.cursor, cmdline := saved, pos := saved.length }
  else
    termCompleteRedraw e { t' with
      pending := if t.cursor = 0 then saved else t.pending, cursor := r.2.1.k, cmdline := r.2.1.line,
      pos := r.2.1.line.length }

/-! ## What is seen -/

/-- The prompt and the commands entered before are characters. -/
structure Terminal.Plain : Prop where
  prompt : Printed e.prompt
  history : ∀ x ∈ e.history, Printed x

variable {e t} {s : Screen} {x : Bytes} {q : Isearch} {c : UInt8} {n : ℕ}

/-- Where in the history the editor is cannot be seen. -/
theorem Synced.browse (h : Synced e t s) (n : ℕ) : Synced e { t with cursor := n } s := { h with }

theorem Synced.show (h : Synced e t s) (he : e.Plain) (n : ℕ) : Synced e (historyShow e t n) s := by
  rw [historyShow]
  split
  next x hx => exact h.setline (he.history x (List.mem_of_getElem? hx))
  next => exact h

theorem Printed.takeWhile (hx : Printed x) (f : UInt8 → Bool) : Printed (x.takeWhile f) := fun c hc =>
  hx c ((List.takeWhile_prefix f).subset hc)

theorem Synced.prev {t' : Term} (h : Synced e t s) (he : e.Plain) (ht : historyPrev e t = some t') :
    Synced e t' s := by
  have hlive : Synced e (if t.cursor = 0 then { t with pending := t.cmdline.takeWhile (· ≠ 0) } else t) s := by
    split
    · exact { h with pending := h.cmdline.takeWhile _ }
    · exact h
  rw [historyPrev] at ht
  split at ht
  · obtain rfl := Option.some.inj ht
    exact (hlive.browse _).show he _
  · split at ht
    · cases ht
    · obtain rfl := Option.some.inj ht
      exact hlive

theorem Synced.next (h : Synced e t s) (he : e.Plain) : Synced e (historyNext e t) s := by
  rw [historyNext]
  split
  · exact h
  · dsimp only
    split
    · exact (h.browse _).setline h.pending
    · exact (h.browse _).show he _

/-- The texts of a search are characters. -/
structure Isearch.Plain (q : Isearch) : Prop where
  query : Printed q.query
  line : Printed q.line

theorem termSearchFrom_mem {query line : Bytes} {k : ℕ} : ∀ {n : ℕ} {xs : List Bytes},
    termSearchFrom query n xs = some (k, line) → line ∈ xs
  | n, x :: xs, h => by
      rw [termSearchFrom] at h
      split at h
      · obtain ⟨-, rfl⟩ := Prod.mk.inj (Option.some.inj h)
        exact .head _
      · exact .tail _ (termSearchFrom_mem h)

theorem Isearch.Plain.found (h : q.Plain) (he : e.Plain) (query : Bytes) (n : ℕ) :
    (q.found (termSearchFind e.history query n)).Plain := by
  cases hf : termSearchFind e.history query n with
  | none => exact ⟨h.query, h.line⟩
  | some r => exact ⟨h.query, he.history _ (List.mem_of_mem_drop (termSearchFrom_mem hf))⟩

theorem Isearch.Plain.key {saved : Bytes} (h : q.Plain) (he : e.Plain) (hs : Printed saved)
    (hc : c = 18 ∨ c = 127 ∨ c = 8 ∨ isPrint c = true) : (q.key e.history saved c).Plain := by
  rw [Isearch.key]
  split
  · exact h.found he _ _
  · split
    · have hquery : Printed q.query.dropLast := fun d hd => h.query d (List.dropLast_subset _ hd)
      dsimp only
      split
      · exact ⟨hquery, hs⟩
      · exact Isearch.Plain.found (q := { q with query := q.query.dropLast }) ⟨hquery, h.line⟩ he _ _
    case isFalse h18 hback =>
      have hp : isPrint c = true := by tauto
      exact Isearch.Plain.found (q := { q with query := q.query ++ [c] })
        ⟨h.query.append (List.forall_mem_singleton.2 hp), h.line⟩ he _ _

/-- What stands in the row while there is a search. -/
theorem termSearchShow_shows {k : ℕ} (hs : Shows (s.feed t.out) x k) (h : q.Plain) :
    ∃ x k, Shows (s.feed (termSearchShow t q).out) x k := by
  have htext : Printed (ascii (if q.failed then "(failed reverse-i-search)`" else "(reverse-i-search)`") ++
      q.query ++ ascii "': " ++ q.line) := by
    refine ((Printed.append ?_ h.query).append ?_).append h.line
    · cases q.failed <;> decide
    · decide
  rw [termSearchShow, Term.put]
  dsimp only
  rw [Screen.feed_append]
  exact ⟨_, _, (termErase_shows hs).put (le_refl _) htext⟩

/-- The keys without a character that a search takes. -/
theorem edits_search : ∀ c ∈ editKeys, ¬(c = 7 ∨ c = 3) → ¬(c ≠ 18 ∧ c ≠ 8 ∧ (c < 32 ∨ 128 ≤ c)) →
    c = 18 ∨ c = 127 ∨ c = 8 ∨ isPrint c = true := by
  simp [editKeys]

/-- **A search changes nothing but the row and what is left of the keys.** -/
theorem termSearchLoop_spec {saved : Bytes} (he : e.Plain) (hsaved : Printed saved) :
    ∀ {ks : List Key} {q : Isearch} {t : Term} {x : Bytes} {k : ℕ}, Typable ks → q.Plain →
      Shows (s.feed t.out) x k → ∃ input out q' b x k,
        termSearchLoop e.history saved ks q t = ({ t with input, out }, q', b) ∧ input <:+ ks ∧ q'.Plain ∧
          Shows (s.feed out) x k
  | [], q, t, x, k, _, hq, hs => ⟨[], t.out, q, false, x, k, rfl, List.suffix_rfl, hq, hs⟩
  | k :: ks, q, t, x, n, hk, hq, hs => by
      have hks : Typable ks := hk.suffix (List.suffix_cons k ks)
      rw [termSearchLoop]
      split
      case isTrue =>
        obtain ⟨input, out, q', b, x, n, hloop, hin, hrest⟩ := termSearchLoop_spec he hsaved hks hq hs
        exact ⟨input, out, q', b, x, n, hloop, hin.trans (List.suffix_cons k ks), hrest⟩
      case isFalse =>
        split
        case isTrue => exact ⟨ks, t.out, q, true, x, n, rfl, List.suffix_cons k ks, hq, hs⟩
        case isFalse hcancel =>
          split
          case isTrue => exact ⟨k :: ks, t.out, q, false, x, n, rfl, List.suffix_rfl, hq, hs⟩
          case isFalse hgoes =>
            have hc : k.byte = 18 ∨ k.byte = 127 ∨ k.byte = 8 ∨ isPrint k.byte = true := by
              rcases hk.known k (.head _) with hp | hm
              · exact .inr (.inr (.inr hp))
              · exact edits_search _ hm hcancel hgoes
            have hq' := hq.key he hsaved hc
            obtain ⟨x', n', hs'⟩ := termSearchShow_shows hs hq'
            obtain ⟨input, out, q', b, x, n, hloop, hin, hrest⟩ := termSearchLoop_spec he hsaved hks hq' hs'
            exact ⟨input, out, q', b, x, n, hloop, hin.trans (List.suffix_cons k ks), hrest⟩

/-- **After a search the terminal shows the line again.** -/
theorem Synced.search (h : Synced e t s) (he : e.Plain) : Synced e (termSearch e t) s := by
  have hq : Isearch.Plain { query := [], line := t.cmdline, k := 0, failed := false } :=
    ⟨List.forall_mem_nil _, h.cmdline⟩
  obtain ⟨x, k, hs⟩ := termSearchShow_shows h.shows hq
  obtain ⟨input, out, q, b, x, k, hloop, hin, hq', hs⟩ := termSearchLoop_spec he h.cmdline h.keys hq hs
  have hblank := termErase_shows (t := { termSearchShow t { query := [], line := t.cmdline, k := 0, failed := false } with
    input, out }) hs
  rw [termSearch, hloop]
  dsimp only
  split
  · exact synced_redraw hblank he.prompt h.cmdline h.yank h.pending (h.keys.suffix hin)
  · refine synced_redraw hblank he.prompt hq'.line h.yank ?_ (h.keys.suffix hin)
    dsimp only
    split
    · exact h.cmdline
    · exact h.pending

end Shish
