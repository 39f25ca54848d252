import Shish.Lib.Run
import Shish.Var.Hash

/-!
# Var/Store — the variable store

A `struct var` lives on one table, in the bucket its scattering hash names; the tables form a stack
(`varstack`, innermost first, `vartab_root` last).  An entry that shadows an outer one is linked to
it by `parent`/`child` and takes its place in `var_list`, the list of everything visible.

Linked lists are lists of entry numbers, `heap` is what the numbers point at, and a table is named
by its level.  `position` holds what `vartab->pos` points at: the bucket and the place in it where
the last search of that table stopped, which is where `vartab_add` inserts.
-/

namespace Shish

/-! ## Data -/

/-- The `V_*` bits of an entry, or of a call. -/
structure Flags where
  /-- `V_FREE` -/
  free : Bool := false
  /-- `V_FREESTR` -/
  freestr : Bool := false
  /-- `V_EXPORT` -/
  exported : Bool := false
  /-- `V_LOCAL` -/
  isLocal : Bool := false
  /-- `V_UNSET` -/
  unset : Bool := false
  /-- `V_INIT` -/
  init : Bool := false
  /-- `V_READONLY` -/
  readonly : Bool := false
  deriving DecidableEq, Inhabited, Repr

namespace Flags

/-- `a | b`. -/
def or (a b : Flags) : Flags where
  free := a.free || b.free
  freestr := a.freestr || b.freestr
  exported := a.exported || b.exported
  isLocal := a.isLocal || b.isLocal
  unset := a.unset || b.unset
  init := a.init || b.init
  readonly := a.readonly || b.readonly

/-- `a & ~b`. -/
def diff (a b : Flags) : Flags where
  free := a.free && !b.free
  freestr := a.freestr && !b.freestr
  exported := a.exported && !b.exported
  isLocal := a.isLocal && !b.isLocal
  unset := a.unset && !b.unset
  init := a.init && !b.init
  readonly := a.readonly && !b.readonly

/-- The flags after `var_chflg`. -/
def change (old flags : Flags) (set : Bool) : Flags := if set then old.or flags else old.diff flags

/-- `flags & ~V_UNSET`: what every assignment ends with. -/
def clearUnset (a : Flags) : Flags := { a with unset := false }

end Flags

/-- The number an entry is known by. -/
abbrev VarId := ℕ

/-- `struct var`.  `bnext`/`gnext` are the lists of the store; `owned` is `sa.a != 0`, the text
belonging to this entry and not borrowed from the one it shadows. -/
structure Var where
  s : Str := []
  owned : Bool := false
  len : ℕ := 0
  offset : ℕ := 0
  flags : Flags := {}
  lexhash : UInt64 := 0
  rndhash : UInt64 := 0
  parent : Option VarId := none
  child : Option VarId := none
  table : ℕ := 0
  deriving Inhabited

/-- The name an entry carries: the first `len` bytes of its text. -/
def Var.name (v : Var) : Str := v.s.take v.len

/-- The text behind `offset`: what `$name` expands to. -/
def Var.value (v : Var) : Str := v.s.drop v.offset

/-- `struct vartab`. -/
structure Tab where
  bucket : ℕ → List VarId := fun _ => []
  level : ℕ := 0
  function : Bool := false

/-- The globals of the variable module: the entries, `varstack`, `var_list`, the positions the last
searches left in the tables, and `sh->varstack` for each `struct env`. -/
structure Store where
  heap : VarId → Var := fun _ => {}
  next : VarId := 0
  tabs : List Tab := [{}]
  list : List VarId := []
  position : ℕ → ℕ × ℕ := fun _ => (0, 0)
  envs : List ℕ := [0]

namespace Store

/-- The level of `varstack`, the innermost table. -/
def varstack (s : Store) : ℕ := (s.tabs.head?.map Tab.level).getD 0

/-- The level of `sh->varstack`. -/
def shVarstack (s : Store) : ℕ := s.envs.headD 0

/-- Rewrite one entry. -/
def modify (s : Store) (id : VarId) (f : Var → Var) : Store :=
  { s with heap := Function.update s.heap id (f (s.heap id)) }

end Store

/-! ## Searching -/

/-- `VARTAB_BUCKETS`. -/
def vartabBuckets : ℕ := 64

/-- `VAR_CHARS`: the characters a lexical hash holds in full. -/
def varChars : ℕ := 10

/-- The bucket of a name. -/
def bucketOf (n : Str) : ℕ := (varRndhash n).toNat % vartabBuckets

/-- `struct search`, as `vartab_hash` fills it; `closest` and `bdist` are written and never read. -/
structure Search where
  name : Str
  lexhash : UInt64
  rndhash : UInt64
  bucket : ℕ
  hdist : UInt64
  exact : Bool

/-- `vartab_hash`. -/
def vartabHash (n : Str) (exact : Bool) : Search where
  name := n
  lexhash := varLexhash n
  rndhash := varRndhash n
  bucket := bucketOf n
  hdist := -1
  exact := exact

/-- The entries `var_hsearch` passes by: a smaller lexical hash, and in an exact search another
length or another scattering hash. -/
def hskip (ctx : Search) (v : Var) : Bool :=
  v.lexhash < ctx.lexhash
    || (ctx.exact && (v.len != ctx.name.length || v.rndhash != ctx.rndhash))

/-- `var_hsearch`: the first entry that is not passed by.  Returns the
distance of the hashes and how many entries were passed. -/
def varHsearch (ctx : Search) : List Var → UInt64 × ℕ
  | [] => (-1, 0)
  | v :: t =>
      if hskip ctx v then
        let (d, i) := varHsearch ctx t
        (d, i + 1)
      else (v.lexhash - ctx.lexhash, 0)

/-- The character comparison of `var_bsearch`: `some d` stops the search at distance `d`, `none`
goes on to the next entry.  An entry that runs out first stops it; a wanted name that runs out
first does not. -/
def varBcmp : Str → Str → Option UInt64
  | m :: ms, w :: ws =>
      if m = w then varBcmp ms ws
      else if m < w then none
      else some (UInt64.ofNat (m.toNat - w.toNat))
  | [], [] => some 0
  | [], w :: _ => some (UInt64.ofNat w.toNat)
  | _ :: _, [] => none

/-- `var_bsearch`: from here on, compare names. -/
def varBsearch (ctx : Search) : List Var → UInt64 × ℕ
  | [] => (-1, 0)
  | v :: t =>
      match varBcmp v.name ctx.name with
      | some d => (d, 0)
      | none =>
          let (d, i) := varBsearch ctx t
          (d, i + 1)

/-- `vartab_search` on one bucket: the entry found, the place the search stopped at, and the hash
distance the following tables have to beat. -/
def vartabSearch (heap : VarId → Var) (l : List VarId) (ctx : Search) :
    Option VarId × ℕ × Search :=
  if l = [] then (none, 0, ctx)
  else
    let (dist, i) := varHsearch ctx (l.map heap)
    if dist = 0 && (ctx.name.length < varChars ||
        (ctx.name.length ≤ varChars && ((l[i]?).map fun v => (heap v).len).getD 0 ≤ varChars)) then
      (l[i]?, 0, ctx)
    else if dist ≠ 0 && ctx.exact then (none, 0, ctx)
    else if dist ≤ ctx.hdist then
      let (d, j) := varBsearch ctx ((l.drop i).map heap)
      if d = 0 then (l[i + j]?, 0, ctx)
      else (none, i + j, { ctx with hdist := if dist < ctx.hdist then dist else ctx.hdist })
    else (none, i, ctx)

/-- The loop of `var_search` over the tables. -/
def varSearchGo (heap : VarId → Var) :
    List Tab → Search → (ℕ → ℕ × ℕ) → Option VarId × (ℕ → ℕ × ℕ)
  | [], _, pos => (none, pos)
  | t :: ts, ctx, pos =>
      match vartabSearch heap (t.bucket ctx.bucket) ctx with
      | (some v, i, _) => (some v, Function.update pos t.level (ctx.bucket, i))
      | (none, i, ctx') =>
          varSearchGo heap ts ctx' (Function.update pos t.level (ctx.bucket, i))

/-- `var_search`, with the positions it leaves behind. -/
def varSearch (s : Store) (n : Str) (exact : Bool) : Option VarId × Store :=
  let (v, pos) := varSearchGo s.heap s.tabs (vartabHash n exact) s.position
  (v, { s with position := pos })

/-- The entry `var_search(v, NULL)` and `var_get` find. -/
def varGet (s : Store) (v : Str) : Option Var :=
  ((varSearch s (nameOf v) true).1).map s.heap

/-! ## Adding an entry -/

/-- `var_init`: a fresh entry carries its name and is unset. -/
def varInit (n : Str) : Var where
  s := n
  owned := true
  len := n.length
  offset := n.length
  flags := { unset := true }
  lexhash := varLexhash n
  rndhash := varRndhash n

/-- The place `vartab_add` gives a new name in `var_list`. -/
def globalPlace (heap : VarId → Var) (l : List VarId) (n : Str) : ℕ :=
  let ctx := vartabHash n false
  let (dist, i) := varHsearch ctx (l.map heap)
  if dist = 0 then i + (varBsearch ctx ((l.drop i).map heap)).2 else i

/-- Link an entry into bucket `b` of the table of level `tab`, as number `i`. -/
def Tab.link (tab b i : ℕ) (id : VarId) (t : Tab) : Tab :=
  if t.level = tab then
    { t with bucket := Function.update t.bucket b ((t.bucket b).insertIdx i id) }
  else t

/-- `vartab_add`: into the bucket at the position the search left, and into `var_list` in the place
of the parent or by another search. -/
def vartabAdd (s : Store) (tab : ℕ) (id : VarId) : Store :=
  let (b, i) := s.position tab
  let v := { s.heap id with table := tab }
  { s with
    heap := Function.update s.heap id v
    tabs := s.tabs.map (Tab.link tab b i id)
    list := match v.parent with
      | some p => s.list.map fun x => if x = p then id else x
      | none => s.list.insertIdx (globalPlace s.heap s.list v.name) id }

/-- `while(tab->function) tab = tab->parent`. -/
def skipFunctions : List Tab → ℕ
  | [] => 0
  | t :: ts => if t.function then skipFunctions ts else t.level

/-- The table a new entry goes to. -/
def targetTab (s : Store) (flags : Flags) : ℕ :=
  if flags.isLocal then s.varstack else skipFunctions s.tabs

/-- The end of `var_create`: a new entry on table `tab`, borrowing the text of the entry `v` it
shadows. -/
def varShadow (s : Store) (n : Str) (v : Option VarId) (tab : ℕ) : Store × Option VarId :=
  let id := s.next
  let new := { varInit n with flags := { unset := true, free := true } }
  let s := { s with next := s.next + 1 }
  match v with
  | none => (vartabAdd { s with heap := Function.update s.heap id new } tab id, some id)
  | some p =>
      let old := s.heap p
      let new := { new with
        s := old.s
        owned := false
        parent := some p
        flags := { new.flags with readonly := old.flags.readonly } }
      let heap := Function.update (Function.update s.heap p { old with child := some id }) id new
      (vartabAdd { s with heap := heap } tab id, some id)

/-- `var_create`: the entry an assignment to `v` goes to.  `none` is the `NULL` of `V_INIT`. -/
def varCreate (s : Store) (v : Str) (flags : Flags) : Store × Option VarId :=
  let n := nameOf v
  let (found, s) := varSearch s n false
  let tab := targetTab s flags
  match found with
  | none => varShadow s n none tab
  | some id =>
      if flags.init then (s, none)
      else if (s.heap id).table = s.varstack then (s, some id)
      else if (s.heap id).flags.isLocal then (s, some id)
      else if !flags.isLocal && (s.heap id).table = tab then (s, some id)
      else varShadow s n (some id) tab

/-! ## Assignments

`var_setv`, `var_setsa` and `var_setvint` find their entry, refuse a readonly one and write the new
text; the flag says whether the assignment was accepted.  None of them tests `var_create` for
`NULL`, so there is no result then. -/

/-- What the three have in common: the entry, the readonly test, the write. -/
def assign (s : Store) (v : Str) (flags : Flags) (write : Var → Var) : Option (Store × Bool) :=
  match varCreate s v flags with
  | (_, none) => none
  | (s, some id) =>
      if (s.heap id).flags.readonly then some (s, false) else some (s.modify id write, true)

/-- `sh->opts.allexport` adds the export attribute to an assignment. -/
def Flags.allexport (flags : Flags) (on : Bool) : Flags :=
  { flags with exported := flags.exported || on }

/-- `var_setv`. -/
def varSetv (s : Store) (name value : Str) (flags : Flags) (allexport : Bool) :
    Option (Store × Bool) :=
  assign s name flags fun v =>
    { v with
      s := (if v.owned then v.s else name).take v.len ++ '=' :: value
      owned := true
      offset := v.len + 1
      flags := (v.flags.or (flags.allexport allexport)).clearUnset }

/-- `var_setsa`, `sa` being the whole `name=word`. -/
def varSetsa (s : Store) (sa : Str) (flags : Flags) (allexport : Bool) : Option (Store × Bool) :=
  assign s sa flags fun v =>
    { v with
      s := sa
      owned := true
      offset := if v.len < sa.length then v.len + 1 else v.offset
      flags := (v.flags.or (flags.allexport allexport)).clearUnset }

/-- The digits of an `int`, as `stralloc_catlong` writes them. -/
def catlong (i : Int) : Str := (toString i).toList

/-- `var_setvint`. -/
def varSetvint (s : Store) (name : Str) (i : Int) (flags : Flags) : Option (Store × Bool) :=
  assign s name flags fun v =>
    { v with
      s := name.take v.len ++ '=' :: catlong i
      owned := true
      offset := v.len + 1
      flags := (v.flags.or flags).clearUnset }

/-- `var_copys`: no readonly test, and no flags. -/
def varCopys (s : Store) (v : Str) (flags : Flags) : Store :=
  match varCreate s v flags with
  | (s, none) => s
  | (s, some id) => s.modify id fun x =>
      { x with
        s := v
        owned := true
        offset := if x.len < v.length then x.len + 1 else x.offset
        flags := x.flags.clearUnset }

/-- The write of `var_set`.  `own` says that the string passed in is the entry's own
(`v == var->sa.s`), as it is when `var_chflg` calls. -/
def setWrite (v : Str) (own : Bool) (x : Var) : Var :=
  if x.flags.unset then { x with s := v, owned := true, flags := x.flags.clearUnset }
  else if own then x
  else if v.length ≤ x.len then
    { x with s := x.s.take x.offset, owned := true, flags := x.flags.clearUnset }
  else { x with s := v, owned := false, offset := x.len + 1, flags := x.flags.clearUnset }

/-- `var_set`; it returns `0` both for a readonly entry and for `NULL`. -/
def varSet (s : Store) (v : Str) (own : Bool) (flags : Flags) : Store × Bool :=
  match varCreate s v flags with
  | (s, none) => (s, false)
  | (s, some id) =>
      if (s.heap id).flags.readonly then (s, false)
      else (s.modify id (setWrite v own), true)

/-- `var_chflg`: the flags change only when the entry is on `sh->varstack`; else the call goes
through `var_set`, which does not store them. -/
def varChflg (s : Store) (v : Str) (flags : Flags) (set : Bool) : Store :=
  match varCreate s v {} with
  | (s, none) => s
  | (s, some id) =>
      let x := s.heap id
      let new := x.flags.change flags set
      if x.table = s.shVarstack then s.modify id fun x => { x with flags := new }
      else (varSet s x.s true new).1

/-- `var_import`, on `sh->varstack`: an entry that is there already is overwritten, unless the call
is `V_INIT`; either way the text is the caller's. -/
def varImport (s : Store) (v : Str) (flags : Flags) : Store :=
  if !varValid (nameOf v) then s
  else
    let write (x : Var) : Var :=
      { x with
        s := v
        flags := flags
        offset := if x.len < v.length then x.len + 1 else x.offset }
    match varSearch s (nameOf v) false with
    | (some id, s) => if flags.init then s else s.modify id write
    | (none, s) =>
        let id := s.next
        let new := { varInit (nameOf v) with owned := false }
        (vartabAdd { s with heap := Function.update s.heap id new, next := s.next + 1 }
          s.shVarstack id).modify id write

/-- `env_hide`: what `env -u name` does on the table it has pushed. -/
def envHide (s : Store) (n : Str) : Store :=
  match varCreate s n { isLocal := true } with
  | (s, none) => s
  | (s, some id) => s.modify id fun x =>
      { x with flags := { x.flags with exported := false, unset := true } }

/-! ## Removing entries -/

/-- `var_cleanup`: out of the bucket, and out of `var_list` when nothing shadows it. -/
def varCleanup (s : Store) (id : VarId) : Store :=
  let v := s.heap id
  { s with
    tabs := s.tabs.map fun t =>
      if t.level = v.table then { t with bucket := fun b => (t.bucket b).erase id } else t
    list := if v.child = none then s.list.erase id else s.list }

/-- The loop of `var_unset`: the entry and everything it shadows.  The parent lies on an outer
table, so the level bounds the number of rounds. -/
def varUnsetGo : ℕ → Store → VarId → Store
  | 0, s, id => varCleanup s id
  | k + 1, s, id =>
      match (s.heap id).parent with
      | none => varCleanup s id
      | some p => varUnsetGo k (varCleanup s id) p

/-- `var_unset`. -/
def varUnset (s : Store) (v : Str) : Store :=
  match varSearch s (nameOf v) true with
  | (none, s) => s
  | (some id, s) => varUnsetGo (s.heap id).table s id

/-- One entry of `vartab_cleanup`: its parent takes its place in `var_list`. -/
def cleanupEntry (s : Store) (id : VarId) : Store :=
  match (s.heap id).parent with
  | some p =>
      { s.modify p (fun v => { v with child := none }) with
        list := s.list.map fun x => if x = id then p else x }
  | none => { s with list := s.list.erase id }

/-- The entries of a table, bucket by bucket. -/
def Tab.entries (t : Tab) : List VarId := (List.range vartabBuckets).flatMap t.bucket

/-- `vartab_push`. -/
def vartabPush (s : Store) (function : Bool) : Store :=
  { s with tabs := { level := s.varstack + 1, function := function } :: s.tabs }

/-- `vartab_pop`: the entries of the innermost table go, and so does the table.  The root is never
popped. -/
def vartabPop (s : Store) : Option Store :=
  match s.tabs with
  | t :: t' :: ts => some { t.entries.foldl cleanupEntry s with tabs := t' :: ts }
  | _ => none

/-- `sh_push`, as far as variables go. -/
def shPush (s : Store) : Store := { s with envs := s.varstack :: s.envs }

/-- `sh_pop`, as far as variables go, once `varstack` is back at the level it was pushed at. -/
def shPop (s : Store) : Option Store :=
  match s.envs with
  | e :: e' :: es => if s.varstack = e then some { s with envs := e' :: es } else none
  | _ => none

/-! ## Runs -/

/-- The operations on variables. -/
inductive Op
  | setv (name value : Str) (flags : Flags) (allexport : Bool)
  | setsa (sa : Str) (flags : Flags) (allexport : Bool)
  | setvint (name : Str) (i : Int) (flags : Flags)
  | set (v : Str) (flags : Flags)
  | copys (v : Str) (flags : Flags)
  | chflg (v : Str) (flags : Flags) (set : Bool)
  | import_ (v : Str) (flags : Flags)
  | hide (v : Str)
  | unset (v : Str)
  | get (v : Str)
  | push (function : Bool)
  | pop
  | shPush
  | shPop

/-- One operation. -/
def step (s : Store) : Op → Option Store
  | .setv name value flags ae => (varSetv s name value flags ae).map Prod.fst
  | .setsa sa flags ae => (varSetsa s sa flags ae).map Prod.fst
  | .setvint name i flags => (varSetvint s name i flags).map Prod.fst
  | .set v flags => some (varSet s v false flags).1
  | .copys v flags => some (varCopys s v flags)
  | .chflg v flags set => some (varChflg s v flags set)
  | .import_ v flags => if s.shVarstack = 0 then some (varImport s v flags) else none
  | .hide v => some (envHide s v)
  | .unset v => some (varUnset s v)
  | .get v => some (varSearch s (nameOf v) true).2
  | .push function => some (vartabPush s function)
  | .pop => vartabPop s
  | .shPush => some (Shish.shPush s)
  | .shPop => Shish.shPop s

/-- A run of operations from a state. -/
def run : Store → List Op → Option Store := runs step

end Shish
