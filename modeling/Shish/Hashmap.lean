import Mathlib.Algebra.Order.Ring.Nat
import Shish.Chartable
import Shish.Lib.Probe
import Shish.Lib.Run

/-!
# Hashmap — the hash map of the library

A deletion leaves a tombstone, and a put takes the first tombstone or empty bucket it meets, without
looking whether the key has a bucket further on.  A key that is put again behind a tombstone then has
two.  As long as this does not happen the map is a finite map (`hashmap_map_iff`).
-/

namespace Shish

/-- `hashmap`; the buckets are those below `capacity`, and without any there is no memory yet. -/
structure Hashmap (β : Type) where
  buckets : ℕ → Bucket Str β := fun _ => .null
  capacity : ℕ := 0
  used : ℕ := 0

variable {β : Type}

/-- `hashmap_fnv_hash`. -/
def hashmapFnvHash (s : Str) : ℕ :=
  s.foldl (fun hash c => hash * 0x100000001b3 % 2 ^ 64 ^^^ c.toNat % 256) 0xcbf29ce484222325

namespace Hashmap

/-- `(hash + i) % map->capacity`; where the sum wraps makes no difference, the capacity is a power
of two. -/
def probes (m : Hashmap β) (key : Str) : List ℕ :=
  (List.range m.capacity).map fun i => (hashmapFnvHash key + i) % m.capacity

/-- The entries that are not tombstones, in the order of the buckets. -/
def entries (m : Hashmap β) : List (Str × β) :=
  (List.range m.capacity).filterMap fun i => (m.buckets i).entry

end Hashmap

/-- `hashmap_get_entry`. -/
def hashmapGetEntry (m : Hashmap β) (key : Str) : Option ℕ := lookup m.buckets key (m.probes key)

/-- `hashmap_get2`. -/
def hashmapGet2 (m : Hashmap β) (key : Str) : Option β :=
  (hashmapGetEntry m key).bind fun j => (m.buckets j).entry.map Prod.snd

/-- `hashmap_delete2`. -/
def hashmapDelete2 (m : Hashmap β) (key : Str) : Hashmap β :=
  match hashmapGetEntry m key with
  | none => m
  | some j => { m with buckets := Function.update m.buckets j .tombstone }

/-- `hashmap_clear`. -/
def hashmapClear (m : Hashmap β) : Hashmap β := { m with buckets := fun _ => .null, used := 0 }

/-- The loop of `get_or_insert_entry`, and the value that is stored. -/
def insertEntry (m : Hashmap β) (key : Str) (val : β) : Hashmap β :=
  match place m.buckets key (m.probes key) with
  | none => m
  | some j =>
      { m with
        buckets := Function.update m.buckets j (.live key val)
        used := if (m.buckets j).isNull then m.used + 1 else m.used }

/-- `HASHMAP_HIGH_WATERMARK` is reached. -/
def Hashmap.Full (m : Hashmap β) : Prop := m.used * 100 / m.capacity ≥ 70

instance (m : Hashmap β) : Decidable m.Full := inferInstanceAs (Decidable (_ ≥ _))

/-- `hashmap_put2`, with what a rehash does. -/
def hashmapPut2With (rehash : Hashmap β → Option (Hashmap β)) (m : Hashmap β) (key : Str) (val : β) :
    Option (Hashmap β) :=
  if m.capacity = 0 then some (insertEntry { m with buckets := fun _ => .null, capacity := 16 } key val)
  else if m.Full then (rehash m).map fun m' => insertEntry m' key val
  else some (insertEntry m key val)

/-- The capacity is doubled until the keys fill less than `HASHMAP_LOW_WATERMARK` of it. -/
def growCap (nkeys : ℕ) : ℕ → ℕ → ℕ
  | 0, cap => cap
  | k + 1, cap => if nkeys * 100 / cap ≥ 50 then growCap nkeys k (cap * 2) else cap

/-- `hashmap_rehash`, with what a put in the new map does. -/
def hashmapRehashWith (put : Hashmap β → Str → β → Option (Hashmap β)) (m : Hashmap β) :
    Option (Hashmap β) :=
  let nkeys := m.entries.length
  let cap := if m.capacity = 0 then 16 else m.capacity
  m.entries.foldlM (fun m' e => put m' e.1 e.2) { capacity := growCap nkeys nkeys cap }

/-- `hashmap_put2`; a rehash puts the entries in the new map, and `none` says that this one would be
rehashed meanwhile. -/
def hashmapPut2 (m : Hashmap β) (key : Str) (val : β) : Option (Hashmap β) :=
  hashmapPut2With (hashmapRehashWith (hashmapPut2With fun _ => none)) m key val

/-- `hashmap_next`: the next entry from bucket `i` on, and where to go on. -/
def hashmapNext (m : Hashmap β) (i : ℕ) : Option ((Str × β) × ℕ) :=
  (List.range' i (m.capacity - i)).findSome? fun j => (m.buckets j).entry.map fun e => (e, j + 1)

/-- `while((e = hashmap_next(map, &i)))`. -/
def hashmapWalk (m : Hashmap β) : ℕ → ℕ → List (Str × β)
  | 0, _ => []
  | k + 1, i =>
      match hashmapNext m i with
      | none => []
      | some (e, i) => e :: hashmapWalk m k i

/-! ## Runs -/

/-- The operations that change the map. -/
inductive HashmapOp (β : Type) where
  | put (key : Str) (val : β)
  | delete (key : Str)
  | clear

def Hashmap.step (m : Hashmap β) : HashmapOp β → Option (Hashmap β)
  | .put key val => hashmapPut2 m key val
  | .delete key => some (hashmapDelete2 m key)
  | .clear => some (hashmapClear m)

/-- What an operation does to a finite map. -/
def mapStep (f : Str → Option β) : HashmapOp β → Str → Option β
  | .put key val => Function.update f key (some val)
  | .delete key => Function.update f key none
  | .clear => fun _ => none

/-- **The map is a finite map**: what is looked up, in how many buckets a key is, and what
`hashmap_next` visits. -/
structure Hashmap.IsMap (m : Hashmap β) (f : Str → Option β) : Prop where
  found : ∀ key, hashmapGet2 m key = f key
  once : ∀ key, (f key).isSome ↔ ∃ j < m.capacity, (m.buckets j).holds key
  alone : ∀ key, ∀ i < m.capacity, ∀ j < m.capacity, (m.buckets i).holds key →
    (m.buckets j).holds key → i = j
  visited : ∀ key val, (key, val) ∈ hashmapWalk m (m.capacity + 1) 0 ↔ f key = some val
  distinct : ((hashmapWalk m (m.capacity + 1) 0).map Prod.fst).Nodup

/-- After each operation the map is what the operations say. -/
def IsMapAlong (ops : List (HashmapOp β)) : Prop :=
  ∀ pre rest, ops = pre ++ rest → ∃ m, runs Hashmap.step ({} : Hashmap β) pre = some m ∧
    m.IsMap (pre.foldl mapStep fun _ => none)

/-- **A key that is put again is not behind a tombstone**, unless a rehash is due. -/
def Hashmap.Ahead (m : Hashmap β) : HashmapOp β → Prop
  | .put key _ => m.Full ∨ ∀ j ∈ hashmapGetEntry m key,
      ∀ i ∈ (m.probes key).takeWhile (· ≠ j), m.buckets i ≠ .tombstone
  | _ => True

namespace Hashmap

variable {m m' : Hashmap β} {f : Str → Option β} {key : Str} {val : β}

theorem mem_probes {j : ℕ} : j ∈ m.probes key ↔ j < m.capacity := by
  rw [probes, List.mem_map]
  constructor
  · rintro ⟨i, hi, rfl⟩
    exact Nat.mod_lt _ (Nat.lt_of_le_of_lt (Nat.zero_le i) (List.mem_range.1 hi))
  · intro hj
    have hpos : 0 < m.capacity := Nat.lt_of_le_of_lt (Nat.zero_le j) hj
    have hlt := Nat.mod_lt (hashmapFnvHash key) hpos
    refine ⟨(j + (m.capacity - hashmapFnvHash key % m.capacity)) % m.capacity,
      List.mem_range.2 (Nat.mod_lt _ hpos), ?_⟩
    rw [Nat.add_mod_mod, ← Nat.mod_add_mod, ← Nat.add_assoc, Nat.add_comm _ j, Nat.add_assoc,
      Nat.add_sub_cancel' (Nat.le_of_lt hlt), Nat.add_mod_right, Nat.mod_eq_of_lt hj]

/-- **The map holds these keys and values**, each in the bucket a lookup finds. -/
structure Keeps (m : Hashmap β) (f : Str → Option β) : Prop where
  sound : Sound m.probes m.buckets
  stores : Stores m.buckets f
  used : m.used = (List.range m.capacity).countP fun i => !(m.buckets i).isNull
  capacity : m.capacity = 0 ∨ 16 ≤ m.capacity

namespace Keeps

theorem lt_capacity (h : m.Keeps f) {j : ℕ} (hj : m.buckets j = .live key val) : j < m.capacity :=
  mem_probes.1 (h.sound.reached j key val hj).1

theorem empty : ({} : Hashmap β).Keeps fun _ => none :=
  ⟨Sound.empty, fun _ _ => ⟨nofun, fun ⟨_, hj⟩ => nomatch hj⟩, rfl, .inl rfl⟩

theorem getEntry_iff (h : m.Keeps f) {j : ℕ} :
    hashmapGetEntry m key = some j ↔ ∃ v, m.buckets j = .live key v := h.sound.lookup_iff

theorem get_eq (h : m.Keeps f) : hashmapGet2 m key = f key := by
  rw [hashmapGet2]
  cases hf : f key with
  | some v =>
    obtain ⟨j, hj⟩ := (h.stores key v).1 hf
    rw [h.getEntry_iff.2 ⟨v, hj⟩, Option.bind_some, hj]
    rfl
  | none =>
    rw [hashmapGetEntry, lookup_eq_none fun j _ => h.stores.not_holds hf j]
    rfl

theorem mem_entries (h : m.Keeps f) : (key, val) ∈ m.entries ↔ f key = some val := by
  rw [entries, List.mem_filterMap, h.stores key val]
  constructor
  · rintro ⟨i, -, hi⟩
    exact ⟨i, Bucket.entry_eq_some.1 hi⟩
  · rintro ⟨i, hi⟩
    exact ⟨i, List.mem_range.2 (h.lt_capacity hi), Bucket.entry_eq_some.2 hi⟩

theorem nodup_entries (h : m.Keeps f) : (m.entries.map Prod.fst).Nodup := by
  refine List.pairwise_map.2 (List.pairwise_filterMap.2 (List.nodup_range.imp ?_))
  rintro i j hij ⟨k, v⟩ hi ⟨k', w⟩ hj rfl
  exact hij (h.sound.unique i j k v w (Bucket.entry_eq_some.1 hi) (Bucket.entry_eq_some.1 hj))

end Keeps

/-! ## `hashmap_next` -/

theorem next_of_none {i : ℕ} (hi : i < m.capacity) (he : (m.buckets i).entry = none) :
    hashmapNext m i = hashmapNext m (i + 1) := by
  obtain ⟨n, hn⟩ := Nat.exists_eq_succ_of_ne_zero (Nat.sub_ne_zero_of_lt hi)
  have hn' : m.capacity - (i + 1) = n := by omega
  rw [hashmapNext, hn, hashmapNext, hn', List.range'_succ, List.findSome?_cons, he]
  rfl

theorem next_of_some {i : ℕ} (hi : i < m.capacity) {e : Str × β} (he : (m.buckets i).entry = some e) :
    hashmapNext m i = some (e, i + 1) := by
  obtain ⟨n, hn⟩ := Nat.exists_eq_succ_of_ne_zero (Nat.sub_ne_zero_of_lt hi)
  rw [hashmapNext, hn, List.range'_succ, List.findSome?_cons, he]
  rfl

theorem walk_eq {n k i : ℕ} (hn : m.capacity - i = n) (hk : n < k) :
    hashmapWalk m k i = (List.range' i n).filterMap fun i => (m.buckets i).entry := by
  induction n generalizing k i with
  | zero =>
    obtain ⟨k, rfl⟩ := Nat.exists_eq_succ_of_ne_zero (Nat.ne_of_gt hk)
    rw [hashmapWalk, hashmapNext, hn]
    rfl
  | succ n ih =>
    obtain ⟨k, rfl⟩ := Nat.exists_eq_succ_of_ne_zero (Nat.ne_of_gt (Nat.lt_of_le_of_lt (Nat.zero_le _) hk))
    have hi : i < m.capacity := by omega
    have hn' : m.capacity - (i + 1) = n := by omega
    rw [List.range'_succ]
    cases he : (m.buckets i).entry with
    | none =>
      have hnext : hashmapWalk m (k + 1) i = hashmapWalk m (k + 1) (i + 1) := by
        rw [hashmapWalk, next_of_none hi he, hashmapWalk]
      rw [List.filterMap_cons_none (f := fun i => (m.buckets i).entry) he, hnext, ih hn' (by omega)]
    | some e =>
      rw [List.filterMap_cons_some (f := fun i => (m.buckets i).entry) he, hashmapWalk, next_of_some hi he]
      exact congrArg (e :: ·) (ih hn' (Nat.lt_of_succ_lt_succ hk))

/-- **`hashmap_next` visits the entries in order.** -/
theorem walk_entries : hashmapWalk m (m.capacity + 1) 0 = m.entries := by
  rw [walk_eq (Nat.sub_zero _) (Nat.lt_succ_self _), entries, List.range_eq_range']

theorem Keeps.isMap (h : m.Keeps f) : m.IsMap f where
  found _ := h.get_eq
  once key := by
    rw [Option.isSome_iff_exists]
    constructor
    · rintro ⟨v, hv⟩
      obtain ⟨j, hj⟩ := (h.stores key v).1 hv
      exact ⟨j, h.lt_capacity hj, Bucket.holds_iff.2 ⟨v, hj⟩⟩
    · rintro ⟨j, -, hj⟩
      obtain ⟨v, hv⟩ := Bucket.holds_iff.1 hj
      exact ⟨v, (h.stores key v).2 ⟨j, hv⟩⟩
  alone key i _ j _ hi hj := by
    obtain ⟨v, hv⟩ := Bucket.holds_iff.1 hi
    obtain ⟨w, hw⟩ := Bucket.holds_iff.1 hj
    exact h.sound.unique i j key v w hv hw
  visited key val := by rw [walk_entries, h.mem_entries]
  distinct := by
    rw [walk_entries]
    exact h.nodup_entries

/-! ## The operations -/

namespace Keeps

theorem delete (h : m.Keeps f) (key : Str) :
    (hashmapDelete2 m key).Keeps (Function.update f key none) := by
  unfold hashmapDelete2
  cases hj : hashmapGetEntry m key with
  | none =>
    have hf : f key = none := by rw [← h.get_eq, hashmapGet2, hj, Option.bind_none]
    rw [← hf, Function.update_eq_self]
    exact h
  | some j =>
    obtain ⟨v, hv⟩ := h.getEntry_iff.1 hj
    have honly : ∀ i, (m.buckets i).holds key = true → i = j := fun i hi => by
      obtain ⟨w, hw⟩ := Bucket.holds_iff.1 hi
      exact h.sound.unique i j key w v hw hv
    refine ⟨h.sound.delete j, h.stores.delete hv honly, ?_, h.capacity⟩
    have hcount := countP_update (t := m.buckets) (fun b => !b.isNull) .tombstone (h.lt_capacity hv)
    simp only [hv, Bucket.isNull_live, Bucket.isNull_tombstone, Bool.not_false, if_true] at hcount
    exact h.used.trans (Nat.add_right_cancel hcount).symm

theorem clear (h : m.Keeps f) : (hashmapClear m).Keeps fun _ => none where
  sound := Sound.empty
  stores _ _ := ⟨nofun, fun ⟨_, hj⟩ => nomatch hj⟩
  used := (List.countP_eq_zero.2 (by simp [hashmapClear, Bucket.isNull])).symm
  capacity := h.capacity

/-- A bucket is empty as long as fewer are used than there are. -/
theorem exists_null (h : m.Keeps f) (hroom : m.used < m.capacity) :
    ∃ j < m.capacity, (m.buckets j).isLive = false := by
  by_contra hall
  have hfull : (List.range m.capacity).countP (fun i => !(m.buckets i).isNull) = m.capacity := by
    refine (List.countP_eq_length.2 fun i hi => ?_).trans List.length_range
    by_contra hnull
    have hnull : m.buckets i = .null := Bucket.isNull_iff.1 (by simpa using hnull)
    exact hall ⟨i, List.mem_range.1 hi, by rw [hnull]; rfl⟩
  have := h.used
  omega

/-- **A put**, when the key has no bucket behind a tombstone. -/
theorem insertEntry (h : m.Keeps f) (hroom : m.used < m.capacity) (key : Str) (val : β)
    (hahead : ∀ j ∈ hashmapGetEntry m key,
      ∀ i ∈ (m.probes key).takeWhile (· ≠ j), m.buckets i ≠ .tombstone) :
    ∃ j, Shish.insertEntry m key val = { m with
        buckets := Function.update m.buckets j (.live key val)
        used := if (m.buckets j).isNull then m.used + 1 else m.used } ∧
      ((m.buckets j).holds key = true ∨ (m.buckets j).isLive = false) ∧
      (Shish.insertEntry m key val).Keeps (Function.update f key (some val)) := by
  obtain ⟨j₀, hj₀, hfree₀⟩ := h.exists_null hroom
  obtain ⟨j, hj⟩ := Option.isSome_iff_exists.1 (place_isSome (k := key) (mem_probes.2 hj₀) hfree₀)
  obtain ⟨hmem, hfree, hfront⟩ := place_some hj
  have hins : Shish.insertEntry m key val = { m with
      buckets := Function.update m.buckets j (.live key val)
      used := if (m.buckets j).isNull then m.used + 1 else m.used } := by
    rw [Shish.insertEntry, hj]
  -- a bucket of the key is met first, there is no tombstone in front of it
  have honly : ∀ i, (m.buckets i).holds key = true → i = j := by
    intro i hi
    obtain ⟨v, hv⟩ := Bucket.holds_iff.1 hi
    obtain ⟨hmem', hreach⟩ := h.sound.reached i key v hv
    have hplace : place m.buckets key (m.probes key) = some i := by
      refine place_eq_some hmem' hi fun x hx => ?_
      have hxi : x ≠ i := by simpa using List.all_eq_true.1 List.all_takeWhile x hx
      have hnull := hreach x hx
      have htomb := hahead i (h.getEntry_iff.2 ⟨v, hv⟩) x hx
      cases hb : m.buckets x with
      | null => exact absurd hb hnull
      | tombstone => exact absurd hb htomb
      | live k w =>
        refine ⟨rfl, ?_⟩
        by_contra hk
        obtain rfl : k = key := by simpa using hk
        exact hxi (h.sound.unique x i k w v hb hv)
    exact Option.some.inj (hplace.symm.trans hj)
  refine ⟨j, hins, hfree, ?_⟩
  rw [hins]
  refine ⟨?_, h.stores.insert val hfree honly, ?_, h.capacity⟩
  · refine h.sound.insert hmem val (fun i hi hnull => ?_) hfree honly
    have := (hfront i hi).1
    rw [hnull] at this
    cases this
  · have hcount := countP_update (t := m.buckets) (fun b => !b.isNull) (.live key val) (mem_probes.1 hmem)
    have hused := h.used
    cases hnull : (m.buckets j).isNull with
    | true =>
      simp only [hnull, Bucket.isNull_live, Bool.not_true, Bool.not_false, Bool.false_eq_true, if_true,
        if_false] at hcount ⊢
      omega
    | false =>
      simp only [hnull, Bucket.isNull_live, Bool.not_false, Bool.false_eq_true, if_true, if_false]
        at hcount ⊢
      omega

end Keeps

/-! ## A rehash -/

theorem growCap_spec {n : ℕ} : ∀ {k cap : ℕ}, 0 < cap → 2 * n < cap * 2 ^ k →
    n * 100 / growCap n k cap < 50 ∧ cap ≤ growCap n k cap
  | 0, cap, hpos, h => by
      rw [Nat.pow_zero, Nat.mul_one] at h
      exact ⟨(Nat.div_lt_iff_lt_mul hpos).2 (by omega), Nat.le_refl cap⟩
  | k + 1, cap, hpos, h => by
      rw [growCap]
      split_ifs with hge
      · have hk : 2 * n < cap * 2 * 2 ^ k := by rwa [Nat.mul_assoc, ← Nat.pow_succ']
        obtain ⟨hlt, hle⟩ := growCap_spec (by omega : 0 < cap * 2) hk
        exact ⟨hlt, by omega⟩
      · exact ⟨Nat.not_le.1 hge, Nat.le_refl cap⟩

namespace Keeps

/-- A map without tombstones that the entries do not fill takes them all, in a bucket each. -/
theorem putAll : ∀ {es : List (Str × β)} {m : Hashmap β} {f : Str → Option β}, m.Keeps f →
    (∀ j, m.buckets j ≠ .tombstone) → 0 < m.capacity → (es.map Prod.fst).Nodup →
    (∀ e ∈ es, f e.1 = none) → (m.used + es.length) * 100 / m.capacity < 50 →
    ∃ m' f', es.foldlM (fun m' e => hashmapPut2With (fun _ => none) m' e.1 e.2) m = some m' ∧
      m'.Keeps f' ∧ (∀ j, m'.buckets j ≠ .tombstone) ∧ m'.capacity = m.capacity ∧
      m'.used = m.used + es.length ∧ ∀ k v, f' k = some v ↔ f k = some v ∨ (k, v) ∈ es
  | [], m, f, h, htomb, _, _, _, _ => ⟨m, f, rfl, h, htomb, rfl, rfl, by simp⟩
  | (key, val) :: es, m, f, h, htomb, hcap, hnd, hnew, hlow => by
      rw [List.map_cons, List.nodup_cons] at hnd
      rw [List.forall_mem_cons] at hnew
      obtain ⟨hkey, hnew⟩ := hnew
      rw [List.length_cons] at hlow
      have hroom : m.used < m.capacity := by
        rw [Nat.div_lt_iff_lt_mul hcap] at hlow
        omega
      have hnotFull : ¬ m.Full := fun hfull => by
        have hle : m.used * 100 / m.capacity ≤ (m.used + (es.length + 1)) * 100 / m.capacity :=
          Nat.div_le_div_right (by omega)
        have : m.used * 100 / m.capacity ≥ 70 := hfull
        omega
      obtain ⟨j, hins, hfree, h'⟩ := h.insertEntry hroom key val fun _ _ i _ => htomb i
      have hnull : m.buckets j = .null := by
        rw [h.stores.not_holds hkey j] at hfree
        have hlive := hfree.resolve_left Bool.false_ne_true
        cases hb : m.buckets j with
        | null => rfl
        | tombstone => exact absurd hb (htomb j)
        | live k v =>
          rw [hb] at hlive
          exact nomatch hlive
      have hput : hashmapPut2With (fun _ => none) m key val = some (Shish.insertEntry m key val) := by
        rw [hashmapPut2With, if_neg (Nat.ne_of_gt hcap), if_neg hnotFull]
      have hcap' : (Shish.insertEntry m key val).capacity = m.capacity := by rw [hins]
      have hused' : (Shish.insertEntry m key val).used = m.used + 1 := by
        rw [hins]
        exact if_pos (by rw [hnull]; rfl)
      have htomb' : ∀ i, (Shish.insertEntry m key val).buckets i ≠ .tombstone := by
        intro i
        rw [hins]
        by_cases hij : i = j
        · subst hij
          change Function.update m.buckets i _ i ≠ _
          rw [Function.update_self]
          exact nofun
        · change Function.update m.buckets j _ i ≠ _
          rw [Function.update_of_ne hij]
          exact htomb i
      have hnew' : ∀ e ∈ es, Function.update f key (some val) e.1 = none := fun e he => by
        have hne : e.1 ≠ key := by
          rintro rfl
          exact hnd.1 (List.mem_map.2 ⟨e, he, rfl⟩)
        rw [Function.update_of_ne hne]
        exact hnew e he
      have hlow' : ((Shish.insertEntry m key val).used + es.length) * 100 /
          (Shish.insertEntry m key val).capacity < 50 := by
        rwa [hused', hcap', Nat.add_assoc, Nat.add_comm 1]
      obtain ⟨m', f', hfold, hm', htombs, hcaps, hused, hf'⟩ :=
        putAll h' htomb' (hcap' ▸ hcap) hnd.2 hnew' hlow'
      refine ⟨m', f', ?_, hm', htombs, hcaps.trans hcap', ?_, fun k v => ?_⟩
      · rw [List.foldlM_cons, hput]
        exact hfold
      · rw [hused, hused', List.length_cons]
        omega
      · rw [hf', List.mem_cons, Prod.mk.injEq]
        by_cases hk : k = key
        · subst hk
          have hnot : (k, v) ∉ es := fun hmem =>
            hnd.1 (List.mem_map.2 ⟨_, hmem, rfl⟩)
          rw [Function.update_self, hkey]
          simp [hnot, eq_comm]
        · rw [Function.update_of_ne hk]
          simp [hk]

/-- **A rehash keeps the map**, without its tombstones and with room for more. -/
theorem rehash (h : m.Keeps f) (hcap : m.capacity ≠ 0) :
    ∃ m', hashmapRehashWith (hashmapPut2With fun _ => none) m = some m' ∧ m'.Keeps f ∧
      (∀ j, m'.buckets j ≠ .tombstone) ∧ m'.used < m'.capacity := by
  have h16 := h.capacity.resolve_left hcap
  have hgrow : 2 * m.entries.length < m.capacity * 2 ^ m.entries.length := by
    have := Nat.lt_two_pow_self (n := m.entries.length)
    have := Nat.mul_le_mul_right (2 ^ m.entries.length) h16
    omega
  obtain ⟨hlow, hle⟩ := growCap_spec (Nat.pos_of_ne_zero hcap) hgrow
  have hempty : ({ capacity := growCap m.entries.length m.entries.length m.capacity } : Hashmap β).Keeps
      fun _ => none := by
    refine ⟨Sound.empty, fun _ _ => ⟨nofun, fun ⟨_, hj⟩ => nomatch hj⟩, ?_, .inr (Nat.le_trans h16 hle)⟩
    exact (List.countP_eq_zero.2 (by simp)).symm
  obtain ⟨m', f', hfold, hm', htomb, hcap', hused, hf'⟩ := hempty.putAll (fun _ => nofun)
    (Nat.lt_of_lt_of_le (Nat.pos_of_ne_zero hcap) hle) h.nodup_entries (fun _ _ => rfl)
    (by rwa [Nat.zero_add])
  have hff : f' = f := funext fun k => Option.ext fun v => by
    rw [hf' k v, h.mem_entries]
    exact or_iff_right nofun
  refine ⟨m', ?_, hff ▸ hm', htomb, ?_⟩
  · rw [hashmapRehashWith, if_neg hcap]
    exact hfold
  · rw [hcap', hused, Nat.zero_add]
    rw [Nat.div_lt_iff_lt_mul (Nat.lt_of_lt_of_le (Nat.pos_of_ne_zero hcap) hle)] at hlow
    change m.entries.length < growCap _ _ _
    omega

theorem lt_of_not_full (hcap : m.capacity ≠ 0) (hfull : ¬ m.Full) : m.used < m.capacity := by
  have hlt : m.used * 100 / m.capacity < 70 := Nat.not_le.1 hfull
  rw [Nat.div_lt_iff_lt_mul (Nat.pos_of_ne_zero hcap)] at hlt
  omega

/-- **A put keeps the books.** -/
theorem put (h : m.Keeps f) (hahead : m.Ahead (.put key val)) :
    ∃ m', hashmapPut2 m key val = some m' ∧ m'.Keeps (Function.update f key (some val)) := by
  rw [hashmapPut2, hashmapPut2With]
  split_ifs with hcap hfull
  · have hnone : f = fun _ => none := funext fun k => by
      rw [← h.get_eq, hashmapGet2, hashmapGetEntry, probes, hcap]
      rfl
    have hstart : ({ m with buckets := fun _ => .null, capacity := 16 } : Hashmap β).Keeps f := by
      refine ⟨Sound.empty, fun _ _ => ⟨?_, fun ⟨_, hj⟩ => nomatch hj⟩, ?_, .inr (Nat.le_refl 16)⟩
      · rw [hnone]
        exact nofun
      · have hused := h.used
        rw [hcap] at hused
        exact hused.trans (List.countP_eq_zero.2 (by simp)).symm
    have hroom : m.used < 16 := by
      have hused := h.used
      rw [hcap] at hused
      rw [hused, List.range_zero, List.countP_nil]
      exact Nat.zero_lt_succ 15
    obtain ⟨j, -, -, h'⟩ := hstart.insertEntry hroom key val fun _ _ _ _ => nofun
    exact ⟨_, rfl, h'⟩
  · obtain ⟨m', hm', h', htomb, hroom⟩ := h.rehash hcap
    obtain ⟨j, -, -, h''⟩ := h'.insertEntry hroom key val fun _ _ i _ => htomb i
    exact ⟨_, by rw [hm', Option.map_some], h''⟩
  · obtain ⟨j, -, -, h'⟩ := h.insertEntry (lt_of_not_full hcap hfull) key val (hahead.resolve_left hfull)
    exact ⟨_, rfl, h'⟩

/-- **A key behind a tombstone gets a second bucket.** -/
theorem put_twice (h : m.Keeps f) (hbehind : ¬ m.Ahead (.put key val)) :
    ∃ m', hashmapPut2 m key val = some m' ∧ ∀ f', ¬ m'.IsMap f' := by
  simp only [Ahead, not_or, not_forall] at hbehind
  obtain ⟨hfull, j, hj, i, hi, htomb⟩ := hbehind
  rw [not_not] at htomb
  obtain ⟨v, hv⟩ := h.getEntry_iff.1 hj
  have hlt := h.lt_capacity hv
  have hcap : m.capacity ≠ 0 := Nat.ne_of_gt (Nat.lt_of_le_of_lt (Nat.zero_le j) hlt)
  have hput : hashmapPut2 m key val = some (Shish.insertEntry m key val) := by
    rw [hashmapPut2, hashmapPut2With, if_neg hcap, if_neg hfull]
  refine ⟨_, hput, fun f' hmap => ?_⟩
  have hmemi : i ∈ m.probes key := (List.takeWhile_sublist _).subset hi
  obtain ⟨p, hp⟩ := Option.isSome_iff_exists.1
    (place_isSome (t := m.buckets) (k := key) hmemi (by rw [htomb]; rfl))
  obtain ⟨hmemp, -, hfront⟩ := place_some hp
  have hins : Shish.insertEntry m key val = { m with
      buckets := Function.update m.buckets p (.live key val)
      used := if (m.buckets p).isNull then m.used + 1 else m.used } := by
    rw [Shish.insertEntry, hp]
  -- the tombstone in front of `j` would be in front of the place too
  have hpj : p ≠ j := by
    rintro rfl
    have := (hfront i hi).1
    rw [htomb] at this
    exact nomatch this
  rw [hins] at hmap
  refine hpj (hmap.alone key p (mem_probes.1 hmemp) j hlt ?_ ?_)
  · change (Function.update m.buckets p _ p).holds key = true
    rw [Function.update_self]
    simp
  · change (Function.update m.buckets p _ j).holds key = true
    rw [Function.update_of_ne hpj.symm, hv]
    simp

theorem step (h : m.Keeps f) {op : HashmapOp β} (hahead : m.Ahead op) :
    ∃ m', m.step op = some m' ∧ m'.Keeps (mapStep f op) := by
  cases op with
  | put key val => exact h.put hahead
  | delete key => exact ⟨_, rfl, h.delete key⟩
  | clear => exact ⟨_, rfl, h.clear⟩

theorem run : ∀ {ops : List (HashmapOp β)} {m : Hashmap β} {f : Str → Option β}, m.Keeps f →
    Along Hashmap.step Ahead m ops →
    ∃ m', runs Hashmap.step m ops = some m' ∧ m'.Keeps (ops.foldl mapStep f)
  | [], m, _, h, _ => ⟨m, rfl, h⟩
  | op :: ops, m, f, h, ⟨hahead, hrest⟩ => by
      obtain ⟨m₁, hm₁, h₁⟩ := h.step hahead
      obtain ⟨m', hm', h'⟩ := h₁.run (hrest m₁ hm₁)
      refine ⟨m', ?_, h'⟩
      rw [runs, hm₁]
      exact hm'

end Keeps

end Hashmap

open Hashmap

/-- **The hash map is a finite map after every operation if and only if** no key is put again while
its bucket is behind a tombstone, unless the put rehashes the map first. -/
theorem hashmap_map_iff (ops : List (HashmapOp β)) :
    IsMapAlong ops ↔ Along Hashmap.step Ahead ({} : Hashmap β) ops := by
  constructor
  · intro h
    by_contra hnot
    obtain ⟨pre, op, rest, m, rfl, hpre, hrun, hbad⟩ := exists_first_not hnot
    obtain ⟨m', hm', hkeeps⟩ := Keeps.empty.run hpre
    obtain rfl := Option.some.inj (hrun.symm.trans hm')
    cases op with
    | put key val =>
      obtain ⟨m₁, hm₁, hno⟩ := hkeeps.put_twice hbad
      obtain ⟨m₂, hm₂, hmap⟩ := h (pre ++ [.put key val]) rest (by simp)
      rw [runs_append, hrun, Option.bind_some, runs, Hashmap.step, hm₁] at hm₂
      obtain rfl := Option.some.inj hm₂
      exact hno _ hmap
    | delete key => exact hbad trivial
    | clear => exact hbad trivial
  · rintro h pre rest rfl
    obtain ⟨m, hm, hkeeps⟩ := Keeps.empty.run (along_append pre rest h).1
    exact ⟨m, hm, hkeeps.isMap⟩

/-- Two keys that go to one bucket: the first is deleted, the second is put again and deleted, and
its older value is found. -/
theorem deleted_key_found :
    (runs Hashmap.step ({} : Hashmap ℕ)
      [.put ['a'] 1, .put ['q'] 2, .delete ['a'], .put ['q'] 3, .delete ['q']]).map
        (fun m => (hashmapGet2 m ['q'], hashmapWalk m 17 0)) = some (some 2, [(['q'], 2)]) := by
  decide

end Shish
