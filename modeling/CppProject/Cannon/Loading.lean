import CppProject.Cannon.Construction

/-!
# Loading a table

`load_kvs` on a map in any state.  The counters that survive the `resize` of
`_indexes` become spare positions behind the homes of their buckets.  The load
succeeds when no such bucket lies below an occupied one and, as long as the
positions are exact `size_t`s, only then.
-/

namespace CppProject.Cannon.ImmutableHashMap

open Library Library.Checked Library.Records Library.Placement

variable {hash : List Byte → Nat} {m : ImmutableHashMap} {n : Nat} {kvs : List Byte}

/-- The counters of `_indexes`, read as zero where there are none. -/
def leftover (m : ImmutableHashMap) (h : Nat) : Nat := m.indexes.getD h 0

/-- The bucket function of a load of `n` records. -/
abbrev loadBucket (hash : List Byte → Nat) (m : ImmutableHashMap) (n : Nat) : List Byte → Nat :=
  recordBucket hash m.keySize (nextPower n - 1)

/-- The homes of a load over the counters that are already in `_indexes`. -/
def loadLayout (hash : List Byte → Nat) (m : ImmutableHashMap) (n : Nat) (kvs : List Byte) :
    Layout (loadBucket hash m n) (records m.kvSize n kvs) :=
  Layout.widened _ _ (leftover m)

/-- The map after a load into the homes of a layout: sizes kept, `_indexes` at the starts of
the homes, the records rearranged into their homes. -/
structure Loaded (hash : List Byte → Nat) (m : ImmutableHashMap) (n : Nat) (kvs : List Byte)
    (layout : Layout (loadBucket hash m n) (records m.kvSize n kvs)) (loaded : ImmutableHashMap) :
    Prop where
  keySize_eq : loaded.keySize = m.keySize
  valueSize_eq : loaded.valueSize = m.valueSize
  kvSize_eq : loaded.kvSize = m.kvSize
  kvCount_eq : loaded.kvCount = n
  hashMask_eq : loaded.hashMask = nextPower n - 1
  room : loaded.indexes.length = nextPower n + 1
  starts : ∀ h, h ≤ nextPower n → loaded.indexes[h]? = some (sizeT (layout.start h))
  length_eq : loaded.table.length = n * m.kvSize
  perm : (records m.kvSize n loaded.table).Perm (records m.kvSize n kvs)
  home_iff : ∀ i, i < n → ∀ h,
    loadBucket hash m n (record m.kvSize loaded.table i) = h ↔ layout.Home h i

/-- A map of which a table of `n` whole records can be loaded. -/
structure Fitting (m : ImmutableHashMap) (n : Nat) (kvs : List Byte) : Prop where
  key_le : m.keySize ≤ m.kvSize
  kv_pos : 0 < m.kvSize
  length_eq : kvs.length = n * m.kvSize
  small : kvs.length < 2 ^ 63

/-- No counter survives in `_indexes` below the bucket of a record. -/
def Clear (hash : List Byte → Nat) (m : ImmutableHashMap) (n : Nat) (kvs : List Byte) : Prop :=
  ∀ entry ∈ records m.kvSize n kvs, ∀ l, l < loadBucket hash m n entry → leftover m l = 0

/-- The counters are clear exactly when all occupied homes lie inside the table. -/
theorem clear_iff_inside : Clear hash m n kvs ↔
    ∀ h, 0 < population (loadBucket hash m n) (records m.kvSize n kvs) h →
      (loadLayout hash m n kvs).stop h ≤ n := by
  have inside := @Layout.widened_inside_iff _ (loadBucket hash m n) (records m.kvSize n kvs) (leftover m)
  rw [records_length] at inside
  exact inside.symm

theorem Clear.exactly (clear : Clear hash m n kvs) (fitting : Fitting m n kvs) :
    ExactHomes m.kvSize (loadLayout hash m n kvs) := by
  refine .of_inside ?_ fun h occupied => Nat.le_succ_of_le (clear_iff_inside.mp clear h occupied)
  have small := fitting.small
  rw [← fitting.length_eq]
  omega

/-- The map right before the placement loop of a load. -/
def prepared (m : ImmutableHashMap) (n : Nat) (kvs : List Byte) (starts : List Nat) :
    ImmutableHashMap :=
  { m with table := kvs, kvCount := n, indexes := starts, hashMask := nextPower n - 1 }

/-- Prefix sums over the populations and some extra counters are the starts of homes
with as many spare positions, modulo `2 ^ 64`. -/
theorem starts_prepared {counted : List Nat} {extra : Nat → Nat}
    (length : counted.length = nextPower n + 1)
    (counts : ∀ h, h < nextPower n + 1 → sizeT (counted.getD h 0) =
      sizeT (extra h + population (loadBucket hash m n) (records m.kvSize n kvs) h)) {h : Nat}
    (inside : h ≤ nextPower n) :
    (prefixSumsMod (2 ^ 64) 0 counted)[h]? =
      some (sizeT ((Layout.widened (loadBucket hash m n) (records m.kvSize n kvs) extra).start h)) := by
  rw [getElem?_prefixSumsMod (2 ^ 64) counted (by omega) fun l lower => counts l (by omega),
    Finset.sum_add_distrib, sum_population]
  rfl

/-- With exact homes the placement loop can begin. -/
theorem ready_prepared (fitting : Fitting m n kvs) {counted : List Nat} {extra : Nat → Nat}
    (length : counted.length = nextPower n + 1)
    (counts : ∀ h, h < nextPower n + 1 → sizeT (counted.getD h 0) =
      sizeT (extra h + population (loadBucket hash m n) (records m.kvSize n kvs) h))
    (exactly : ExactHomes m.kvSize
      (Layout.widened (loadBucket hash m n) (records m.kvSize n kvs) extra)) :
    Ready hash (prepared m n kvs (prefixSumsMod (2 ^ 64) 0 counted)) n
      (Layout.widened (loadBucket hash m n) (records m.kvSize n kvs) extra) := by
  have big := sixteen_le_nextPower n
  have size : nextPower n + 1 = (nextPower n - 1) + 2 := by omega
  refine ⟨⟨fitting.key_le, fitting.kv_pos, fitting.length_eq, fitting.small⟩, rfl,
    (prefixSumsMod_length _ _ _).trans (length.trans size), fun h lower => ?_, exactly⟩
  change h < nextPower n - 1 + 2 at lower
  exact starts_prepared length counts (by omega)

/-- A load is the placement loop on a map whose `_indexes` hold the starts of
the homes over the counters that were already there. -/
theorem loadKvs_opening (hash : List Byte → Nat) (fitting : Fitting m n kvs)
    (exactly : ExactHomes m.kvSize (loadLayout hash m n kvs)) :
    ∃ starts, loadKvs hash m kvs = place hash (prepared m n kvs starts) ∧
      Ready hash (prepared m n kvs starts) n (loadLayout hash m n kvs) := by
  have big := sixteen_le_nextPower n
  have count : kvs.length / m.kvSize = n := by
    rw [fitting.length_eq]
    exact Nat.mul_div_cancel n fitting.kv_pos
  have whole : Whole (prepared m n kvs (resize m.indexes (nextPower n + 1) 0)) n :=
    ⟨fitting.key_le, fitting.kv_pos, fitting.length_eq, fitting.small⟩
  have size : nextPower n + 1 = (nextPower n - 1) + 2 := by omega
  obtain ⟨counted, run, length, counts⟩ := countCollisions_spec hash whole
    ((resize_length _ _ _).trans size)
  refine ⟨prefixSumsMod (2 ^ 64) 0 counted, ?_,
    ready_prepared fitting (length.trans size.symm) (fun h inside => ?_) exactly⟩
  · unfold loadKvs constructImmutableHashMap
    rw [if_neg (Nat.ne_of_gt fitting.kv_pos)]
    simp only [count]
    exact congrArg (· >>= fun counted => place hash (prepared m n kvs (prefixSumsMod (2 ^ 64) 0 counted))) run
  · rw [counts h]
    congr 2
    change (resize m.indexes (nextPower n + 1) 0).getD h 0 = _
    rw [List.getD_eq_getElem?_getD, getElem?_resize _ inside]
    rfl

/-- A finished placement loop has loaded the table. -/
theorem Arranged.loaded (fitting : Fitting m n kvs) {starts : List Nat}
    {layout : Layout (loadBucket hash m n) (records m.kvSize n kvs)}
    (ready : Ready hash (prepared m n kvs starts) n layout) {placed : ImmutableHashMap}
    (arranged : @Arranged hash (prepared m n kvs starts) n layout placed) :
    Loaded hash m n kvs layout placed := by
  have big := sixteen_le_nextPower n
  have size : nextPower n + 1 = (nextPower n - 1) + 2 := by omega
  obtain ⟨⟨key, value, kv, count, mask, index⟩, length_eq, perm, home_iff⟩ := arranged
  refine ⟨key, value, kv, count, mask, ?_, fun h le => ?_, ?_, perm, home_iff⟩
  · rw [index, size]
    exact ready.room
  · rw [index]
    exact ready.starts h (by change h < nextPower n - 1 + 2; omega)
  · exact length_eq.trans fitting.length_eq

/-- A load either leaves the table arranged, with all occupied homes inside it,
or swaps a record to a position behind the table. -/
theorem loadKvs_spec (hash : List Byte → Nat) (fitting : Fitting m n kvs)
    (exactly : ExactHomes m.kvSize (loadLayout hash m n kvs)) :
    (∃ loaded, loadKvs hash m kvs = .ok loaded ∧ Loaded hash m n kvs (loadLayout hash m n kvs) loaded ∧
      ∀ h, 0 < population (loadBucket hash m n) (records m.kvSize n kvs) h →
        (loadLayout hash m n kvs).stop h ≤ n) ∨
    (loadKvs hash m kvs = .error .outOfBounds ∧
      ∃ h, 0 < population (loadBucket hash m n) (records m.kvSize n kvs) h ∧
        n < (loadLayout hash m n kvs).stop h) := by
  obtain ⟨starts, same, ready⟩ := loadKvs_opening hash fitting exactly
  rw [same]
  rcases place_spec ready with ⟨placed, run, arranged, inside⟩ | stop
  · exact Or.inl ⟨placed, run, arranged.loaded fitting ready, inside⟩
  · exact Or.inr stop

/-- A load over clear counters succeeds. -/
theorem Clear.load (clear : Clear hash m n kvs) (fitting : Fitting m n kvs) :
    ∃ loaded, loadKvs hash m kvs = .ok loaded ∧ Loaded hash m n kvs (loadLayout hash m n kvs) loaded := by
  rcases loadKvs_spec hash fitting (clear.exactly fitting) with
    ⟨loaded, run, after, _⟩ | ⟨_, h, occupied, out⟩
  · exact ⟨loaded, run, after⟩
  · exact absurd (clear_iff_inside.mp clear h occupied) (Nat.not_le.mpr out)

theorem Clear.loaded (clear : Clear hash m n kvs) (fitting : Fitting m n kvs) {loaded : ImmutableHashMap}
    (run : loadKvs hash m kvs = .ok loaded) : Loaded hash m n kvs (loadLayout hash m n kvs) loaded := by
  obtain ⟨other, run', after⟩ := clear.load fitting
  rw [run] at run'
  cases run'
  exact after

/-- As long as the positions are exact, a load over other counters faults. -/
theorem loadKvs_ok_iff (hash : List Byte → Nat) (fitting : Fitting m n kvs)
    (exactly : ExactHomes m.kvSize (loadLayout hash m n kvs)) :
    (∃ loaded, loadKvs hash m kvs = .ok loaded) ↔ Clear hash m n kvs := by
  refine ⟨?_, fun clear => ?_⟩
  · rintro ⟨loaded, run⟩
    rcases loadKvs_spec hash fitting exactly with ⟨_, _, _, inside⟩ | ⟨stop, _⟩
    · exact clear_iff_inside.mpr inside
    · rw [run] at stop
      cases stop
  · obtain ⟨loaded, run, _⟩ := clear.load fitting
    exact ⟨loaded, run⟩

/-! ## Loads of any table -/

theorem swapKv_sizes {m' : ImmutableHashMap} {x y : Nat} (swap : swapKv m x y = .ok m') :
    SameSizes m m' := by
  unfold swapKv at swap
  split at swap
  · cases swap
    exact ⟨rfl, rfl, rfl, rfl, rfl, rfl⟩
  · obtain ⟨_, _, swap⟩ := bind_eq_ok.mp swap
    obtain ⟨_, _, swap⟩ := bind_eq_ok.mp swap
    obtain ⟨_, _, swap⟩ := bind_eq_ok.mp swap
    obtain ⟨_, _, swap⟩ := bind_eq_ok.mp swap
    cases swap
    exact ⟨rfl, rfl, rfl, rfl, rfl, rfl⟩

/-- The placement loop changes nothing but the table. -/
theorem place_sizes {placed : ImmutableHashMap} (run : place hash m = .ok placed) :
    SameSizes m placed := by
  obtain ⟨last, left, same⟩ := bind_eq_ok.mp run
  cases same
  obtain ⟨rounds, trace, _⟩ := Loop.trace_of_left left
  refine (@Loop.Trace.invariant _ _ _ _ _ (fun s => SameSizes m s.map) ?_ trace ⟨rfl, rfl, rfl, rfl, rfl, rfl⟩).2
  intro s next sizes go
  unfold placeRound at go
  split at go
  · obtain ⟨_, _, go⟩ := bind_eq_ok.mp go
    obtain ⟨_, _, go⟩ := bind_eq_ok.mp go
    obtain ⟨_, _, go⟩ := bind_eq_ok.mp go
    split at go
    · cases go
      exact sizes
    · obtain ⟨map, swap, go⟩ := bind_eq_ok.mp go
      obtain ⟨_, _, go⟩ := bind_eq_ok.mp go
      cases go
      obtain ⟨key, value, kv, count, mask, index⟩ := swapKv_sizes swap
      exact ⟨key.trans sizes.keySize_eq, value.trans sizes.valueSize_eq, kv.trans sizes.kvSize_eq,
        count.trans sizes.kvCount_eq, mask.trans sizes.hashMask_eq, index.trans sizes.indexes_eq⟩
  · cases go

/-- No load changes the sizes of keys and values. -/
theorem loadKvs_sizes {loaded : ImmutableHashMap} (run : loadKvs hash m kvs = .ok loaded) :
    loaded.keySize = m.keySize ∧ loaded.valueSize = m.valueSize := by
  unfold loadKvs constructImmutableHashMap at run
  split at run
  · cases run
  · obtain ⟨counted, _, placing⟩ := bind_eq_ok.mp run
    have sizes := place_sizes placing
    exact ⟨sizes.keySize_eq, sizes.valueSize_eq⟩

/-- Without key and value bytes every load divides by zero. -/
theorem loadKvs_without_bytes (hash : List Byte → Nat) {m : ImmutableHashMap} (empty : m.kvSize = 0)
    (kvs : List Byte) : loadKvs hash m kvs = .error .divisionByZero := by
  unfold loadKvs constructImmutableHashMap
  exact if_pos empty

theorem kvSize_ne_zero_of_load {loaded : ImmutableHashMap} (run : loadKvs hash m kvs = .ok loaded) :
    m.kvSize ≠ 0 := by
  intro empty
  rw [loadKvs_without_bytes hash empty] at run
  cases run

/-! ## Loads into a fresh map -/

/-- The map right before the collision count of a load without counters. -/
def counting (m : ImmutableHashMap) (n : Nat) (kvs : List Byte) : ImmutableHashMap :=
  prepared m n kvs (List.replicate (nextPower n + 1) 0)

theorem loadKvs_fresh (hash : List Byte → Nat) {kvs : List Byte} (fresh : m.indexes = [])
    (kv_pos : 0 < m.kvSize) (count : kvs.length / m.kvSize = n) :
    loadKvs hash m kvs = countCollisions hash (counting m n kvs) >>= fun counted =>
      place hash (prepared m n kvs (prefixSumsMod (2 ^ 64) 0 counted)) := by
  have zeros : resize m.indexes (nextPower n + 1) 0 = List.replicate (nextPower n + 1) 0 := by
    rw [fresh]
    rfl
  unfold loadKvs constructImmutableHashMap
  rw [if_neg (Nat.ne_of_gt kv_pos)]
  simp only [count, zeros]
  rfl

/-- Without records and counters all starts of a load are zero. -/
theorem load_nothing (hash : List Byte → Nat) (unset : ∀ h, leftover m h = 0) (kv_pos : 0 < m.kvSize) :
    ∃ starts, loadKvs hash m [] = .ok (prepared m 0 [] starts) ∧
      starts.length = 17 ∧ ∀ h, h < 17 → starts[h]? = some 0 := by
  refine ⟨prefixSumsMod (2 ^ 64) 0 (resize m.indexes 17 0), ?_,
    (prefixSumsMod_length _ _ _).trans (resize_length _ _ _), fun h inside => ?_⟩
  · unfold loadKvs constructImmutableHashMap
    rw [if_neg (Nat.ne_of_gt kv_pos)]
    simp only [List.length_nil, Nat.zero_div]
    rfl
  · have length := resize_length m.indexes 17 0
    have counts : ∀ l, l < h → (resize m.indexes 17 0).getD l 0 % 2 ^ 64 = leftover m l % 2 ^ 64 := by
      intro l lower
      rw [List.getD_eq_getElem?_getD, getElem?_resize _ (Nat.lt_trans lower inside)]
      rfl
    rw [getElem?_prefixSumsMod (2 ^ 64) _ (by omega) counts, Finset.sum_eq_zero fun l _ => unset l]
    rfl

/-- An empty table is loaded by any map without counters whose records have bytes. -/
theorem load_empty (hash : List Byte → Nat) (unset : ∀ h, leftover m h = 0) (kv_pos : 0 < m.kvSize) :
    ∃ loaded, loadKvs hash m [] = .ok loaded ∧ loaded.kvSize = m.kvSize ∧
      (∀ h, leftover loaded h = 0) ∧ ∀ key, seek hash loaded key = .ok none := by
  obtain ⟨starts, run, length, zero⟩ := load_nothing hash unset kv_pos
  refine ⟨_, run, rfl, fun h => ?_, fun key => ?_⟩
  · change starts.getD h 0 = 0
    rw [List.getD_eq_getElem?_getD]
    rcases Nat.lt_or_ge h 17 with inside | outside
    · rw [zero h inside]
      rfl
    · rw [List.getElem?_eq_none (by omega)]
      rfl
  · have h_le : hash key &&& 15 ≤ 15 := Nat.and_le_right
    have mask : (prepared m 0 [] starts).hashMask = 15 := rfl
    have indexes : (prepared m 0 [] starts).indexes = starts := rfl
    rw [seek, mask, indexes, load_eq_ok.mpr (zero _ (by omega)), ok_bind,
      load_eq_ok.mpr (zero _ (by omega)), ok_bind]
    rfl

end CppProject.Cannon.ImmutableHashMap
