import CppProject.Cannon.Reloading

/-!
# Histories of loads

Which sequences of `load_kvs` calls end in a map that answers like a fresh map
loaded with the last table.  The counters that each load inherits are read off
the tables loaded before it, as `size_t`s that may have wrapped around.
-/

namespace CppProject.Cannon.ImmutableHashMap

open Library Library.Checked Library.Records Library.Placement

variable (hash : List Byte → Nat) (keySize valueSize : Nat)

/-- The records of a table, cut by the sizes of the map. -/
def tableRecords (kvs : List Byte) : List (List Byte) :=
  records (keySize + valueSize) (kvs.length / (keySize + valueSize)) kvs

/-- The mask under which a table is loaded. -/
def tableMask (kvs : List Byte) : Nat := nextPower (kvs.length / (keySize + valueSize)) - 1

/-- The bucket of a record of a table. -/
def tableBucket (kvs entry : List Byte) : Nat :=
  recordBucket hash keySize (tableMask keySize valueSize kvs) entry

/-- The counters that a load leaves behind, from the counters it starts with. -/
def countersAfter (before : Nat → Nat) (kvs : List Byte) (h : Nat) : Nat :=
  if h ≤ nextPower (kvs.length / (keySize + valueSize)) then
    sizeT (∑ l ∈ Finset.range h, before l +
      below (tableBucket hash keySize valueSize kvs) (tableRecords keySize valueSize kvs) h)
  else 0

/-- No counter is set below the bucket of a record. -/
def CountersClear (before : Nat → Nat) (kvs : List Byte) : Prop :=
  ∀ entry ∈ tableRecords keySize valueSize kvs,
    ∀ l, l < tableBucket hash keySize valueSize kvs entry → before l = 0

/-- No counter is set in the bucket of a key that the table does not hold, and none in the
bucket of another key is so large that it wraps around over the records. -/
def LookupsClear (before : Nat → Nat) (kvs : List Byte) : Prop :=
  ∀ key, key.length = keySize →
    before (keyBucket hash (tableMask keySize valueSize kvs) key) = 0 ∨
      before (keyBucket hash (tableMask keySize valueSize kvs) key) +
          kvs.length / (keySize + valueSize) < 2 ^ 64 ∧
        ∃ entry ∈ tableRecords keySize valueSize kvs, entry.take keySize = key

/-- Every load of the history finds the counters clear, and so do the lookups
after the last one. -/
def HistoryClear : (Nat → Nat) → List (List Byte) → List Byte → Prop
  | before, [], kvs =>
      CountersClear hash keySize valueSize before kvs ∧ LookupsClear hash keySize valueSize before kvs
  | before, table :: rest, kvs =>
      CountersClear hash keySize valueSize before table ∧
        HistoryClear (countersAfter hash keySize valueSize before table) rest kvs

/-- The counters and the records of the table together are a position that is an exact `size_t`. -/
def CountersFit (before : Nat → Nat) (kvs : List Byte) : Prop :=
  (∑ l ∈ Finset.range (nextPower (kvs.length / (keySize + valueSize))), before l +
    kvs.length / (keySize + valueSize)) * (keySize + valueSize) < 2 ^ 64

/-- The counters fit at every load of the history. -/
def HistoryFits : (Nat → Nat) → List (List Byte) → List Byte → Prop
  | before, [], kvs => CountersFit keySize valueSize before kvs
  | before, table :: rest, kvs =>
      CountersFit keySize valueSize before table ∧
        HistoryFits (countersAfter hash keySize valueSize before table) rest kvs

/-- The loads succeed, and the map they end in answers every key like `fresh` does once it
has loaded the last table. -/
def AnswersLike (m fresh : ImmutableHashMap) (earlier : List (List Byte)) (kvs : List Byte) : Prop :=
  ∃ loaded other, loadAll hash m (earlier ++ [kvs]) = .ok loaded ∧ loadKvs hash fresh kvs = .ok other ∧
    ∀ key, key.length = keySize → seekValue hash loaded key = seekValue hash other key

/-- Loads into a new map end in what a new map makes of the last table. -/
def ReplacesContents (keySize valueSize : UInt64) (earlier : List (List Byte)) (kvs : List Byte) : Prop :=
  AnswersLike hash keySize.toNat (ofSizes keySize valueSize) (ofSizes keySize valueSize) earlier kvs

variable {hash keySize valueSize}

/-- A map of the given sizes whose counters are `before`. -/
structure Counting (keySize valueSize : Nat) (before : Nat → Nat) (m : ImmutableHashMap) : Prop where
  keySize_eq : m.keySize = keySize
  valueSize_eq : m.valueSize = valueSize
  kvSize_eq : m.kvSize = keySize + valueSize
  leftover_eq : ∀ h, leftover m h = before h

theorem Counting.fresh {keySize valueSize : UInt64} (sizes : keySize.toNat + valueSize.toNat < 2 ^ 64) :
    Counting keySize.toNat valueSize.toNat (fun _ => 0) (ofSizes keySize valueSize) := by
  refine ⟨rfl, rfl, ?_, leftover_ofSizes keySize valueSize⟩
  change (keySize + valueSize).toNat = _
  rw [UInt64.toNat_add, Nat.mod_eq_of_lt sizes]

section Load

variable {m : ImmutableHashMap} {before : Nat → Nat} {kvs : List Byte}

theorem Counting.fitting (counting : Counting keySize valueSize before m)
    (kv_pos : 0 < keySize + valueSize) (whole : keySize + valueSize ∣ kvs.length)
    (small : kvs.length < 2 ^ 63) : Fitting m (kvs.length / (keySize + valueSize)) kvs := by
  obtain ⟨key, value, kv, _⟩ := counting
  refine ⟨?_, kv ▸ kv_pos, ?_, small⟩
  · rw [key, kv]
    exact Nat.le_add_right _ _
  · rw [kv, Nat.div_mul_cancel whole]

theorem Counting.records_eq (counting : Counting keySize valueSize before m) :
    records m.kvSize (kvs.length / (keySize + valueSize)) kvs =
      tableRecords keySize valueSize kvs := by
  rw [counting.kvSize_eq, tableRecords]

theorem Counting.bucket_eq (counting : Counting keySize valueSize before m) :
    loadBucket hash m (kvs.length / (keySize + valueSize)) =
      tableBucket hash keySize valueSize kvs := by
  funext entry
  simp only [loadBucket, tableBucket, tableMask, counting.keySize_eq]

theorem Counting.clear_iff (counting : Counting keySize valueSize before m) :
    Clear hash m (kvs.length / (keySize + valueSize)) kvs ↔
      CountersClear hash keySize valueSize before kvs := by
  simp only [Clear, CountersClear, counting.records_eq, counting.bucket_eq, counting.leftover_eq]

/-- The counters of the loaded map are those computed from the tables. -/
theorem Counting.loaded (counting : Counting keySize valueSize before m) {loaded : ImmutableHashMap}
    (after : Loaded hash m (kvs.length / (keySize + valueSize)) kvs (loadLayout hash m _ kvs) loaded) :
    Counting keySize valueSize (countersAfter hash keySize valueSize before kvs) loaded := by
  refine ⟨after.keySize_eq.trans counting.keySize_eq, after.valueSize_eq.trans counting.valueSize_eq,
    after.kvSize_eq.trans counting.kvSize_eq, ?_⟩
  intro h
  simp only [leftover, countersAfter, List.getD_eq_getElem?_getD]
  split
  next covered =>
    rw [after.starts h covered]
    simp only [Option.getD_some, loadLayout, Layout.widened_start, counting.bucket_eq,
      counting.records_eq, counting.leftover_eq]
  next uncovered =>
    rw [List.getElem?_eq_none (by rw [after.room]; omega)]
    rfl

/-- A load that finds the counters clear succeeds and hands its own on. -/
theorem Counting.load_clear (counting : Counting keySize valueSize before m)
    (kv_pos : 0 < keySize + valueSize) (whole : keySize + valueSize ∣ kvs.length)
    (small : kvs.length < 2 ^ 63) (clear : CountersClear hash keySize valueSize before kvs) :
    ∃ loaded, loadKvs hash m kvs = .ok loaded ∧
      Counting keySize valueSize (countersAfter hash keySize valueSize before kvs) loaded := by
  obtain ⟨loaded, run, after⟩ :=
    (counting.clear_iff.mpr clear).load (counting.fitting kv_pos whole small)
  exact ⟨loaded, run, counting.loaded after⟩

/-- All starts are exact when the counters fit. -/
theorem Counting.start_mul_lt (counting : Counting keySize valueSize before m)
    (fits : CountersFit keySize valueSize before kvs) {h : Nat}
    (inside : h ≤ nextPower (kvs.length / (keySize + valueSize))) :
    (loadLayout hash m (kvs.length / (keySize + valueSize)) kvs).start h * m.kvSize < 2 ^ 64 := by
  refine Nat.lt_of_le_of_lt (Nat.mul_le_mul ?_ counting.kvSize_eq.le) fits
  have lower : ∑ l ∈ Finset.range h, leftover m l ≤
      ∑ l ∈ Finset.range (nextPower (kvs.length / (keySize + valueSize))), before l := by
    rw [Finset.sum_congr rfl fun l _ => counting.leftover_eq l]
    exact Finset.sum_le_sum_of_subset (Finset.range_subset_range.mpr inside)
  have held := List.countP_le_length
    (p := fun entry => decide (loadBucket hash m (kvs.length / (keySize + valueSize)) entry < h))
    (l := records m.kvSize (kvs.length / (keySize + valueSize)) kvs)
  rw [records_length] at held
  exact Nat.add_le_add lower held

theorem Counting.exactly (counting : Counting keySize valueSize before m)
    (fits : CountersFit keySize valueSize before kvs) :
    ExactHomes m.kvSize (loadLayout hash m (kvs.length / (keySize + valueSize)) kvs) := by
  intro h occupied y lower
  have big := sixteen_le_nextPower (kvs.length / (keySize + valueSize))
  have inside : h + 1 ≤ nextPower (kvs.length / (keySize + valueSize)) := by
    obtain ⟨entry, _, same⟩ := List.countP_pos_iff.mp occupied
    have bucket_lt := recordBucket_lt hash m.keySize
      (nextPower (kvs.length / (keySize + valueSize)) - 1) entry
    rw [loadBucket] at same
    have := of_decide_eq_true same
    omega
  have next := (loadLayout hash m (kvs.length / (keySize + valueSize)) kvs).spaced h
  exact Nat.lt_of_le_of_lt (Nat.mul_le_mul_right _ (Nat.le_trans (Nat.le_of_lt lower) next))
    (counting.start_mul_lt fits inside)

/-- A load that does not find the counters clear faults, as long as they fit. -/
theorem Counting.load_set (counting : Counting keySize valueSize before m)
    (kv_pos : 0 < keySize + valueSize) (whole : keySize + valueSize ∣ kvs.length)
    (small : kvs.length < 2 ^ 63) (fits : CountersFit keySize valueSize before kvs)
    (set : ¬CountersClear hash keySize valueSize before kvs) :
    ∃ fault, loadKvs hash m kvs = .error fault := by
  have succeeds := (loadKvs_ok_iff hash (counting.fitting kv_pos whole small)
    (counting.exactly fits)).trans counting.clear_iff
  cases run : loadKvs hash m kvs with
  | ok loaded => exact absurd (succeeds.mp ⟨loaded, run⟩) set
  | error fault => exact ⟨fault, rfl⟩

end Load

/-! ## Lookups after a load over set counters -/

section Lookups

variable {m r : ImmutableHashMap} {n : Nat} {kvs key : List Byte}

/-- A scan behind the table never comes to an answer, as long as the position is exact. -/
theorem seekFrom_behind (whole : Whole m n) (sizes : m.kvSize = m.keySize + m.valueSize)
    (key_length : key.length = m.keySize) {left first : Nat} (some : 0 < left) (behind : n ≤ first)
    (exactly : first * m.kvSize < 2 ^ 64) :
    ∃ fault, (seekFrom m key left first >>= readFound m) = .error fault := by
  obtain ⟨left, rfl⟩ := Nat.exists_eq_succ_of_ne_zero (Nat.ne_of_gt some)
  have past : m.table.length ≤ first * m.kvSize := by
    rw [whole.length_eq]
    exact Nat.mul_le_mul_right m.kvSize behind
  have kv_pos := whole.kv_pos
  rcases Nat.lt_or_ge m.table.length (first * m.kvSize + m.keySize) with outside | inside
  · rw [seekFrom_succ, sizeT_of_lt exactly, readBlock_eq_error outside]
    exact ⟨_, rfl⟩
  · -- keys without bytes: the comparison succeeds, and the value lies outside
    have empty : m.keySize = 0 := by omega
    have no_bytes : key = [] := List.length_eq_zero_iff.mp (key_length.trans empty)
    have outside : m.table.length < first * m.kvSize + m.valueSize := by omega
    refine ⟨.outOfBounds, ?_⟩
    rw [seekFrom_succ, sizeT_of_lt exactly, readBlock_of_le inside, empty]
    simp only [ok_bind, slice, List.take_zero, no_bytes, if_true, readFound, Nat.add_zero,
      sizeT_of_lt exactly, readBlock_eq_error outside, error_bind]

/-- A set counter in the bucket of an absent key has its spare positions behind the table. -/
theorem Clear.le_stop (clear : Clear hash m n kvs) {h : Nat} (set : leftover m h ≠ 0) :
    n ≤ (loadLayout hash m n kvs).stop h := by
  have all : below (loadBucket hash m n) (records m.kvSize n kvs) (h + 1) = n := by
    rw [below_eq_length, records_length]
    intro entry member
    by_contra above
    exact set (clear entry member h (by omega))
  rw [loadLayout, Layout.widened_stop, all]
  exact Nat.le_add_left _ _

/-- A map of the same sizes without counters. -/
structure Blank (m r : ImmutableHashMap) : Prop where
  keySize_eq : r.keySize = m.keySize
  valueSize_eq : r.valueSize = m.valueSize
  kvSize_eq : r.kvSize = m.kvSize
  unset : ∀ h, leftover r h = 0

theorem Blank.fitting (blank : Blank m r) (fitting : Fitting m n kvs) : Fitting r n kvs := by
  obtain ⟨key_le, kv_pos, length_eq, small⟩ := fitting
  obtain ⟨key, _, kv, _⟩ := blank
  exact ⟨by rwa [key, kv], by rwa [kv], by rwa [kv], small⟩

theorem Blank.clear (blank : Blank m r) : Clear hash r n kvs := fun _ _ l _ => blank.unset l

theorem Blank.population_eq (blank : Blank m r) (h : Nat) :
    population (loadBucket hash r n) (records r.kvSize n kvs) h =
      population (loadBucket hash m n) (records m.kvSize n kvs) h := by
  simp only [loadBucket, blank.keySize_eq, blank.kvSize_eq]

section Pair

variable (fitting : Fitting m n kvs) (clear : Clear hash m n kvs) (blank : Blank m r)
  {loaded fresh : ImmutableHashMap} (run : loadKvs hash m kvs = .ok loaded)
  (run' : loadKvs hash r kvs = .ok fresh)

include fitting clear blank run run'

/-- The two loads leave the same table. -/
theorem blank_table_eq : loaded.table = fresh.table :=
  loaded_table_eq fitting (blank.fitting fitting) clear blank.clear blank.keySize_eq blank.kvSize_eq
    run run'

/-- The scan of a home reads the same in both maps. -/
theorem seekFrom_home_eq (h : Nat) :
    seekFrom loaded key (population (loadBucket hash m n) (records m.kvSize n kvs) h)
        ((loadLayout hash m n kvs).start h) =
      seekFrom fresh key (population (loadBucket hash r n) (records r.kvSize n kvs) h)
        ((loadLayout hash r n kvs).start h) := by
  have after := clear.loaded fitting run
  have after' := blank.clear.loaded (blank.fitting fitting) run'
  rw [blank.population_eq]
  rcases Nat.eq_zero_or_pos (population (loadBucket hash m n) (records m.kvSize n kvs) h) with
    empty | occupied
  · rw [empty]
    rfl
  · rw [clear.start_agree blank.clear blank.keySize_eq blank.kvSize_eq occupied]
    exact seekFrom_congr (blank_table_eq fitting clear blank run run')
      (after.keySize_eq.trans (after'.keySize_eq.trans blank.keySize_eq).symm)
      (after.kvSize_eq.trans (after'.kvSize_eq.trans blank.kvSize_eq).symm) _ _

/-- The fresh map answers from the home of the key's bucket. -/
theorem seekValue_fresh :
    seekValue hash fresh key =
      seekFrom loaded key
          (population (loadBucket hash m n) (records m.kvSize n kvs) (keyBucket hash (nextPower n - 1) key))
          ((loadLayout hash m n kvs).start (keyBucket hash (nextPower n - 1) key)) >>=
        readFound loaded := by
  have after := clear.loaded fitting run
  have after' := blank.clear.loaded (blank.fitting fitting) run'
  have count_lt := (after.whole fitting).count_lt
  have small : (loadLayout hash r n kvs).start (keyBucket hash (nextPower n - 1) key + 1) < 2 ^ 64 :=
    (start_le_of_fresh blank.unset _).trans_lt (by omega)
  rw [seekValue_eq, seek_loaded after'.hashMask_eq after'.starts rfl (loadLayout_next hash r n kvs _)
    small, blank.unset,
    ← seekFrom_home_eq fitting clear blank run run']
  have values : readFound fresh = readFound loaded := funext fun found =>
    (readFound_congr (blank_table_eq fitting clear blank run run')
      (after.valueSize_eq.trans (after'.valueSize_eq.trans blank.valueSize_eq).symm) found).symm
  rw [values]
  rcases seekHome_held fitting after (clear_iff_inside.mp clear) rfl with ⟨i, _, hit, _⟩ | ⟨none, _⟩
  · rw [hit]
    rfl
  · rw [none]
    rfl

/-- Over a clear load the keys of the table are found as in a fresh map unless a counter
wraps around, and the others once their bucket carries no counter. -/
theorem seekValue_agree
    (allowed : leftover m (keyBucket hash (nextPower n - 1) key) = 0 ∨
      leftover m (keyBucket hash (nextPower n - 1) key) + n < 2 ^ 64 ∧
        ∃ entry ∈ records m.kvSize n kvs, entry.take m.keySize = key) :
    seekValue hash loaded key = seekValue hash fresh key := by
  have after := clear.loaded fitting run
  have count_lt := (after.whole fitting).count_lt
  have same := @seekValue_fresh hash m r n kvs key fitting clear blank loaded fresh run run'
  have home := @seekHome_held hash m n kvs key _ _ fitting after (clear_iff_inside.mp clear) _ rfl
  generalize bucket : keyBucket hash (nextPower n - 1) key = h at allowed same home
  rw [same]
  rcases Nat.eq_zero_or_pos (population (loadBucket hash m n) (records m.kvSize n kvs) h) with
    empty | occupied
  · have unset : leftover m h = 0 := by
      refine allowed.resolve_right fun ⟨_, entry, member, held⟩ => ?_
      have here := population_pos (loadBucket hash m n) member
      have same_bucket : loadBucket hash m n entry = h := by
        rw [loadBucket, recordBucket, held, bucket]
      rw [same_bucket, empty] at here
      exact Nat.lt_irrefl 0 here
    have next := loadLayout_next hash m n kvs h
    rw [unset] at next
    rw [seekValue_eq, seek_idle after.hashMask_eq after.starts bucket empty next, empty]
    rfl
  · have next := loadLayout_next hash m n kvs h
    have stop := clear_iff_inside.mp clear h occupied
    have small : (loadLayout hash m n kvs).start (h + 1) < 2 ^ 64 := by
      rcases allowed with unset | ⟨exactly, _⟩ <;> omega
    rw [seekValue_eq, seek_loaded after.hashMask_eq after.starts bucket next small]
    rcases home with ⟨i, _, hit, _⟩ | ⟨none, absent⟩
    · rw [hit]
      rfl
    · rw [none, allowed.resolve_right fun both => absent both.2]
      rfl

/-- A set counter in the bucket of an absent key leads its scan behind the table, as long as
the positions there are exact. -/
theorem seekValue_differ (sizes : m.kvSize = m.keySize + m.valueSize)
    (key_length : key.length = m.keySize)
    (set : leftover m (keyBucket hash (nextPower n - 1) key) ≠ 0)
    (absent : ¬∃ entry ∈ records m.kvSize n kvs, entry.take m.keySize = key)
    (exactly : (loadLayout hash m n kvs).start (keyBucket hash (nextPower n - 1) key + 1) *
      m.kvSize < 2 ^ 64) :
    seekValue hash loaded key ≠ seekValue hash fresh key := by
  have after := clear.loaded fitting run
  have same := @seekValue_fresh hash m r n kvs key fitting clear blank loaded fresh run run'
  have home := @seekHome_held hash m n kvs key _ _ fitting after (clear_iff_inside.mp clear) _ rfl
  generalize bucket : keyBucket hash (nextPower n - 1) key = h at set exactly same home
  have next := loadLayout_next hash m n kvs h
  have none := (home.resolve_left fun ⟨_, _, _, held⟩ => absent held).1
  have small := Nat.lt_of_le_of_lt (Nat.le_mul_of_pos_right _ fitting.kv_pos) exactly
  have stop_exact : (loadLayout hash m n kvs).stop h * loaded.kvSize < 2 ^ 64 := by
    rw [after.kvSize_eq]
    exact Nat.lt_of_le_of_lt (Nat.mul_le_mul_right _ (by omega)) exactly
  have loaded_sizes : loaded.kvSize = loaded.keySize + loaded.valueSize := by
    rw [after.kvSize_eq, after.keySize_eq, after.valueSize_eq, sizes]
  obtain ⟨fault, stop⟩ := seekFrom_behind (after.whole fitting) loaded_sizes
    (key_length.trans after.keySize_eq.symm) (Nat.pos_of_ne_zero set) (clear.le_stop set) stop_exact
  rw [same, none, seekValue_eq, seek_loaded after.hashMask_eq after.starts bucket next small, none]
  simp only [ok_bind]
  rw [stop]
  exact fun impossible => by cases impossible

end Pair

end Lookups

/-! ## Replacing the contents -/

section Replacing

variable {m r : ImmutableHashMap} {before : Nat → Nat} {kvs : List Byte}

theorem loadAll_cons (hash : List Byte → Nat) (m : ImmutableHashMap) (table : List Byte)
    (rest : List (List Byte)) :
    loadAll hash m (table :: rest) =
      loadKvs hash m table >>= fun loaded => loadAll hash loaded rest := rfl

theorem loadAll_single (hash : List Byte → Nat) (m : ImmutableHashMap) (table : List Byte) :
    loadAll hash m [table] = loadKvs hash m table := by
  rw [loadAll_cons]
  cases loadKvs hash m table <;> rfl

theorem Counting.blank (counting : Counting keySize valueSize before m)
    (fresh : Counting keySize valueSize (fun _ => 0) r) : Blank m r :=
  ⟨fresh.keySize_eq.trans counting.keySize_eq.symm, fresh.valueSize_eq.trans counting.valueSize_eq.symm,
    fresh.kvSize_eq.trans counting.kvSize_eq.symm, fresh.leftover_eq⟩

section Last

variable (counting : Counting keySize valueSize before m)
  (fresh : Counting keySize valueSize (fun _ => 0) r) (kv_pos : 0 < keySize + valueSize)
  (whole : keySize + valueSize ∣ kvs.length) (small : kvs.length < 2 ^ 63)
  (clear : CountersClear hash keySize valueSize before kvs)

include counting fresh kv_pos whole small clear

/-- The last load, and the lookups behind it. -/
theorem answersLike_last (lookups : LookupsClear hash keySize valueSize before kvs) :
    AnswersLike hash keySize m r [] kvs := by
  obtain ⟨loaded, run, _⟩ := counting.load_clear kv_pos whole small clear
  obtain ⟨other, run', _⟩ := @Counting.load_clear hash _ _ _ _ _ fresh kv_pos whole small fun _ _ _ _ => rfl
  refine ⟨loaded, other, (loadAll_single hash m kvs).trans run, run', fun key key_length => ?_⟩
  refine seekValue_agree (counting.fitting kv_pos whole small) (counting.clear_iff.mpr clear)
    (counting.blank fresh) run run' ?_
  have allowed := lookups key key_length
  rw [counting.records_eq, counting.leftover_eq, counting.keySize_eq]
  exact allowed

/-- The lookups find the counters clear if they answer like those in a fresh map. -/
theorem lookupsClear_of_answersLike (fits : CountersFit keySize valueSize before kvs)
    (answers : AnswersLike hash keySize m r [] kvs) : LookupsClear hash keySize valueSize before kvs := by
  obtain ⟨loaded, other, run, run', same⟩ := answers
  rw [List.nil_append, loadAll_single] at run
  intro key key_length
  by_contra allowed
  obtain ⟨set, unheld⟩ := not_or.mp allowed
  have big := sixteen_le_nextPower (kvs.length / (keySize + valueSize))
  have inside : keyBucket hash (nextPower (kvs.length / (keySize + valueSize)) - 1) key + 1 ≤
      nextPower (kvs.length / (keySize + valueSize)) := by
    have : keyBucket hash (nextPower (kvs.length / (keySize + valueSize)) - 1) key ≤ _ :=
      Nat.and_le_right
    omega
  have exactly := @Counting.start_mul_lt hash _ _ _ _ _ counting fits _ inside
  refine seekValue_differ (counting.fitting kv_pos whole small) (counting.clear_iff.mpr clear)
    (counting.blank fresh) run run' ?_ ?_ ?_ ?_ exactly (same key key_length)
  · rw [counting.kvSize_eq, counting.keySize_eq, counting.valueSize_eq]
  · rw [counting.keySize_eq, key_length]
  · rw [counting.leftover_eq]
    exact set
  · rw [counting.records_eq, counting.keySize_eq]
    intro held
    refine unheld ⟨?_, held⟩
    -- one counter and the number of records are at most the exact position behind all of them
    have one : before (keyBucket hash (tableMask keySize valueSize kvs) key) ≤
        ∑ l ∈ Finset.range (nextPower (kvs.length / (keySize + valueSize))), before l :=
      Finset.single_le_sum (fun _ _ => Nat.zero_le _) (Finset.mem_range.mpr inside)
    have all := Nat.lt_of_le_of_lt (Nat.le_mul_of_pos_right _ kv_pos) fits
    omega

end Last

theorem answersLike_cons {table : List Byte} {rest : List (List Byte)} {loaded : ImmutableHashMap}
    (run : loadKvs hash m table = .ok loaded) :
    AnswersLike hash keySize m r (table :: rest) kvs ↔ AnswersLike hash keySize loaded r rest kvs := by
  simp only [AnswersLike, List.cons_append, loadAll_cons, run, ok_bind]

section History

variable {earlier : List (List Byte)} (fresh : Counting keySize valueSize (fun _ => 0) r)
  (kv_pos : 0 < keySize + valueSize)
  (whole : ∀ table ∈ earlier ++ [kvs], keySize + valueSize ∣ table.length)
  (small : ∀ table ∈ earlier ++ [kvs], table.length < 2 ^ 63)

include fresh kv_pos whole small

/-- When every load, and every lookup after the last, finds the counters clear, the history
ends in a map that answers like a fresh one. -/
theorem answersLike_of_clear (counting : Counting keySize valueSize before m)
    (clear : HistoryClear hash keySize valueSize before earlier kvs) :
    AnswersLike hash keySize m r earlier kvs := by
  induction earlier generalizing m before with
  | nil =>
      obtain ⟨counters, lookups⟩ := clear
      exact answersLike_last counting fresh kv_pos (whole kvs (List.mem_singleton.mpr rfl))
        (small kvs (List.mem_singleton.mpr rfl)) counters lookups
  | cons table rest ih =>
      obtain ⟨here, later⟩ := clear
      obtain ⟨table_whole, rest_whole⟩ := List.forall_mem_cons.mp whole
      obtain ⟨table_small, rest_small⟩ := List.forall_mem_cons.mp small
      obtain ⟨loaded, run, next⟩ := counting.load_clear kv_pos table_whole table_small here
      exact (answersLike_cons run).mpr (ih rest_whole rest_small next later)

/-- As long as the counters fit, nothing else ends in such a map. -/
theorem clear_of_answersLike (counting : Counting keySize valueSize before m)
    (fits : HistoryFits hash keySize valueSize before earlier kvs)
    (answers : AnswersLike hash keySize m r earlier kvs) :
    HistoryClear hash keySize valueSize before earlier kvs := by
  induction earlier generalizing m before with
  | nil =>
      have last_whole := whole kvs (List.mem_singleton.mpr rfl)
      have last_small := small kvs (List.mem_singleton.mpr rfl)
      have clear : CountersClear hash keySize valueSize before kvs := by
        by_contra set
        obtain ⟨fault, stop⟩ := counting.load_set kv_pos last_whole last_small fits set
        obtain ⟨loaded, _, run, _⟩ := answers
        rw [List.nil_append, loadAll_single, stop] at run
        cases run
      exact ⟨clear, lookupsClear_of_answersLike counting fresh kv_pos last_whole last_small clear fits
        answers⟩
  | cons table rest ih =>
      obtain ⟨here, later⟩ := fits
      obtain ⟨table_whole, rest_whole⟩ := List.forall_mem_cons.mp whole
      obtain ⟨table_small, rest_small⟩ := List.forall_mem_cons.mp small
      have clear : CountersClear hash keySize valueSize before table := by
        by_contra set
        obtain ⟨fault, stop⟩ := counting.load_set kv_pos table_whole table_small here set
        obtain ⟨loaded, _, run, _⟩ := answers
        rw [List.cons_append, loadAll_cons, stop] at run
        cases run
      obtain ⟨loaded, run, next⟩ := counting.load_clear kv_pos table_whole table_small clear
      exact ⟨clear, ih rest_whole rest_small next later ((answersLike_cons run).mp answers)⟩

end History

end Replacing

/-! ## Sizes whose sum has wrapped around -/

section Wrapped

variable {tables : List (List Byte)}

/-- A map that has loaded nothing goes on loading nothing. -/
theorem loadAll_empty (hash : List Byte → Nat) (empty : ∀ table ∈ tables, table = [])
    {m : ImmutableHashMap} (unset : ∀ h, leftover m h = 0) (kv_pos : 0 < m.kvSize) :
    ∃ loaded, loadAll hash m (tables ++ [[]]) = .ok loaded ∧ ∀ key, seek hash loaded key = .ok none := by
  induction tables generalizing m with
  | nil =>
      obtain ⟨loaded, run, _, _, absent⟩ := load_empty hash unset kv_pos
      exact ⟨loaded, (loadAll_single hash m []).trans run, absent⟩
  | cons table rest ih =>
      obtain ⟨rfl, rest_empty⟩ := List.forall_mem_cons.mp empty
      obtain ⟨loaded, run, kv, still_unset, _⟩ := load_empty hash unset kv_pos
      obtain ⟨last, runs, absent⟩ := ih rest_empty still_unset (kv ▸ kv_pos)
      exact ⟨last, by rw [List.cons_append, loadAll_cons, run, ok_bind, runs], absent⟩

theorem tableRecords_nil (keySize valueSize : Nat) : tableRecords keySize valueSize [] = [] := by
  rw [tableRecords, List.length_nil, Nat.zero_div]
  rfl

/-- Loads of nothing set no counter. -/
theorem historyClear_empty (hash : List Byte → Nat) (keySize valueSize : Nat)
    (empty : ∀ table ∈ tables, table = []) :
    HistoryClear hash keySize valueSize (fun _ => 0) tables [] := by
  induction tables with
  | nil => exact ⟨fun _ _ _ _ => rfl, fun _ _ => Or.inl rfl⟩
  | cons table rest ih =>
      obtain ⟨rfl, rest_empty⟩ := List.forall_mem_cons.mp empty
      have none : countersAfter hash keySize valueSize (fun _ => 0) [] = fun _ => 0 := by
        funext h
        rw [countersAfter, tableRecords_nil, Finset.sum_const_zero]
        split <;> rfl
      refine ⟨fun _ _ _ _ => rfl, ?_⟩
      rw [none]
      exact ih rest_empty

end Wrapped

/-- A sequence of loads replaces the contents of the map when the sizes do not add up to zero
and the counters that the earlier tables leave behind are clear for every later table: none
is set below the bucket of a record, and at the last table none is set in the bucket of a key
that the table does not hold.  As long as the counters do not lead beyond `2 ^ 64` this is the
only way. -/
theorem load_kvs_replaces_contents (hash : List Byte → Nat) (keySize valueSize : UInt64)
    (earlier : List (List Byte)) (kvs : List Byte)
    (whole : ∀ table ∈ earlier ++ [kvs], keySize.toNat + valueSize.toNat ∣ table.length)
    (small : ∀ table ∈ earlier ++ [kvs], table.length < 2 ^ 63) :
    (keySize + valueSize ≠ 0 ∧
        HistoryClear hash keySize.toNat valueSize.toNat (fun _ => 0) earlier kvs →
      ReplacesContents hash keySize valueSize earlier kvs) ∧
    (HistoryFits hash keySize.toNat valueSize.toNat (fun _ => 0) earlier kvs →
      ReplacesContents hash keySize valueSize earlier kvs →
        keySize + valueSize ≠ 0 ∧
          HistoryClear hash keySize.toNat valueSize.toNat (fun _ => 0) earlier kvs) := by
  have divides : ReplacesContents hash keySize valueSize earlier kvs → keySize + valueSize ≠ 0 := by
    rintro ⟨_, _, _, run, _⟩
    exact positive_of_load run
  rcases Nat.lt_or_ge (keySize.toNat + valueSize.toNat) (2 ^ 64) with sizes | wrapped
  · have fresh := Counting.fresh sizes
    have kv_pos : keySize + valueSize ≠ 0 → 0 < keySize.toNat + valueSize.toNat := by
      intro positive
      have := kvSize_pos positive
      rwa [fresh.kvSize_eq] at this
    refine ⟨fun ⟨positive, clear⟩ => ?_, fun fits answers => ⟨divides answers, ?_⟩⟩
    · exact answersLike_of_clear fresh (kv_pos positive) whole small fresh clear
    · exact clear_of_answersLike fresh (kv_pos (divides answers)) whole small fresh fits answers
  · -- no table has a record of these sizes
    have empty : ∀ table ∈ earlier ++ [kvs], table = [] := by
      intro table member
      by_contra filled
      have := Nat.le_of_dvd (List.length_pos_of_ne_nil filled) (whole table member)
      have := small table member
      omega
    have earlier_empty := fun table member => empty table (List.mem_append_left _ member)
    obtain rfl := empty kvs (List.mem_append_right _ (List.mem_singleton.mpr rfl))
    refine ⟨fun ⟨positive, _⟩ => ?_,
      fun _ answers => ⟨divides answers, historyClear_empty hash _ _ earlier_empty⟩⟩
    have unset := leftover_ofSizes keySize valueSize
    obtain ⟨loaded, runs, absent⟩ := loadAll_empty hash earlier_empty unset (kvSize_pos positive)
    obtain ⟨other, run, _, _, absent'⟩ := load_empty hash unset (kvSize_pos positive)
    refine ⟨loaded, other, runs, run, fun key _ => ?_⟩
    rw [seekValue, seekValue, absent, absent']
    rfl

/-- Under a hash that sends every key to bucket 3, a second table replaces the
first: the first leaves counters in the buckets above 3 only. -/
theorem load_kvs_replaces_contents_one_bucket :
    ReplacesContents (fun _ => 3) 1 1 [[1, 7]] [2, 9, 4, 5] := by
  have bucket : ∀ key, keyBucket (fun _ => 3) (tableMask 1 1 [2, 9, 4, 5]) key = 3 := by
    intro key
    simp only [keyBucket]
    decide
  have low : ∀ l, l ≤ 3 → countersAfter (fun _ => 3) 1 1 (fun _ => 0) [1, 7] l = 0 := by decide
  refine (load_kvs_replaces_contents (fun _ => 3) 1 1 [[1, 7]] [2, 9, 4, 5] (by decide) (by decide)).1
    ⟨by decide, ?_⟩
  change HistoryClear (fun _ => 3) 1 1 (fun _ => 0) [[1, 7]] [2, 9, 4, 5]
  refine ⟨?_, ?_, ?_⟩
  · intro entry _ l _
    rfl
  · intro entry _ l lower
    rw [tableBucket, recordBucket, bucket] at lower
    exact low l (Nat.le_of_lt lower)
  · intro key _
    left
    rw [bucket, low 3 (Nat.le_refl 3)]

/-- Two tables of one record each, keys 0 and 1 of eight bytes, under the hash
of the map: the second load swaps its record behind the table. -/
theorem load_kvs_leaves_table :
    (∀ table ∈ [[0, 0, 0, 0, 0, 0, 0, 0, 7], [1, 0, 0, 0, 0, 0, 0, 0, 9]],
      8 + 1 ∣ (table : List Byte).length) ∧
    loadAll BytesHash.keyHash (ofSizes 8 1)
      [[0, 0, 0, 0, 0, 0, 0, 0, 7], [1, 0, 0, 0, 0, 0, 0, 0, 9]] = .error .outOfBounds ∧
    ¬ReplacesContents BytesHash.keyHash 8 1
      [[0, 0, 0, 0, 0, 0, 0, 0, 7]] [1, 0, 0, 0, 0, 0, 0, 0, 9] := by
  have stop : loadAll BytesHash.keyHash (ofSizes 8 1)
      [[0, 0, 0, 0, 0, 0, 0, 0, 7], [1, 0, 0, 0, 0, 0, 0, 0, 9]] = .error .outOfBounds := by
    decide +kernel
  refine ⟨by decide, stop, ?_⟩
  rintro ⟨loaded, fresh, run, _⟩
  rw [List.singleton_append, stop] at run
  cases run

end CppProject.Cannon.ImmutableHashMap
