import CppProject.Cannon.BytesHash
import CppProject.Cannon.Loading
import Mathlib.Data.List.Sigma

/-!
# Lookups in a loaded map

`seek` scans the home of the key's bucket, and then the spare positions that a
leftover counter has put behind that home.  On a fresh map there are no spare
positions and `seek` is the association lookup of the loaded table.
-/

namespace CppProject.Cannon.ImmutableHashMap

open Library Library.Checked Library.Records Library.Placement

/-- The key bytes of record `i`. -/
def keyAt (keySize valueSize : Nat) (kvs : List Byte) (i : Nat) : List Byte :=
  slice kvs (i * (keySize + valueSize)) keySize

/-- The value bytes of record `i`. -/
def valueAt (keySize valueSize : Nat) (kvs : List Byte) (i : Nat) : List Byte :=
  slice kvs (i * (keySize + valueSize) + keySize) valueSize

/-- The records of a table as pairs of key and value bytes, in table order. -/
def association (keySize valueSize n : Nat) (kvs : List Byte) : List ((_ : List Byte) × List Byte) :=
  (List.range n).map fun i => ⟨keyAt keySize valueSize kvs i, valueAt keySize valueSize kvs i⟩

theorem association_eq_map (keySize valueSize n : Nat) (kvs : List Byte) :
    association keySize valueSize n kvs =
      (records (keySize + valueSize) n kvs).map fun entry =>
        ⟨entry.take keySize, entry.drop keySize⟩ := by
  unfold association records
  rw [List.map_map]
  apply List.map_congr_left
  intro i _
  simp only [Function.comp_apply, keyAt, valueAt, record_take kvs i (Nat.le_add_right _ _),
    record_drop kvs i valueSize rfl]

variable {hash : List Byte → Nat} {m r : ImmutableHashMap} {n : Nat} {kvs key : List Byte}

/-! ## The scan -/

theorem seekFrom_succ (left first : Nat) :
    seekFrom m key (left + 1) first =
      readBlock m.table (sizeT (first * m.kvSize)) m.keySize >>= fun stored =>
        if stored = key then .ok (some (sizeT (first * m.kvSize + m.keySize)))
        else seekFrom m key left (first + 1) := rfl

/-- The position of a value is an exact `size_t`. -/
theorem Whole.sizeT_value (whole : Whole m n) {i : Nat} (inside : i < n) :
    sizeT (i * m.kvSize + m.keySize) = i * m.kvSize + m.keySize := by
  have ends := record_end_le whole.length_le inside
  have key_le := whole.key_le
  have small := whole.small
  exact sizeT_of_lt (by omega)

theorem readKey (whole : Whole m n) {i : Nat} (inside : i < n) :
    readBlock m.table (i * m.kvSize) m.keySize = .ok (slice m.table (i * m.kvSize) m.keySize) := by
  have ends := record_end_le whole.length_le inside
  have := whole.key_le
  exact readBlock_of_le (by omega)

/-- A scan over positions of the table finds a matching key, or none of them matches. -/
theorem seekFrom_inside (key : List Byte) (whole : Whole m n) {left first : Nat}
    (inside : left = 0 ∨ first + left ≤ n) :
    (∃ i, i < n ∧ slice m.table (i * m.kvSize) m.keySize = key ∧
      seekFrom m key left first = .ok (some (i * m.kvSize + m.keySize))) ∨
    ((∀ i, first ≤ i → i < first + left → slice m.table (i * m.kvSize) m.keySize ≠ key) ∧
      seekFrom m key left first = .ok none) := by
  induction left generalizing first with
  | zero =>
      right
      exact ⟨fun i low high => absurd high (Nat.not_lt.mpr low), rfl⟩
  | succ left ih =>
      have first_lt : first < n := by omega
      rw [seekFrom_succ, whole.sizeT_pos first_lt, readKey whole first_lt, ok_bind]
      by_cases found : slice m.table (first * m.kvSize) m.keySize = key
      · left
        exact ⟨first, first_lt, found, by rw [if_pos found, whole.sizeT_value first_lt]⟩
      · rw [if_neg found]
        rcases @ih (first + 1) (by omega) with hit | ⟨miss, none⟩
        · exact Or.inl hit
        · right
          refine ⟨?_, none⟩
          intro i low high
          rcases Nat.eq_or_lt_of_le low with rfl | later
          · exact found
          · exact miss i later (by omega)

theorem seekFrom_append (left right first : Nat) :
    seekFrom m key (left + right) first =
      seekFrom m key left first >>= fun found =>
        match found with
        | some pos => .ok (some pos)
        | none => seekFrom m key right (first + left) := by
  induction left generalizing first with
  | zero => rw [Nat.zero_add]; rfl
  | succ left ih =>
      rw [Nat.succ_add, seekFrom_succ, seekFrom_succ]
      cases readBlock m.table (sizeT (first * m.kvSize)) m.keySize with
      | error fault => rfl
      | ok stored =>
          simp only [ok_bind]
          split
          · rfl
          · rw [ih, Nat.add_assoc, Nat.add_comm 1 left]

theorem seekFrom_congr (table : m.table = r.table) (key_eq : m.keySize = r.keySize)
    (kv : m.kvSize = r.kvSize) (left first : Nat) :
    seekFrom m key left first = seekFrom r key left first := by
  induction left generalizing first with
  | zero => rfl
  | succ left ih => rw [seekFrom_succ, seekFrom_succ, ih, table, key_eq, kv]

/-- The value read behind a position that a scan has found. -/
def readFound (m : ImmutableHashMap) : Option Nat → Except Fault (Option (List Byte))
  | none => .ok none
  | some pos => do
      let value ← readBlock m.table pos m.valueSize
      .ok (some value)

theorem seekValue_eq (hash : List Byte → Nat) (m : ImmutableHashMap) (key : List Byte) :
    seekValue hash m key = seek hash m key >>= readFound m := rfl

theorem readFound_congr (table : m.table = r.table) (value : m.valueSize = r.valueSize)
    (found : Option Nat) : readFound m found = readFound r found := by
  cases found with
  | none => rfl
  | some pos => simp only [readFound, table, value]

/-! ## Seeking in a loaded map -/

section Loaded

variable {layout : Layout (loadBucket hash m n) (records m.kvSize n kvs)} {loaded : ImmutableHashMap}

theorem Loaded.whole (fitting : Fitting m n kvs) (after : Loaded hash m n kvs layout loaded) :
    Whole loaded n := by
  refine ⟨?_, ?_, ?_, ?_⟩
  · rw [after.keySize_eq, after.kvSize_eq]
    exact fitting.key_le
  · rw [after.kvSize_eq]
    exact fitting.kv_pos
  · rw [after.kvSize_eq]
    exact after.length_eq
  · rw [after.length_eq, ← fitting.length_eq]
    exact fitting.small

section Starts

variable (mask : loaded.hashMask = nextPower n - 1)
  (starts : ∀ h, h ≤ nextPower n → loaded.indexes[h]? = some (sizeT (layout.start h)))

include mask starts

/-- `seek` scans from the start of the key's bucket to that of the next. -/
theorem seek_starts {h : Nat} (bucket : keyBucket hash (nextPower n - 1) key = h) :
    seek hash loaded key =
      seekFrom loaded key (sizeT (layout.start (h + 1)) - sizeT (layout.start h))
        (sizeT (layout.start h)) := by
  have big := sixteen_le_nextPower n
  have h_le : h ≤ nextPower n - 1 := bucket ▸ Nat.and_le_right
  unfold keyBucket at bucket
  rw [seek, mask]
  simp only [bucket]
  rw [load_eq_ok.mpr (starts h (by omega)), ok_bind, load_eq_ok.mpr (starts (h + 1) (by omega)), ok_bind]

/-- Nothing is found in a bucket without records and without spare positions. -/
theorem seek_idle {h : Nat} (bucket : keyBucket hash (nextPower n - 1) key = h)
    (empty : population (loadBucket hash m n) (records m.kvSize n kvs) h = 0)
    (next : layout.start (h + 1) = layout.stop h) : seek hash loaded key = .ok none := by
  have same : layout.start (h + 1) = layout.start h := by
    rw [next, Layout.stop, empty, Nat.add_zero]
  rw [seek_starts mask starts bucket, same, Nat.sub_self]
  rfl

/-- Up to an exact start of the next bucket, `seek` scans the home of the key's bucket and
then its spare positions. -/
theorem seek_loaded {h spares : Nat} (bucket : keyBucket hash (nextPower n - 1) key = h)
    (next : layout.start (h + 1) = layout.stop h + spares) (small : layout.start (h + 1) < 2 ^ 64) :
    seek hash loaded key =
      seekFrom loaded key (population (loadBucket hash m n) (records m.kvSize n kvs) h)
        (layout.start h) >>= fun found =>
          match found with
          | some pos => .ok (some pos)
          | none => seekFrom loaded key spares (layout.stop h) := by
  have ordered : layout.start h ≤ layout.start (h + 1) :=
    Nat.le_trans (Nat.le_add_right _ _) (layout.spaced h)
  rw [seek_starts mask starts bucket, sizeT_of_lt small, sizeT_of_lt (by omega), next]
  have width : layout.stop h + spares - layout.start h =
      population (loadBucket hash m n) (records m.kvSize n kvs) h + spares := by
    unfold Layout.stop
    omega
  rw [width, seekFrom_append]
  rfl

end Starts

/-- The scan of the home finds the key exactly when some record has it. -/
theorem seekHome (key : List Byte) (fitting : Fitting m n kvs)
    (after : Loaded hash m n kvs layout loaded)
    (inside : ∀ h, 0 < population (loadBucket hash m n) (records m.kvSize n kvs) h → layout.stop h ≤ n)
    {h : Nat} (bucket : keyBucket hash (nextPower n - 1) key = h) :
    (∃ i, i < n ∧ slice loaded.table (i * loaded.kvSize) loaded.keySize = key ∧
      seekFrom loaded key (population (loadBucket hash m n) (records m.kvSize n kvs) h)
        (layout.start h) = .ok (some (i * loaded.kvSize + loaded.keySize))) ∨
    ((∀ i, i < n → slice loaded.table (i * loaded.kvSize) loaded.keySize ≠ key) ∧
      seekFrom loaded key (population (loadBucket hash m n) (records m.kvSize n kvs) h)
        (layout.start h) = .ok none) := by
  have whole := after.whole fitting
  have range : population (loadBucket hash m n) (records m.kvSize n kvs) h = 0 ∨
      layout.start h + population (loadBucket hash m n) (records m.kvSize n kvs) h ≤ n :=
    (Nat.eq_zero_or_pos _).imp_right (inside h)
  rcases seekFrom_inside key whole range with hit | ⟨miss, none⟩
  · exact Or.inl hit
  · right
    refine ⟨?_, none⟩
    intro i i_lt same
    have home := (after.home_iff i i_lt h).mp (by
      unfold loadBucket recordBucket
      rw [record_take _ _ fitting.key_le, ← after.kvSize_eq, ← after.keySize_eq, same, bucket])
    exact miss i home.1 home.2 same

/-- The scan of the home, at the level of records. -/
theorem seekHome_held (fitting : Fitting m n kvs) (after : Loaded hash m n kvs layout loaded)
    (inside : ∀ h, 0 < population (loadBucket hash m n) (records m.kvSize n kvs) h → layout.stop h ≤ n)
    {h : Nat} (bucket : keyBucket hash (nextPower n - 1) key = h) :
    (∃ i, i < n ∧
      seekFrom loaded key (population (loadBucket hash m n) (records m.kvSize n kvs) h)
        (layout.start h) = .ok (some (i * loaded.kvSize + loaded.keySize)) ∧
      ∃ entry ∈ records m.kvSize n kvs, entry.take m.keySize = key) ∨
    (seekFrom loaded key (population (loadBucket hash m n) (records m.kvSize n kvs) h)
        (layout.start h) = .ok none ∧
      ¬∃ entry ∈ records m.kvSize n kvs, entry.take m.keySize = key) := by
  rcases seekHome key fitting after inside bucket with ⟨i, i_lt, same, hit⟩ | ⟨miss, none⟩
  · left
    have member : record m.kvSize loaded.table i ∈ records m.kvSize n loaded.table :=
      mem_records.mpr ⟨i, i_lt, rfl⟩
    refine ⟨i, i_lt, hit, _, after.perm.mem_iff.mp member, ?_⟩
    rw [record_take _ _ fitting.key_le, ← after.kvSize_eq, ← after.keySize_eq, same]
  · right
    refine ⟨none, ?_⟩
    rintro ⟨entry, member, same⟩
    obtain ⟨i, i_lt, rfl⟩ := mem_records.mp (after.perm.mem_iff.mpr member)
    apply miss i i_lt
    rw [after.kvSize_eq, after.keySize_eq, ← record_take _ _ fitting.key_le, same]

end Loaded

/-- The next home of a load starts behind the counter of this one. -/
theorem loadLayout_next (hash : List Byte → Nat) (m : ImmutableHashMap) (n : Nat) (kvs : List Byte)
    (h : Nat) : (loadLayout hash m n kvs).start (h + 1) =
      (loadLayout hash m n kvs).stop h + leftover m h := Layout.widened_start_succ _ _

theorem readValue (whole : Whole m n) (sizes : m.kvSize = m.keySize + m.valueSize) {i : Nat}
    (inside : i < n) :
    readBlock m.table (i * m.kvSize + m.keySize) m.valueSize =
      .ok (valueAt m.keySize m.valueSize m.table i) := by
  have ends := record_end_le whole.length_le inside
  rw [readBlock_of_le (by omega), sizes]
  rfl

theorem mem_association {keySize valueSize : Nat} {pair : (_ : List Byte) × List Byte} :
    pair ∈ association keySize valueSize n kvs ↔
      ∃ i, i < n ∧ pair = ⟨keyAt keySize valueSize kvs i, valueAt keySize valueSize kvs i⟩ := by
  unfold association
  simp only [List.mem_map, List.mem_range, eq_comm]

/-- Loading rearranges the pairs of the table. -/
theorem Loaded.association_perm {layout : Layout (loadBucket hash m n) (records m.kvSize n kvs)}
    {loaded : ImmutableHashMap} (after : Loaded hash m n kvs layout loaded)
    (sizes : m.kvSize = m.keySize + m.valueSize) :
    (association m.keySize m.valueSize n loaded.table).Perm
      (association m.keySize m.valueSize n kvs) := by
  rw [association_eq_map, association_eq_map, ← sizes]
  exact after.perm.map _

/-- Without leftover counters the homes are packed, and end with the table. -/
theorem start_le_of_fresh (fresh : ∀ h, leftover m h = 0) (h : Nat) :
    (loadLayout hash m n kvs).start h ≤ n := by
  rw [loadLayout, Layout.widened_start, Finset.sum_eq_zero fun l _ => fresh l, Nat.zero_add]
  have held := List.countP_le_length (p := fun entry => decide (loadBucket hash m n entry < h))
    (l := records m.kvSize n kvs)
  rwa [records_length] at held

/-- A lookup over a map without leftover counters answers from the pairs of the
table: with a value stored under the key, or with nothing when there is none. -/
theorem seekValue_loaded (fitting : Fitting m n kvs) (sizes : m.kvSize = m.keySize + m.valueSize)
    (fresh : ∀ h, leftover m h = 0) {loaded : ImmutableHashMap}
    (after : Loaded hash m n kvs (loadLayout hash m n kvs) loaded) (key : List Byte) :
    (∃ value, seekValue hash loaded key = .ok (some value) ∧
      ⟨key, value⟩ ∈ association m.keySize m.valueSize n kvs) ∨
    (seekValue hash loaded key = .ok none ∧
      ∀ pair ∈ association m.keySize m.valueSize n kvs, pair.1 ≠ key) := by
  have whole := after.whole fitting
  have loaded_sizes : loaded.kvSize = loaded.keySize + loaded.valueSize := by
    rw [after.kvSize_eq, after.keySize_eq, after.valueSize_eq, sizes]
  have inside := clear_iff_inside.mp (fun _ _ l _ => fresh l : Clear hash m n kvs)
  have count_lt := whole.count_lt
  have perm := after.association_perm sizes
  rw [seekValue, seek_loaded after.hashMask_eq after.starts rfl (loadLayout_next hash m n kvs _)
    ((start_le_of_fresh fresh _).trans_lt (by omega)), fresh]
  rcases seekHome key fitting after inside rfl with ⟨i, i_lt, same, hit⟩ | ⟨miss, none⟩
  · left
    rw [hit]
    refine ⟨valueAt m.keySize m.valueSize loaded.table i, ?_, ?_⟩
    · simp only [ok_bind]
      rw [readValue whole loaded_sizes i_lt, after.keySize_eq, after.valueSize_eq]
      rfl
    · apply perm.mem_iff.mp
      refine mem_association.mpr ⟨i, i_lt, ?_⟩
      rw [← same, keyAt, ← sizes, after.kvSize_eq, after.keySize_eq]
  · right
    rw [none]
    refine ⟨rfl, ?_⟩
    intro pair member same
    obtain ⟨i, i_lt, rfl⟩ := mem_association.mp (perm.mem_iff.mpr member)
    apply miss i i_lt
    rw [after.kvSize_eq, after.keySize_eq, sizes]
    exact same

/-! ## The lookup table of one load -/

section Fresh

variable {keySize valueSize : UInt64}

/-- The sum of the sizes does not wrap when a table has a record of these sizes. -/
theorem sizes_exact (filled : n ≠ 0) (whole : kvs.length = n * (keySize.toNat + valueSize.toNat))
    (small : kvs.length < 2 ^ 63) : (keySize + valueSize).toNat = keySize.toNat + valueSize.toNat := by
  have one := Nat.le_mul_of_pos_left (keySize.toNat + valueSize.toNat) (Nat.pos_of_ne_zero filled)
  rw [UInt64.toNat_add, Nat.mod_eq_of_lt (by omega)]

/-- With key bytes the sum of the sizes is zero only if it has wrapped around. -/
theorem sum_ne_zero_iff (key_pos : 1 ≤ keySize) :
    keySize + valueSize ≠ 0 ↔ keySize.toNat + valueSize.toNat ≠ 2 ^ 64 := by
  have key_lt := keySize.toNat_lt
  have value_lt := valueSize.toNat_lt
  have positive : 1 ≤ keySize.toNat := UInt64.le_iff_toNat_le.mp key_pos
  rw [ne_eq, ne_eq, ← UInt64.toNat_inj, UInt64.toNat_add, UInt64.toNat_zero]
  omega

theorem kvSize_pos (positive : keySize + valueSize ≠ 0) : 0 < (ofSizes keySize valueSize).kvSize :=
  Nat.pos_of_ne_zero fun zero => positive (UInt64.toNat_inj.mp zero)

theorem fitting_ofSizes (positive : keySize + valueSize ≠ 0) (filled : n ≠ 0)
    (whole : kvs.length = n * (keySize.toNat + valueSize.toNat)) (small : kvs.length < 2 ^ 63) :
    Fitting (ofSizes keySize valueSize) n kvs := by
  have sum : (ofSizes keySize valueSize).kvSize = _ := sizes_exact filled whole small
  refine ⟨?_, kvSize_pos positive, ?_, small⟩
  · rw [sum]
    exact Nat.le_add_right _ _
  · rw [sum, whole]

theorem leftover_ofSizes (keySize valueSize : UInt64) (h : Nat) :
    leftover (ofSizes keySize valueSize) h = 0 := rfl

theorem clear_ofSizes (hash : List Byte → Nat) (keySize valueSize : UInt64) (n : Nat) (kvs : List Byte) :
    Clear hash (ofSizes keySize valueSize) n kvs := fun _ _ l _ => leftover_ofSizes keySize valueSize l

theorem positive_of_load {loaded : ImmutableHashMap}
    (run : loadKvs hash (ofSizes keySize valueSize) kvs = .ok loaded) : keySize + valueSize ≠ 0 :=
  fun zero => kvSize_ne_zero_of_load run (congrArg UInt64.toNat zero)

/-- A fresh map can load every table of whole records, unless the sizes add up to zero. -/
theorem loadKvs_whole (hash : List Byte → Nat) (positive : keySize + valueSize ≠ 0)
    (whole : kvs.length = n * (keySize.toNat + valueSize.toNat)) (small : kvs.length < 2 ^ 63) :
    ∃ loaded, loadKvs hash (ofSizes keySize valueSize) kvs = .ok loaded := by
  rcases Nat.eq_zero_or_pos n with rfl | filled
  · rw [Nat.zero_mul] at whole
    obtain rfl := List.length_eq_zero_iff.mp whole
    obtain ⟨loaded, run, _⟩ := load_empty hash (leftover_ofSizes keySize valueSize) (kvSize_pos positive)
    exact ⟨loaded, run⟩
  · have fitting := fitting_ofSizes positive filled.ne' whole small
    obtain ⟨loaded, run, _⟩ := (clear_ofSizes hash keySize valueSize n kvs).load fitting
    exact ⟨loaded, run⟩

/-- A fresh map that has loaded whole records answers from their pairs. -/
theorem seekValue_whole (whole : kvs.length = n * (keySize.toNat + valueSize.toNat))
    (small : kvs.length < 2 ^ 63) {loaded : ImmutableHashMap}
    (run : loadKvs hash (ofSizes keySize valueSize) kvs = .ok loaded) (key : List Byte) :
    (∃ value, seekValue hash loaded key = .ok (some value) ∧
      ⟨key, value⟩ ∈ association keySize.toNat valueSize.toNat n kvs) ∨
    (seekValue hash loaded key = .ok none ∧
      ∀ pair ∈ association keySize.toNat valueSize.toNat n kvs, pair.1 ≠ key) := by
  have positive := positive_of_load run
  rcases Nat.eq_zero_or_pos n with rfl | filled
  · rw [Nat.zero_mul] at whole
    obtain rfl := List.length_eq_zero_iff.mp whole
    obtain ⟨other, run', _, _, absent⟩ :=
      load_empty hash (leftover_ofSizes keySize valueSize) (kvSize_pos positive)
    rw [run] at run'
    cases run'
    refine Or.inr ⟨?_, fun pair member => by cases member⟩
    rw [seekValue, absent]
    rfl
  · have fitting := fitting_ofSizes positive filled.ne' whole small
    have after := (clear_ofSizes hash keySize valueSize n kvs).loaded fitting run
    exact seekValue_loaded fitting (sizes_exact filled.ne' whole small)
      (leftover_ofSizes keySize valueSize) after key

/-- With pairwise distinct keys a lookup is the association lookup of the table. -/
theorem seekValue_eq_dlookup (whole : kvs.length = n * (keySize.toNat + valueSize.toNat))
    (small : kvs.length < 2 ^ 63)
    (distinct : (association keySize.toNat valueSize.toNat n kvs).NodupKeys) {loaded : ImmutableHashMap}
    (run : loadKvs hash (ofSizes keySize valueSize) kvs = .ok loaded) (key : List Byte) :
    seekValue hash loaded key =
      .ok ((association keySize.toNat valueSize.toNat n kvs).dlookup key) := by
  rcases seekValue_whole whole small run key with ⟨value, found, member⟩ | ⟨absent, different⟩
  · rw [found, List.mem_dlookup distinct member]
  · rw [absent, List.dlookup_eq_none.mpr]
    intro member
    obtain ⟨value, pair⟩ := List.exists_of_mem_keys member
    exact different _ pair rfl

/-- What a map answers after it has loaded a table of `n` whole records: every key with a value
that the table stores under it, or with nothing when it stores none.  With distinct keys this
is the association lookup, and the order of the records does not matter. -/
structure AnswersTable (hash : List Byte → Nat) (keySize valueSize : UInt64) (n : Nat)
    (kvs : List Byte) (loaded : ImmutableHashMap) : Prop where
  stored : ∀ key, key.length = keySize.toNat → ∃ answer, seekValue hash loaded key = .ok answer ∧
    (answer = none ↔ ∀ pair ∈ association keySize.toNat valueSize.toNat n kvs, pair.1 ≠ key) ∧
    ∀ value, answer = some value → ⟨key, value⟩ ∈ association keySize.toNat valueSize.toNat n kvs
  lookup : (association keySize.toNat valueSize.toNat n kvs).NodupKeys →
    ∀ key, key.length = keySize.toNat →
      seekValue hash loaded key =
        .ok ((association keySize.toNat valueSize.toNat n kvs).dlookup key)
  anyOrder : (association keySize.toNat valueSize.toNat n kvs).NodupKeys →
    ∀ other, other.length = n * (keySize.toNat + valueSize.toNat) →
      (association keySize.toNat valueSize.toNat n other).Perm
        (association keySize.toNat valueSize.toNat n kvs) →
      ∃ loaded', loadKvs hash (ofSizes keySize valueSize) other = .ok loaded' ∧
        ∀ key, key.length = keySize.toNat → seekValue hash loaded' key = seekValue hash loaded key

theorem answersTable (whole : kvs.length = n * (keySize.toNat + valueSize.toNat))
    (small : kvs.length < 2 ^ 63) (positive : keySize + valueSize ≠ 0) {loaded : ImmutableHashMap}
    (run : loadKvs hash (ofSizes keySize valueSize) kvs = .ok loaded) :
    AnswersTable hash keySize valueSize n kvs loaded := by
  refine ⟨?_, fun distinct key _ => seekValue_eq_dlookup whole small distinct run key, ?_⟩
  · intro key _
    rcases seekValue_whole whole small run key with ⟨value, found, member⟩ | ⟨absent, different⟩
    · refine ⟨some value, found, ⟨(fun impossible => by cases impossible), ?_⟩, ?_⟩
      · intro different
        exact absurd rfl (different _ member)
      · intro other same
        cases same
        exact member
    · exact ⟨none, absent, ⟨fun _ => different, fun _ => rfl⟩, fun _ impossible => by cases impossible⟩
  · intro distinct other other_whole perm
    have other_small : other.length < 2 ^ 63 := by rwa [other_whole, ← whole]
    obtain ⟨loaded', run'⟩ := loadKvs_whole hash positive other_whole other_small
    refine ⟨loaded', run', fun key _ => ?_⟩
    have distinct' := (List.perm_nodupKeys perm).mpr distinct
    rw [seekValue_eq_dlookup other_whole other_small distinct' run' key,
      seekValue_eq_dlookup whole small distinct run key, List.perm_dlookup key distinct' perm]

/-- After a table of whole records has been loaded into a fresh map, `seek` answers from the
table, unless the two sizes add up to `2 ^ 64`.  Then `_kv_size` is zero and every load
divides by it, that of an empty table too. -/
theorem load_kvs_then_seek_iff (hash : List Byte → Nat) (keySize valueSize : UInt64) (n : Nat)
    (kvs : List Byte) (key_pos : 1 ≤ keySize)
    (whole : kvs.length = n * (keySize.toNat + valueSize.toNat)) (small : kvs.length < 2 ^ 63) :
    (∃ loaded, loadKvs hash (ofSizes keySize valueSize) kvs = .ok loaded ∧
      AnswersTable hash keySize valueSize n kvs loaded) ↔
      keySize.toNat + valueSize.toNat ≠ 2 ^ 64 := by
  rw [← sum_ne_zero_iff key_pos]
  constructor
  · rintro ⟨_, run, _⟩
    exact positive_of_load run
  · intro positive
    obtain ⟨loaded, run⟩ := loadKvs_whole hash positive whole small
    exact ⟨loaded, run, answersTable whole small positive run⟩

/-- Two records of one bucket under a constant hash. -/
theorem load_kvs_then_seek_two_records :
    ∃ loaded, loadKvs (fun _ => 3) (ofSizes 1 1) [1, 7, 2, 9] = .ok loaded ∧
      seekValue (fun _ => 3) loaded [2] = .ok (some [9]) ∧
      seekValue (fun _ => 3) loaded [5] = .ok none := by
  obtain ⟨loaded, run, answers⟩ :=
    (load_kvs_then_seek_iff (fun _ => 3) 1 1 2 [1, 7, 2, 9] (by decide) (by decide) (by decide)).mpr
      (by decide)
  have distinct : (association 1 1 2 [1, 7, 2, 9]).keys.Nodup := by decide
  exact ⟨loaded, run, answers.lookup distinct [2] rfl, answers.lookup distinct [5] rfl⟩

/-- Keys of one byte and values of `2 ^ 64 - 1`: no load returns, not even that of no records. -/
theorem load_kvs_sizes_wrap :
    loadKvs BytesHash.keyHash (ofSizes 1 18446744073709551615) [] = .error .divisionByZero ∧
    ¬∃ loaded, loadKvs BytesHash.keyHash (ofSizes 1 18446744073709551615) [] = .ok loaded ∧
      AnswersTable BytesHash.keyHash 1 18446744073709551615 0 [] loaded := by
  have stop : loadKvs BytesHash.keyHash (ofSizes 1 18446744073709551615) [] = .error .divisionByZero :=
    loadKvs_without_bytes _ (by decide) _
  refine ⟨stop, ?_⟩
  rintro ⟨loaded, run, _⟩
  rw [stop] at run
  cases run

end Fresh

end CppProject.Cannon.ImmutableHashMap
