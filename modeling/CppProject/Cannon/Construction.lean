import CppProject.Cannon.ImmutableHashMap
import CppProject.Library.Placement
import CppProject.Library.Records
import Mathlib.Algebra.Order.BigOperators.Group.Finset
import Mathlib.Tactic.Ring

/-!
# Construction of the hash map

The collision count and the placement loop, read at the level of records.  The
counters that an earlier load has left in `_indexes` are carried along: they
widen the homes of the buckets, and nothing else.
-/

namespace CppProject.Cannon.ImmutableHashMap

open Library Library.Checked Library.Records Library.Placement

variable (hash : List Byte → Nat)

/-- The bucket of a key under a mask. -/
def keyBucket (mask : Nat) (key : List Byte) : Nat := hash key &&& mask

/-- The bucket of a record: that of its first `keySize` bytes. -/
def recordBucket (keySize mask : Nat) (entry : List Byte) : Nat :=
  keyBucket hash mask (entry.take keySize)

theorem recordBucket_lt (keySize mask : Nat) (entry : List Byte) :
    recordBucket hash keySize mask entry < mask + 1 :=
  Nat.lt_succ_of_le Nat.and_le_right

theorem sixteen_le_nextPower (size : Nat) : 16 ≤ nextPower size := Powers.growPower_le_result _ _ _

/-- The rounding loop of `next_power` leaves before its fuel is spent. -/
theorem le_nextPower (size : Nat) : size ≤ nextPower size :=
  Powers.le_growPower (by decide) (by omega)

/-- The sizes of a map whose table is `n` whole records. -/
structure Whole (m : ImmutableHashMap) (n : Nat) : Prop where
  key_le : m.keySize ≤ m.kvSize
  kv_pos : 0 < m.kvSize
  length_eq : m.table.length = n * m.kvSize
  small : m.table.length < 2 ^ 63

/-- The sizes of a map whose table begins with `n` whole records. -/
structure Holds (m : ImmutableHashMap) (n : Nat) : Prop where
  key_le : m.keySize ≤ m.kvSize
  kv_pos : 0 < m.kvSize
  length_le : n * m.kvSize ≤ m.table.length

/-- A map that differs from `m` in its table only. -/
structure SameSizes (m m' : ImmutableHashMap) : Prop where
  keySize_eq : m'.keySize = m.keySize
  valueSize_eq : m'.valueSize = m.valueSize
  kvSize_eq : m'.kvSize = m.kvSize
  kvCount_eq : m'.kvCount = m.kvCount
  hashMask_eq : m'.hashMask = m.hashMask
  indexes_eq : m'.indexes = m.indexes

variable {hash} {m : ImmutableHashMap} {n : Nat}

theorem Whole.length_le (whole : Whole m n) : n * m.kvSize ≤ m.table.length :=
  Nat.le_of_eq whole.length_eq.symm

theorem Whole.holds (whole : Whole m n) : Holds m n :=
  ⟨whole.key_le, whole.kv_pos, whole.length_le⟩

/-- The number of records is an exact `size_t`. -/
theorem Whole.count_lt (whole : Whole m n) : n < 2 ^ 63 :=
  Nat.lt_of_le_of_lt (Nat.le_mul_of_pos_right n whole.kv_pos) (whole.length_eq ▸ whole.small)

/-- The positions of the records are exact `size_t`s. -/
theorem Whole.sizeT_pos (whole : Whole m n) {i : Nat} (inside : i < n) :
    sizeT (i * m.kvSize) = i * m.kvSize := by
  have ends := record_end_le whole.length_le inside
  have small := whole.small
  exact sizeT_of_lt (by omega)

theorem bucketAtPos_record (hash : List Byte → Nat) (holds : Holds m n) {i : Nat} (inside : i < n) :
    bucketAtPos hash m (i * m.kvSize) =
      .ok (recordBucket hash m.keySize m.hashMask (record m.kvSize m.table i)) := by
  have ends := record_end_le holds.length_le inside
  have key_le := holds.key_le
  unfold bucketAtPos recordBucket keyBucket
  rw [readBlock_of_le (by omega), record_take _ _ key_le]
  rfl

/-! ## The collision count -/

/-- The buckets and entries that the construction of `m` sees. -/
abbrev bucketIn (hash : List Byte → Nat) (m : ImmutableHashMap) : List Byte → Nat :=
  recordBucket hash m.keySize m.hashMask

abbrev entriesOf (m : ImmutableHashMap) (n : Nat) : List (List Byte) :=
  records m.kvSize n m.table

theorem bucketIn_lt (hash : List Byte → Nat) (m : ImmutableHashMap) (entry : List Byte) :
    bucketIn hash m entry < m.hashMask + 1 :=
  recordBucket_lt hash m.keySize m.hashMask entry

theorem population_take_succ (bucket : List Byte → Nat) {i : Nat} (inside : i < n) (h : Nat) :
    population bucket ((entriesOf m n).take (i + 1)) h =
      population bucket ((entriesOf m n).take i) h +
        if bucket (record m.kvSize m.table i) = h then 1 else 0 := by
  unfold population
  simp [List.take_add_one, getElem?_records _ inside, List.countP_append, List.countP_singleton]

/-- After `i` rounds every counter has grown by the records counted so far. -/
structure Counted (hash : List Byte → Nat) (m : ImmutableHashMap) (n i : Nat)
    (s : List Nat × Nat) : Prop where
  pos : s.2 = i * m.kvSize
  room : s.1.length = m.hashMask + 2
  counts : ∀ h, sizeT (s.1.getD h 0) =
    sizeT (m.indexes.getD h 0 + population (bucketIn hash m) ((entriesOf m n).take i) h)

theorem countRound_eq {indexes : List Nat} {pos h : Nat} (inside : pos < m.table.length)
    (read : bucketAtPos hash m pos = .ok h) (room : h < indexes.length) :
    countRound hash m (indexes, pos) =
      .ok (some (indexes.set h (sizeT (indexes[h] + 1)), pos + m.kvSize)) := by
  simp only [countRound]
  rw [if_pos inside, read, ok_bind, load_of_lt room, ok_bind, store_of_lt room, ok_bind]

/-- A round of the collision count that goes on has read a key inside the table. -/
theorem countRound_some {s next : List Nat × Nat} (go : countRound hash m s = .ok (some next)) :
    s.2 + m.keySize ≤ m.table.length ∧ next.2 = s.2 + m.kvSize := by
  obtain ⟨indexes, i⟩ := s
  rw [countRound] at go
  split at go
  next =>
    obtain ⟨h, read, go⟩ := bind_eq_ok.mp go
    obtain ⟨count, _, go⟩ := bind_eq_ok.mp go
    obtain ⟨indexes, _, go⟩ := bind_eq_ok.mp go
    cases go
    obtain ⟨key, read, _⟩ := bind_eq_ok.mp read
    exact ⟨readBlock_inside read, rfl⟩
  next => cases go

/-- The collision count leaves only behind the table. -/
theorem countRound_none {s : List Nat × Nat} (done : countRound hash m s = .ok none) :
    m.table.length ≤ s.2 := by
  obtain ⟨indexes, i⟩ := s
  rw [countRound] at done
  split at done
  next =>
    obtain ⟨h, _, done⟩ := bind_eq_ok.mp done
    obtain ⟨count, _, done⟩ := bind_eq_ok.mp done
    obtain ⟨indexes, _, done⟩ := bind_eq_ok.mp done
    cases done
  next finished => exact Nat.le_of_not_lt finished

/-- Counting a record of bucket `h` raises the counter of `h` and no other. -/
theorem getD_count {indexes : List Nat} {h : Nat} (room : h < indexes.length) (other : Nat) :
    sizeT ((indexes.set h (sizeT (indexes[h] + 1))).getD other 0) =
      sizeT (indexes.getD other 0 + if h = other then 1 else 0) := by
  rw [getD_set room]
  split_ifs with same same' same'
  · rw [same, List.getD_eq_getElem?_getD, List.getElem?_eq_getElem room, Option.getD_some]
    exact Nat.mod_mod _ _
  · exact absurd same.symm same'
  · exact absurd same'.symm same
  · rfl

theorem countRound_record (holds : Holds m n) {i : Nat} {s : List Nat × Nat}
    (counted : Counted hash m n i s) (inside : i < n) :
    ∃ next, countRound hash m s = .ok (some next) ∧ Counted hash m n (i + 1) next := by
  obtain ⟨indexes, pos⟩ := s
  obtain ⟨rfl, room, counts⟩ := counted
  have ends := record_end_le holds.length_le inside
  have kv_pos := holds.kv_pos
  have here : bucketIn hash m (record m.kvSize m.table i) < indexes.length :=
    Nat.lt_of_lt_of_le (bucketIn_lt hash m _) (by simp only at room; omega)
  refine ⟨(indexes.set (bucketIn hash m (record m.kvSize m.table i))
    (sizeT (indexes[bucketIn hash m (record m.kvSize m.table i)] + 1)), i * m.kvSize + m.kvSize),
    ?_, (Nat.succ_mul _ _).symm, ?_, ?_⟩
  · exact countRound_eq (by omega) (bucketAtPos_record hash holds inside) here
  · simpa using room
  · intro h
    rw [population_take_succ _ inside, ← Nat.add_assoc, getD_count here h]
    exact Nat.ModEq.add_right _ (counts h)

/-- The counting loop takes one record in every round. -/
theorem countRound_counts (hash : List Byte → Nat) (whole : Whole m n) :
    Loop.CountsDown (countRound hash m) fun left s => ∃ i, i + left = n ∧ Counted hash m n i s where
  leaves s inv := by
    obtain ⟨i, all, counted⟩ := inv
    obtain rfl : i = n := all
    simp only [countRound]
    rw [if_neg (by rw [counted.pos, whole.length_eq]; omega)]
  round left s inv := by
    obtain ⟨i, to_come, counted⟩ := inv
    obtain ⟨next, go, after⟩ := countRound_record whole.holds counted (by omega)
    exact ⟨next, go, i + 1, by omega, after⟩

/-- The collision count adds the population of every bucket to its counter. -/
theorem countCollisions_spec (hash : List Byte → Nat) (whole : Whole m n)
    (room : m.indexes.length = m.hashMask + 2) :
    ∃ counted, countCollisions hash m = .ok counted ∧ counted.length = m.hashMask + 2 ∧
      ∀ h, sizeT (counted.getD h 0) =
        sizeT (m.indexes.getD h 0 + population (bucketIn hash m) (entriesOf m n) h) := by
  have start : Counted hash m n 0 (m.indexes, 0) := ⟨by simp, room, by simp [population]⟩
  have enough : n < m.table.length + 1 := by
    rw [whole.length_eq]
    exact Nat.lt_succ_of_le (Nat.le_mul_of_pos_right n whole.kv_pos)
  obtain ⟨last, left, i, all, counted⟩ :=
    (countRound_counts hash whole).run ⟨0, Nat.zero_add n, start⟩ enough
  obtain rfl : i = n := all
  refine ⟨last.1, by unfold countCollisions; rw [left]; rfl, counted.room, ?_⟩
  intro h
  rw [counted.counts h, List.take_of_length_le (by rw [records_length])]

/-! ## The placement loop -/

/-- The table after `swap_kv`; equal indices leave it alone. -/
def swapped (m : ImmutableHashMap) (x y : Nat) : List Byte :=
  if x = y then m.table else exchange m.kvSize m.table x y

theorem swapped_length (whole : Whole m n) {x y : Nat} (hx : x < n) (hy : y < n) :
    (swapped m x y).length = m.table.length := by
  unfold swapped
  split
  · rfl
  · exact exchange_length whole.length_le hx hy

theorem records_swapped (whole : Whole m n) {x y : Nat} (hx : x < n) (hy : y < n) :
    records m.kvSize n (swapped m x y) = (entriesOf m n).swap x y := by
  unfold swapped
  split
  next same =>
    subst same
    have inside : x < (entriesOf m n).length := by rwa [records_length]
    rw [List.swap_eq_of_lt inside inside, List.set_set, List.set_getElem_self]
  next => exact records_exchange whole.length_le hx hy

theorem swapKv_inside (whole : Whole m n) {x y : Nat} (hx : x < n) (hy : y < n) :
    swapKv m x y = .ok { m with table := swapped m x y } := by
  have x_end := record_end_le whole.length_le hx
  have y_end := record_end_le whole.length_le hy
  have x_size := record_length whole.length_le hx
  have y_size := record_length whole.length_le hy
  have first : (splice m.table (x * m.kvSize) (record m.kvSize m.table y)).length = m.table.length :=
    splice_length (by omega)
  unfold swapKv swapped
  by_cases same : x = y
  · rw [if_pos same, if_pos same]
  · rw [if_neg same, if_neg same]
    simp only [whole.sizeT_pos hx, whole.sizeT_pos hy]
    rw [readBlock_of_le x_end, ok_bind, readBlock_of_le y_end, ok_bind]
    change (writeBlock m.table (x * m.kvSize) (record m.kvSize m.table y) >>= _) = _
    rw [writeBlock_of_le (by omega), ok_bind]
    change (writeBlock _ (y * m.kvSize) (record m.kvSize m.table x) >>= _) = _
    rw [writeBlock_of_le (by omega), ok_bind]
    rfl

theorem swapKv_outside (whole : Whole m n) {x y : Nat} (hx : x < n) (hy : n ≤ y)
    (exactly : y * m.kvSize < 2 ^ 64) : swapKv m x y = .error .outOfBounds := by
  have x_end := record_end_le whole.length_le hx
  have behind : m.table.length < y * m.kvSize + m.kvSize := by
    have := Nat.mul_le_mul_right m.kvSize hy
    have := whole.kv_pos
    have := whole.length_eq
    omega
  rw [swapKv, if_neg (by omega)]
  simp only [whole.sizeT_pos hx, sizeT_of_lt exactly]
  rw [readBlock_of_le x_end, ok_bind, readBlock_eq_error behind]
  rfl

/-- The positions in the homes of occupied buckets are exact `size_t`s. -/
def ExactHomes {bucket : List Byte → Nat} {entries : List (List Byte)} (kvSize : Nat)
    (layout : Layout bucket entries) : Prop :=
  ∀ h, 0 < population bucket entries h → ∀ y, y < layout.stop h → y * kvSize < 2 ^ 64

/-- Homes inside a table lie at exact positions. -/
theorem ExactHomes.of_inside {bucket : List Byte → Nat} {entries : List (List Byte)} {kvSize : Nat}
    {layout : Layout bucket entries} (small : n * kvSize < 2 ^ 64)
    (inside : ∀ h, 0 < population bucket entries h → layout.stop h ≤ n + 1) :
    ExactHomes kvSize layout := by
  intro h occupied y lower
  have within : y ≤ n := Nat.le_of_lt_succ (Nat.lt_of_lt_of_le lower (inside h occupied))
  exact Nat.lt_of_le_of_lt (Nat.mul_le_mul_right kvSize within) small

/-- A map whose `_indexes` hold the starts of a layout, before the placement loop.  Only the
starts of buckets without records may have wrapped. -/
structure Ready (hash : List Byte → Nat) (m : ImmutableHashMap) (n : Nat)
    (layout : Layout (bucketIn hash m) (entriesOf m n)) : Prop where
  whole : Whole m n
  count_eq : m.kvCount = n
  room : m.indexes.length = m.hashMask + 2
  starts : ∀ h, h < m.hashMask + 2 → m.indexes[h]? = some (sizeT (layout.start h))
  exactly : ExactHomes m.kvSize layout

section Place

variable {layout : Layout (bucketIn hash m) (entriesOf m n)}

theorem lt_of_occupied {h : Nat} (occupied : 0 < population (bucketIn hash m) (entriesOf m n) h) :
    h < m.hashMask + 1 := by
  obtain ⟨entry, _, same⟩ := List.countP_pos_iff.mp occupied
  exact of_decide_eq_true same ▸ bucketIn_lt hash m entry

theorem Ready.start_eq (ready : Ready hash m n layout) {h : Nat}
    (occupied : 0 < population (bucketIn hash m) (entriesOf m n) h) :
    m.indexes[h]? = some (layout.start h) := by
  have first := ready.exactly h occupied (layout.start h) (Nat.lt_add_of_pos_right occupied)
  have small := Nat.lt_of_le_of_lt (Nat.le_mul_of_pos_right _ ready.whole.kv_pos) first
  rw [ready.starts h (Nat.lt_succ_of_lt (lt_of_occupied occupied)), sizeT_of_lt small]

/-- The board that a state of the placement loop stands for.  The end index of a bucket
without records is never looked at. -/
def boardOf (layout : Layout (bucketIn hash m) (entriesOf m n)) (s : PlaceState) :
    Board (List Byte) where
  cells := records m.kvSize n s.map.table
  fill h := if 0 < population (bucketIn hash m) (entriesOf m n) h then s.endIndexes.getD h 0
    else layout.start h
  scan := s.i

theorem boardOf_fill {s : PlaceState} {h endIndex : Nat}
    (occupied : 0 < population (bucketIn hash m) (entriesOf m n) h)
    (last : s.endIndexes[h]? = some endIndex) : (boardOf layout s).fill h = endIndex := by
  simp only [boardOf, if_pos occupied, List.getD_eq_getElem?_getD, last, Option.getD_some]

/-- Before the loop every front is at the start of its home. -/
theorem boardOf_initial (ready : Ready hash m n layout) :
    boardOf layout ⟨m, m.indexes, 0⟩ = ⟨entriesOf m n, layout.start, 0⟩ := by
  have fills : (boardOf layout ⟨m, m.indexes, 0⟩).fill = layout.start := by
    funext h
    by_cases occupied : 0 < population (bucketIn hash m) (entriesOf m n) h
    · exact boardOf_fill occupied (ready.start_eq occupied)
    · exact if_neg occupied
  rw [← fills]
  rfl

/-- The loop changes the table, the end indexes of occupied buckets and `i`, along an
admissible board. -/
structure Placed (layout : Layout (bucketIn hash m) (entriesOf m n)) (s : PlaceState) : Prop where
  frame : SameSizes m s.map
  length_eq : s.map.table.length = m.table.length
  room : s.endIndexes.length = m.hashMask + 2
  scan_le : s.i ≤ n
  placing : Placing layout (boardOf layout s)
  idle : ∀ h, ¬0 < population (bucketIn hash m) (entriesOf m n) h → s.endIndexes[h]? = m.indexes[h]?

theorem placed_initial (ready : Ready hash m n layout) : Placed layout ⟨m, m.indexes, 0⟩ := by
  refine ⟨⟨rfl, rfl, rfl, rfl, rfl, rfl⟩, rfl, ready.room, Nat.zero_le _, ?_, fun h _ => rfl⟩
  rw [boardOf_initial ready]
  exact Placing.initial layout

/-- A bucket that the loop finds in the table is occupied. -/
theorem Placed.occupied {s : PlaceState} (placed : Placed layout s) {i h : Nat}
    (here : bucketAt (bucketIn hash m) (boardOf layout s).cells i = some h) :
    0 < population (bucketIn hash m) (entriesOf m n) h := by
  obtain ⟨entry, found, rfl⟩ := (bucketAt_eq_some _).mp here
  rw [← population_perm _ placed.placing.perm]
  exact population_pos _ (List.mem_of_getElem? found)

/-- A record outside the filled front of its home is swapped to a position in the home. -/
theorem Placed.target_lt {s : PlaceState} (placed : Placed layout s) {h endIndex : Nat}
    (here : bucketAt (bucketIn hash m) (boardOf layout s).cells s.i = some h)
    (last : s.endIndexes[h]? = some endIndex)
    (astray : ¬(layout.start h ≤ s.i ∧ s.i < endIndex)) : endIndex < layout.stop h := by
  have fill_eq : (boardOf layout s).fill h = endIndex := boardOf_fill (placed.occupied here) last
  have room := placed.placing.has_room here (by rwa [fill_eq])
  rwa [fill_eq] at room

theorem Placed.whole (ready : Ready hash m n layout) {s : PlaceState} (placed : Placed layout s) :
    Whole s.map n := by
  refine ⟨?_, ?_, ?_, ?_⟩
  · rw [placed.frame.kvSize_eq, placed.frame.keySize_eq]
    exact ready.whole.key_le
  · rw [placed.frame.kvSize_eq]
    exact ready.whole.kv_pos
  · rw [placed.frame.kvSize_eq, placed.length_eq]
    exact ready.whole.length_eq
  · rw [placed.length_eq]
    exact ready.whole.small

/-- The state after a round that swaps record `i` to the front of bucket `h`. -/
def swapTo (s : PlaceState) (h endIndex : Nat) : PlaceState where
  map := { s.map with table := swapped s.map s.i endIndex }
  endIndexes := s.endIndexes.set h (endIndex + 1)
  i := s.i

/-- What a round reads before it decides: the bucket of the record at `i`, and the
begin and the end index of that bucket. -/
def scan (hash : List Byte → Nat) (s : PlaceState) : Except Fault (Nat × Nat × Nat) := do
  let h ← bucketAtPos hash s.map (s.i * s.map.kvSize)
  let beginIndex ← load s.map.indexes h
  let endIndex ← load s.endIndexes h
  .ok (h, beginIndex, endIndex)

/-- A round inside the table decides by what it has read. -/
theorem placeRound_scan {s : PlaceState} {h beginIndex endIndex : Nat} (inside : s.i < s.map.kvCount)
    (read : scan hash s = .ok (h, beginIndex, endIndex)) :
    placeRound hash s =
      if beginIndex ≤ s.i ∧ s.i < endIndex then .ok (some { s with i := s.i + 1 })
      else swapKv s.map s.i endIndex >>= fun map =>
        store s.endIndexes h (sizeT (endIndex + 1)) >>= fun endIndexes =>
          .ok (some { s with map := map, endIndexes := endIndexes }) := by
  obtain ⟨_, bucket, read⟩ := bind_eq_ok.mp read
  obtain ⟨_, first, read⟩ := bind_eq_ok.mp read
  obtain ⟨_, last, read⟩ := bind_eq_ok.mp read
  cases read
  rw [placeRound, if_pos inside, bucket, ok_bind, first, ok_bind, last, ok_bind]

theorem scan_eq (ready : Ready hash m n layout) {s : PlaceState} (placed : Placed layout s)
    (inside : s.i < n) :
    ∃ h endIndex, bucketAt (bucketIn hash m) (boardOf layout s).cells s.i = some h ∧
      s.endIndexes[h]? = some endIndex ∧ scan hash s = .ok (h, layout.start h, endIndex) := by
  have whole := placed.whole ready
  have here : bucketAt (bucketIn hash m) (boardOf layout s).cells s.i =
      some (bucketIn hash m (record m.kvSize s.map.table s.i)) := by
    unfold bucketAt boardOf
    rw [getElem?_records _ inside]
    rfl
  obtain ⟨key, _, kv, _, mask, index⟩ := placed.frame
  have bucket := bucketAtPos_record hash whole.holds inside
  have h_lt := bucketIn_lt hash m (record m.kvSize s.map.table s.i)
  have room : bucketIn hash m (record m.kvSize s.map.table s.i) < s.endIndexes.length := by
    rw [placed.room]
    exact Nat.lt_succ_of_lt h_lt
  refine ⟨bucketIn hash m (record m.kvSize s.map.table s.i),
    s.endIndexes[bucketIn hash m (record m.kvSize s.map.table s.i)], ?_,
    List.getElem?_eq_getElem room, ?_⟩
  · exact here
  · rw [kv, key, mask] at bucket
    rw [scan, kv, bucket, ok_bind, index, load_eq_ok.mpr (ready.start_eq (placed.occupied here)),
      ok_bind, load_of_lt room, ok_bind]

/-- One round before the end of the table: pass over a record that is home, swap
it to the front of its home, or fail when that front lies behind the table. -/
theorem placeRound_eq (ready : Ready hash m n layout) {s : PlaceState}
    (placed : Placed layout s) (inside : s.i < n) :
    ∃ h endIndex, bucketAt (bucketIn hash m) (boardOf layout s).cells s.i = some h ∧
      s.endIndexes[h]? = some endIndex ∧
      placeRound hash s =
        if layout.start h ≤ s.i ∧ s.i < endIndex then .ok (some { s with i := s.i + 1 })
        else if endIndex < n then .ok (some (swapTo s h endIndex))
        else .error .outOfBounds := by
  have whole := placed.whole ready
  obtain ⟨h, endIndex, here, last, read⟩ := scan_eq ready placed inside
  obtain ⟨room, _⟩ := List.getElem?_eq_some_iff.mp last
  refine ⟨h, endIndex, here, last, ?_⟩
  have counted : s.i < s.map.kvCount := by rwa [placed.frame.kvCount_eq, ready.count_eq]
  rw [placeRound_scan counted read]
  split
  · rfl
  next astray =>
    split
    next target =>
      have count_lt := whole.count_lt
      rw [swapKv_inside whole inside target, ok_bind, store_of_lt room, sizeT_of_lt (by omega)]
      rfl
    next target =>
      have exactly := ready.exactly h (placed.occupied here) endIndex (placed.target_lt here last astray)
      rw [← placed.frame.kvSize_eq] at exactly
      rw [swapKv_outside whole inside (Nat.le_of_not_lt target) exactly]
      rfl

/-- The swap of the loop is the swap of the board. -/
theorem boardOf_swapTo (ready : Ready hash m n layout) {s : PlaceState} (placed : Placed layout s)
    (inside : s.i < n) {h endIndex : Nat}
    (occupied : 0 < population (bucketIn hash m) (entriesOf m n) h)
    (last : s.endIndexes[h]? = some endIndex) (target : endIndex < n) :
    boardOf layout (swapTo s h endIndex) =
      { boardOf layout s with
        cells := (boardOf layout s).cells.swap (boardOf layout s).scan ((boardOf layout s).fill h)
        fill := Function.update (boardOf layout s).fill h ((boardOf layout s).fill h + 1) } := by
  obtain ⟨room, _⟩ := List.getElem?_eq_some_iff.mp last
  have cells := records_swapped (placed.whole ready) inside target
  rw [entriesOf, placed.frame.kvSize_eq] at cells
  rw [boardOf_fill occupied last]
  unfold boardOf swapTo
  simp only [cells, Board.mk.injEq, true_and, and_true]
  funext b
  rw [getD_set room, Function.update_apply]
  by_cases same : b = h
  · rw [if_pos same, if_pos same, if_pos (same ▸ occupied)]
  · rw [if_neg same, if_neg same]

/-- Every round that goes on is a move of the board. -/
theorem placeRound_move (ready : Ready hash m n layout) {s next : PlaceState}
    (placed : Placed layout s) (inside : s.i < n) (go : placeRound hash s = .ok (some next)) :
    Placed layout next ∧ Move layout (boardOf layout s) (boardOf layout next) := by
  obtain ⟨h, endIndex, here, last, round⟩ := placeRound_eq ready placed inside
  have occupied := placed.occupied here
  have fill_eq : (boardOf layout s).fill h = endIndex := boardOf_fill occupied last
  rw [round] at go
  split_ifs at go with home target
  · cases go
    have move : Move layout (boardOf layout s) (boardOf layout { s with i := s.i + 1 }) :=
      Move.advance here ⟨home.1, Nat.le_of_lt (fill_eq ▸ home.2)⟩
    exact ⟨⟨placed.frame, placed.length_eq, placed.room, inside, placed.placing.move move,
      placed.idle⟩, move⟩
  · cases go
    have astray : ¬(layout.start h ≤ (boardOf layout s).scan ∧
        (boardOf layout s).scan < (boardOf layout s).fill h) := by rwa [fill_eq]
    have move : Move layout (boardOf layout s) (boardOf layout (swapTo s h endIndex)) := by
      rw [boardOf_swapTo ready placed inside occupied last target]
      exact Move.swap here astray (by rw [fill_eq]; simpa [boardOf] using target)
    obtain ⟨key, value, kv, count, mask, index⟩ := placed.frame
    refine ⟨⟨⟨key, value, kv, count, mask, index⟩,
      (swapped_length (placed.whole ready) inside target).trans placed.length_eq,
      by simpa [swapTo] using placed.room, placed.scan_le, placed.placing.move move, fun b idle => ?_⟩,
      move⟩
    have other : h ≠ b := fun same => idle (same ▸ occupied)
    rw [swapTo, List.getElem?_set_ne other]
    exact placed.idle b idle

/-- A round fails only by a swap with a position behind the table, when the home
of an occupied bucket sticks out of it. -/
theorem placeRound_fault (ready : Ready hash m n layout) {s : PlaceState} {fault : Fault}
    (placed : Placed layout s) (inside : s.i < n) (stop : placeRound hash s = .error fault) :
    fault = .outOfBounds ∧
      ∃ h, 0 < population (bucketIn hash m) (entriesOf m n) h ∧ n < layout.stop h := by
  obtain ⟨h, endIndex, here, last, round⟩ := placeRound_eq ready placed inside
  rw [round] at stop
  split_ifs at stop with home target
  cases stop
  have room := placed.target_lt here last home
  exact ⟨rfl, h, placed.occupied here, by omega⟩

theorem placeRound_ne_done (ready : Ready hash m n layout) {s : PlaceState}
    (placed : Placed layout s) (inside : s.i < n) : placeRound hash s ≠ .ok none := by
  obtain ⟨h, endIndex, _, _, round⟩ := placeRound_eq ready placed inside
  rw [round]
  split_ifs <;> intro impossible <;> cases impossible

theorem placeRound_done (ready : Ready hash m n layout) {s : PlaceState}
    (placed : Placed layout s) (finished : s.i = n) : placeRound hash s = .ok none := by
  have count : s.map.kvCount = n := placed.frame.kvCount_eq.trans ready.count_eq
  rw [placeRound, if_neg (by omega)]

/-- What a finished placement leaves: the same map with its records rearranged
so that the positions of a home hold exactly its bucket. -/
structure Arranged (layout : Layout (bucketIn hash m) (entriesOf m n)) (placed : ImmutableHashMap) :
    Prop where
  frame : SameSizes m placed
  length_eq : placed.table.length = m.table.length
  perm : (records m.kvSize n placed.table).Perm (entriesOf m n)
  home_iff : ∀ i, i < n → ∀ h,
    bucketIn hash m (record m.kvSize placed.table i) = h ↔ layout.Home h i

theorem placeFuel_enough (ready : Ready hash m n layout) :
    remaining layout (m.hashMask + 1) (boardOf layout ⟨m, m.indexes, 0⟩) < placeFuel m := by
  have bound := (placed_initial ready).placing.remaining_le (m.hashMask + 1)
  rw [records_length] at bound
  have fuel : n * (m.hashMask + 2 + 1) = n + (m.hashMask + 1) * n + n := by ring
  rw [placeFuel, ready.count_eq, ready.room, fuel]
  omega

/-- The placement loop ends.  It leaves the table arranged when all occupied
homes lie inside the table, and otherwise swaps with a position behind it. -/
theorem place_spec (ready : Ready hash m n layout) :
    (∃ placed, place hash m = .ok placed ∧ Arranged layout placed ∧
      ∀ h, 0 < population (bucketIn hash m) (entriesOf m n) h → layout.stop h ≤ n) ∨
    (place hash m = .error .outOfBounds ∧
      ∃ h, 0 < population (bucketIn hash m) (entriesOf m n) h ∧ n < layout.stop h) := by
  have round : ∀ s, Placed layout s → Loop.Round (placeRound hash) (Placed layout)
      (fun s => remaining layout (m.hashMask + 1) (boardOf layout s))
      (fun fault => fault = .outOfBounds ∧
        ∃ h, 0 < population (bucketIn hash m) (entriesOf m n) h ∧ n < layout.stop h) s := by
    intro s placed
    rcases Nat.lt_or_eq_of_le placed.scan_le with inside | finished
    · cases go : placeRound hash s with
      | error fault => exact Or.inr (Or.inl ⟨fault, go, placeRound_fault ready placed inside go⟩)
      | ok next =>
          cases next with
          | none => exact absurd go (placeRound_ne_done ready placed inside)
          | some next =>
              obtain ⟨after, move⟩ := placeRound_move ready placed inside go
              exact Or.inr (Or.inr ⟨next, go, after,
                move_remaining_lt (bucketIn_lt hash m) placed.placing move⟩)
    · exact Or.inl (placeRound_done ready placed finished)
  rcases Loop.ends round (placed_initial ready) (placeFuel_enough ready) with
    ⟨last, left, placed, done⟩ | ⟨fault, stop, rfl, out⟩
  · left
    have finished : last.i = n := by
      by_contra other
      exact placeRound_ne_done ready placed (Nat.lt_of_le_of_ne placed.scan_le other) done
    have cells : (boardOf layout last).cells.length ≤ (boardOf layout last).scan := by
      simp [boardOf, finished]
    refine ⟨last.map, by unfold place; rw [left]; rfl,
      ⟨placed.frame, placed.length_eq, placed.placing.perm, ?_⟩, ?_⟩
    · intro i inside h
      rw [← placed.placing.bucketAt_iff cells (by simpa [boardOf] using inside) h]
      unfold bucketAt boardOf
      rw [getElem?_records _ inside]
      simp
    · intro h occupied
      have := placed.placing.stop_le_length cells occupied
      rwa [records_length] at this
  · right
    exact ⟨by unfold place; rw [stop]; rfl, out⟩

end Place

end CppProject.Cannon.ImmutableHashMap
