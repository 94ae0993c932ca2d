import CppProject.Cannon.BytesHash
import CppProject.Cannon.Lookup
import Mathlib.Algebra.BigOperators.Group.Finset.Piecewise

/-!
# Tables that end in a partial record

`load_kv_file` never checks the size of a file, so a table may end in the
beginning of a record.  The collision count strides over it as over a record,
while the placement loop and `_kv_count` know the whole records only.
-/

namespace CppProject.Cannon.ImmutableHashMap

open Library Library.Checked Library.Records Library.Placement

variable {hash : List Byte → Nat} {m : ImmutableHashMap} {n : Nat} {whole back : List Byte}

/-! ## The placement loop does not look behind the whole records -/

/-- The map with more bytes behind its table. -/
def withBack (back : List Byte) (m : ImmutableHashMap) : ImmutableHashMap :=
  { m with table := m.table ++ back }

def PlaceState.withBack (back : List Byte) (s : PlaceState) : PlaceState :=
  { s with map := s.map.withBack back }

section Projections

variable (back : List Byte) (s : PlaceState)

@[simp] theorem PlaceState.withBack_i : (s.withBack back).i = s.i := rfl

@[simp] theorem PlaceState.withBack_endIndexes : (s.withBack back).endIndexes = s.endIndexes := rfl

@[simp] theorem PlaceState.withBack_map : (s.withBack back).map = s.map.withBack back := rfl

@[simp] theorem withBack_kvCount (m : ImmutableHashMap) : (m.withBack back).kvCount = m.kvCount := rfl

@[simp] theorem withBack_kvSize (m : ImmutableHashMap) : (m.withBack back).kvSize = m.kvSize := rfl

@[simp] theorem withBack_keySize (m : ImmutableHashMap) : (m.withBack back).keySize = m.keySize := rfl

@[simp] theorem withBack_indexes (m : ImmutableHashMap) : (m.withBack back).indexes = m.indexes := rfl

end Projections

theorem bucketAtPos_withBack (table : Holds m n) {i : Nat} (inside : i < n) :
    bucketAtPos hash (m.withBack back) (i * m.kvSize) = bucketAtPos hash m (i * m.kvSize) := by
  have ends := record_end_le table.length_le inside
  have key_le := table.key_le
  simp only [bucketAtPos, withBack]
  rw [readBlock_append (by omega)]

theorem swapKv_withBack (table : Whole m n) (apart : back.length < m.kvSize) {x y : Nat} (hx : x < n)
    (exactly : y * m.kvSize < 2 ^ 64) : swapKv (m.withBack back) x y = (swapKv m x y).map (withBack back) := by
  have x_end := record_end_le table.length_le hx
  by_cases same : x = y
  · rw [swapKv, swapKv, if_pos same, if_pos same]
    rfl
  rcases Nat.lt_or_ge y n with hy | outside
  · have y_end := record_end_le table.length_le hy
    have x_size := record_length table.length_le hx
    have y_size := record_length table.length_le hy
    have first : (splice m.table (x * m.kvSize) (record m.kvSize m.table y)).length = m.table.length :=
      splice_length (by omega)
    rw [swapKv_inside table hx hy, swapped, if_neg same, swapKv, if_neg same]
    simp only [withBack, table.sizeT_pos hx, table.sizeT_pos hy]
    rw [readBlock_append x_end, readBlock_append y_end, readBlock_of_le x_end, ok_bind,
      readBlock_of_le y_end, ok_bind]
    change (writeBlock (m.table ++ back) (x * m.kvSize) (record m.kvSize m.table y) >>= _) = _
    rw [writeBlock_append (by omega), ok_bind]
    change (writeBlock _ (y * m.kvSize) (record m.kvSize m.table x) >>= _) = _
    rw [writeBlock_append (by omega), ok_bind]
    rfl
  · have behind : (m.table ++ back).length < y * m.kvSize + m.kvSize := by
      have := Nat.mul_le_mul_right m.kvSize outside
      have := table.length_eq
      rw [List.length_append]
      omega
    rw [swapKv_outside table hx outside exactly, swapKv, if_neg same]
    simp only [withBack, table.sizeT_pos hx, sizeT_of_lt exactly]
    rw [readBlock_append x_end, readBlock_of_le x_end, ok_bind, readBlock_eq_error behind]
    rfl

section Place

variable {layout : Layout (bucketIn hash m) (entriesOf m n)}

theorem placeRound_withBack (ready : Ready hash m n layout) (apart : back.length < m.kvSize)
    {s : PlaceState} (placed : Placed layout s) :
    placeRound hash (s.withBack back) = (placeRound hash s).map (Option.map (PlaceState.withBack back)) := by
  have table := placed.whole ready
  have kv := placed.frame.kvSize_eq
  have count : s.map.kvCount = n := placed.frame.kvCount_eq.trans ready.count_eq
  rcases Nat.lt_or_eq_of_le placed.scan_le with inside | finished
  · have read : scan hash (s.withBack back) = scan hash s := by
      simp only [scan, PlaceState.withBack_map, PlaceState.withBack_i, withBack_kvSize,
        withBack_indexes, PlaceState.withBack_endIndexes, bucketAtPos_withBack table.holds inside]
    obtain ⟨h, endIndex, here, last, scanned⟩ := scan_eq ready placed inside
    have counted : s.i < s.map.kvCount := by rwa [count]
    rw [placeRound_scan counted scanned, @placeRound_scan hash (s.withBack back) _ _ _ counted (read.trans scanned)]
    by_cases home : layout.start h ≤ s.i ∧ s.i < endIndex
    · have home' : layout.start h ≤ (s.withBack back).i ∧ (s.withBack back).i < endIndex := home
      rw [if_pos home, if_pos home']
      rfl
    · have astray : ¬(layout.start h ≤ (s.withBack back).i ∧ (s.withBack back).i < endIndex) := home
      have exactly := ready.exactly h (placed.occupied here) endIndex (placed.target_lt here last home)
      rw [if_neg home, if_neg astray, PlaceState.withBack_map, PlaceState.withBack_i,
        swapKv_withBack table (kv ▸ apart) inside (kv ▸ exactly)]
      cases swapKv s.map s.i endIndex with
      | error fault => rfl
      | ok map =>
          simp only [Except.map, ok_bind, PlaceState.withBack_endIndexes]
          cases store s.endIndexes h (sizeT (endIndex + 1)) <;> rfl
  · rw [placeRound_done ready placed finished, placeRound, if_neg (by simp [count, finished])]
    rfl

/-- The placement loop runs alike, whatever lies behind the whole records. -/
theorem place_withBack (ready : Ready hash m n layout) (apart : back.length < m.kvSize) :
    place hash (m.withBack back) = (place hash m).map (withBack back) := by
  have round : ∀ s t : PlaceState, (s = t.withBack back ∧ Placed layout t) →
      (placeRound hash s = .ok none ∧ placeRound hash t = .ok none) ∨
      (∃ fault, placeRound hash s = .error fault ∧ placeRound hash t = .error fault) ∨
      ∃ s' t', placeRound hash s = .ok (some s') ∧ placeRound hash t = .ok (some t') ∧
        (s' = t'.withBack back ∧ Placed layout t') := by
    rintro _ t ⟨rfl, placed⟩
    have same := placeRound_withBack ready apart placed
    cases go : placeRound hash t with
    | error fault =>
        rw [go] at same
        exact Or.inr (Or.inl ⟨fault, same, rfl⟩)
    | ok next =>
        rw [go] at same
        cases next with
        | none => exact Or.inl ⟨same, rfl⟩
        | some next =>
            have inside : t.i < n := by
              by_contra finished
              rw [placeRound_done ready placed
                (Nat.le_antisymm placed.scan_le (Nat.le_of_not_lt finished))] at go
              cases go
            exact Or.inr (Or.inr ⟨_, next, same, rfl, rfl, (placeRound_move ready placed inside go).1⟩)
  have initial : (⟨m, m.indexes, 0⟩ : PlaceState).withBack back =
      (⟨m, m.indexes, 0⟩ : PlaceState).withBack back ∧ Placed layout ⟨m, m.indexes, 0⟩ :=
    ⟨rfl, placed_initial ready⟩
  have begun : place hash (m.withBack back) =
      whileLoop (placeRound hash) (placeFuel m)
        ((⟨m, m.indexes, 0⟩ : PlaceState).withBack back) >>= fun last => .ok last.map := rfl
  rcases Loop.lockstep round (placeFuel m) initial with ⟨fault, stop, stop'⟩ | ⟨_, t, left, left', rfl, _⟩
  · rw [begun, stop, place, stop']
    rfl
  · rw [begun, left, place, left']
    rfl

end Place

/-! ## The collision count strides over the partial record -/

/-- The counter that a partial record leaves in the bucket of its bytes. -/
def spare (hash : List Byte → Nat) (m : ImmutableHashMap) (n : Nat) (back : List Byte) (h : Nat) : Nat :=
  if back ≠ [] ∧ loadBucket hash m n back = h then 1 else 0

/-- The states of the collision count over whole records with `back` behind them. -/
inductive BackCount (hash : List Byte → Nat) (m : ImmutableHashMap) (n : Nat)
    (whole back : List Byte) (s : List Nat × Nat) : Prop where
  | record (i : Nat) (le : i ≤ n) (counted : Counted hash (counting m n (whole ++ back)) n i s)
  | behind (some : back ≠ []) (key : m.keySize ≤ back.length) (pos : s.2 = n * m.kvSize + m.kvSize)
      (room : s.1.length = nextPower n + 1)
      (counts : ∀ h, sizeT (s.1.getD h 0) =
        sizeT (spare hash m n back h + population (loadBucket hash m n) (records m.kvSize n whole) h))

theorem counted_room {i : Nat} {kvs : List Byte} {s : List Nat × Nat}
    (counted : Counted hash (counting m n kvs) n i s) : s.1.length = nextPower n + 1 := by
  have room := counted.room
  have := sixteen_le_nextPower n
  change s.1.length = nextPower n - 1 + 2 at room
  omega

section Count

variable (fitting : Fitting m n whole) (apart : back.length < m.kvSize)

include fitting

theorem holds_counting : Holds (counting m n (whole ++ back)) n := by
  refine ⟨fitting.key_le, fitting.kv_pos, ?_⟩
  have := fitting.length_eq
  simp only [counting, prepared, List.length_append]
  omega

theorem readBack (key : m.keySize ≤ back.length) :
    bucketAtPos hash (counting m n (whole ++ back)) (n * m.kvSize) = .ok (loadBucket hash m n back) := by
  have length_eq := fitting.length_eq
  simp only [bucketAtPos, counting, prepared]
  rw [readBlock_of_le (by rw [List.length_append]; omega), slice, ← length_eq, List.drop_left]
  rfl

theorem counted_all {s : List Nat × Nat} (counted : Counted hash (counting m n (whole ++ back)) n n s)
    (h : Nat) : sizeT (s.1.getD h 0) =
      sizeT (population (loadBucket hash m n) (records m.kvSize n whole) h) := by
  have zero : (List.replicate (nextPower n + 1) 0).getD h 0 = 0 := by
    rw [List.getD_eq_getElem?_getD, List.getElem?_replicate]
    split <;> rfl
  rw [counted.counts h, List.take_of_length_le (by rw [records_length]),
    show (counting m n (whole ++ back)).indexes = List.replicate (nextPower n + 1) 0 from rfl, zero,
    Nat.zero_add]
  exact congrArg (sizeT <| population _ · h) (records_append fitting.length_eq.ge back)

theorem length_behind : (whole ++ back).length = n * m.kvSize + back.length := by
  rw [List.length_append, fitting.length_eq]

theorem more_behind (filled : back ≠ []) : n * m.kvSize < (whole ++ back).length := by
  have := List.length_pos_of_ne_nil filled
  rw [length_behind fitting]
  omega

/-- The bytes behind the last whole record do not make up a key. -/
theorem countRound_short (filled : back ≠ []) (short : back.length < m.keySize) (indexes : List Nat) :
    countRound hash (counting m n (whole ++ back)) (indexes, n * m.kvSize) = .error .outOfBounds := by
  have table : (counting m n (whole ++ back)).table = whole ++ back := rfl
  have beyond : (whole ++ back).length <
      n * m.kvSize + (counting m n (whole ++ back)).keySize := by
    rw [length_behind fitting]
    exact Nat.add_lt_add_left short _
  rw [countRound, table, if_pos (more_behind fitting filled), bucketAtPos, table,
    readBlock_eq_error beyond]
  rfl

/-- A key behind the last whole record is counted in its bucket. -/
theorem countRound_behind (filled : back ≠ []) (key : m.keySize ≤ back.length) {indexes : List Nat}
    (counted : Counted hash (counting m n (whole ++ back)) n n (indexes, n * m.kvSize)) :
    ∃ next, countRound hash (counting m n (whole ++ back)) (indexes, n * m.kvSize) = .ok (some next) ∧
      next.2 = n * m.kvSize + m.kvSize ∧ BackCount hash m n whole back next := by
  have room : indexes.length = nextPower n + 1 := counted_room counted
  have bucket_lt : loadBucket hash m n back < indexes.length := by
    have := recordBucket_lt hash m.keySize (nextPower n - 1) back
    have := sixteen_le_nextPower n
    rw [room]
    unfold loadBucket
    omega
  refine ⟨_, countRound_eq (more_behind fitting filled) (readBack fitting key) bucket_lt, rfl,
    .behind filled key rfl (by rw [List.length_set, room]) fun h => ?_⟩
  rw [getD_count bucket_lt, spare, Nat.add_comm (ite _ _ _)]
  simp only [ne_eq, filled, not_false_eq_true, true_and]
  exact Nat.ModEq.add_right _ (counted_all fitting counted h)

include apart

theorem countRound_back {s : List Nat × Nat} (state : BackCount hash m n whole back s) :
    Loop.Round (countRound hash (counting m n (whole ++ back))) (BackCount hash m n whole back)
      (fun s => (whole ++ back).length - s.2) (fun _ => back ≠ [] ∧ back.length < m.keySize) s := by
  obtain ⟨indexes, pos⟩ := s
  have size := @length_behind m n whole back fitting
  have table : (counting m n (whole ++ back)).table = whole ++ back := rfl
  cases state with
  | record i le counted =>
      obtain rfl : pos = i * m.kvSize := counted.pos
      rcases Nat.lt_or_eq_of_le le with inside | rfl
      · obtain ⟨⟨_, next⟩, go, after⟩ := countRound_record (holds_counting fitting) counted inside
        obtain rfl : next = (i + 1) * m.kvSize := after.pos
        have ends := Nat.mul_le_mul_right m.kvSize inside
        have kv_pos := fitting.kv_pos
        refine Or.inr (Or.inr ⟨_, go, .record (i + 1) inside after, ?_⟩)
        simp only [Nat.succ_mul] at ends ⊢
        omega
      · rcases eq_or_ne back [] with rfl | some
        · left
          rw [countRound, table, if_neg (by simpa using size.le)]
        rcases Nat.lt_or_ge back.length m.keySize with short | key
        · exact Or.inr (Or.inl ⟨_, countRound_short fitting some short indexes, some, short⟩)
        · obtain ⟨⟨_, next⟩, go, rfl, after⟩ := countRound_behind fitting some key counted
          have more := more_behind fitting some
          have kv_pos := fitting.kv_pos
          refine Or.inr (Or.inr ⟨_, go, after, ?_⟩)
          simp only
          omega
  | behind some key at_end room counts =>
      left
      rw [countRound, table, if_neg]
      simp only at at_end
      omega

/-- The collision count stops at a partial record without a whole key; otherwise it
counts the partial record along with the whole ones. -/
theorem countCollisions_back :
    (∃ counted, countCollisions hash (counting m n (whole ++ back)) = .ok counted ∧
      counted.length = nextPower n + 1 ∧ (back = [] ∨ m.keySize ≤ back.length) ∧
      ∀ h, sizeT (counted.getD h 0) =
        sizeT (spare hash m n back h + population (loadBucket hash m n) (records m.kvSize n whole) h)) ∨
    ((∃ fault, countCollisions hash (counting m n (whole ++ back)) = .error fault) ∧
      back ≠ [] ∧ back.length < m.keySize) := by
  have big := sixteen_le_nextPower n
  have holds : Holds (counting m n (whole ++ back)) n := holds_counting fitting
  have start : BackCount hash m n whole back (List.replicate (nextPower n + 1) 0, 0) := by
    refine .record 0 (Nat.zero_le _) ⟨(Nat.zero_mul _).symm, ?_, by simp [population, counting, prepared]⟩
    change (List.replicate (nextPower n + 1) 0).length = nextPower n - 1 + 2
    rw [List.length_replicate]
    omega
  have begun : countCollisions hash (counting m n (whole ++ back)) =
      whileLoop (countRound hash (counting m n (whole ++ back))) ((whole ++ back).length + 1)
        (List.replicate (nextPower n + 1) 0, 0) >>= fun counted => .ok counted.1 := rfl
  rw [begun]
  rcases Loop.ends (fun s state => countRound_back fitting apart state) start
    (show (whole ++ back).length - 0 < (whole ++ back).length + 1 by omega) with
    ⟨last, left, state, done⟩ | ⟨fault, stop, some, short⟩
  · left
    rw [left]
    cases state with
    | record i le counted =>
        rcases Nat.lt_or_eq_of_le le with inside | rfl
        · obtain ⟨next, go, _⟩ := countRound_record holds counted inside
          rw [go] at done
          cases done
        · have none : back = [] := by
            have finished : (whole ++ back).length ≤ last.2 := countRound_none done
            have pos : last.2 = i * m.kvSize := counted.pos
            have length_eq := fitting.length_eq
            rw [List.length_append] at finished
            exact List.length_eq_zero_iff.mp (by omega)
          refine ⟨last.1, rfl, counted_room counted, Or.inl none, fun h => ?_⟩
          rw [counted_all fitting counted, spare, none]
          simp
    | behind some key at_end room counts => exact ⟨last.1, rfl, room, Or.inr key, counts⟩
  · right
    rw [stop]
    exact ⟨⟨fault, rfl⟩, some, short⟩

end Count

/-! ## A load of a table with a partial record -/

/-- The homes of a load whose collision count has counted `back`. -/
def backLayout (hash : List Byte → Nat) (m : ImmutableHashMap) (n : Nat) (whole back : List Byte) :
    Layout (loadBucket hash m n) (records m.kvSize n whole) :=
  Layout.widened _ _ (spare hash m n back)

theorem spare_sum_le (hash : List Byte → Nat) (m : ImmutableHashMap) (n : Nat) (back : List Byte)
    (h : Nat) : ∑ l ∈ Finset.range h, spare hash m n back l ≤ if back = [] then 0 else 1 := by
  unfold spare
  split_ifs with none
  · simp [none]
  · simp only [ne_eq, none, not_false_eq_true, true_and]
    rw [Finset.sum_ite_eq]
    split <;> omega

/-- One partial record moves the starts by one position at most. -/
theorem backLayout_start_le (hash : List Byte → Nat) (m : ImmutableHashMap) (n : Nat)
    (whole back : List Byte) (h : Nat) :
    (backLayout hash m n whole back).start h ≤ (if back = [] then 0 else 1) + n := by
  have spares := spare_sum_le hash m n back h
  have held := List.countP_le_length (p := fun entry => decide (loadBucket hash m n entry < h))
    (l := records m.kvSize n whole)
  rw [records_length] at held
  exact Nat.add_le_add spares held

theorem backLayout_next (hash : List Byte → Nat) (m : ImmutableHashMap) (n : Nat)
    (whole back : List Byte) (h : Nat) : (backLayout hash m n whole back).start (h + 1) =
      (backLayout hash m n whole back).stop h + spare hash m n back h := Layout.widened_start_succ _ _

theorem backLayout_exactly (fitting : Fitting m n whole) :
    ExactHomes m.kvSize (backLayout hash m n whole back) := by
  have small := fitting.small
  refine .of_inside (by rw [← fitting.length_eq]; omega) fun h _ => ?_
  have next := backLayout_next hash m n whole back h
  have start_le := backLayout_start_le hash m n whole back (h + 1)
  split at start_le <;> omega

/-- The partial record leaves no counter below an occupied bucket when its own bucket
is not below one. -/
theorem spare_below_iff {entries : List (List Byte)} :
    (∀ entry ∈ entries, ∀ l, l < loadBucket hash m n entry → spare hash m n back l = 0) ↔
      back = [] ∨ ∀ entry ∈ entries, loadBucket hash m n entry ≤ loadBucket hash m n back := by
  rcases eq_or_ne back [] with none | some
  · simp [spare, none]
  · simp only [some, false_or]
    refine forall₂_congr fun entry _ => ?_
    simp only [spare, ne_eq, some, not_false_eq_true, true_and]
    constructor
    · intro unset
      by_contra above
      simpa using unset (loadBucket hash m n back) (Nat.lt_of_not_le above)
    · intro low l lower
      exact if_neg (by omega)

section Load

variable (fitting : Fitting m n whole) (apart : back.length < m.kvSize)

include fitting apart

/-- A load reads a whole key behind the whole records, if there is anything behind
them, and keeps all occupied homes inside the table; or it faults. -/
theorem loadKvs_back (hash : List Byte → Nat) (fresh : m.indexes = []) :
    (∃ placed, loadKvs hash m (whole ++ back) = .ok (placed.withBack back) ∧
      Loaded hash m n whole (backLayout hash m n whole back) placed ∧
      (back = [] ∨ m.keySize ≤ back.length) ∧
      ∀ h, 0 < population (loadBucket hash m n) (records m.kvSize n whole) h →
        (backLayout hash m n whole back).stop h ≤ n) ∨
    ((∃ fault, loadKvs hash m (whole ++ back) = .error fault) ∧
      (back ≠ [] ∧ back.length < m.keySize ∨
        ∃ h, 0 < population (loadBucket hash m n) (records m.kvSize n whole) h ∧
          n < (backLayout hash m n whole back).stop h)) := by
  have count : (whole ++ back).length / m.kvSize = n := by
    rw [List.length_append, fitting.length_eq, Nat.add_comm, Nat.add_mul_div_right _ _ fitting.kv_pos,
      Nat.div_eq_of_lt apart, Nat.zero_add]
  rw [loadKvs_fresh hash fresh fitting.kv_pos count]
  rcases @countCollisions_back hash _ _ _ _ fitting apart with
    ⟨counted, run, length, key, counts⟩ | ⟨⟨fault, stop⟩, some, short⟩
  · have ready : Ready hash (prepared m n whole (prefixSumsMod (2 ^ 64) 0 counted)) n (backLayout hash m n whole back) :=
      ready_prepared fitting length (fun h _ => counts h) (backLayout_exactly fitting)
    rw [run, ok_bind, show prepared m n (whole ++ back) (prefixSumsMod (2 ^ 64) 0 counted) =
      (prepared m n whole (prefixSumsMod (2 ^ 64) 0 counted)).withBack back from rfl, place_withBack ready apart]
    rcases place_spec ready with ⟨placed, placed_run, arranged, inside⟩ | ⟨stop, out⟩
    · left
      rw [placed_run]
      exact ⟨placed, rfl, arranged.loaded fitting ready, key, inside⟩
    · right
      rw [stop]
      exact ⟨⟨_, rfl⟩, Or.inr out⟩
  · right
    rw [stop]
    exact ⟨⟨fault, rfl⟩, Or.inl ⟨some, short⟩⟩

theorem loadKvs_back_iff (hash : List Byte → Nat) (fresh : m.indexes = []) :
    (∃ loaded, loadKvs hash m (whole ++ back) = .ok loaded) ↔
      back = [] ∨ m.keySize ≤ back.length ∧ ∀ entry ∈ records m.kvSize n whole,
        loadBucket hash m n entry ≤ loadBucket hash m n back := by
  have inside_iff := @Layout.widened_inside_iff _ (loadBucket hash m n) (records m.kvSize n whole)
    (spare hash m n back)
  rw [records_length, spare_below_iff] at inside_iff
  rcases loadKvs_back fitting apart hash fresh with ⟨placed, run, _, key, inside⟩ | ⟨⟨fault, stop⟩, why⟩
  · refine iff_of_true ⟨_, run⟩ ?_
    rcases inside_iff.mp inside with none | low
    · exact Or.inl none
    · exact key.imp_right fun key => ⟨key, low⟩
  · refine iff_of_false (fun ⟨loaded, run⟩ => by rw [stop] at run; cases run) ?_
    intro fits
    rcases why with ⟨some, short⟩ | ⟨h, occupied, out⟩
    · rcases fits with none | ⟨key, _⟩
      · exact some none
      · exact absurd key (Nat.not_le.mpr short)
    · have inside := inside_iff.mpr (fits.imp_right And.right) h occupied
      exact absurd inside (Nat.not_le.mpr out)

end Load

section Seek

variable {placed : ImmutableHashMap} {key : List Byte}

theorem seekFrom_readable {left first : Nat}
    (readable : ∀ i, i < first + left → i * m.kvSize + m.keySize ≤ m.table.length) :
    ∃ answer, seekFrom m key left first = .ok answer := by
  induction left generalizing first with
  | zero => exact ⟨none, rfl⟩
  | succ left ih =>
      have inside := readable first (by omega)
      have reduced : sizeT (first * m.kvSize) ≤ first * m.kvSize := Nat.mod_le _ _
      rw [seekFrom_succ, readBlock_of_le (by omega), ok_bind]
      split
      · exact ⟨_, rfl⟩
      · exact ih fun i lower => readable i (by omega)

theorem seek_back (fitting : Fitting m n whole)
    (after : Loaded hash m n whole (backLayout hash m n whole back) placed)
    (readable : back = [] ∨ m.keySize ≤ back.length) :
    ∃ answer, seek hash (placed.withBack back) key = .ok answer := by
  rw [@seek_starts hash m n whole key _ (placed.withBack back) after.hashMask_eq after.starts _ rfl]
  apply seekFrom_readable
  generalize keyBucket hash (nextPower n - 1) key = h
  intro i lower
  have first_le : sizeT ((backLayout hash m n whole back).start h) ≤ _ := Nat.mod_le _ _
  have last_le : sizeT ((backLayout hash m n whole back).start (h + 1)) ≤ _ := Nat.mod_le _ _
  have start_le := backLayout_start_le hash m n whole back h
  have next_le := backLayout_start_le hash m n whole back (h + 1)
  have key_le := fitting.key_le
  have length : (placed.withBack back).table.length = n * m.kvSize + back.length := by
    rw [withBack, List.length_append, after.length_eq]
  rw [length, withBack_kvSize, withBack_keySize, after.keySize_eq, after.kvSize_eq]
  rcases Nat.lt_or_ge i n with inside | behind
  · have ends := Nat.mul_le_mul_right m.kvSize inside
    rw [Nat.succ_mul] at ends
    omega
  · -- only a position behind the whole records is left, and there `back` holds a key
    have some : back ≠ [] := by
      rintro rfl
      rw [if_pos rfl] at start_le next_le
      omega
    rw [if_neg some] at start_le next_le
    obtain rfl : i = n := by omega
    have key := readable.resolve_left some
    omega

end Seek

/-! ## Loading arbitrary bytes -/

/-- A load of the table into a fresh map, and every lookup behind it, stay inside the
table and the index arrays. -/
def MemorySafe (hash : List Byte → Nat) (keySize valueSize : UInt64) (kvs : List Byte) : Prop :=
  ∃ loaded, loadKvs hash (ofSizes keySize valueSize) kvs = .ok loaded ∧
    ∀ key, key.length = keySize.toNat → ∃ answer, seek hash loaded key = .ok answer

/-- What lies behind the whole records of the table is nothing, or it begins with a key
whose bucket is not below the bucket of any whole record. -/
def TailFits (hash : List Byte → Nat) (keySize kvSize : Nat) (kvs : List Byte) : Prop :=
  let n := kvs.length / kvSize
  kvs.length % kvSize = 0 ∨ keySize ≤ kvs.length % kvSize ∧
    ∀ entry ∈ records kvSize n kvs, recordBucket hash keySize (nextPower n - 1) entry ≤
      recordBucket hash keySize (nextPower n - 1) (kvs.drop (n * kvSize))

/-- When the sum of the sizes has wrapped around, a record is shorter than its key, and
the last key of a table reaches behind the table. -/
theorem load_wrapped (hash : List Byte → Nat) (fresh : m.indexes = []) (kv_pos : 0 < m.kvSize)
    (wrapped : m.kvSize < m.keySize) {kvs : List Byte} (some : kvs ≠ []) (loaded : ImmutableHashMap) :
    loadKvs hash m kvs ≠ .ok loaded := by
  intro run
  rw [loadKvs_fresh hash fresh kv_pos rfl] at run
  obtain ⟨counted, counting_run, _⟩ := bind_eq_ok.mp run
  obtain ⟨last, left, _⟩ := bind_eq_ok.mp counting_run
  obtain ⟨rounds, trace, done⟩ := Loop.trace_of_left left
  have round : ∀ s next : List Nat × Nat, s.2 < kvs.length →
      countRound hash (counting m (kvs.length / m.kvSize) kvs) s = .ok (.some next) →
      next.2 < kvs.length := by
    intro s next lower go
    obtain ⟨key_inside, next_pos⟩ := countRound_some go
    change s.2 + m.keySize ≤ kvs.length at key_inside
    change next.2 = s.2 + m.kvSize at next_pos
    omega
  have inside := (trace.invariant round (List.length_pos_of_ne_nil some)).2
  exact absurd (countRound_none done) (Nat.not_le.mpr inside)

/-- The table as whole records and what lies behind them. -/
theorem cut_table (kv_pos : 0 < m.kvSize) (key_le : m.keySize ≤ m.kvSize) {kvs : List Byte}
    (small : kvs.length < 2 ^ 63) :
    ∃ whole, whole ++ kvs.drop (kvs.length / m.kvSize * m.kvSize) = kvs ∧
      Fitting m (kvs.length / m.kvSize) whole ∧
      (kvs.drop (kvs.length / m.kvSize * m.kvSize)).length = kvs.length % m.kvSize ∧
      records m.kvSize (kvs.length / m.kvSize) kvs = records m.kvSize (kvs.length / m.kvSize) whole := by
  have cut := Nat.div_add_mod kvs.length m.kvSize
  rw [Nat.mul_comm] at cut
  generalize kvs.length / m.kvSize = n at cut
  have length : (kvs.take (n * m.kvSize)).length = n * m.kvSize := List.length_take_of_le (by omega)
  refine ⟨kvs.take (n * m.kvSize), List.take_append_drop _ _,
    ⟨key_le, kv_pos, length, (List.length_take_le' _ _).trans_lt small⟩, ?_, ?_⟩
  · rw [List.length_drop]
    omega
  · rw [← records_append length.ge (kvs.drop (n * m.kvSize)), List.take_append_drop]

/-- Into a fresh map whose records hold their keys. -/
theorem safe_iff_tailFits (hash : List Byte → Nat) (fresh : m.indexes = []) (kv_pos : 0 < m.kvSize)
    (key_le : m.keySize ≤ m.kvSize) {kvs : List Byte} (small : kvs.length < 2 ^ 63) :
    (∃ loaded, loadKvs hash m kvs = .ok loaded ∧
      ∀ key, key.length = m.keySize → ∃ answer, seek hash loaded key = .ok answer) ↔
      TailFits hash m.keySize m.kvSize kvs := by
  obtain ⟨whole, all, fitting, back_length, whole_records⟩ := cut_table kv_pos key_le small
  have apart : (kvs.drop (kvs.length / m.kvSize * m.kvSize)).length < m.kvSize := by
    rw [back_length]
    exact Nat.mod_lt _ kv_pos
  have none_iff : kvs.length % m.kvSize = 0 ↔ kvs.drop (kvs.length / m.kvSize * m.kvSize) = [] := by
    rw [← back_length, List.length_eq_zero_iff]
  have loads := loadKvs_back_iff fitting apart hash fresh
  have spec := loadKvs_back fitting apart hash fresh
  rw [all] at loads spec
  unfold TailFits
  dsimp only
  rw [none_iff, ← back_length, whole_records]
  refine Iff.trans ⟨fun ⟨loaded, run, _⟩ => ⟨loaded, run⟩, ?_⟩ loads
  rintro ⟨loaded, run⟩
  refine ⟨loaded, run, fun key _ => ?_⟩
  rcases spec with ⟨other, run', after, readable, _⟩ | ⟨⟨fault, stop⟩, _⟩
  · obtain rfl : loaded = other.withBack _ := Except.ok.inj (run.symm.trans run')
    exact seek_back fitting after readable
  · rw [stop] at run
    cases run

/-- Loading arbitrary bytes is memory-safe exactly when a record has bytes and the table
is empty, or a record holds its key and the bytes behind the last whole record fit. -/
theorem load_kvs_memory_safe_iff (hash : List Byte → Nat) (keySize valueSize : UInt64)
    (kvs : List Byte) (small : kvs.length < 2 ^ 63) :
    MemorySafe hash keySize valueSize kvs ↔
      keySize + valueSize ≠ 0 ∧ (kvs = [] ∨ keySize ≤ keySize + valueSize ∧
        TailFits hash keySize.toNat (keySize + valueSize).toNat kvs) := by
  have size : (ofSizes keySize valueSize).kvSize = (keySize + valueSize).toNat := rfl
  have key_size : (ofSizes keySize valueSize).keySize = keySize.toNat := rfl
  have fresh : (ofSizes keySize valueSize).indexes = [] := rfl
  have zero : keySize + valueSize = 0 ↔ (ofSizes keySize valueSize).kvSize = 0 := by
    rw [size, ← UInt64.toNat_inj, UInt64.toNat_zero]
  rcases Nat.eq_zero_or_pos (ofSizes keySize valueSize).kvSize with empty | kv_pos
  · refine iff_of_false ?_ fun both => both.1 (zero.mpr empty)
    rintro ⟨_, run, _⟩
    exact kvSize_ne_zero_of_load run empty
  rw [and_iff_right (mt zero.mp (Nat.ne_of_gt kv_pos))]
  rcases eq_or_ne kvs [] with rfl | some
  · obtain ⟨loaded, run, _, _, lookups⟩ :=
      load_empty hash (leftover_ofSizes keySize valueSize) kv_pos
    exact iff_of_true ⟨loaded, run, fun key _ => ⟨none, lookups key⟩⟩ (Or.inl rfl)
  rw [or_iff_right some, UInt64.le_iff_toNat_le, ← size, ← key_size]
  rcases Nat.lt_or_ge (ofSizes keySize valueSize).kvSize (ofSizes keySize valueSize).keySize with
    wrapped | key_le
  · refine iff_of_false ?_ fun both => absurd both.1 (Nat.not_le.mpr wrapped)
    rintro ⟨loaded, run, _⟩
    exact load_wrapped hash fresh kv_pos wrapped some loaded run
  rw [and_iff_right key_le]
  exact safe_iff_tailFits hash fresh kv_pos key_le small

/-- A record of two bytes with one more byte behind it, under a constant hash. -/
theorem load_kvs_memory_safe_tail : MemorySafe (fun _ => 3) 1 1 [1, 7, 2] :=
  (load_kvs_memory_safe_iff (fun _ => 3) 1 1 [1, 7, 2] (by decide)).mpr
    ⟨by decide, Or.inr ⟨by decide, Or.inr ⟨by decide, fun _ _ => Nat.le_refl _⟩⟩⟩

/-- Keys of eight bytes, and a table that ends within the first key. -/
theorem load_kvs_short_table :
    loadKvs BytesHash.keyHash (ofSizes 8 1) [1, 2, 3] = .error .outOfBounds ∧
    ¬MemorySafe BytesHash.keyHash 8 1 [1, 2, 3] := by
  have stop : loadKvs BytesHash.keyHash (ofSizes 8 1) [1, 2, 3] = .error .outOfBounds := by
    decide +kernel
  refine ⟨stop, ?_⟩
  rintro ⟨loaded, run, _⟩
  rw [stop] at run
  cases run

end CppProject.Cannon.ImmutableHashMap
