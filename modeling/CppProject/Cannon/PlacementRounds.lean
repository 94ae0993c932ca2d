import CppProject.Cannon.Lookup
import Mathlib.Algebra.BigOperators.Group.Finset.Piecewise

/-!
# The rounds of the placement loop

A round either advances `i` or swaps the record at `i` to the end index of its
bucket.  On a fresh map every record is swapped once and every position is
passed once.
-/

namespace CppProject.Cannon.ImmutableHashMap

open Library Library.Checked Library.Records Library.Placement

/-- The index that a round swaps the record at `i` to, if it does not advance. -/
def swapTarget (hash : List Byte → Nat) (s : PlaceState) : Option Nat :=
  match scan hash s with
  | .ok (_, beginIndex, endIndex) =>
      if beginIndex ≤ s.i ∧ s.i < endIndex then none else some endIndex
  | .error _ => none

/-- The end index of every bucket lies in the range of the bucket. -/
def EndsInRange (indexes endIndexes : List Nat) (buckets : Nat) : Prop :=
  ∀ h, h < buckets → ∃ low front high, indexes[h]? = some low ∧ endIndexes[h]? = some front ∧
    indexes[h + 1]? = some high ∧ low ≤ front ∧ front ≤ high

/-- The placement loop that loads `n` records into a fresh map: `rounds` are the
states in which it makes a round, `last` is the state in which it leaves. -/
structure PlacementRun (hash : List Byte → Nat) (keySize valueSize : UInt64) (n : Nat)
    (kvs : List Byte) (indexes : List Nat) (rounds : List PlaceState) (last : PlaceState) : Prop where
  trace : Loop.Trace (placeRound hash)
    ⟨prepared (ofSizes keySize valueSize) n kvs indexes, indexes, 0⟩ rounds last
  leaves : placeRound hash last = .ok none
  loaded : loadKvs hash (ofSizes keySize valueSize) kvs = .ok last.map
  indexes_eq : last.map.indexes = indexes
  swaps : rounds.countP (fun s => (swapTarget hash s).isSome) = n
  advances : rounds.countP (fun s => (swapTarget hash s).isNone) = n
  targets : ∀ s ∈ rounds, ∀ target, swapTarget hash s = some target → target < n
  ends : ∀ s ∈ rounds, EndsInRange indexes s.endIndexes (nextPower n)
  last_ends : EndsInRange indexes last.endIndexes (nextPower n)
  perm : (records (keySize.toNat + valueSize.toNat) n last.map.table).Perm
    (records (keySize.toNat + valueSize.toNat) n kvs)
  buckets : ∀ i, i < n → ∀ h,
    recordBucket hash keySize.toNat (nextPower n - 1)
        (record (keySize.toNat + valueSize.toNat) last.map.table i) = h ↔
      ∃ low high, indexes[h]? = some low ∧ indexes[h + 1]? = some high ∧ low ≤ i ∧ i < high

section Rounds

variable {hash : List Byte → Nat} {m : ImmutableHashMap} {n : Nat}
  {layout : Layout (bucketIn hash m) (entriesOf m n)}

/-- Along the loop every position passed lies before the end index of its bucket. -/
structure Passing (layout : Layout (bucketIn hash m) (entriesOf m n)) (s : PlaceState) : Prop where
  placed : Placed layout s
  passed : ∀ p, p < s.i → ∀ h, bucketAt (bucketIn hash m) (boardOf layout s).cells p = some h →
    p < (boardOf layout s).fill h

/-- The two kinds of rounds. -/
inductive RoundCases (hash : List Byte → Nat) (layout : Layout (bucketIn hash m) (entriesOf m n))
    (s : PlaceState) : PlaceState → Prop where
  | advance (h : Nat) (none : swapTarget hash s = none)
      (here : bucketAt (bucketIn hash m) (boardOf layout s).cells s.i = some h)
      (front : s.i < (boardOf layout s).fill h) :
      RoundCases hash layout s { s with i := s.i + 1 }
  | swap (h endIndex : Nat) (target : swapTarget hash s = some endIndex)
      (here : bucketAt (bucketIn hash m) (boardOf layout s).cells s.i = some h)
      (front : s.endIndexes[h]? = some endIndex) (inside : endIndex < n) :
      RoundCases hash layout s (swapTo s h endIndex)

theorem boardOf_scan (s : PlaceState) : (boardOf layout s).scan = s.i := rfl

theorem placeRound_cases (ready : Ready hash m n layout) {s next : PlaceState}
    (placed : Placed layout s) (go : placeRound hash s = .ok (some next)) :
    s.i < n ∧ RoundCases hash layout s next := by
  have inside : s.i < n := by
    by_contra finished
    rw [placeRound_done ready placed (Nat.le_antisymm placed.scan_le (Nat.le_of_not_lt finished))] at go
    cases go
  refine ⟨inside, ?_⟩
  obtain ⟨h, endIndex, here, last, read⟩ := scan_eq ready placed inside
  obtain ⟨h', endIndex', here', last', round⟩ := placeRound_eq ready placed inside
  obtain rfl : h = h' := Option.some.inj (here.symm.trans here')
  obtain rfl : endIndex = endIndex' := Option.some.inj (last.symm.trans last')
  have target : swapTarget hash s =
      if layout.start h ≤ s.i ∧ s.i < endIndex then none else some endIndex := by
    rw [swapTarget, read]
  rw [round] at go
  split_ifs at go target with home inside_table
  · cases go
    exact .advance h target here (by rw [boardOf_fill (placed.occupied here) last]; exact home.2)
  · cases go
    exact .swap h endIndex target here last inside_table

theorem Passing.round (ready : Ready hash m n layout) {s next : PlaceState}
    (passing : Passing layout s) (go : placeRound hash s = .ok (some next)) :
    Passing layout next := by
  obtain ⟨inside, cases⟩ := placeRound_cases ready passing.placed go
  refine ⟨(placeRound_move ready passing.placed inside go).1, ?_⟩
  cases cases with
  | advance h none here front =>
      intro p before b bucket
      rcases Nat.lt_succ_iff_lt_or_eq.mp before with old | rfl
      · exact passing.passed p old b bucket
      · obtain rfl : h = b := Option.some.inj (here.symm.trans bucket)
        exact front
  | swap h endIndex target here front inside_table =>
      intro p before b bucket
      change p < s.i at before
      have scan_lt := lt_length_of_bucketAt _ here
      have table_lt : endIndex < (boardOf layout s).cells.length := by simpa [boardOf] using inside_table
      have occupied := passing.placed.occupied here
      rw [boardOf_swapTo ready passing.placed inside occupied front inside_table] at bucket ⊢
      simp only [boardOf_fill occupied front, boardOf_scan] at bucket ⊢
      rw [bucketAt_swap scan_lt table_lt] at bucket
      rw [Function.update_apply]
      by_cases arrived : p = endIndex
      · rw [if_pos arrived] at bucket
        obtain rfl : h = b := Option.some.inj (here.symm.trans bucket)
        rw [if_pos rfl, arrived]
        exact Nat.lt_succ_self _
      · rw [if_neg arrived, if_neg (Nat.ne_of_lt before)] at bucket
        have old := passing.passed p before b bucket
        split_ifs with same
        · rw [same, boardOf_fill occupied front] at old
          exact Nat.lt_succ_of_lt old
        · exact old

/-- The sum of the end indexes of all buckets. -/
def frontSum (layout : Layout (bucketIn hash m) (entriesOf m n)) (s : PlaceState) : Nat :=
  ∑ h ∈ Finset.range (m.hashMask + 1), (boardOf layout s).fill h

/-- A round that swaps moves one end index by one, any other round moves `i` by one. -/
theorem Passing.progress (ready : Ready hash m n layout) {s next : PlaceState}
    (passing : Passing layout s) (go : placeRound hash s = .ok (some next)) :
    (frontSum layout next = frontSum layout s + if (swapTarget hash s).isSome then 1 else 0) ∧
      next.i = s.i + if (swapTarget hash s).isNone then 1 else 0 := by
  obtain ⟨inside, cases⟩ := placeRound_cases ready passing.placed go
  cases cases with
  | advance h none here front =>
      rw [none]
      exact ⟨rfl, rfl⟩
  | swap h endIndex target here front inside_table =>
      rw [target]
      refine ⟨?_, rfl⟩
      have occupied := passing.placed.occupied here
      obtain ⟨entry, _, rfl⟩ := (bucketAt_eq_some _).mp here
      unfold frontSum
      rw [boardOf_swapTo ready passing.placed inside occupied front inside_table]
      have grows : ∀ b, Function.update (boardOf layout s).fill (bucketIn hash m entry)
          ((boardOf layout s).fill (bucketIn hash m entry) + 1) b =
            (boardOf layout s).fill b + if b = bucketIn hash m entry then 1 else 0 := by
        intro b
        rw [Function.update_apply]
        split_ifs with same
        · rw [same]
        · rfl
      simp only
      rw [Finset.sum_congr rfl fun b _ => grows b, Finset.sum_add_distrib,
        Finset.sum_ite_eq' _ _ fun _ => 1, if_pos (Finset.mem_range.mpr (bucketIn_lt hash m entry))]
      rfl

/-- When the loop leaves, the end index of every bucket has reached the end of its home. -/
theorem Passing.filled (passing : Passing layout s) (finished : s.i = n) (h : Nat) :
    (boardOf layout s).fill h = layout.stop h := by
  have placing := passing.placed.placing
  have cells : (boardOf layout s).cells.length = n := by simp [boardOf]
  have done : (boardOf layout s).cells.length ≤ (boardOf layout s).scan := by
    rw [cells]
    exact Nat.le_of_eq finished.symm
  refine Nat.le_antisymm (placing.fill_le_stop h) ?_
  rcases Nat.eq_zero_or_pos (population (bucketIn hash m) (entriesOf m n) h) with empty | occupied
  · rw [Layout.stop, empty]
    exact placing.start_le_fill h
  · have stop_le := placing.stop_le_length done occupied
    rw [records_length] at stop_le
    have positive : 0 < layout.stop h := by
      unfold Layout.stop
      omega
    have home : layout.Home h (layout.stop h - 1) := by
      unfold Layout.Home Layout.stop
      omega
    have here := (placing.bucketAt_iff done (by omega) h).mpr home
    have passed := passing.passed _ (by omega) h here
    omega

/-- The end index of a bucket stays between the starts of this and the next home. -/
theorem Placed.endsInRange (ready : Ready hash m n layout) (packed : ∀ h, layout.start h ≤ n)
    {s : PlaceState} (placed : Placed layout s) :
    EndsInRange m.indexes s.endIndexes (m.hashMask + 1) := by
  intro h lower
  have count_lt := ready.whole.count_lt
  have exactly : ∀ b, sizeT (layout.start b) = layout.start b := fun b => by
    have := packed b
    exact sizeT_of_lt (by omega)
  have low := ready.starts h (by omega)
  have high := ready.starts (h + 1) (by omega)
  rw [exactly] at low high
  have ordered := Nat.le_trans (Nat.le_add_right _ _) (layout.spaced h)
  rcases Nat.eq_zero_or_pos (population (bucketIn hash m) (entriesOf m n) h) with empty | occupied
  · have kept := placed.idle h (by omega)
    exact ⟨_, _, _, low, kept.trans low, high, Nat.le_refl _, ordered⟩
  · obtain ⟨front, last⟩ : ∃ front, s.endIndexes[h]? = some front :=
      ⟨_, List.getElem?_eq_getElem (by rw [placed.room]; omega)⟩
    have start_le := placed.placing.start_le_fill h
    have le_next := Nat.le_trans (placed.placing.fill_le_stop h) (layout.spaced h)
    rw [boardOf_fill occupied last] at start_le le_next
    exact ⟨_, front, _, low, last, high, start_le, le_next⟩

/-- Over the whole loop every record is swapped once and every position passed once. -/
theorem Passing.counts (ready : Ready hash m n layout) {rounds : List PlaceState} {last : PlaceState}
    (trace : Loop.Trace (placeRound hash) ⟨m, m.indexes, 0⟩ rounds last) (passing : Passing layout last)
    (finished : last.i = n) (initial : Passing layout ⟨m, m.indexes, 0⟩) :
    rounds.countP (fun s => (swapTarget hash s).isSome) = n ∧
      rounds.countP (fun s => (swapTarget hash s).isNone) = n := by
  have swap : ∀ s next, Passing layout s → placeRound hash s = .ok (some next) →
      Passing layout next ∧ frontSum layout next =
        frontSum layout s + if (swapTarget hash s).isSome then 1 else 0 :=
    fun s next passing go => ⟨passing.round ready go, (passing.progress ready go).1⟩
  have advance : ∀ s next, Passing layout s → placeRound hash s = .ok (some next) →
      Passing layout next ∧ next.i = s.i + if (swapTarget hash s).isNone then 1 else 0 :=
    fun s next passing go => ⟨passing.round ready go, (passing.progress ready go).2⟩
  have swaps := trace.countP_eq swap initial
  have advances := trace.countP_eq advance initial
  have started : frontSum layout ⟨m, m.indexes, 0⟩ =
      ∑ h ∈ Finset.range (m.hashMask + 1), layout.start h := by
    rw [frontSum, boardOf_initial ready]
  have stopped : frontSum layout last =
      ∑ h ∈ Finset.range (m.hashMask + 1), layout.start h + n := by
    unfold frontSum
    simp only [passing.filled finished, Layout.stop, Finset.sum_add_distrib, sum_population]
    rw [below_eq_length _ fun entry _ => bucketIn_lt hash m entry, records_length]
  rw [started, stopped] at swaps
  rw [finished] at advances
  exact ⟨(Nat.add_left_cancel swaps).symm, by simpa using advances.symm⟩

theorem passing_initial (ready : Ready hash m n layout) : Passing layout ⟨m, m.indexes, 0⟩ :=
  ⟨placed_initial ready, fun _ before => absurd before (Nat.not_lt_zero _)⟩

/-- A placement loop that has left: the rounds it made, and what holds in them. -/
theorem place_trace (ready : Ready hash m n layout) (packed : ∀ h, layout.start h ≤ n) {placed : ImmutableHashMap}
    (run : place hash m = .ok placed) :
    ∃ rounds last, Loop.Trace (placeRound hash) ⟨m, m.indexes, 0⟩ rounds last ∧
      placeRound hash last = .ok none ∧ last.map = placed ∧ last.map.indexes = m.indexes ∧
      rounds.countP (fun s => (swapTarget hash s).isSome) = n ∧
      rounds.countP (fun s => (swapTarget hash s).isNone) = n ∧
      (∀ s ∈ rounds, ∀ target, swapTarget hash s = some target → target < n) ∧
      (∀ s ∈ rounds, EndsInRange m.indexes s.endIndexes (m.hashMask + 1)) ∧
      EndsInRange m.indexes last.endIndexes (m.hashMask + 1) := by
  unfold place at run
  cases ended : whileLoop (placeRound hash) (placeFuel m) ⟨m, m.indexes, 0⟩ with
  | error fault =>
      rw [ended] at run
      cases run
  | ok last =>
      rw [ended] at run
      cases run
      obtain ⟨rounds, trace, done⟩ := Loop.trace_of_left ended
      have initial := passing_initial ready
      obtain ⟨along, final⟩ := trace.invariant (fun s next passing go => passing.round ready go) initial
      have finished : last.i = n := by
        by_contra unfinished
        exact placeRound_ne_done ready final.placed
          (Nat.lt_of_le_of_ne final.placed.scan_le unfinished) done
      obtain ⟨swaps, advances⟩ := final.counts ready trace finished initial
      refine ⟨rounds, last, trace, done, rfl, final.placed.frame.indexes_eq, swaps, advances, ?_,
        fun s member => (along s member).placed.endsInRange ready packed,
        final.placed.endsInRange ready packed⟩
      intro s member target swap
      obtain ⟨next, go⟩ := trace.goes_on s member
      cases (placeRound_cases ready (along s member).placed go).2 with
      | advance h none here front =>
          rw [none] at swap
          cases swap
      | swap h endIndex own here front inside =>
          rw [own] at swap
          cases swap
          exact inside

end Rounds

section Fresh

variable {hash : List Byte → Nat} {keySize valueSize : UInt64} {n : Nat} {kvs : List Byte}

/-- The placement loop over the records of a table. -/
theorem placementRun_records (positive : keySize + valueSize ≠ 0) (filled : n ≠ 0)
    (whole : kvs.length = n * (keySize.toNat + valueSize.toNat)) (small : kvs.length < 2 ^ 63) :
    ∃ indexes rounds last, PlacementRun hash keySize valueSize n kvs indexes rounds last := by
  have fitting := fitting_ofSizes positive filled whole small
  have clear := clear_ofSizes hash keySize valueSize n kvs
  obtain ⟨indexes, same, ready⟩ := loadKvs_opening hash fitting (clear.exactly fitting)
  obtain ⟨loaded, run, after⟩ := clear.load fitting
  have packed := @start_le_of_fresh hash _ n kvs (leftover_ofSizes keySize valueSize)
  obtain ⟨rounds, last, trace, leaves, rfl, indexes_eq, swaps, advances, targets, ends, last_ends⟩ :=
    place_trace ready packed (same.symm.trans run)
  have big := sixteen_le_nextPower n
  have buckets : nextPower n - 1 + 1 = nextPower n := by omega
  have sum : (ofSizes keySize valueSize).kvSize = keySize.toNat + valueSize.toNat :=
    sizes_exact filled whole small
  have count_lt := ready.whole.count_lt
  change last.map.indexes = indexes at indexes_eq
  refine ⟨indexes, rounds, last, trace, leaves, run, indexes_eq, swaps, advances, targets,
    fun s member => buckets ▸ ends s member, buckets ▸ last_ends, sum ▸ after.perm, ?_⟩
  intro i inside h
  have starts : ∀ b, b ≤ nextPower n →
      indexes[b]? = some ((loadLayout hash (ofSizes keySize valueSize) n kvs).start b) := by
    intro b le
    have within := packed b
    rw [← indexes_eq, after.starts b le, sizeT_of_lt (by omega)]
  have next : (loadLayout hash (ofSizes keySize valueSize) n kvs).start (h + 1) =
      (loadLayout hash (ofSizes keySize valueSize) n kvs).stop h := loadLayout_next _ _ _ _ _
  rcases Nat.lt_or_ge h (nextPower n) with lower | outside
  · rw [← sum]
    refine (after.home_iff i inside h).trans ?_
    rw [starts h (Nat.le_of_lt lower), starts (h + 1) lower, next]
    simp [Layout.Home]
  · have bucket_lt := recordBucket_lt hash keySize.toNat (nextPower n - 1)
      (record (keySize.toNat + valueSize.toNat) last.map.table i)
    refine iff_of_false (by omega) ?_
    rintro ⟨low, high, _, none, _⟩
    rw [← indexes_eq, List.getElem?_eq_none (by rw [after.room]; omega)] at none
    cases none

/-- Without records the loop leaves at once. -/
theorem placementRun_empty (positive : keySize + valueSize ≠ 0) :
    ∃ indexes rounds last, PlacementRun hash keySize valueSize 0 [] indexes rounds last := by
  have unset := leftover_ofSizes keySize valueSize
  obtain ⟨starts, run, _, zero⟩ := load_nothing hash unset (kvSize_pos positive)
  have ends : EndsInRange starts starts (nextPower 0) := by
    intro h lower
    exact ⟨0, 0, 0, zero h (Nat.lt_succ_of_lt lower), zero h (Nat.lt_succ_of_lt lower),
      zero (h + 1) (Nat.succ_lt_succ lower), Nat.le_refl _, Nat.le_refl _⟩
  exact ⟨starts, [], ⟨_, starts, 0⟩, .nil _, rfl, run, rfl, rfl, rfl, List.forall_mem_nil _,
    List.forall_mem_nil _, ends, .refl _, fun i inside => absurd inside (Nat.not_lt_zero i)⟩

end Fresh

/-- The placement loop on a fresh map ends, after one swap for every record and one
advance for every position.  No swap leaves the table, the end indexes stay in the
ranges of their buckets, and the loop leaves a rearrangement of the records in which
the range of a bucket holds exactly the records of the bucket.  Only when the sizes add
up to zero, as `size_t`s do that are `2 ^ 64` together, there is no such run: the load
divides by zero in front of the loop. -/
theorem place_rounds_iff (hash : List Byte → Nat) (keySize valueSize : UInt64) (n : Nat)
    (kvs : List Byte) (whole : kvs.length = n * (keySize.toNat + valueSize.toNat))
    (small : kvs.length < 2 ^ 63) :
    (∃ indexes rounds last, PlacementRun hash keySize valueSize n kvs indexes rounds last) ↔
      keySize + valueSize ≠ 0 := by
  constructor
  · rintro ⟨indexes, rounds, last, run⟩
    exact positive_of_load run.loaded
  · intro positive
    rcases Nat.eq_zero_or_pos n with rfl | filled
    · rw [Nat.zero_mul] at whole
      obtain rfl := List.length_eq_zero_iff.mp whole
      exact placementRun_empty positive
    · exact placementRun_records positive filled.ne' whole small

/-- Three records in two buckets under a hash by the first byte. -/
theorem place_rounds_three_records :
    ∃ indexes rounds last, PlacementRun (fun key => (key.headD 0).toNat) 1 1 3 [5, 7, 2, 9, 5, 8]
      indexes rounds last :=
  (place_rounds_iff (fun key => (key.headD 0).toNat) 1 1 3 [5, 7, 2, 9, 5, 8] (by decide)
    (by decide)).mpr (by decide)

/-- Keys of one byte and values of `2 ^ 64 - 1`: the load of no records does not come to the loop. -/
theorem place_rounds_sizes_wrap :
    ¬∃ indexes rounds last,
      PlacementRun BytesHash.keyHash 1 18446744073709551615 0 [] indexes rounds last := by
  rintro ⟨indexes, rounds, last, run⟩
  exact positive_of_load run.loaded (by decide)

end CppProject.Cannon.ImmutableHashMap
