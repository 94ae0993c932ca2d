import Mathlib.Algebra.BigOperators.Group.Finset.Basic
import Mathlib.Algebra.Order.BigOperators.Group.Finset
import Mathlib.Algebra.Group.Action.Defs
import Mathlib.Data.Finset.Max
import Mathlib.Data.List.Perm.Basic
import Mathlib.Order.Interval.Finset.Nat
import Mathlib.Tactic.SplitIfs

/-!
# In-place placement of records into buckets

Every bucket owns a range of positions, its home.  A scan runs over the
positions from the left; a record found outside the filled front of its home is
swapped to the first position behind that front.  The homes need not be packed
tightly, so the last ones may lie behind the end of the table.
-/

namespace CppProject.Library.Placement

variable {α : Type} (bucket : α → Nat)

/-- The number of records of one bucket. -/
def population (records : List α) (h : Nat) : Nat :=
  records.countP (fun record => bucket record = h)

/-- The number of records in the buckets below `h`. -/
def below (records : List α) (h : Nat) : Nat :=
  records.countP (fun record => bucket record < h)

theorem below_zero (records : List α) : below bucket records 0 = 0 := by
  rw [below, List.countP_eq_zero]
  intro record _
  simp

theorem below_succ (records : List α) (h : Nat) :
    below bucket records (h + 1) = below bucket records h + population bucket records h := by
  unfold below population
  induction records with
  | nil => rfl
  | cons record rest ih =>
      rw [List.countP_cons, List.countP_cons, List.countP_cons, ih]
      simp only [decide_eq_true_eq]
      split_ifs <;> omega

theorem sum_population (records : List α) (h : Nat) :
    ∑ l ∈ Finset.range h, population bucket records l = below bucket records h := by
  induction h with
  | zero => rw [Finset.sum_range_zero, below_zero]
  | succ h ih => rw [Finset.sum_range_succ, ih, below_succ]

theorem below_eq_length {records : List α} {h : Nat}
    (bounded : ∀ record ∈ records, bucket record < h) :
    below bucket records h = records.length := by
  rw [below, List.countP_eq_length]
  intro record member
  exact decide_eq_true (bounded record member)

theorem population_perm {records other : List α} (same : records.Perm other) (h : Nat) :
    population bucket records h = population bucket other h :=
  same.countP_eq _

theorem population_pos {records : List α} {record : α} (member : record ∈ records) :
    0 < population bucket records (bucket record) :=
  List.countP_pos_iff.mpr ⟨record, member, decide_eq_true rfl⟩

/-- The bucket of the record at a position, if there is one. -/
def bucketAt (cells : List α) (p : Nat) : Option Nat := cells[p]?.map bucket

theorem bucketAt_eq_some {cells : List α} {p h : Nat} :
    bucketAt bucket cells p = some h ↔ ∃ record, cells[p]? = some record ∧ bucket record = h :=
  Option.map_eq_some_iff

theorem lt_length_of_bucketAt {cells : List α} {p h : Nat} (at_p : bucketAt bucket cells p = some h) :
    p < cells.length := by
  obtain ⟨record, found, _⟩ := (bucketAt_eq_some bucket).mp at_p
  exact (List.getElem?_eq_some_iff.mp found).1

/-- The positions that hold records of one bucket. -/
def positions (cells : List α) (h : Nat) : Finset Nat :=
  (Finset.range cells.length).filter (fun p => bucketAt bucket cells p = some h)

theorem mem_positions {cells : List α} {h p : Nat} :
    p ∈ positions bucket cells h ↔ bucketAt bucket cells p = some h := by
  rw [positions, Finset.mem_filter, Finset.mem_range]
  exact ⟨fun both => both.2, fun at_p => ⟨lt_length_of_bucketAt bucket at_p, at_p⟩⟩

theorem card_positions (cells : List α) (h : Nat) :
    (positions bucket cells h).card = population bucket cells h := by
  induction cells using List.reverseRecOn with
  | nil => rfl
  | append_singleton front last ih =>
      have old : ∀ p ∈ Finset.range front.length,
          (bucketAt bucket (front ++ [last]) p = some h ↔ bucketAt bucket front p = some h) := by
        intro p member
        unfold bucketAt
        rw [List.getElem?_append_left (Finset.mem_range.mp member)]
      have new : bucketAt bucket (front ++ [last]) front.length = some (bucket last) := by
        rw [bucketAt, List.getElem?_append_right (Nat.le_refl _), Nat.sub_self]
        rfl
      unfold positions at ih ⊢
      unfold population at ih ⊢
      rw [List.length_append, List.length_singleton, Finset.range_add_one, Finset.filter_insert, new,
        Finset.filter_congr old, List.countP_append, List.countP_singleton, ← ih]
      by_cases same : bucket last = h
      · rw [if_pos (congrArg some same), Finset.card_insert_of_notMem, if_pos (decide_eq_true same)]
        simp
      · rw [if_neg (fun eq => same (Option.some.inj eq)), if_neg (by simpa using same), Nat.add_zero]

/-- Positions `[low, high)` all hold bucket `h`, and so does one more: the range
is smaller than the bucket. -/
theorem range_lt_population {cells : List α} {h low high i : Nat} (ordered : low ≤ high)
    (filled : ∀ p, low ≤ p → p < high → bucketAt bucket cells p = some h)
    (here : bucketAt bucket cells i = some h) (outside : ¬(low ≤ i ∧ i < high)) :
    high < low + population bucket cells h := by
  have fresh : i ∉ Finset.Ico low high := fun member => outside (Finset.mem_Ico.mp member)
  have subset : insert i (Finset.Ico low high) ⊆ positions bucket cells h := by
    intro p member
    rw [mem_positions]
    rcases Finset.mem_insert.mp member with rfl | inside
    · exact here
    · exact filled p (Finset.mem_Ico.mp inside).1 (Finset.mem_Ico.mp inside).2
  have counted := Finset.card_le_card subset
  rw [Finset.card_insert_of_notMem fresh, Nat.card_Ico, card_positions] at counted
  omega

/-- A bucket all of whose records lie in one range is no larger than the range. -/
theorem population_le_range {cells : List α} {h low high : Nat}
    (inside : ∀ p, bucketAt bucket cells p = some h → low ≤ p ∧ p < high) :
    population bucket cells h ≤ high - low := by
  have subset : positions bucket cells h ⊆ Finset.Ico low high := by
    intro p member
    exact Finset.mem_Ico.mpr (inside p ((mem_positions bucket).mp member))
  have counted := Finset.card_le_card subset
  rwa [card_positions, Nat.card_Ico] at counted

/-! ## Homes and boards -/

/-- An assignment of home ranges to buckets, wide enough and in bucket order. -/
structure Layout (records : List α) where
  start : Nat → Nat
  spaced : ∀ h, start h + population bucket records h ≤ start (h + 1)

variable {bucket} {records : List α}

namespace Layout

/-- The end of a home that is exactly filled. -/
def stop (layout : Layout bucket records) (h : Nat) : Nat :=
  layout.start h + population bucket records h

/-- Position `p` belongs to the home of bucket `h`. -/
def Home (layout : Layout bucket records) (h p : Nat) : Prop :=
  layout.start h ≤ p ∧ p < layout.stop h

theorem stop_le_start (layout : Layout bucket records) {h h' : Nat} (lt : h < h') :
    layout.stop h ≤ layout.start h' := by
  induction lt with
  | refl => exact layout.spaced h
  | @step h' _ ih =>
      exact Nat.le_trans ih (Nat.le_trans (Nat.le_add_right _ _) (layout.spaced h'))

/-- Homes are disjoint. -/
theorem home_unique (layout : Layout bucket records) {h h' p : Nat}
    (home : layout.Home h p) (home' : layout.Home h' p) : h = h' := by
  rcases Nat.lt_trichotomy h h' with lt | eq | gt
  · have apart := layout.stop_le_start lt
    have := home.2
    have := home'.1
    omega
  · exact eq
  · have apart := layout.stop_le_start gt
    have := home'.2
    have := home.1
    omega

/-- Homes in bucket order with `extra h` spare positions behind the home of `h`. -/
def widened (bucket : α → Nat) (records : List α) (extra : Nat → Nat) : Layout bucket records where
  start h := ∑ l ∈ Finset.range h, extra l + below bucket records h
  spaced h := by
    rw [Finset.sum_range_succ, below_succ]
    omega

theorem widened_start (extra : Nat → Nat) (h : Nat) :
    (widened bucket records extra).start h =
      ∑ l ∈ Finset.range h, extra l + below bucket records h := rfl

theorem widened_stop (extra : Nat → Nat) (h : Nat) :
    (widened bucket records extra).stop h =
      ∑ l ∈ Finset.range h, extra l + below bucket records (h + 1) := by
  rw [stop, widened_start, below_succ, Nat.add_assoc]

/-- The next home starts behind the spare positions of this one. -/
theorem widened_start_succ (extra : Nat → Nat) (h : Nat) :
    (widened bucket records extra).start (h + 1) = (widened bucket records extra).stop h + extra h := by
  rw [widened_start, widened_stop, Finset.sum_range_succ]
  omega

/-- All occupied homes lie inside the table exactly when no bucket below an
occupied one has spare positions. -/
theorem widened_inside_iff (extra : Nat → Nat) :
    (∀ h, 0 < population bucket records h → (widened bucket records extra).stop h ≤ records.length) ↔
      ∀ record ∈ records, ∀ l, l < bucket record → extra l = 0 := by
  constructor
  · classical
    intro inside record member l lower
    -- the last occupied bucket ends at the number of records plus all spare positions below it
    obtain ⟨top, top_member, highest⟩ :=
      records.toFinset.exists_max_image bucket ⟨record, List.mem_toFinset.mpr member⟩
    have within : ∀ other ∈ records, bucket other < bucket top + 1 := fun other other_member =>
      Nat.lt_succ_of_le (highest other (List.mem_toFinset.mpr other_member))
    have bound := inside (bucket top) (population_pos bucket (List.mem_toFinset.mp top_member))
    rw [widened_stop, below_eq_length bucket within] at bound
    have none : ∑ b ∈ Finset.range (bucket top), extra b = 0 := by omega
    exact Finset.sum_eq_zero_iff.mp none l
      (Finset.mem_range.mpr (Nat.lt_of_lt_of_le lower (Nat.le_of_lt_succ (within record member))))
  · intro clear h occupied
    obtain ⟨record, member, same⟩ := List.countP_pos_iff.mp occupied
    have none : ∑ l ∈ Finset.range h, extra l = 0 := by
      apply Finset.sum_eq_zero
      intro l lower
      exact clear record member l (by rw [of_decide_eq_true same]; exact Finset.mem_range.mp lower)
    rw [widened_stop, none, Nat.zero_add]
    exact List.countP_le_length

end Layout

/-- The state of the scan: the table, the front of every bucket and the scan position. -/
structure Board (α : Type) where
  cells : List α
  fill : Nat → Nat
  scan : Nat

/-- One move.  A record on or before the front of its home is passed over; any
other record is swapped to the front of its home, which then grows by one. -/
inductive Move (layout : Layout bucket records) : Board α → Board α → Prop where
  | advance {board : Board α} {h : Nat}
      (here : bucketAt bucket board.cells board.scan = some h)
      (home : layout.start h ≤ board.scan ∧ board.scan ≤ board.fill h) :
      Move layout board { board with scan := board.scan + 1 }
  | swap {board : Board α} {h : Nat}
      (here : bucketAt bucket board.cells board.scan = some h)
      (astray : ¬(layout.start h ≤ board.scan ∧ board.scan < board.fill h))
      (inside : board.fill h < board.cells.length) :
      Move layout board
        { board with
          cells := board.cells.swap board.scan (board.fill h)
          fill := Function.update board.fill h (board.fill h + 1) }

/-- The invariant of the scan: fronts stay in their homes and hold only their
own bucket, and every position passed over is home. -/
structure Placing (layout : Layout bucket records) (board : Board α) : Prop where
  perm : board.cells.Perm records
  start_le_fill : ∀ h, layout.start h ≤ board.fill h
  fill_le_stop : ∀ h, board.fill h ≤ layout.stop h
  filled : ∀ h p, layout.start h ≤ p → p < board.fill h → bucketAt bucket board.cells p = some h
  scanned : ∀ p, p < board.scan → ∃ h, bucketAt bucket board.cells p = some h ∧ layout.Home h p

theorem Placing.initial (layout : Layout bucket records) :
    Placing layout ⟨records, layout.start, 0⟩ where
  perm := .refl _
  start_le_fill _ := Nat.le_refl _
  fill_le_stop _ := Nat.le_add_right _ _
  filled _ _ low high := absurd high (Nat.not_lt.mpr low)
  scanned _ before := absurd before (Nat.not_lt_zero _)

/-- A record outside the filled front of its home leaves room in that home. -/
theorem Placing.has_room {layout : Layout bucket records} {board : Board α}
    (placing : Placing layout board) {i h : Nat} (here : bucketAt bucket board.cells i = some h)
    (astray : ¬(layout.start h ≤ i ∧ i < board.fill h)) : board.fill h < layout.stop h := by
  have room := range_lt_population bucket (placing.start_le_fill h) (placing.filled h) here astray
  rwa [population_perm bucket placing.perm] at room

theorem bucketAt_swap {cells : List α} {i j : Nat} (hi : i < cells.length) (hj : j < cells.length)
    (p : Nat) :
    bucketAt bucket (cells.swap i j) p =
      if p = j then bucketAt bucket cells i
      else if p = i then bucketAt bucket cells j
      else bucketAt bucket cells p := by
  unfold bucketAt
  rw [List.swap_eq_of_lt hi hj, List.getElem?_set, List.getElem?_set, List.length_set]
  by_cases at_j : p = j
  · rw [if_pos at_j.symm, if_pos hj, if_pos at_j, List.getElem?_eq_getElem hi]
  · rw [if_neg (Ne.symm at_j), if_neg at_j]
    by_cases at_i : p = i
    · rw [if_pos at_i.symm, if_pos hi, if_pos at_i, List.getElem?_eq_getElem hj]
    · rw [if_neg (Ne.symm at_i), if_neg at_i]

/-- Every move keeps the invariant. -/
theorem Placing.move {layout : Layout bucket records} {board next : Board α}
    (placing : Placing layout board) (move : Move layout board next) : Placing layout next := by
  cases move with
  | @advance h here home =>
      refine ⟨placing.perm, placing.start_le_fill, placing.fill_le_stop, placing.filled, ?_⟩
      intro p before
      rcases Nat.lt_succ_iff_lt_or_eq.mp before with old | rfl
      · exact placing.scanned p old
      · refine ⟨h, here, home.1, ?_⟩
        by_cases front : board.scan < board.fill h
        · exact Nat.lt_of_lt_of_le front (placing.fill_le_stop h)
        · have room := placing.has_room here (fun both => front both.2)
          exact Nat.lt_of_le_of_lt home.2 room
  | @swap h here astray inside =>
      have room := placing.has_room here astray
      have scan_lt := lt_length_of_bucketAt bucket here
      have fill_home : layout.Home h (board.fill h) := ⟨placing.start_le_fill h, room⟩
      refine ⟨(List.swap_perm _ _ _).trans placing.perm, ?_, ?_, ?_, ?_⟩
      · intro other
        have := placing.start_le_fill other
        simp only [Function.update_apply]
        split_ifs with same
        · subst same
          omega
        · exact this
      · intro other
        have := placing.fill_le_stop other
        simp only [Function.update_apply]
        split_ifs with same
        · subst same
          exact room
        · exact this
      · intro other p low high
        simp only [Function.update_apply] at high
        rw [bucketAt_swap scan_lt inside]
        by_cases target : p = board.fill h
        · rw [if_pos target, here]
          split_ifs at high with same
          · rw [same]
          · have home' : layout.Home other p :=
              ⟨low, Nat.lt_of_lt_of_le high (placing.fill_le_stop other)⟩
            rw [layout.home_unique fill_home (target ▸ home')]
        · rw [if_neg target]
          have filled : bucketAt bucket board.cells p = some other := by
            apply placing.filled other p low
            split_ifs at high with same
            · subst same
              omega
            · exact high
          by_cases source : p = board.scan
          · -- the scanned record is astray, so no front contains its position
            rw [source, here] at filled
            cases filled
            split_ifs at high with same
            · exact absurd ⟨source ▸ low, by omega⟩ astray
            · exact absurd rfl same
          · rw [if_neg source]
            exact filled
      · intro p before
        rw [bucketAt_swap scan_lt inside]
        by_cases target : p = board.fill h
        · rw [if_pos target]
          exact ⟨h, here, target ▸ fill_home⟩
        · rw [if_neg target, if_neg (Nat.ne_of_lt before)]
          exact placing.scanned p before

/-! ## The scan ends -/

/-- What is left to do: positions to pass over and records to bring home. -/
def remaining (layout : Layout bucket records) (bound : Nat) (board : Board α) : Nat :=
  (board.cells.length - board.scan) + ∑ h ∈ Finset.range bound, (layout.stop h - board.fill h)

/-- Every position is passed over once, and no home is larger than the table. -/
theorem Placing.remaining_le {layout : Layout bucket records} {board : Board α}
    (placing : Placing layout board) (bound : Nat) :
    remaining layout bound board ≤ records.length + bound * records.length := by
  have each : ∀ h ∈ Finset.range bound, layout.stop h - board.fill h ≤ records.length := by
    intro h _
    have front := placing.start_le_fill h
    have size : population bucket records h ≤ records.length := List.countP_le_length
    unfold Layout.stop
    omega
  have total := Finset.sum_le_card_nsmul _ _ _ each
  rw [Finset.card_range, smul_eq_mul] at total
  rw [remaining, placing.perm.length_eq]
  omega

theorem move_remaining_lt {layout : Layout bucket records} {bound : Nat} {board next : Board α}
    (bounded : ∀ record, bucket record < bound)
    (placing : Placing layout board) (move : Move layout board next) :
    remaining layout bound next < remaining layout bound board := by
  cases move with
  | advance here home =>
      have inside := lt_length_of_bucketAt bucket here
      unfold remaining
      simp only
      omega
  | @swap h here astray inside =>
      have room := placing.has_room here astray
      obtain ⟨record, _, same⟩ := (bucketAt_eq_some bucket).mp here
      have member : h ∈ Finset.range bound := Finset.mem_range.mpr (same ▸ bounded record)
      have shrinks : ∑ b ∈ Finset.range bound,
            (layout.stop b - Function.update board.fill h (board.fill h + 1) b) <
          ∑ b ∈ Finset.range bound, (layout.stop b - board.fill b) := by
        apply Finset.sum_lt_sum
        · intro b _
          rw [Function.update_apply]
          split_ifs with eq
          · subst eq
            omega
          · exact Nat.le_refl _
        · refine ⟨h, member, ?_⟩
          rw [Function.update_self]
          omega
      unfold remaining
      simp only [(List.swap_perm _ _ _).length_eq]
      omega

/-! ## The finished board -/

/-- A finished scan leaves every record in its home. -/
theorem Placing.at_home {layout : Layout bucket records} {board : Board α}
    (placing : Placing layout board) (finished : board.cells.length ≤ board.scan) {p h : Nat}
    (here : bucketAt bucket board.cells p = some h) : layout.Home h p := by
  have inside := lt_length_of_bucketAt bucket here
  obtain ⟨other, found, home⟩ := placing.scanned p (by omega)
  rw [here] at found
  cases found
  exact home

/-- On a finished board the positions of a home hold exactly its bucket. -/
theorem Placing.bucketAt_iff {layout : Layout bucket records} {board : Board α}
    (placing : Placing layout board) (finished : board.cells.length ≤ board.scan) {p : Nat}
    (inside : p < board.cells.length) (h : Nat) :
    bucketAt bucket board.cells p = some h ↔ layout.Home h p := by
  obtain ⟨other, found, home⟩ := placing.scanned p (by omega)
  constructor
  · intro here
    exact placing.at_home finished here
  · intro here
    rw [layout.home_unique here home]
    exact found

/-- A scan can only finish when no occupied home sticks out of the table. -/
theorem Placing.stop_le_length {layout : Layout bucket records} {board : Board α}
    (placing : Placing layout board) (finished : board.cells.length ≤ board.scan) {h : Nat}
    (occupied : 0 < population bucket records h) : layout.stop h ≤ records.length := by
  have range : population bucket board.cells h ≤
      min (layout.stop h) records.length - layout.start h := by
    apply population_le_range
    intro p here
    have home := placing.at_home finished here
    have inside := lt_length_of_bucketAt bucket here
    rw [placing.perm.length_eq] at inside
    exact ⟨home.1, lt_min home.2 inside⟩
  rw [population_perm bucket placing.perm] at range
  have := min_le_right (layout.stop h) records.length
  have := min_le_left (layout.stop h) records.length
  unfold Layout.stop at *
  omega

end CppProject.Library.Placement
