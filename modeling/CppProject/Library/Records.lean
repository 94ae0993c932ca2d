import CppProject.Library.Checked

/-!
# Flat tables of equally long records

A table of records is stored as one vector of cells.  Exchanging two records by
block copies is the exchange of two elements of the list of records.
-/

namespace CppProject.Library.Records

open Checked

variable {α : Type}

/-- Record `i` of a table whose records are `size` cells long. -/
def record (size : Nat) (cells : List α) (i : Nat) : List α := slice cells (i * size) size

/-- The first `count` records of a table. -/
def records (size count : Nat) (cells : List α) : List (List α) :=
  (List.range count).map (record size cells)

@[simp] theorem records_length (size count : Nat) (cells : List α) :
    (records size count cells).length = count := by
  rw [records, List.length_map, List.length_range]

theorem getElem?_records {size count : Nat} (cells : List α) {i : Nat} (inside : i < count) :
    (records size count cells)[i]? = some (record size cells i) := by
  rw [records, List.getElem?_map, List.getElem?_range inside]
  rfl

theorem mem_records {size count : Nat} {cells entry : List α} :
    entry ∈ records size count cells ↔ ∃ i, i < count ∧ record size cells i = entry := by
  unfold records
  simp only [List.mem_map, List.mem_range]

theorem record_end_le {size count i : Nat} {cells : List α} (whole : count * size ≤ cells.length)
    (inside : i < count) : i * size + size ≤ cells.length := by
  have next : (i + 1) * size ≤ count * size := Nat.mul_le_mul_right size inside
  rw [Nat.succ_mul] at next
  omega

theorem record_length {size count i : Nat} {cells : List α} (whole : count * size ≤ cells.length)
    (inside : i < count) : (record size cells i).length = size :=
  slice_length (record_end_le whole inside)

theorem record_take {size short : Nat} (cells : List α) (i : Nat) (shorter : short ≤ size) :
    (record size cells i).take short = slice cells (i * size) short :=
  slice_take cells (i * size) shorter

theorem record_drop {size front : Nat} (cells : List α) (i back : Nat) (parts : front + back = size) :
    (record size cells i).drop front = slice cells (i * size + front) back := by
  unfold record slice
  rw [List.drop_take, List.drop_drop]
  congr 1
  omega

/-- The whole records of a table do not depend on what lies behind them. -/
theorem records_append {size count : Nat} {cells : List α} (whole : count * size ≤ cells.length)
    (back : List α) : records size count (cells ++ back) = records size count cells := by
  apply List.map_congr_left
  intro i member
  have ends := record_end_le whole (List.mem_range.mp member)
  have read := readBlock_append ends back
  rw [readBlock_of_le ends, readBlock_of_le (by rw [List.length_append]; omega)] at read
  exact Except.ok.inj read

/-- The records of a table that is written behind whole records follow those. -/
theorem records_add {size first : Nat} {front : List α} (whole : front.length = first * size)
    (second : Nat) (back : List α) :
    records size (first + second) (front ++ back) = records size first front ++ records size second back := by
  have behind (i : Nat) : record size (front ++ back) (first + i) = record size back i := by
    rw [record, record, slice, slice, Nat.add_mul, ← whole, List.drop_length_add_append]
  unfold records
  rw [List.range_add, List.map_append, List.map_map]
  congr 1
  · exact records_append whole.ge back
  · exact List.map_congr_left fun i _ => behind i

/-- Blocks of one size, one behind the other, are the records of a table. -/
theorem length_flatten_blocks {size : Nat} {blocks : List (List α)}
    (sized : ∀ block ∈ blocks, block.length = size) : blocks.flatten.length = blocks.length * size := by
  induction blocks with
  | nil => rw [List.flatten_nil, List.length_nil, List.length_nil, Nat.zero_mul]
  | cons block rest ih =>
      obtain ⟨first, later⟩ := List.forall_mem_cons.mp sized
      rw [List.flatten_cons, List.length_append, first, ih later, List.length_cons, Nat.succ_mul,
        Nat.add_comm]

theorem record_flatten_blocks {size : Nat} {blocks : List (List α)}
    (sized : ∀ block ∈ blocks, block.length = size) {i : Nat} {block : List α}
    (here : blocks[i]? = some block) : record size blocks.flatten i = block := by
  induction blocks generalizing i with
  | nil => cases here
  | cons first rest ih =>
      obtain ⟨first_size, later⟩ := List.forall_mem_cons.mp sized
      cases i with
      | zero =>
          obtain rfl : first = block := Option.some.inj here
          rw [record, slice, Nat.zero_mul, List.drop_zero, List.flatten_cons, ← first_size,
            List.take_left]
      | succ i =>
          rw [← ih later here, record, record, slice, slice, List.flatten_cons, Nat.succ_mul,
            Nat.add_comm, ← List.drop_drop, List.drop_left' first_size]

/-- Records at different indices do not overlap. -/
theorem records_apart {size i j : Nat} (different : i ≠ j) :
    i * size + size ≤ j * size ∨ j * size + size ≤ i * size := by
  rcases Nat.lt_or_gt_of_ne different with lt | gt
  · left
    have := Nat.mul_le_mul_right size lt
    rwa [Nat.succ_mul] at this
  · right
    have := Nat.mul_le_mul_right size gt
    rwa [Nat.succ_mul] at this

/-- The table after the records at `x` and `y` have been copied over each other. -/
def exchange (size : Nat) (cells : List α) (x y : Nat) : List α :=
  splice (splice cells (x * size) (record size cells y)) (y * size) (record size cells x)

section Exchange

variable {size count x y : Nat} {cells : List α}

theorem exchange_length (whole : count * size ≤ cells.length) (hx : x < count) (hy : y < count) :
    (exchange size cells x y).length = cells.length := by
  have x_end := record_end_le whole hx
  have y_end := record_end_le whole hy
  have x_size := record_length whole hx
  have y_size := record_length whole hy
  have first : (splice cells (x * size) (record size cells y)).length = cells.length :=
    splice_length (by omega)
  rw [exchange, splice_length (by omega), first]

theorem record_exchange (whole : count * size ≤ cells.length) (hx : x < count) (hy : y < count)
    (i : Nat) :
    record size (exchange size cells x y) i =
      if i = y then record size cells x
      else if i = x then record size cells y
      else record size cells i := by
  have x_end := record_end_le whole hx
  have y_end := record_end_le whole hy
  have x_size := record_length whole hx
  have y_size := record_length whole hy
  have first : (splice cells (x * size) (record size cells y)).length = cells.length :=
    splice_length (by omega)
  unfold exchange
  by_cases at_y : i = y
  · rw [if_pos at_y, at_y]
    have written : slice (splice (splice cells (x * size) (record size cells y)) (y * size)
        (record size cells x)) (y * size) (record size cells x).length = record size cells x :=
      slice_splice_self (by omega)
    rwa [x_size] at written
  · rw [if_neg at_y]
    have away : record size (splice (splice cells (x * size) (record size cells y)) (y * size)
        (record size cells x)) i = record size (splice cells (x * size) (record size cells y)) i := by
      apply slice_splice_apart (by omega)
      rw [x_size]
      exact records_apart at_y
    rw [away]
    by_cases at_x : i = x
    · rw [if_pos at_x, at_x]
      have written : slice (splice cells (x * size) (record size cells y)) (x * size)
          (record size cells y).length = record size cells y :=
        slice_splice_self (by omega)
      rwa [y_size] at written
    · rw [if_neg at_x]
      apply slice_splice_apart (by omega)
      rw [y_size]
      exact records_apart at_x

/-- Exchanging two records by block copies swaps two elements of the record list. -/
theorem records_exchange (whole : count * size ≤ cells.length) (hx : x < count) (hy : y < count) :
    records size count (exchange size cells x y) = (records size count cells).swap x y := by
  have hx' : x < (records size count cells).length := by rwa [records_length]
  have hy' : y < (records size count cells).length := by rwa [records_length]
  rw [List.swap_eq_of_lt hx' hy']
  apply List.ext_getElem?
  intro i
  by_cases inside : i < count
  · rw [getElem?_records _ inside, record_exchange whole hx hy, List.getElem?_set,
      List.getElem?_set, List.length_set, getElem?_records _ inside]
    by_cases at_y : i = y
    · rw [if_pos at_y, if_pos at_y.symm, if_pos hy', ← getElem?_records cells hx,
        List.getElem?_eq_getElem hx']
    · rw [if_neg at_y, if_neg (Ne.symm at_y)]
      by_cases at_x : i = x
      · rw [if_pos at_x, if_pos at_x.symm, if_pos hx', ← getElem?_records cells hy,
          List.getElem?_eq_getElem hy']
      · rw [if_neg at_x, if_neg (Ne.symm at_x)]
  · rw [List.getElem?_eq_none (by rw [records_length]; omega),
      List.getElem?_eq_none (by rw [List.length_set, List.length_set, records_length]; omega)]

end Exchange

end CppProject.Library.Records
