import CppProject.Library.Ranges
import CppProject.QSort.Source
import Mathlib.Order.Lattice

/-!
# The partition

The loop keeps four regions of the range apart: the cells below the pivot, those equal to it,
those it has not seen, and those above it.  Each round takes a cell out of the unseen region.
The pivot is one of the cells, so the region of the equal cells is not empty at the end, and
both of the others are shorter than the range.
-/

namespace CppProject.QSort

open Library Library.Checked Library.Ranges

variable {nums before : List Int} {lo hi a b c : Nat} {p : Int}

theorem swapCells_natCast {i j : Nat} {x y : Int} (short : nums.length < 2 ^ 31)
    (at_i : nums[i]? = some x) (at_j : nums[j]? = some y) :
    swapCells nums i j = .ok ((nums.set i y).set j x) := by
  obtain ⟨i_inside, _⟩ := List.getElem?_eq_some_iff.mp at_i
  obtain ⟨j_inside, _⟩ := List.getElem?_eq_some_iff.mp at_j
  rw [swapCells, loadInt_natCast (by omega) at_i, ok_bind, loadInt_natCast (by omega) at_j, ok_bind,
    storeInt_natCast (by omega) i_inside, ok_bind,
    storeInt_natCast (by omega) (by rwa [List.length_set])]

/-- The regions of the partition loop, with the unseen cells from `b` up to `c`. -/
structure Regions (p : Int) (lo hi : Nat) (before : List Int) (a b c : Nat) (nums : List Int) :
    Prop where
  start : lo ≤ a
  equal_end : a ≤ b
  unseen_end : b ≤ c
  stop : c ≤ hi
  rearranged : Rearranged lo hi before nums
  below : AllOn (· < p) lo a nums
  equal : AllOn (· = p) a b nums
  above : AllOn (p < ·) c hi nums

theorem regions_initial (range : lo ≤ hi) : Regions p lo hi nums lo lo hi nums :=
  ⟨Nat.le_refl _, Nat.le_refl _, range, Nat.le_refl _, Rearranged.refl _ _ _,
    .empty (Nat.le_refl _), .empty (Nat.le_refl _), .empty (Nat.le_refl _)⟩

section Round

variable {cell : Int}

/-- A smaller cell changes places with the first equal one. -/
theorem Regions.smaller (regions : Regions p lo hi before a b c nums) (unseen : b < c) {first : Int}
    (at_a : nums[a]? = some first) (at_b : nums[b]? = some cell) (smaller : cell < p) :
    Regions p lo hi before (a + 1) (b + 1) c ((nums.set a cell).set b first) := by
  obtain ⟨start, equal_end, _, stop, rearranged, below, equal, above⟩ := regions
  have swapped : Rearranged a (b + 1) nums ((nums.set a cell).set b first) :=
    Rearranged.swap (by omega) (by omega) at_a at_b
  have found (m : Nat) := @getElem?_swap _ nums a b m first cell at_a at_b
  refine ⟨by omega, by omega, unseen, stop, rearranged.trans (swapped.widen start (by omega)), ?_, ?_,
    above.apart swapped (by omega)⟩
  · refine (below.apart swapped (by omega)).snoc fun x at_end => ?_
    rw [found] at at_end
    split at at_end
    next same => -- there is no equal cell yet
      subst same
      cases at_a.symm.trans at_b
      cases at_end
      exact smaller
    next =>
      rw [if_pos rfl] at at_end
      cases at_end
      exact smaller
  · intro m x low high at_m
    rw [found] at at_m
    split at at_m
    next same =>
      cases at_m
      exact equal a first (Nat.le_refl a) (by omega) at_a
    next =>
      rw [if_neg (by omega)] at at_m
      exact equal m x (by omega) (by omega) at_m

/-- A greater cell changes places with the last unseen one. -/
theorem Regions.greater (regions : Regions p lo hi before a b (c + 1) nums) (unseen : b < c + 1)
    {last : Int} (at_b : nums[b]? = some cell) (at_c : nums[c]? = some last) (greater : p < cell) :
    Regions p lo hi before a b c ((nums.set b last).set c cell) := by
  obtain ⟨start, equal_end, _, stop, rearranged, below, equal, above⟩ := regions
  have swapped : Rearranged b (c + 1) nums ((nums.set b last).set c cell) :=
    Rearranged.swap (by omega) (by omega) at_b at_c
  refine ⟨start, equal_end, Nat.le_of_lt_succ unseen, by omega,
    rearranged.trans (swapped.widen (by omega) stop), below.apart swapped (by omega),
    equal.apart swapped (by omega), ?_⟩
  intro m x low high at_m
  rcases Nat.eq_or_lt_of_le low with rfl | behind
  · rw [getElem?_swap at_b at_c, if_pos rfl] at at_m
    cases at_m
    exact greater
  · exact above.apart swapped (Or.inr (Nat.le_refl _)) m x behind high at_m

/-- An equal cell stays where it is. -/
theorem Regions.same (regions : Regions p lo hi before a b c nums) (unseen : b < c)
    (at_b : nums[b]? = some p) : Regions p lo hi before a (b + 1) c nums := by
  refine { regions with
    equal_end := Nat.le_succ_of_le regions.equal_end, unseen_end := unseen, equal := ?_ }
  refine regions.equal.snoc fun x at_end => ?_
  cases at_b.symm.trans at_end
  rfl

end Round

/-- The states of the partition loop. -/
def InPartition (p : Int) (lo hi : Nat) (before : List Int) (state : PartitionState) : Prop :=
  ∃ a b c : Nat, state.i = a ∧ state.j = b ∧ state.k = (c : Int) - 1 ∧
    Regions p lo hi before a b c state.nums

def unseenCells (state : PartitionState) : Nat := (state.k + 1 - state.j).toNat

theorem partitionRound_round (inside : hi ≤ before.length) (short : before.length < 2 ^ 30)
    {state : PartitionState} (inv : InPartition p lo hi before state) :
    partitionRound p state = .ok none ∨
      ∃ next, partitionRound p state = .ok (some next) ∧ InPartition p lo hi before next ∧
        unseenCells next < unseenCells state := by
  obtain ⟨nums, _, _, _⟩ := state
  obtain ⟨a, b, c, rfl, rfl, rfl, regions⟩ := inv
  replace regions : Regions p lo hi before a b c nums := regions
  have same_length : nums.length = before.length := regions.rearranged.length
  have stop := regions.stop
  have equal_end := regions.equal_end
  rcases Nat.lt_or_ge b c with unseen | seen
  · have goes : (b : Int) ≤ (c : Int) - 1 := by omega
    obtain ⟨cell, at_b⟩ : ∃ cell, nums[b]? = some cell := ⟨_, List.getElem?_eq_getElem (by omega)⟩
    rw [partitionRound, if_pos goes, loadInt_natCast (by omega) at_b, ok_bind]
    rcases Int.lt_trichotomy cell p with smaller | rfl | greater
    · obtain ⟨first, at_a⟩ : ∃ first, nums[a]? = some first :=
        ⟨_, List.getElem?_eq_getElem (by omega)⟩
      refine Or.inr ⟨⟨(nums.set a cell).set b first, a + 1, b + 1, c - 1⟩, ?_,
        ⟨a + 1, b + 1, c, rfl, rfl, rfl, regions.smaller unseen at_a at_b smaller⟩, ?_⟩
      · rw [if_pos smaller, swapCells_natCast (by omega) at_a at_b]
        rfl
      · simp only [unseenCells]
        omega
    · refine Or.inr ⟨⟨nums, a, b + 1, c - 1⟩, ?_,
        ⟨a, b + 1, c, rfl, rfl, rfl, regions.same unseen at_b⟩, ?_⟩
      · rw [if_neg (Int.lt_irrefl _), if_neg (Int.lt_irrefl _)]
      · simp only [unseenCells]
        omega
    · obtain ⟨c, rfl⟩ := Nat.exists_eq_succ_of_ne_zero (Nat.ne_zero_of_lt unseen)
      have before_last : ((c.succ : Nat) : Int) - 1 = c := by omega
      obtain ⟨last, at_c⟩ : ∃ last, nums[c]? = some last := ⟨_, List.getElem?_eq_getElem (by omega)⟩
      refine Or.inr ⟨⟨(nums.set b last).set c cell, a, b, c - 1⟩, ?_,
        ⟨a, b, c, rfl, rfl, rfl, regions.greater unseen at_b at_c greater⟩, ?_⟩
      · rw [if_neg (by omega), if_pos greater, before_last, swapCells_natCast (by omega) at_b at_c]
        rfl
      · simp only [unseenCells]
        omega
  · exact Or.inl (if_neg (by omega))

/-- The loop is left when no cell is unseen. -/
theorem partitionRound_none {i j k : Int} (done : partitionRound p ⟨nums, i, j, k⟩ = .ok none) :
    k < j := by
  by_contra unseen
  rw [partitionRound, if_pos (Int.not_lt.mp unseen)] at done
  obtain ⟨cell, _, rest⟩ := bind_eq_ok.mp done
  split at rest
  next =>
    obtain ⟨_, _, impossible⟩ := bind_eq_ok.mp rest
    cases impossible
  next =>
    split at rest
    next =>
      obtain ⟨_, _, impossible⟩ := bind_eq_ok.mp rest
      cases impossible
    next => cases rest

/-! ## The pivot -/

theorem middle_natCast {s e : Nat} (short : s + e < 2 ^ 31) : middle s e = ((s + e) / 2 : Nat) := by
  have exact_sum : ((e : Int) + s).bmod (2 ^ 32) = ((s + e : Nat) : Int) := by
    rw [Int.bmod]
    split <;> omega
  rw [middle, exact_sum]
  exact (Int.natCast_div (s + e) 2).symm

/-- The first and the third sample are the same cell, so the pivot is the greater of the
second and the last one. -/
theorem choosePartition_natCast {s e : Nat} {second last : Int} (short : s + e < 2 ^ 31)
    (at_middle : nums[(s + e) / 2]? = some second) (at_e : nums[e]? = some last) :
    choosePartition nums s e = .ok (max second last) := by
  rw [choosePartition, loadInt_natCast (by omega) at_e, ok_bind, middle_natCast (by omega),
    loadInt_natCast (by omega) at_middle, ok_bind, ok_bind, max_comm last second, min_self]

/-- The pivot is one of the cells of the range. -/
theorem choosePartition_mem {s e : Nat} (short : nums.length < 2 ^ 30) (range : s ≤ e)
    (inside : e < nums.length) :
    ∃ p m, choosePartition nums s e = .ok p ∧ s ≤ m ∧ m ≤ e ∧ nums[m]? = some p := by
  obtain ⟨second, at_middle⟩ : ∃ second, nums[(s + e) / 2]? = some second :=
    ⟨_, List.getElem?_eq_getElem (by omega)⟩
  obtain ⟨last, at_e⟩ : ∃ last, nums[e]? = some last := ⟨_, List.getElem?_eq_getElem inside⟩
  have chosen := choosePartition_natCast (by omega) at_middle at_e
  rcases max_choice second last with is_second | is_last
  · rw [is_second] at chosen
    exact ⟨second, _, chosen, by omega, by omega, at_middle⟩
  · rw [is_last] at chosen
    exact ⟨last, e, chosen, range, Nat.le_refl e, at_e⟩

/-- The partition ends with the equal cells between the smaller and the greater ones, and there
is one of them. -/
theorem partitionRange_spec (short : nums.length < 2 ^ 30) (range : lo < hi)
    (inside : hi ≤ nums.length) :
    ∃ (p : Int) (a c : Nat) (split : PartitionState),
      choosePartition nums lo ((hi : Int) - 1) = .ok p ∧
        partitionRange nums lo ((hi : Int) - 1) = .ok split ∧
        split.i = a ∧ split.k = (c : Int) - 1 ∧ a < c ∧ Regions p lo hi nums a c c split.nums := by
  obtain ⟨e, rfl⟩ := Nat.exists_eq_succ_of_ne_zero (Nat.ne_zero_of_lt range)
  have last : ((e.succ : Nat) : Int) - 1 = e := by omega
  obtain ⟨p, m, chosen, low, high, at_m⟩ := choosePartition_mem short (Nat.le_of_lt_succ range) inside
  have begun : InPartition p lo e.succ nums ⟨nums, lo, lo, e⟩ :=
    ⟨lo, lo, e.succ, rfl, rfl, last.symm, regions_initial (Nat.le_of_lt range)⟩
  have enough : unseenCells ⟨nums, lo, lo, e⟩ < nums.length + 1 := by
    simp only [unseenCells]
    omega
  obtain ⟨⟨sorted, _, _, _⟩, left, ⟨a, b, c, rfl, rfl, rfl, regions⟩, done⟩ :=
    Loop.leaves (fun _ inv => partitionRound_round inside short inv) begun enough
  have seen := partitionRound_none done
  have unseen_end := regions.unseen_end
  obtain rfl : b = c := by omega
  rw [last]
  refine ⟨p, a, b, _, chosen, by rw [partitionRange, chosen]; exact left, rfl, rfl, ?_, regions⟩
  -- otherwise all cells of the range would differ from the pivot
  by_contra none_equal
  have differ : AllOn (· ≠ p) lo e.succ sorted := by
    intro n x low high at_n
    rcases Nat.lt_or_ge n a with front | behind
    · exact Int.ne_of_lt (regions.below n x low front at_n)
    · exact Int.ne_of_gt (regions.above n x (by omega) high at_n)
  exact differ.rearranged regions.rearranged.symm m p low (Nat.lt_succ_of_le high) at_m rfl

end CppProject.QSort
