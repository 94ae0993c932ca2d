import CppProject.QSort.Partition

/-!
# The choice of the pivot

The three samples are meant to be the first, the middle and the last cell of the range, but the
last cell is read twice.  The pivot is the greater of the middle and the last cell: on an
increasing range it is the maximum, and the partition takes one cell off.
-/

namespace CppProject.QSort

open Library Library.Checked Library.Ranges

variable {nums : List Int} {s e : Nat}

/-- The median of three values. -/
def median (x y z : Int) : Int := max (min x y) (min (max x y) z)

/-- The cells from `s` to `e` grow strictly. -/
def Increasing (nums : List Int) (s e : Nat) : Prop :=
  ∀ m n x y, s ≤ m → m < n → n ≤ e → nums[m]? = some x → nums[n]? = some y → x < y

/-- How many of the cells from `s` to `e` a recursive call receives. -/
def leftCells (s : Nat) (split : PartitionState) : Nat := (split.i - 1 + 1 - s).toNat

def rightCells (e : Nat) (split : PartitionState) : Nat := ((e : Int) + 1 - (split.k + 1)).toNat

/-- The pivot is the median of the first, the middle and the last cell, and on an increasing range
each recursive call receives at most half of the cells. -/
def PivotProtects (nums : List Int) (s e : Nat) : Prop :=
  (∃ first second last, nums[s]? = some first ∧ nums[(s + e) / 2]? = some second ∧
    nums[e]? = some last ∧ choosePartition nums s e = .ok (median first second last)) ∧
  (Increasing nums s e → ∃ split, partitionRange nums s e = .ok split ∧
    2 * leftCells s split ≤ e + 1 - s ∧ 2 * rightCells e split ≤ e + 1 - s)

theorem median_eq_max {first second last : Int} :
    median first second last = max second last ↔ second ≤ first ∧ last ≤ first ∨ second = last := by
  unfold median
  omega

/-- The sum of the indexes of the samples must not run over the largest `int`. -/
theorem choosePartition_short {p : Int} (range : s ≤ e) (chosen : choosePartition nums s e = .ok p) :
    s + e < 2 ^ 31 := by
  obtain ⟨_, at_e, rest⟩ := bind_eq_ok.mp chosen
  obtain ⟨_, at_middle, _⟩ := bind_eq_ok.mp rest
  unfold loadInt at at_e at_middle
  split at at_e
  next e_counted =>
    split at at_middle
    next middle_counted =>
      by_contra long
      have wrapped : ((e : Int) + s).bmod (2 ^ 32) = e + s - 2 ^ 32 := by
        rw [Int.bmod]
        split <;> omega
      have negative : middle s e < 0 := by
        rw [middle, wrapped, ← Int.neg_neg ((e : Int) + s - 2 ^ 32), Int.neg_tdiv,
          Int.tdiv_eq_ediv_of_nonneg (by omega)]
        omega
      exact absurd middle_counted.1 (Int.not_le.mpr negative)
    next => cases at_middle
  next => cases at_e

/-- The pivot is the median of the three cells when the first one is not below the others, or the
others are equal. -/
theorem pivot_protects_iff {first second last : Int} (range : s + 2 ≤ e)
    (at_s : nums[s]? = some first) (at_middle : nums[(s + e) / 2]? = some second)
    (at_e : nums[e]? = some last) :
    PivotProtects nums s e ↔
      s + e < 2 ^ 31 ∧ (second ≤ first ∧ last ≤ first ∨ second = last) := by
  rw [← median_eq_max]
  constructor
  · rintro ⟨⟨_, _, _, at_s', at_middle', at_e', is_median⟩, _⟩
    have short := choosePartition_short (by omega) is_median
    cases at_s.symm.trans at_s'
    cases at_middle.symm.trans at_middle'
    cases at_e.symm.trans at_e'
    exact ⟨short, Except.ok.inj (is_median.symm.trans (choosePartition_natCast short at_middle at_e))⟩
  · rintro ⟨short, same⟩
    have chosen := choosePartition_natCast short at_middle at_e
    refine ⟨⟨first, second, last, at_s, at_middle, at_e, by rw [same]; exact chosen⟩, ?_⟩
    intro increasing
    have first_middle := increasing _ _ _ _ (Nat.le_refl s) (by omega) (by omega) at_s at_middle
    have middle_last := increasing _ _ _ _ (by omega) (by omega) (Nat.le_refl e) at_middle at_e
    have := median_eq_max.mp same
    omega

theorem pivot_protects_falling : PivotProtects [3, 2, 1] 0 2 :=
  (pivot_protects_iff (by decide) rfl rfl rfl).mpr ⟨by decide, Or.inl (by decide)⟩

/-- The pivot of 1, 2, 3 is 3, and the left call receives two of the three cells. -/
theorem pivot_misses_increasing : ¬PivotProtects [1, 2, 3] 0 2 := by
  rintro ⟨⟨_, _, _, at_s, at_middle, at_e, is_median⟩, _⟩
  cases at_s
  cases at_middle
  cases at_e
  exact absurd is_median (by decide)

/-- The cells of an increasing range differ from each other. -/
theorem Increasing.nodup (increasing : Increasing nums s e) :
    (slice nums s (e + 1 - s)).Nodup := by
  rw [List.nodup_iff_pairwise_ne, List.pairwise_iff_getElem]
  intro m n m_inside n_inside between
  have length : (slice nums s (e + 1 - s)).length ≤ e + 1 - s := by
    rw [slice, List.length_take]
    exact Nat.min_le_left _ _
  have at_m := List.getElem?_eq_getElem m_inside
  have at_n := List.getElem?_eq_getElem n_inside
  rw [getElem?_slice nums (by omega)] at at_m at_n
  exact Int.ne_of_lt (increasing _ _ _ _ (Nat.le_add_right s m) (by omega) (by omega) at_m at_n)

/-- On an increasing range the left call receives all cells but one. -/
theorem increasing_split (short : nums.length < 2 ^ 30) (range : s + 2 ≤ e) (inside : e < nums.length)
    (increasing : Increasing nums s e) :
    ∃ split, partitionRange nums s e = .ok split ∧ leftCells s split = e - s ∧
      rightCells e split = 0 := by
  obtain ⟨p, a, c, split, chosen, run, i_eq, k_eq, some_equal, regions⟩ :=
    @partitionRange_spec nums s (e + 1) short (by omega) inside
  rw [Int.natCast_succ, Int.add_sub_cancel] at chosen run
  obtain ⟨second, at_middle⟩ : ∃ second, nums[(s + e) / 2]? = some second :=
    ⟨_, List.getElem?_eq_getElem (by omega)⟩
  obtain ⟨last, at_e⟩ : ∃ last, nums[e]? = some last := ⟨_, List.getElem?_eq_getElem inside⟩
  have middle_last := increasing _ _ _ _ (by omega) (by omega) (Nat.le_refl e) at_middle at_e
  rw [choosePartition_natCast (by omega) at_middle at_e, max_eq_right (Int.le_of_lt middle_last)] at chosen
  obtain rfl : last = p := Except.ok.inj chosen
  have start := regions.start
  have stop := regions.stop
  -- the pivot is the maximum, so no cell is above it
  have maximal : AllOn (· ≤ last) s (e + 1) nums := by
    intro m x low high at_m
    rcases Nat.lt_or_eq_of_le (Nat.le_of_lt_succ high) with front | rfl
    · exact Int.le_of_lt (increasing m e x last low front (Nat.le_refl e) at_m at_e)
    · cases at_m.symm.trans at_e
      exact Int.le_refl _
  have same_length := regions.rearranged.length
  have e_inside : e < split.nums.length := by omega
  have at_end := List.getElem?_eq_getElem e_inside
  have end_maximal := maximal.rearranged regions.rearranged e _ (by omega) (by omega) at_end
  have all_seen : c = e + 1 := by
    by_contra above_end
    exact absurd (regions.above e _ (by omega) (by omega) at_end) (Int.not_lt.mpr end_maximal)
  -- the cells differ, so no other cell is equal to it
  have one_equal : c ≤ a + 1 :=
    regions.equal.nodup start stop (by omega)
      (regions.rearranged.slice_perm.nodup_iff.mpr increasing.nodup)
  refine ⟨split, run, ?_, ?_⟩
  · rw [leftCells, i_eq]
    omega
  · rw [rightCells, k_eq, all_seen]
    omega

/-- So a call on an increasing range of ten cells makes a call on nine of them. -/
example : (partitionRange [0, 1, 2, 3, 4, 5, 6, 7, 8, 9] 0 9).map (leftCells 0) = .ok 9 := by decide

end CppProject.QSort
