import CppProject.QSort.Partition

/-!
# The sort

Each call owns its range: it rearranges the cells of the range, leaves the others alone and
leaves the range sorted.  What the partition says of the two parts survives the recursive calls,
which rearrange one part each.
-/

namespace CppProject.QSort

open Library Library.Checked Library.Ranges

variable {nums : List Int} {lo hi : Nat}

/-- The outcome of a call on the range from `lo` up to `hi`. -/
structure Sorted (lo hi : Nat) (before after : List Int) : Prop where
  rearranged : Rearranged lo hi before after
  sorted : SortedOn lo hi after

/-- The two parts of a partitioned range, each sorted, make up a sorted range. -/
theorem Regions.sorted {p : Int} {a c : Nat} {before parted left right : List Int}
    (regions : Regions p lo hi before a c c parted) (first : Sorted lo a parted left)
    (second : Sorted c hi left right) : Sorted lo hi before right := by
  obtain ⟨start, equal_end, _, stop, rearranged, below, equal, above⟩ := regions
  refine ⟨rearranged.trans ((first.rearranged.widen (Nat.le_refl lo) (by omega)).trans
    (second.rearranged.widen (by omega) (Nat.le_refl hi))), ?_⟩
  have low : AllOn (· < p) lo a right :=
    (below.rearranged first.rearranged).apart second.rearranged (Or.inl equal_end)
  have high : AllOn (p < ·) c hi right :=
    (above.apart first.rearranged (Or.inr equal_end)).rearranged second.rearranged
  have middle : AllOn (· = p) a c right :=
    (equal.apart first.rearranged (Or.inr (Nat.le_refl a))).apart second.rearranged
      (Or.inl (Nat.le_refl c))
  have equal_sorted : SortedOn a c right := by
    intro m n x y low between high at_m at_n
    rw [middle m x low (by omega) at_m, middle n y (by omega) high at_n]
  have back : SortedOn a hi right :=
    equal_sorted.append second.sorted (middle.imp fun _ => Int.le_of_eq) (high.imp fun _ => Int.le_of_lt)
  have not_below : AllOn (p ≤ ·) a hi right :=
    (middle.imp fun _ same => Int.le_of_eq same.symm).append (high.imp fun _ => Int.le_of_lt)
  exact (first.sorted.apart second.rearranged (Or.inl equal_end)).append back
    (low.imp fun _ => Int.le_of_lt) not_below

/-- A range of two cells. -/
theorem sorted_two {first last : Int} (at_lo : nums[lo]? = some first)
    (at_last : nums[lo + 1]? = some last) (short : nums.length < 2 ^ 30) :
    Returns (if first > last then swapCells nums lo (lo + 1 : Nat) else .ok nums)
      (Sorted lo (lo + 2) nums) := by
  obtain ⟨inside, _⟩ := List.getElem?_eq_some_iff.mp at_last
  have between (m n : Nat) (low : lo ≤ m) (ordered : m < n) (high : n < lo + 2) :
      m = lo ∧ n = lo + 1 := by omega
  split
  next greater =>
    refine ⟨_, swapCells_natCast (by omega) at_lo at_last,
      Rearranged.swap (by omega) (by omega) at_lo at_last, ?_⟩
    intro m n x y low ordered high at_m at_n
    obtain ⟨rfl, rfl⟩ := between m n low ordered high
    rw [getElem?_swap at_lo at_last, if_neg (by omega), if_pos rfl] at at_m
    rw [getElem?_swap at_lo at_last, if_pos rfl] at at_n
    cases at_m
    cases at_n
    exact Int.le_of_lt greater
  next not_greater =>
    refine ⟨nums, rfl, Rearranged.refl _ _ _, ?_⟩
    intro m n x y low ordered high at_m at_n
    obtain ⟨rfl, rfl⟩ := between m n low ordered high
    cases at_lo.symm.trans at_m
    cases at_last.symm.trans at_n
    exact Int.not_lt.mp not_greater

/-- A call sorts its range, within a depth of the length of the range. -/
theorem qsortIn_spec {depth : Nat} (short : nums.length < 2 ^ 30) (inside : hi ≤ nums.length)
    (enough : hi - lo < depth) :
    Returns (qsortIn depth nums lo ((hi : Int) - 1)) (Sorted lo hi nums) := by
  induction depth generalizing nums lo hi with
  | zero => exact absurd enough (Nat.not_lt_zero _)
  | succ depth ih =>
      rw [qsortIn]
      rcases Nat.lt_or_ge (lo + 1) hi with long | single
      · rw [if_neg (by omega)]
        rcases Nat.eq_or_lt_of_le long with rfl | longer
        · have last : ((lo.succ.succ : Nat) : Int) - 1 = (lo + 1 : Nat) := by omega
          have last_inside : lo + 1 < nums.length := by omega
          have at_lo := List.getElem?_eq_getElem (Nat.lt_of_succ_lt last_inside)
          have at_last := List.getElem?_eq_getElem last_inside
          rw [last, if_pos (Int.natCast_succ lo).symm, loadInt_natCast (by omega) at_lo, ok_bind,
            loadInt_natCast (by omega) at_last, ok_bind]
          exact sorted_two at_lo at_last short
        · rw [if_neg (by omega)]
          obtain ⟨p, a, c, ⟨parted, i, j, k⟩, _, run, rfl, rfl, some_equal, regions⟩ :=
            partitionRange_spec short (by omega : lo < hi) inside
          have start := regions.start
          have stop := regions.stop
          have same_length : parted.length = nums.length := regions.rearranged.length
          have left := @ih parted lo a (by omega) (by omega) (by omega)
          rw [run, ok_bind]
          refine left.bind fun sorted first => ?_
          have length : sorted.length = parted.length := first.rearranged.length
          have behind : (c : Int) - 1 + 1 = c := by omega
          obtain ⟨final, after, second⟩ := @ih sorted c hi (by omega) (by omega) (by omega)
          rw [behind]
          exact ⟨final, after, regions.sorted first second⟩
      · rw [if_pos (by omega)]
        exact ⟨nums, rfl, Rearranged.refl _ _ _, SortedOn.single single⟩

/-- For indexes inside the vector `qsort` returns, leaves the cells outside of the range alone,
and sorts the cells of the range. -/
theorem qsort_sorts (nums : List Int) (s e : Nat) (short : nums.length < 2 ^ 30)
    (s_inside : s < nums.length) (e_inside : e < nums.length) :
    ∃ after, qsort nums s e = .ok after ∧ after.length = nums.length ∧
      (∀ m, m < s ∨ e < m → after[m]? = nums[m]?) ∧
      (slice after s (e + 1 - s)).Perm (slice nums s (e + 1 - s)) ∧
      (slice after s (e + 1 - s)).Pairwise (· ≤ ·) := by
  obtain ⟨after, run, rearranged, sorted⟩ :=
    @qsortIn_spec nums s (e + 1) (nums.length + 1) short e_inside (by omega)
  have last : ((e + 1 : Nat) : Int) - 1 = e := by omega
  rw [last] at run
  exact ⟨after, run, rearranged.length, rearranged.outside, rearranged.slice_perm, sorted.pairwise⟩

/-- A range with duplicates, and cells on both sides of it. -/
theorem qsort_sorts_duplicates : ∃ after, qsort [9, 3, 1, 3, 1, 3, 0] 1 5 = .ok after ∧
    (slice after 1 5).Pairwise (· ≤ ·) ∧ after[0]? = some 9 ∧ after[6]? = some 0 := by
  obtain ⟨after, run, _, outside, _, sorted⟩ :=
    qsort_sorts [9, 3, 1, 3, 1, 3, 0] 1 5 (by decide) (by decide) (by decide)
  exact ⟨after, run, sorted, outside 0 (Or.inl (by decide)), outside 6 (Or.inr (by decide))⟩

end CppProject.QSort
