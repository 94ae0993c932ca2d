import CppProject.QSort.Pivots
import CppProject.QSort.Sorting
import Mathlib.Tactic.IntervalCases
import Mathlib.Tactic.Linarith

/-!
# The cost of a sort

A sort nests its calls and each call of three cells or more runs the partition loop over its
range.  Both are largest when every pivot takes one cell off, and that is what happens on an
increasing range: sorting a sorted vector is the worst case.
-/

namespace CppProject.QSort

open Library Library.Checked Library.Ranges

variable {nums after : List Int} {lo hi depth rounds : Nat}

/-- A call of `qsort` with its result, how deep the calls are nested in it, and how many rounds
their partition loops take. -/
inductive Sorting : List Int → Int → Int → List Int → Nat → Nat → Prop where
  | single {nums : List Int} {s e : Int} (few : s ≥ e) : Sorting nums s e nums 1 0
  | pair {nums after : List Int} {s e first last : Int} (two : s + 1 = e)
      (at_s : loadInt nums s = .ok first) (at_e : loadInt nums e = .ok last)
      (run : (if first > last then swapCells nums s e else .ok nums) = .ok after) :
      Sorting nums s e after 1 0
  | split {nums between after : List Int} {s e p : Int} {states : List PartitionState}
      {parts : PartitionState} {depth depth' rounds rounds' : Nat} (many : s + 1 < e)
      (chosen : choosePartition nums s e = .ok p)
      (trace : Loop.Trace (partitionRound p) ⟨nums, s, s, e⟩ states parts)
      (parted : partitionRound p parts = .ok none)
      (left : Sorting parts.nums s (parts.i - 1) between depth rounds)
      (right : Sorting between (parts.k + 1) e after depth' rounds') :
      Sorting nums s e after (max depth depth' + 1) (states.length + (rounds + rounds'))

/-- Every sort that returns is one. -/
theorem sorting_of_run {s e : Int} {fuel : Nat} (run : qsortIn fuel nums s e = .ok after) :
    ∃ depth rounds, Sorting nums s e after depth rounds := by
  induction fuel generalizing nums s e after with
  | zero => cases run
  | succ fuel ih =>
      unfold qsortIn at run
      split at run
      next few =>
        cases run
        exact ⟨_, _, .single few⟩
      next some_cells =>
        split at run
        next two =>
          obtain ⟨first, at_s, run⟩ := bind_eq_ok.mp run
          obtain ⟨last, at_e, run⟩ := bind_eq_ok.mp run
          exact ⟨_, _, .pair two at_s at_e run⟩
        next not_two =>
          obtain ⟨parts, part, run⟩ := bind_eq_ok.mp run
          obtain ⟨between, sort_left, sort_right⟩ := bind_eq_ok.mp run
          obtain ⟨p, chosen, left⟩ := bind_eq_ok.mp part
          obtain ⟨states, trace, parted⟩ := Loop.trace_of_left left
          obtain ⟨_, _, left_sorting⟩ := ih sort_left
          obtain ⟨_, _, right_sorting⟩ := ih sort_right
          exact ⟨_, _, .split (by omega) chosen trace parted left_sorting right_sorting⟩

/-! ## The rounds of one partition -/

theorem partitionRound_unseen {p : Int} {state next : PartitionState}
    (go : partitionRound p state = .ok (some next)) : unseenCells next + 1 = unseenCells state := by
  obtain ⟨nums, i, j, k⟩ := state
  rw [partitionRound] at go
  by_cases unseen : j ≤ k
  · rw [if_pos unseen] at go
    obtain ⟨cell, _, go⟩ := bind_eq_ok.mp go
    split at go
    next =>
      obtain ⟨swapped, _, same⟩ := bind_eq_ok.mp go
      cases same
      simp only [unseenCells]
      omega
    next =>
      split at go
      next =>
        obtain ⟨swapped, _, same⟩ := bind_eq_ok.mp go
        cases same
        simp only [unseenCells]
        omega
      next =>
        cases go
        simp only [unseenCells]
        omega
  · rw [if_neg unseen] at go
    cases go

/-- The loop takes one round for each cell of the range. -/
theorem partition_rounds {p s e : Int} {states : List PartitionState} {parts : PartitionState}
    (trace : Loop.Trace (partitionRound p) ⟨nums, s, s, e⟩ states parts)
    (parted : partitionRound p parts = .ok none) : states.length = (e + 1 - s).toNat := by
  have counted := trace.length_eq fun _ _ => partitionRound_unseen
  have seen := partitionRound_none parted
  simp only [unseenCells] at counted
  omega

/-- The partition of a sort is the one of the specification. -/
theorem partition_of_trace (short : nums.length < 2 ^ 30) (range : lo < hi) (inside : hi ≤ nums.length)
    {p e : Int} {states : List PartitionState} {parts : PartitionState} (last : e = (hi : Int) - 1)
    (chosen : choosePartition nums lo e = .ok p)
    (trace : Loop.Trace (partitionRound p) ⟨nums, lo, lo, e⟩ states parts)
    (parted : partitionRound p parts = .ok none) :
    ∃ a c : Nat, parts.i = a ∧ parts.k = (c : Int) - 1 ∧ a < c ∧ Regions p lo hi nums a c c parts.nums := by
  obtain ⟨p', a, c, split, chosen', run, i_eq, k_eq, some_equal, regions⟩ :=
    partitionRange_spec short range inside
  subst last
  cases chosen.symm.trans chosen'
  rw [partitionRange, chosen, ok_bind] at run
  obtain ⟨states', trace', parted'⟩ := Loop.trace_of_left run
  obtain rfl := trace.ended_unique parted trace' parted'
  exact ⟨a, c, i_eq, k_eq, some_equal, regions⟩

/-! ## The worst case -/

/-- The rounds for so many cells when each pivot takes one off. -/
def worstRounds : Nat → Nat
  | n + 3 => n + 3 + worstRounds (n + 2)
  | _ => 0

theorem worstRounds_succ {n : Nat} (many : 2 ≤ n) : worstRounds (n + 1) = n + 1 + worstRounds n := by
  obtain ⟨n, rfl⟩ := Nat.exists_eq_add_of_le' many
  rfl

theorem worstRounds_mono : Monotone worstRounds := by
  refine monotone_nat_of_le_succ fun n => ?_
  rcases Nat.lt_or_ge n 2 with few | many
  · interval_cases n <;> exact Nat.zero_le _
  · rw [worstRounds_succ many]
    exact Nat.le_add_left _ _

/-- Two parts take no more rounds than all their cells together. -/
theorem worstRounds_add_le (m n : Nat) : worstRounds m + worstRounds n ≤ worstRounds (m + n) := by
  induction n with
  | zero => exact Nat.le_refl _
  | succ n ih =>
      rcases Nat.lt_or_ge n 2 with few | many
      · have none : worstRounds (n + 1) = 0 := by interval_cases n <;> rfl
        rw [none]
        exact Nat.le_trans (Nat.le_trans (Nat.le_add_right _ _) ih) (worstRounds_mono (Nat.le_succ _))
      · have whole := worstRounds_succ (Nat.le_add_left_of_le many : 2 ≤ m + n)
        rw [worstRounds_succ many, ← Nat.add_assoc m n 1]
        omega

theorem worstRounds_eq {n : Nat} (some_pair : 2 ≤ n) : 2 * worstRounds n + 6 = n * (n + 1) := by
  induction n, some_pair using Nat.le_induction with
  | base => rfl
  | succ n many ih =>
      rw [worstRounds_succ many]
      linarith [ih]

theorem swapCells_length {i j : Int} (run : swapCells nums i j = .ok after) :
    after.length = nums.length := by
  obtain ⟨_, _, run⟩ := bind_eq_ok.mp run
  obtain ⟨_, _, run⟩ := bind_eq_ok.mp run
  obtain ⟨written, first, second⟩ := bind_eq_ok.mp run
  exact (storeInt_length second).trans (storeInt_length first)

/-- No range takes more rounds, or a deeper recursion, than a pivot that takes one cell off each time
would. -/
theorem Sorting.le_worst {s e : Int} (sorting : Sorting nums s e after depth rounds)
    (first : s = lo) (last : e = (hi : Int) - 1) (short : nums.length < 2 ^ 30)
    (inside : hi ≤ nums.length) :
    after.length = nums.length ∧ depth ≤ max 1 (hi - lo - 1) ∧ rounds ≤ worstRounds (hi - lo) := by
  induction sorting generalizing lo hi with
  | single few => exact ⟨rfl, Nat.le_max_left _ _, Nat.zero_le _⟩
  | @pair nums after s e x y two at_s at_e run =>
      refine ⟨?_, Nat.le_max_left _ _, Nat.zero_le _⟩
      split at run
      next => exact swapCells_length run
      next => cases run; rfl
  | @split nums between after s e p states parts depth depth' rounds rounds' many chosen trace parted _ _
      ih_left ih_right =>
      subst first
      have counted := partition_rounds trace parted
      obtain ⟨a, c, i_eq, k_eq, some_equal, regions⟩ :=
        partition_of_trace short (by omega) inside last chosen trace parted
      have start := regions.start
      have stop := regions.stop
      have same_length : parts.nums.length = nums.length := regions.rearranged.length
      obtain ⟨left_length, left_depth, left_rounds⟩ :=
        @ih_left lo a rfl (by omega) (by omega) (by omega)
      obtain ⟨right_length, right_depth, right_rounds⟩ :=
        @ih_right c hi (by omega) last (by omega) (by omega)
      have together := worstRounds_add_le (a - lo) (hi - c)
      obtain ⟨less, cells⟩ : ∃ less, hi - lo = less + 1 := ⟨hi - lo - 1, by omega⟩
      have fewer : worstRounds (a - lo + (hi - c)) ≤ worstRounds less :=
        worstRounds_mono (by omega)
      have one_more := worstRounds_succ (show 2 ≤ less by omega)
      rw [cells]
      exact ⟨by omega, by omega, by omega⟩

/-! ## Increasing ranges -/

/-- The partition of an increasing range passes over its cells and stops at the last one. -/
def Passing (nums : List Int) (s e : Nat) (state : PartitionState) : Prop :=
  state.nums = nums ∧ state.k = e ∧
    ((∃ j : Nat, state.i = j ∧ state.j = j ∧ s ≤ j ∧ j ≤ e) ∨ (state.i = e ∧ state.j = e + 1))

theorem Passing.round {s e : Nat} {last : Int} (short : nums.length < 2 ^ 30)
    (increasing : Increasing nums s e) (at_e : nums[e]? = some last) {state next : PartitionState}
    (passing : Passing nums s e state) (go : partitionRound last state = .ok (some next)) :
    Passing nums s e next := by
  obtain ⟨cells, i, j, k⟩ := state
  obtain ⟨rfl, rfl, ⟨j, rfl, rfl, low, high⟩ | ⟨rfl, rfl⟩⟩ := passing
  · replace short : cells.length < 2 ^ 30 := short
    replace at_e : cells[e]? = some last := at_e
    obtain ⟨e_inside, _⟩ := List.getElem?_eq_some_iff.mp at_e
    obtain ⟨cell, at_j⟩ : ∃ cell, cells[j]? = some cell := ⟨_, List.getElem?_eq_getElem (by omega)⟩
    have unseen : (j : Int) ≤ e := Int.ofNat_le.mpr high
    rw [partitionRound, if_pos unseen, loadInt_natCast (by omega) at_j, ok_bind] at go
    rcases Nat.eq_or_lt_of_le high with rfl | before
    · cases at_j.symm.trans at_e
      rw [if_neg (Int.lt_irrefl _), if_neg (Int.lt_irrefl _)] at go
      cases go
      exact ⟨rfl, rfl, Or.inr ⟨rfl, rfl⟩⟩
    · have smaller := increasing j e cell last low before (Nat.le_refl e) at_j at_e
      have same : cells.set j cell = cells := by
        obtain ⟨inside, rfl⟩ := List.getElem?_eq_some_iff.mp at_j
        exact List.set_getElem_self inside
      rw [if_pos smaller, swapCells_natCast (by omega) at_j at_j, same, same] at go
      cases go
      exact ⟨rfl, rfl, Or.inl ⟨j + 1, rfl, rfl, by omega, before⟩⟩
  · rw [partitionRound, if_neg (by omega)] at go
    cases go

/-- It leaves every cell where it is, and all but the last one to the left. -/
theorem partition_increasing {s e : Nat} (short : nums.length < 2 ^ 30) (range : s + 2 ≤ e)
    (inside : e < nums.length) (increasing : Increasing nums s e) {p : Int}
    {states : List PartitionState} {parts : PartitionState} (chosen : choosePartition nums s e = .ok p)
    (trace : Loop.Trace (partitionRound p) ⟨nums, s, s, e⟩ states parts)
    (parted : partitionRound p parts = .ok none) : parts.nums = nums ∧ parts.i = e ∧ parts.k = e := by
  obtain ⟨second, at_middle⟩ : ∃ second, nums[(s + e) / 2]? = some second :=
    ⟨_, List.getElem?_eq_getElem (by omega)⟩
  obtain ⟨last, at_e⟩ : ∃ last, nums[e]? = some last := ⟨_, List.getElem?_eq_getElem inside⟩
  have middle_last := increasing _ _ _ _ (by omega) (by omega) (Nat.le_refl e) at_middle at_e
  rw [choosePartition_natCast (by omega) at_middle at_e, max_eq_right (Int.le_of_lt middle_last)] at chosen
  obtain rfl : last = p := Except.ok.inj chosen
  have start : Passing nums s e ⟨nums, s, s, e⟩ :=
    ⟨rfl, rfl, Or.inl ⟨s, rfl, rfl, Nat.le_refl s, by omega⟩⟩
  obtain ⟨_, same, k_eq, unseen | ⟨i_eq, _⟩⟩ :=
    trace.invariant (fun _ _ passing go => passing.round short increasing at_e go) start
  · have seen := partitionRound_none parted
    omega
  · exact ⟨same, i_eq, k_eq⟩

/-- Sorting an increasing range moves no cell, and is the worst case. -/
theorem Sorting.increasing {s e : Int} (sorting : Sorting nums s e after depth rounds)
    (first : s = lo) (last : e = hi) (range : lo < hi) (short : nums.length < 2 ^ 30)
    (inside : hi < nums.length) (increasing : Increasing nums lo hi) :
    after = nums ∧ depth = hi - lo ∧ rounds = worstRounds (hi + 1 - lo) := by
  induction sorting generalizing hi with
  | single few => omega
  | @pair nums after s e x y two at_s at_e run =>
      subst first last
      obtain rfl : hi = lo + 1 := by omega
      have at_lo := List.getElem?_eq_getElem (Nat.lt_of_succ_lt inside)
      have at_hi := List.getElem?_eq_getElem inside
      have ordered := increasing lo (lo + 1) _ _ (Nat.le_refl _) (Nat.lt_succ_self _) (Nat.le_refl _) at_lo at_hi
      cases at_s.symm.trans (loadInt_natCast (by omega) at_lo)
      cases at_e.symm.trans (loadInt_natCast (by omega) at_hi)
      rw [if_neg (Int.not_lt.mpr (Int.le_of_lt ordered))] at run
      cases run
      have two_cells : lo + 1 + 1 - lo = 2 := by omega
      rw [two_cells]
      exact ⟨rfl, by omega, rfl⟩
  | @split nums between after s e p states parts depth depth' rounds rounds' many chosen trace parted _
      right ih_left ih_right =>
      subst first last
      have counted := partition_rounds trace parted
      obtain ⟨same, i_eq, k_eq⟩ := partition_increasing short (by omega) inside increasing chosen trace parted
      have front : Increasing parts.nums lo (hi - 1) := by
        rw [same]
        exact fun m n x y low less high => increasing m n x y low less (by omega)
      obtain ⟨between_eq, left_depth, left_rounds⟩ :=
        @ih_left (hi - 1) rfl (by omega) (by omega) (by rw [same]; exact short)
          (by rw [same]; omega) front
      have one_more := worstRounds_succ (show 2 ≤ hi - lo by omega)
      have fewer : hi - 1 + 1 - lo = hi - lo := by omega
      have all : hi + 1 - lo = hi - lo + 1 := by omega
      rw [fewer] at left_rounds
      cases right with
      | single few =>
          rw [all]
          exact ⟨between_eq.trans same, by omega, by omega⟩
      | pair two at_s at_e run => omega
      | split many => omega

/-- For `n` cells the calls of a sort nest no deeper than `n - 1`, and their partitions take
`n * (n + 1) / 2 - 3` rounds at most.  A range that is sorted already takes all of both. -/
theorem increasing_is_worst (nums : List Int) (s e : Nat) (short : nums.length < 2 ^ 30) (range : s < e)
    (inside : e < nums.length) :
    (∃ after depth rounds, qsort nums s e = .ok after ∧ Sorting nums s e after depth rounds) ∧
      ∀ after depth rounds, Sorting nums s e after depth rounds →
        depth ≤ e - s ∧ 2 * rounds + 6 ≤ (e + 1 - s) * (e + 2 - s) ∧
          (Increasing nums s e →
            after = nums ∧ depth = e - s ∧ 2 * rounds + 6 = (e + 1 - s) * (e + 2 - s)) := by
  have last : (e : Int) = ((e + 1 : Nat) : Int) - 1 := by omega
  have worst := worstRounds_eq (show 2 ≤ e + 1 - s by omega)
  have cells : e + 1 - s + 1 = e + 2 - s := by omega
  rw [cells] at worst
  refine ⟨?_, fun after depth rounds sorting => ?_⟩
  · obtain ⟨after, run, _⟩ := @qsortIn_spec nums s (e + 1) (nums.length + 1) short inside (by omega)
    rw [← last] at run
    obtain ⟨depth, rounds, sorting⟩ := sorting_of_run run
    exact ⟨after, depth, rounds, run, sorting⟩
  · obtain ⟨_, depth_le, rounds_le⟩ := sorting.le_worst rfl last short inside
    rw [← worst]
    refine ⟨by omega, by omega, fun increasing => ?_⟩
    obtain ⟨same, depth_eq, rounds_eq⟩ := sorting.increasing rfl rfl range short inside increasing
    rw [rounds_eq]
    exact ⟨same, depth_eq, rfl⟩

/-- Five sorted cells take twelve rounds, in calls that are nested four deep. -/
theorem increasing_is_worst_five : ∃ after rounds, qsort [1, 2, 3, 5, 8] 0 4 = .ok after ∧
    Sorting [1, 2, 3, 5, 8] 0 4 after 4 rounds ∧ rounds = 12 := by
  have increasing : Increasing [1, 2, 3, 5, 8] 0 4 := by
    intro m n x y _ less high at_m at_n
    interval_cases n <;> interval_cases m <;> cases at_m <;> cases at_n <;> decide
  obtain ⟨⟨after, depth, rounds, run, sorting⟩, costs⟩ :=
    increasing_is_worst [1, 2, 3, 5, 8] 0 4 (by decide) (by decide) (by decide)
  obtain ⟨_, _, worst⟩ := costs after depth rounds sorting
  obtain ⟨_, rfl, rounds_eq⟩ := worst increasing
  exact ⟨after, rounds, run, sorting, by omega⟩

end CppProject.QSort
