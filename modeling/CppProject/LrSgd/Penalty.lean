import CppProject.LrSgd.Source
import Mathlib.Algebra.Order.Field.Basic
import Mathlib.Algebra.Order.Field.Rat
import Mathlib.Tactic.Linarith

/-!
# The cumulative penalty

An update adds the gradient to the weight and then takes the penalty off, up to zero, and records
what it has taken.  A weight below zero should be raised up to zero at most; the code raises it to
zero at least, and a weight that the gradient has brought to zero is left as it was before.
-/

namespace CppProject.LrSgd

open Library Library.Checked UnorderedMap

section Update

variable {K : Type} [Field K] [LinearOrder K]

/-- An update leaves zero, or a weight of the sign of the half-updated one that is not larger, and
the recorded penalty stays between the bounds. -/
structure UpdateRight (half penalty clipped actual : K) : Prop where
  sign : clipped = 0 ∨ (0 < half ∧ 0 < clipped) ∨ (half < 0 ∧ clipped < 0)
  smaller : |clipped| ≤ |half|
  zero : half = 0 → clipped = 0
  low : -penalty ≤ actual
  high : actual ≤ penalty

/-- The half-updated weight is positive, or it is negative and the penalty takes all of it and no
more, or neither the weight nor the half-updated weight differs from zero. -/
def UpdateFine (weight half penalty actual : K) : Prop :=
  0 < half ∨ (half < 0 ∧ half = actual - penalty) ∨ (half = 0 ∧ weight = 0)

variable [IsStrictOrderedRing K] {weight half penalty actual : K}

/-- Above zero the weight is lowered by no more than itself. -/
theorem update_positive (low : -penalty ≤ actual) (high : actual ≤ penalty) (positive : 0 < half) :
    UpdateRight half penalty (clip weight half penalty actual)
      (actual + (clip weight half penalty actual - half)) := by
  rw [clip, if_pos positive]
  rcases le_total (half - (penalty + actual)) 0 with all | part
  · rw [max_eq_left all]
    refine ⟨Or.inl rfl, ?_, fun _ => rfl, ?_, ?_⟩
    · rw [abs_zero]
      exact abs_nonneg half
    · linarith
    · linarith
  · rw [max_eq_right part]
    refine ⟨?_, ?_, fun zero => absurd zero (ne_of_gt positive), ?_, ?_⟩
    · rcases eq_or_lt_of_le part with none_left | some_left
      · exact Or.inl none_left.symm
      · exact Or.inr (Or.inl ⟨positive, some_left⟩)
    · rw [abs_of_nonneg part, abs_of_pos positive]
      linarith
    · linarith
    · linarith

/-- Below zero the weight is never left below zero, so all of it must have been taken. -/
theorem update_negative (negative : half < 0) :
    UpdateRight half penalty (clip weight half penalty actual)
        (actual + (clip weight half penalty actual - half)) ↔
      half = actual - penalty ∧ -penalty ≤ penalty := by
  rw [clip, if_neg (not_lt.mpr (le_of_lt negative)), if_pos negative]
  constructor
  · rintro ⟨sign, _, _, low, high⟩
    have not_negative : 0 ≤ max 0 (half + (penalty - actual)) := le_max_left _ _
    have taken : max 0 (half + (penalty - actual)) = 0 := by
      rcases sign with zero | ⟨positive, _⟩ | ⟨_, below⟩
      · exact zero
      · exact absurd positive (not_lt.mpr (le_of_lt negative))
      · exact absurd below (not_lt.mpr not_negative)
    have at_most : half + (penalty - actual) ≤ 0 := taken ▸ le_max_right _ _
    rw [taken] at low high
    exact ⟨by linarith, by linarith⟩
  · rintro ⟨same, bounds⟩
    have taken : max 0 (half + (penalty - actual)) = 0 := max_eq_left (by linarith)
    rw [taken]
    refine ⟨Or.inl rfl, ?_, fun zero => absurd zero (ne_of_lt negative), by linarith, by linarith⟩
    rw [abs_zero]
    exact abs_nonneg half

/-- An update is right in the fine cases only. -/
theorem update_right_iff (low : -penalty ≤ actual) (high : actual ≤ penalty) :
    UpdateRight half penalty (clip weight half penalty actual)
        (actual + (clip weight half penalty actual - half)) ↔
      UpdateFine weight half penalty actual := by
  unfold UpdateFine
  rcases lt_trichotomy half 0 with negative | rfl | positive
  · rw [update_negative negative]
    constructor
    · rintro ⟨same, _⟩
      exact Or.inr (Or.inl ⟨negative, same⟩)
    · rintro (positive | ⟨_, same⟩ | ⟨zero, _⟩)
      · exact absurd positive (not_lt.mpr (le_of_lt negative))
      · exact ⟨same, low.trans high⟩
      · exact absurd zero (ne_of_lt negative)
  · have kept : clip weight 0 penalty actual = weight := by
      rw [clip, if_neg (lt_irrefl 0), if_neg (lt_irrefl 0)]
    rw [kept]
    constructor
    · intro right
      exact Or.inr (Or.inr ⟨rfl, right.zero rfl⟩)
    · rintro (impossible | ⟨impossible, _⟩ | ⟨_, rfl⟩)
      · exact absurd impossible (lt_irrefl 0)
      · exact absurd impossible (lt_irrefl 0)
      · exact ⟨Or.inl rfl, le_refl _, fun _ => rfl, by linarith, by linarith⟩
  · exact iff_of_true (update_positive low high positive) (Or.inl positive)

end Update

/-! ## One call -/

/-- The arguments of a call of `apply_cumulative_l1_penalty`. -/
structure Call (K : Type) where
  gradients : List (Int × K)
  learningRate : K
  penalty : K

section Run

variable {K : Type} [Field K] [LinearOrder K] {call : Call K} {calls : List (Call K)}
variable {s s' : PenaltyState K}

def Call.apply (call : Call K) (s : PenaltyState K) : Except Fault (PenaltyState K) :=
  applyCumulativeL1Penalty call.gradients call.learningRate call.penalty s

/-- The actual penalty recorded for an index, 0 when there is none. -/
def actualOf (s : PenaltyState K) (index : Int) : K := (find s.actual index).getD 0

/-- The weight after the gradient has been added. -/
def Call.half (call : Call K) (gradient : Int × K) (weight : K) : K :=
  weight + gradient.2 * call.learningRate

/-- Every feature of a call is updated as it should be. -/
def CallRight (call : Call K) (s s' : PenaltyState K) : Prop :=
  ∀ gradient ∈ call.gradients, ∀ weight, find s.weights gradient.1 = some weight →
    ∃ clipped actual, find s'.weights gradient.1 = some clipped ∧
      find s'.actual gradient.1 = some actual ∧
      UpdateRight (call.half gradient weight) call.penalty clipped actual

/-- Every feature of a call meets the condition in the state before the call. -/
def CallFine (call : Call K) (s : PenaltyState K) : Prop :=
  ∀ gradient ∈ call.gradients, ∀ weight, find s.weights gradient.1 = some weight →
    UpdateFine weight (call.half gradient weight) call.penalty (actualOf s gradient.1)

/-- What a call does to the entries of the features and to the others. -/
structure Applied (call : Call K) (s s' : PenaltyState K) : Prop where
  updated : ∀ gradient ∈ call.gradients, ∀ weight, find s.weights gradient.1 = some weight →
    find s'.weights gradient.1 =
        some (clip weight (call.half gradient weight) call.penalty (actualOf s gradient.1)) ∧
      find s'.actual gradient.1 = some (actualOf s gradient.1 +
        (clip weight (call.half gradient weight) call.penalty (actualOf s gradient.1) -
          call.half gradient weight))
  others : ∀ index, index ∉ call.gradients.map Prod.fst →
    find s'.weights index = find s.weights index ∧ find s'.actual index = find s.actual index

/-- A round updates the entries of its feature and leaves the others alone. -/
theorem penaltyRound_applied {gradient : Int × K} {weight : K} (learningRate penalty : K)
    (found : find s.weights gradient.1 = some weight) :
    ∃ next, penaltyRound learningRate penalty s gradient = .ok next ∧
      Applied ⟨[gradient], learningRate, penalty⟩ s next := by
  unfold penaltyRound
  rw [found]
  refine ⟨_, rfl, fun other same weight' found' => ?_, fun index off => ?_⟩
  · obtain rfl := List.mem_singleton.mp same
    cases found.symm.trans found'
    simp only [find_assign, if_true]
    exact ⟨rfl, rfl⟩
  · have apart : gradient.1 ≠ index := fun same => off (List.mem_singleton.mpr same.symm)
    simp only [find_assign, if_neg apart]
    exact ⟨trivial, trivial⟩

/-- A call for features that have weights updates each of them once. -/
theorem Call.applied (nodup : (call.gradients.map Prod.fst).Nodup)
    (present : ∀ gradient ∈ call.gradients, ∃ weight, find s.weights gradient.1 = some weight) :
    ∃ s', call.apply s = .ok s' ∧ Applied call s s' := by
  obtain ⟨gradients, learningRate, penalty⟩ := call
  unfold Call.apply applyCumulativeL1Penalty
  simp only at nodup present ⊢
  induction gradients generalizing s with
  | nil =>
      exact ⟨s, rfl, List.forall_mem_nil _, fun _ _ => ⟨rfl, rfl⟩⟩
  | cons first gradients ih =>
      obtain ⟨⟨weight, found⟩, rest⟩ := List.forall_mem_cons.mp present
      obtain ⟨off, nodup⟩ := List.nodup_cons.mp nodup
      obtain ⟨next, round, here⟩ := penaltyRound_applied learningRate penalty found
      have apart {gradient : Int × K} (later : gradient ∈ gradients) :
          gradient.1 ∉ [first].map Prod.fst := by
        rw [List.map_singleton, List.mem_singleton]
        exact fun same => off (same ▸ List.mem_map_of_mem later)
      have kept {gradient : Int × K} (later : gradient ∈ gradients) :
          find next.weights gradient.1 = find s.weights gradient.1 ∧
            actualOf next gradient.1 = actualOf s gradient.1 := by
        obtain ⟨weights_kept, actual_kept⟩ := here.others _ (apart later)
        exact ⟨weights_kept, by rw [actualOf, actualOf, actual_kept]⟩
      have still : ∀ gradient ∈ gradients, ∃ weight, find next.weights gradient.1 = some weight := by
        intro gradient later
        rw [(kept later).1]
        exact rest gradient later
      obtain ⟨last, run, there⟩ := ih nodup still
      refine ⟨last, ?_, ?_, fun index off_all => ?_⟩
      · rw [List.foldlM_cons, round, ok_bind]
        exact run
      · refine List.forall_mem_cons.mpr ⟨fun weight' found' => ?_, fun gradient later weight' found' => ?_⟩
        · obtain ⟨weights_kept, actual_kept⟩ := there.others first.1 off
          rw [weights_kept, actual_kept]
          exact here.updated first List.mem_cons_self weight' found'
        · have updated := there.updated gradient later weight' ((kept later).1.trans found')
          rw [(kept later).2] at updated
          exact updated
      · rw [List.map_cons, List.mem_cons, not_or] at off_all
        obtain ⟨weights_kept, actual_kept⟩ := there.others index off_all.2
        obtain ⟨weights_here, actual_here⟩ := here.others index (by
          rw [List.map_singleton, List.mem_singleton]
          exact off_all.1)
        exact ⟨weights_kept.trans weights_here, actual_kept.trans actual_here⟩

/-- No weight is taken out by a call. -/
theorem Applied.present (applied : Applied call s s') {index : Int}
    (found : ∃ weight, find s.weights index = some weight) :
    ∃ weight, find s'.weights index = some weight := by
  obtain ⟨weight, found⟩ := found
  by_cases feature : index ∈ call.gradients.map Prod.fst
  · obtain ⟨gradient, member, rfl⟩ := List.mem_map.mp feature
    exact ⟨_, (applied.updated gradient member weight found).1⟩
  · exact ⟨weight, (applied.others index feature).1.trans found⟩

/-! ## Runs -/

/-- Something holds of every call of a run and of the states before and after it. -/
def AfterEveryCall (Holds : Call K → PenaltyState K → PenaltyState K → Prop) :
    List (Call K) → PenaltyState K → Prop
  | [], _ => True
  | call :: calls, s => ∃ s', call.apply s = .ok s' ∧ Holds call s s' ∧ AfterEveryCall Holds calls s'

/-- The recorded penalties stay between the bounds. -/
def Bounded (penalty : K) (s : PenaltyState K) : Prop :=
  ∀ index, -penalty ≤ actualOf s index ∧ actualOf s index ≤ penalty

/-- A call that is right keeps the recorded penalties between the bounds. -/
theorem Applied.bounded (applied : Applied call s s') (right : CallRight call s s')
    (present : ∀ gradient ∈ call.gradients, ∃ weight, find s.weights gradient.1 = some weight)
    (bounded : Bounded call.penalty s) : Bounded call.penalty s' := by
  intro index
  by_cases feature : index ∈ call.gradients.map Prod.fst
  · obtain ⟨gradient, member, rfl⟩ := List.mem_map.mp feature
    obtain ⟨weight, found⟩ := present gradient member
    obtain ⟨_, actual, _, new_actual, update⟩ := right gradient member weight found
    rw [actualOf, new_actual]
    exact ⟨update.low, update.high⟩
  · rw [actualOf, (applied.others index feature).2]
    exact bounded index

variable [IsStrictOrderedRing K]

/-- With the recorded penalties between the bounds, a call is right in the fine states only. -/
theorem Applied.right_iff (applied : Applied call s s') (bounded : Bounded call.penalty s) :
    CallRight call s s' ↔ CallFine call s := by
  constructor
  · intro right gradient member weight found
    obtain ⟨clipped, actual, new_weight, new_actual, update⟩ := right gradient member weight found
    obtain ⟨weight_eq, actual_eq⟩ := applied.updated gradient member weight found
    cases new_weight.symm.trans weight_eq
    cases new_actual.symm.trans actual_eq
    exact (update_right_iff (bounded _).1 (bounded _).2).mp update
  · intro fine gradient member weight found
    obtain ⟨weight_eq, actual_eq⟩ := applied.updated gradient member weight found
    exact ⟨_, _, weight_eq, actual_eq,
      (update_right_iff (bounded _).1 (bounded _).2).mpr (fine gradient member weight found)⟩

theorem Bounded.weaken {penalty larger : K} (bounded : Bounded penalty s) (le : penalty ≤ larger) :
    Bounded larger s := by
  intro index
  obtain ⟨low, high⟩ := bounded index
  exact ⟨by linarith, high.trans le⟩

/-- From a state with recorded penalties between the bounds, all calls of a run are right if and
only if all of them start from fine states. -/
theorem calls_right_from {penalty : K} (bounded : Bounded penalty s)
    (above : ∀ call ∈ calls, penalty ≤ call.penalty)
    (growing : (calls.map Call.penalty).Pairwise (· ≤ ·))
    (distinct : ∀ call ∈ calls, (call.gradients.map Prod.fst).Nodup)
    (present : ∀ call ∈ calls, ∀ gradient ∈ call.gradients,
      ∃ weight, find s.weights gradient.1 = some weight) :
    AfterEveryCall CallRight calls s ↔ AfterEveryCall (fun call s _ => CallFine call s) calls s := by
  induction calls generalizing s penalty with
  | nil => exact Iff.rfl
  | cons call calls ih =>
      obtain ⟨first_above, _⟩ := List.forall_mem_cons.mp above
      obtain ⟨first_distinct, distinct⟩ := List.forall_mem_cons.mp distinct
      obtain ⟨first_present, present⟩ := List.forall_mem_cons.mp present
      obtain ⟨growing_first, growing⟩ := List.pairwise_cons.mp growing
      have bounded_here := bounded.weaken first_above
      obtain ⟨s', run, applied⟩ := Call.applied first_distinct first_present
      have rest (right : CallRight call s s') :
          AfterEveryCall CallRight calls s' ↔
            AfterEveryCall (fun call s _ => CallFine call s) calls s' :=
        ih (applied.bounded right first_present bounded_here)
          (fun other member => growing_first _ (List.mem_map_of_mem member)) growing distinct
          (fun other member gradient inside => applied.present (present other member gradient inside))
      constructor
      · rintro ⟨_, run', right, later⟩
        cases run.symm.trans run'
        exact ⟨s', run, (applied.right_iff bounded_here).mp right, (rest right).mp later⟩
      · rintro ⟨_, run', fine, later⟩
        cases run.symm.trans run'
        have right := (applied.right_iff bounded_here).mpr fine
        exact ⟨s', run, right, (rest right).mpr later⟩

/-- For calls with a growing penalty, starting without recorded penalties: all of them update their
features as they should if and only if every update meets the condition. -/
theorem calls_right_iff (calls : List (Call K)) (weights : UnorderedMap Int K)
    (not_negative : ∀ call ∈ calls, 0 ≤ call.penalty)
    (growing : (calls.map Call.penalty).Pairwise (· ≤ ·))
    (distinct : ∀ call ∈ calls, (call.gradients.map Prod.fst).Nodup)
    (present : ∀ call ∈ calls, ∀ gradient ∈ call.gradients, gradient.1 ∈ keys weights) :
    AfterEveryCall CallRight calls ⟨weights, []⟩ ↔
      AfterEveryCall (fun call s _ => CallFine call s) calls ⟨weights, []⟩ := by
  have none_recorded : Bounded (0 : K) ⟨weights, []⟩ :=
    fun index => ⟨le_of_eq neg_zero, le_refl 0⟩
  exact calls_right_from none_recorded not_negative growing distinct
    fun call member gradient inside => exists_find.mpr (present call member gradient inside)

end Run

/-- A weight that the first call lowers and the second one clears. -/
theorem calls_right_lowered :
    AfterEveryCall CallRight [⟨[(3, (1 : Rat))], 1, 1⟩, ⟨[(3, 0)], 1, 3⟩] ⟨[(3, 1)], []⟩ := by
  refine (calls_right_iff _ _ (by decide) (by decide) (by decide) (by decide)).mpr ?_
  refine ⟨⟨[(3, 1)], [(3, -1)]⟩, ?_, fun gradient member weight found => ?_,
    ⟨[(3, 0)], [(3, -2)]⟩, ?_, fun gradient member weight found => ?_, trivial⟩
  · norm_num [Call.apply, applyCumulativeL1Penalty, penaltyRound, find, assign, clip]
  · obtain rfl := List.mem_singleton.mp member
    cases found
    norm_num [UpdateFine, Call.half]
  · norm_num [Call.apply, applyCumulativeL1Penalty, penaltyRound, find, assign, clip]
  · obtain rfl := List.mem_singleton.mp member
    cases found
    norm_num [UpdateFine, Call.half]

/-- A weight of -3 is cleared under a penalty of 1, and the recorded penalty is 3. -/
theorem call_wrong_negative :
    ¬AfterEveryCall CallRight [⟨[(3, (-3 : Rat))], 1, 1⟩] ⟨[(3, 0)], []⟩ := by
  have outcome : (Call.mk [(3, (-3 : Rat))] 1 1).apply ⟨[(3, 0)], []⟩ =
      .ok ⟨[(3, 0)], [(3, 3)]⟩ := by
    norm_num [Call.apply, applyCumulativeL1Penalty, penaltyRound, find, assign, clip]
  rintro ⟨s', run, right, _⟩
  cases outcome.symm.trans run
  obtain ⟨_, actual, _, recorded, update⟩ := right (3, -3) (List.mem_singleton.mpr rfl) 0 rfl
  cases recorded
  exact absurd update.high (by norm_num)

end CppProject.LrSgd
