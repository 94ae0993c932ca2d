import CppProject.LrSgd.Penalty
import CppProject.LrSgd.Scores
import CppProject.LrSgd.Training
import Mathlib.Tactic.Ring

/-!
# The weights of a run

The update takes the larger of zero and what is left, on either side of zero.  So no run that starts
from zeros ever has a weight below zero, whatever the data say, and the penalty recorded for an index
is never below what all batches together ask for.  The sums are exact ones; doubles round them.
-/

namespace CppProject.LrSgd

open Library Library.Checked UnorderedMap

variable {K : Type} [Field K] [LinearOrder K] {env : Environment K} {settings : Settings K}
  {data : List (Instance K)}

/-- What a machine and a user promise: rates and penalties are not negative.  The only powers
that `train` computes are those of the decay, of its base with an exponent that is not positive. -/
structure Promised (env : Environment K) (settings : Settings K) : Prop where
  zero_init : settings.randWeight = false
  decay : settings.learningRateDecay = true →
    ∀ exponent ≤ 0, 0 ≤ env.pow settings.learningRateDecayExpBase exponent
  rate : 0 ≤ settings.initialLearningRate
  penalty : 0 ≤ settings.l1PenaltyWeight

/-- The weights and recorded penalties of a run, below a cumulative penalty. -/
structure Kept (penalty : K) (s : PenaltyState K) : Prop where
  weight : ∀ index, 0 ≤ weightOf s.weights index
  actual : ∀ index, -penalty ≤ weightOf s.actual index

/-- The variables of `train` between two batches. -/
structure Sound (settings : Settings K) (s : TrainState K) : Prop where
  kept : Kept s.penalty ⟨s.weights, s.actual⟩
  penalty : 0 ≤ s.penalty
  rate : 0 ≤ s.learningRate
  fixed : settings.learningRateDecay = false → s.learningRate = settings.initialLearningRate
  spent : settings.learningRateDecay = false →
    s.penalty = (s.k - 1 : K) * (settings.initialLearningRate * settings.l1PenaltyWeight)

theorem clip_nonneg {weight : K} (nonneg : 0 ≤ weight) (half penalty actual : K) :
    0 ≤ clip weight half penalty actual := by
  unfold clip
  split
  · exact le_max_left 0 _
  · split
    · exact le_max_left 0 _
    · exact nonneg

variable [IsStrictOrderedRing K]

/-- An update never takes more than the cumulative penalty. -/
theorem clip_actual {weight penalty actual : K} (low : -penalty ≤ actual) (nonneg : 0 ≤ weight) (half : K) :
    -penalty ≤ actual + (clip weight half penalty actual - half) := by
  unfold clip
  split
  next => linarith [le_max_right 0 (half - (penalty + actual))]
  next not_positive =>
      split
      next => linarith [le_max_left 0 (half + (penalty - actual))]
      next => linarith

theorem penaltyRound_kept {learningRate penalty : K} {s s' : PenaltyState K}
    {gradient : Int × K} (kept : Kept penalty s)
    (round : penaltyRound learningRate penalty s gradient = .ok s') : Kept penalty s' := by
  unfold penaltyRound at round
  split at round
  next => cases round
  next weight found =>
      cases round
      have here : weightOf s.weights gradient.1 = weight := by
        rw [weightOf, found, Option.getD_some]
      have not_below : 0 ≤ weight := here ▸ kept.weight gradient.1
      constructor
      · intro index
        change 0 ≤ weightOf (assign _ _ _) index
        rw [weightOf, find_assign]
        split
        · exact clip_nonneg not_below _ _ _
        · exact kept.weight index
      · intro index
        change -penalty ≤ weightOf (assign _ _ _) index
        rw [weightOf, find_assign]
        split
        · exact clip_actual (kept.actual gradient.1) not_below _
        · exact kept.actual index

theorem applyCumulativeL1Penalty_kept {learningRate penalty : K}
    (gradients : List (Int × K)) {s s' : PenaltyState K} (kept : Kept penalty s)
    (run : applyCumulativeL1Penalty gradients learningRate penalty s = .ok s') : Kept penalty s' := by
  unfold applyCumulativeL1Penalty at run
  induction gradients generalizing s with
  | nil =>
      cases run
      exact kept
  | cons gradient gradients ih =>
      rw [List.foldlM_cons] at run
      obtain ⟨next, round, rest⟩ := bind_eq_ok.mp run
      exact ih (penaltyRound_kept kept round) rest

/-- A batch keeps the variables sound. -/
theorem trainBatch_sound (promised : Promised env settings) {s s' : TrainState K} {batch : List Nat}
    (sound : Sound settings s) (run : trainBatch env settings data s batch = .ok s') :
    Sound settings s' := by
  obtain ⟨⟨weights, drawn, gradients⟩, computed, run⟩ := bind_eq_ok.mp run
  obtain ⟨after, applied, run⟩ := bind_eq_ok.mp run
  cases run
  obtain ⟨summed, scored, averaged⟩ := bind_eq_ok.mp computed
  obtain ⟨entries, _, averaged⟩ := bind_eq_ok.mp averaged
  cases averaged
  obtain ⟨before, _, entered, _⟩ := gradient_scoreBefore scored
  have same : SameWeights s.weights summed.weights := by
    rw [entered]
    exact scoreBefore_same promised.zero_init s.drawn before
  have rate : 0 ≤ nextLearningRate env settings data.length s := by
    unfold nextLearningRate
    split
    next decays =>
      have exponent : -(s.k : K) / data.length ≤ 0 :=
        div_nonpos_of_nonpos_of_nonneg (neg_nonpos.mpr (Nat.cast_nonneg _)) (Nat.cast_nonneg _)
      exact mul_nonneg (promised.decay decays _ exponent) promised.rate
    next => exact sound.rate
  have more := mul_nonneg rate promised.penalty
  have nonneg := add_nonneg sound.penalty more
  have start : Kept (s.penalty + nextLearningRate env settings data.length s * settings.l1PenaltyWeight)
      ⟨summed.weights, s.actual⟩ := by
    refine ⟨fun index => ?_, fun index => ?_⟩
    · rw [same index]
      exact sound.kept.weight index
    · linarith [sound.kept.actual index]
  have plain (fixed : settings.learningRateDecay = false) :
      nextLearningRate env settings data.length s = settings.initialLearningRate := by
    rw [nextLearningRate, fixed]
    exact sound.fixed fixed
  refine ⟨applyCumulativeL1Penalty_kept _ start applied, nonneg, rate, plain, fun fixed => ?_⟩
  change s.penalty + nextLearningRate env settings data.length s * settings.l1PenaltyWeight = _
  rw [plain fixed, sound.spent fixed]
  push_cast
  ring

/-- What every batch keeps, the loop over the batches keeps. -/
theorem forBatches_keeps {σ : Type} {Inv : σ → Prop} {work : σ → List Nat → Except Fault σ}
    (step : ∀ (s s' : σ) (batch : List Nat), Inv s → work s batch = .ok s' → Inv s')
    {rounds size : Nat} {dataIdx : List Nat} {s s' : σ} (inv : Inv s)
    (run : forBatches rounds size dataIdx work s = .ok s') : Inv s' := by
  obtain ⟨last, left, ended⟩ := bind_eq_ok.mp run
  cases ended
  obtain ⟨_, trace, _⟩ := Loop.trace_of_left left
  have round : ∀ state next, Inv state.2 →
      batchRound size dataIdx work state = .ok (some next) → Inv next.2 := by
    rintro ⟨i, s⟩ next inv go
    simp only [batchRound] at go
    split at go
    next =>
        obtain ⟨batch, _, go⟩ := bind_eq_ok.mp go
        obtain ⟨worked, here, go⟩ := bind_eq_ok.mp go
        cases go
        exact step _ _ _ inv here
    next => cases go
  exact (trace.invariant round inv).2

theorem trainEpochs_sound (promised : Promised env settings) {rounds size : Nat} (left : Nat) {i : Nat}
    {dataIdx : List Nat} {loss : K} {s s' : TrainState K} (sound : Sound settings s)
    (run : trainEpochs env settings rounds size data left i dataIdx loss s = .ok s') :
    Sound settings s' := by
  induction left generalizing i dataIdx loss s with
  | zero =>
      cases run
      exact sound
  | succ left ih =>
      rw [trainEpochs] at run
      obtain ⟨next, epoch, run⟩ := bind_eq_ok.mp run
      obtain ⟨newLoss, _, run⟩ := bind_eq_ok.mp run
      have kept := forBatches_keeps (fun _ _ _ sound here => trainBatch_sound promised sound here) sound epoch
      split at run
      next =>
          cases run
          exact kept
      next => exact ih kept run

/-- Every run of `train` that returns has no weight below zero and no recorded penalty that takes off
more than the cumulative one, which with a constant rate is the rate times the penalty weight for
every batch. -/
theorem trained_sound (promised : Promised env settings) (rounds : Nat) {s : TrainState K}
    (run : trainIn rounds env settings data = .ok s) : Sound settings s := by
  have start : Sound settings ⟨[], 0, settings.initialLearningRate, 1, 0, []⟩ := by
    refine ⟨⟨fun _ => le_refl 0, fun _ => ?_⟩, le_refl 0, promised.rate, fun _ => rfl, fun _ => ?_⟩
    · exact neg_nonpos.mpr (le_refl 0)
    · rw [Nat.cast_one, sub_self, zero_mul]
  unfold trainIn at run
  split at run
  next =>
      cases run
      exact start
  next => exact trainEpochs_sound promised _ start run

/-- One iteration over the line `1 0:2`. -/
theorem trained_sound_zero_feature : ∃ s,
    trainIn 2 plainEnvironment { defaultSettings Rat with maxIterationNum := 1 } [[(0, 1), (0, 2)]] = .ok s ∧
      Sound { defaultSettings Rat with maxIterationNum := 1 } s := by
  have rate : (0 : Rat) ≤ 1 / 100 := by norm_num
  have penalty : (0 : Rat) ≤ 1 / 10000 := by norm_num
  have promised : Promised plainEnvironment { defaultSettings Rat with maxIterationNum := 1 } :=
    ⟨rfl, fun _ _ _ => zero_le_one, rate, penalty⟩
  have returns : (trainIn 2 plainEnvironment { defaultSettings Rat with maxIterationNum := 1 }
      [[(0, 1), (0, 2)]]).toOption.isSome = true := by decide +kernel
  cases run : trainIn 2 plainEnvironment { defaultSettings Rat with maxIterationNum := 1 }
      [[(0, 1), (0, 2)]] with
  | error fault =>
      rw [run] at returns
      cases returns
  | ok s => exact ⟨s, rfl, trained_sound promised 2 run⟩

end CppProject.LrSgd
