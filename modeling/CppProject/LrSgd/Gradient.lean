import CppProject.LrSgd.Scores
import CppProject.LrSgd.Training
import Mathlib

/-!
# The gradients and the loss

`mini_batch_gradient` adds up, for every index, the distance of the label from the probability
times the data of the index.  Its average is the slope of the loss that `calculate_loss` computes
from the instances of the batch, with the sign turned.  Only the slot of the label is different:
there the label value itself has been added.
-/

namespace CppProject.LrSgd

open Library Library.Checked UnorderedMap

section Rows

variable {K : Type} {data : List (Instance K)}

/-- The instances of a batch. -/
def batchRows (data : List (Instance K)) (batch : List Nat) : List (Instance K) :=
  batch.filterMap (data[·]?)

theorem batchRows_cons {i : Nat} (inside : i < data.length) (batch : List Nat) :
    batchRows data (i :: batch) = data[i] :: batchRows data batch := by
  rw [batchRows, List.filterMap_cons, List.getElem?_eq_getElem inside]
  rfl

theorem batchRows_length {batch : List Nat} (valid : ∀ i ∈ batch, i < data.length) :
    (batchRows data batch).length = batch.length := by
  induction batch with
  | nil => rfl
  | cons i batch ih =>
      obtain ⟨inside, valid⟩ := List.forall_mem_cons.mp valid
      rw [batchRows_cons inside, List.length_cons, List.length_cons, ih valid]

theorem batchRows_labelled (labelled : ∀ ins ∈ data, Labelled ins) (batch : List Nat) :
    ∀ ins ∈ batchRows data batch, Labelled ins := by
  intro ins member
  obtain ⟨i, _, found⟩ := List.mem_filterMap.mp member
  exact labelled ins (List.mem_of_getElem? found)

end Rows

section Totals

variable {K : Type} [Field K]

/-- What the entries with an index add up to. -/
def indexTotal (entries : List (Int × K)) (index : Int) : K :=
  (entries.map fun entry => if entry.1 = index then entry.2 else 0).sum

theorem indexTotal_cons (entry : Int × K) (entries : List (Int × K)) (index : Int) :
    indexTotal (entry :: entries) index =
      (if entry.1 = index then entry.2 else 0) + indexTotal entries index :=
  List.sum_cons

theorem weightOf_assign (weights : UnorderedMap Int K) (index : Int) (weight : K) (other : Int) :
    weightOf (assign weights index weight) other = if index = other then weight else weightOf weights other := by
  unfold weightOf
  rw [find_assign]
  split <;> rfl

theorem weightOf_addGradient (gradients : UnorderedMap Int K) (index : Int) (value : K) (other : Int) :
    weightOf (addGradient gradients index value) other =
      weightOf gradients other + if index = other then value else 0 := by
  rw [addGradient, weightOf_assign]
  split
  next same => rw [← same]; rfl
  next => exact (add_zero _).symm

/-- An instance adds its totals, times what the loop multiplies them with. -/
theorem weightOf_addGradients (factor : K) (ins : Instance K) (gradients : UnorderedMap Int K)
    (index : Int) :
    weightOf (ins.foldl (fun gradients feature => addGradient gradients feature.1 (factor * feature.2))
        gradients) index =
      weightOf gradients index + factor * indexTotal ins index := by
  induction ins generalizing gradients with
  | nil => exact (add_zero _).symm.trans (congrArg _ (mul_zero factor).symm)
  | cons feature ins ih =>
      rw [List.foldl_cons, ih, weightOf_addGradient, indexTotal_cons, mul_add, mul_ite, mul_zero, add_assoc]

theorem nodup_addGradients (factor : K) (ins : Instance K) {gradients : UnorderedMap Int K}
    (nodup : (keys gradients).Nodup) :
    (keys (ins.foldl (fun gradients feature => addGradient gradients feature.1 (factor * feature.2))
      gradients)).Nodup := by
  induction ins generalizing gradients with
  | nil => exact nodup
  | cons feature ins ih => exact ih (nodup_keys_assign nodup)

/-- A weight moves the score by what its index adds up to. -/
theorem linearScore_assign (weights : UnorderedMap Int K) (index : Int) (weight : K)
    (features : List (Int × K)) :
    linearScore (assign weights index weight) features =
      linearScore weights features + (weight - weightOf weights index) * indexTotal features index := by
  induction features with
  | nil => exact (add_zero _).symm.trans (congrArg _ (mul_zero _).symm)
  | cons feature features ih =>
      rw [linearScore_cons, linearScore_cons, indexTotal_cons, ih, weightOf_assign]
      by_cases same : feature.1 = index
      · rw [if_pos same.symm, if_pos same, same]
        ring
      · rw [if_neg fun eq => same eq.symm, if_neg same]
        ring

theorem weightOf_average (n : K) (gradients : UnorderedMap Int K) (index : Int) :
    weightOf (gradients.map fun entry => (entry.1, entry.2 / n)) index = weightOf gradients index / n := by
  induction gradients with
  | nil => exact (zero_div n).symm
  | cons entry gradients ih =>
      unfold weightOf at ih ⊢
      rw [List.map_cons, find, find]
      split
      next => rfl
      next => exact ih

variable [LinearOrder K] {env : Environment K} {settings : Settings K} {weights : UnorderedMap Int K}
  {data : List (Instance K)}

/-- The distance of the label from the probability. -/
def residual (env : Environment K) (weights : UnorderedMap Int K) : Instance K → K
  | [] => 0
  | (_, label) :: features =>
      (if label = 1 then 1 else 0) - sigmoid env (linearScore weights features)

/-- The gradient of an index, before it is divided by the length of the batch. -/
def gradientTotal (env : Environment K) (weights : UnorderedMap Int K) (rows : List (Instance K))
    (index : Int) : K :=
  (rows.map fun ins => residual env weights ins * indexTotal ins index).sum

/-- The gradients before a round of the loop, behind some instances of the batch. -/
structure Summed (env : Environment K) (weights : UnorderedMap Int K) (rows : List (Instance K))
    (s : GradientState K) : Prop where
  same : SameWeights weights s.weights
  nodup : (keys s.gradients).Nodup
  total : ∀ index, weightOf s.gradients index = gradientTotal env weights rows index

theorem gradientRound_summed (labelled : ∀ ins ∈ data, Labelled ins) (zero_init : settings.randWeight = false)
    {i : Nat} (inside : i < data.length) {rows : List (Instance K)} {s : GradientState K}
    (summed : Summed env weights rows s) :
    ∃ s', gradientRound env settings data s i = .ok s' ∧ Summed env weights (rows ++ [data[i]]) s' := by
  obtain ⟨label, features, shape, _⟩ := labelled _ (List.getElem_mem inside)
  unfold gradientRound
  rw [load_of_lt inside, ok_bind, shape, labelOf_cons, ok_bind]
  have start : SameWeights weights (ScoreState.mk s.weights s.drawn 0).weights := summed.same
  have score := @scoreInstance_sum _ _ env _ _ zero_init s.drawn ⟨s.weights, s.drawn, 0⟩ start label features
  refine ⟨_, rfl, ?_, nodup_addGradients _ _ summed.nodup, fun index => ?_⟩
  · exact (foldl_scoreRound zero_init features start).1
  · rw [weightOf_addGradients, score, summed.total, gradientTotal, gradientTotal, List.map_append,
      List.sum_append, List.map_singleton, List.sum_singleton]
    rfl

theorem gradients_summed (labelled : ∀ ins ∈ data, Labelled ins) (zero_init : settings.randWeight = false)
    {batch : List Nat} (valid : ∀ i ∈ batch, i < data.length) {rows : List (Instance K)}
    {s : GradientState K} (summed : Summed env weights rows s) :
    ∃ s', batch.foldlM (gradientRound env settings data) s = .ok s' ∧
      Summed env weights (rows ++ batchRows data batch) s' := by
  induction batch generalizing rows s with
  | nil => exact ⟨s, rfl, (List.append_nil rows).symm ▸ summed⟩
  | cons i batch ih =>
      obtain ⟨inside, valid⟩ := List.forall_mem_cons.mp valid
      obtain ⟨next, round, later⟩ := @gradientRound_summed _ _ _ env settings _ _ labelled zero_init _ inside _ _ summed
      obtain ⟨last, run, done⟩ := ih valid later
      refine ⟨last, ?_, ?_⟩
      · rw [List.foldlM_cons, round, ok_bind, run]
      · rw [batchRows_cons inside]
        rwa [List.append_assoc] at done

/-- The gradient list has every index once, with the average of the batch; the weights stay as they
were, up to zeros. -/
theorem miniBatchGradient_average (labelled : ∀ ins ∈ data, Labelled ins)
    (zero_init : settings.randWeight = false) {batch : List Nat} (filled : batch ≠ [])
    (valid : ∀ i ∈ batch, i < data.length) (drawn : Nat) :
    ∃ after drawn' gradients,
      miniBatchGradient env settings weights drawn data batch = .ok (after, drawn', gradients) ∧
      SameWeights weights after ∧ (keys gradients).Nodup ∧
      ∀ index, weightOf gradients index =
        gradientTotal env weights (batchRows data batch) index / batch.length := by
  have start : Summed env weights [] ⟨weights, drawn, []⟩ := ⟨fun _ => rfl, List.nodup_nil, fun _ => rfl⟩
  obtain ⟨s, run, summed⟩ := @gradients_summed _ _ _ env settings _ _ labelled zero_init _ valid _ _ start
  have some_data : batch.length ≠ 0 := fun none_left => filled (List.length_eq_zero_iff.mp none_left)
  have perm := env.order_perm s.gradients
  unfold miniBatchGradient
  rw [run, ok_bind, mapM_average some_data, ok_bind]
  refine ⟨_, _, _, rfl, summed.same, ?_, fun index => ?_⟩
  · rw [keys, List.map_map]
    exact (perm.map Prod.fst).nodup_iff.mpr summed.nodup
  · rw [weightOf_average, weightOf, find_perm perm summed.nodup]
    exact congrArg (· / _) (summed.total index)

/-- What an instance adds to the loss. -/
def instanceLoss (env : Environment K) (weights : UnorderedMap Int K) : Instance K → K
  | [] => 0
  | (_, label) :: features =>
      env.log (1 + env.exp (if label = 1 then -linearScore weights features else linearScore weights features))

/-- Without a penalty the loss is the average over the instances. -/
theorem calculateLoss_average {rows : List (Instance K)} (labelled : ∀ ins ∈ rows, Labelled ins)
    (weights : UnorderedMap Int K) (no_penalty : settings.l1PenaltyWeight = 0) :
    calculateLoss env settings weights rows =
      .ok ((rows.map (instanceLoss env weights)).sum / rows.length) := by
  have sums : ∀ loss : K, rows.foldlM (fun loss ins => do
      let sum ← lossScore weights ins
      .ok (loss + env.log (1 + env.exp sum))) loss =
        (.ok (loss + (rows.map (instanceLoss env weights)).sum) : Except Fault K) := by
    induction rows with
    | nil => exact fun loss => congrArg Except.ok (add_zero loss).symm
    | cons ins rows ih =>
        intro loss
        obtain ⟨⟨label, features, rfl, _⟩, rest⟩ := List.forall_mem_cons.mp labelled
        rw [List.foldlM_cons, lossScore_eq, ok_bind, ok_bind, ih rest, List.map_cons, List.sum_cons,
          ← add_assoc]
        rfl
  unfold calculateLoss
  rw [sums, ok_bind]
  simp only [no_penalty, mul_zero, add_zero, zero_add]

end Totals

/-! ## The slope of the loss -/

section Slopes

/-- The probabilities of the two labels. -/
theorem logistic_complement (x : ℝ) : 1 / (1 + Real.exp x) = 1 - 1 / (1 + Real.exp (-x)) := by
  have first : 0 < 1 + Real.exp x := add_pos one_pos (Real.exp_pos _)
  have second : 0 < 1 + Real.exp (-x) := add_pos one_pos (Real.exp_pos _)
  have inverse : Real.exp x * Real.exp (-x) = 1 := by
    rw [← Real.exp_add, add_neg_cancel, Real.exp_zero]
  field_simp
  linear_combination -inverse

/-- The slope of the logistic loss of a score that moves. -/
theorem logistic_slope {score : ℝ → ℝ} {slope weight : ℝ} (moves : HasDerivAt score slope weight) :
    HasDerivAt (fun w => Real.log (1 + Real.exp (score w)))
      (1 / (1 + Real.exp (-score weight)) * slope) weight := by
  have positive : 0 < 1 + Real.exp (score weight) := add_pos one_pos (Real.exp_pos _)
  refine ((moves.exp.const_add 1).log positive.ne').congr_deriv ?_
  have share : Real.exp (score weight) / (1 + Real.exp (score weight)) =
      1 / (1 + Real.exp (-score weight)) := by
    have complement := logistic_complement (score weight)
    rw [div_eq_iff positive.ne'] at complement ⊢
    linear_combination -complement
  rw [mul_div_right_comm, share]

theorem sum_slope {α : Type} {f : α → ℝ → ℝ} {slope : α → ℝ} {weight : ℝ} {rows : List α}
    (each : ∀ row ∈ rows, HasDerivAt (f row) (slope row) weight) :
    HasDerivAt (fun w => (rows.map fun row => f row w).sum) (rows.map slope).sum weight := by
  induction rows with
  | nil => exact hasDerivAt_const weight 0
  | cons row rows ih =>
      obtain ⟨here, rest⟩ := List.forall_mem_cons.mp each
      exact here.add (ih rest)

variable {env : Environment ℝ} {settings : Settings ℝ}

theorem linearScore_slope (weights : UnorderedMap Int ℝ) (index : Int) (features : List (Int × ℝ)) :
    HasDerivAt (fun w => linearScore (assign weights index w) features) (indexTotal features index)
      (weightOf weights index) := by
  simp only [linearScore_assign]
  have moved := ((hasDerivAt_id' (weightOf weights index)).sub_const (weightOf weights index)).mul_const
    (indexTotal features index)
  exact (moved.const_add (linearScore weights features)).congr_deriv (one_mul _)

/-- The slope of the loss of an instance is its share of the gradient, with the sign turned. -/
theorem instanceLoss_slope (exp_eq : env.exp = Real.exp) (log_eq : env.log = Real.log)
    (weights : UnorderedMap Int ℝ) {index : Int} (other : index ≠ 0) {ins : Instance ℝ}
    (labelled : Labelled ins) :
    HasDerivAt (fun w => instanceLoss env (assign weights index w) ins)
      (-(residual env weights ins * indexTotal ins index)) (weightOf weights index) := by
  obtain ⟨label, features, rfl, _⟩ := labelled
  have own := linearScore_slope weights index features
  have here : linearScore (assign weights index (weightOf weights index)) features =
      linearScore weights features := by
    rw [linearScore_assign, sub_self, zero_mul, add_zero]
  have total : indexTotal ((0, label) :: features) index = indexTotal features index := by
    rw [indexTotal_cons, if_neg fun same => other same.symm, zero_add]
  simp only [instanceLoss, residual, sigmoid, exp_eq, log_eq, total]
  by_cases positive : label = 1
  · simp only [if_pos positive]
    refine (logistic_slope own.fun_neg).congr_deriv ?_
    rw [here, neg_neg, logistic_complement]
    ring
  · simp only [if_neg positive]
    refine (logistic_slope own).congr_deriv ?_
    rw [here]
    ring

/-- The gradient list of a batch is the slope of its loss, with the sign turned: moving the weight
of an index other than that of the label changes the loss of the instances of the batch at the rate
of its entry, and where there is no entry not at all. -/
theorem gradients_are_slopes (exp_eq : env.exp = Real.exp) (log_eq : env.log = Real.log)
    (zero_init : settings.randWeight = false) {data : List (Instance ℝ)}
    (labelled : ∀ ins ∈ data, Labelled ins) {batch : List Nat} (filled : batch ≠ [])
    (valid : ∀ i ∈ batch, i < data.length) (weights : UnorderedMap Int ℝ) (drawn : Nat) :
    ∃ after drawn' gradients,
      miniBatchGradient env settings weights drawn data batch = .ok (after, drawn', gradients) ∧
      (keys gradients).Nodup ∧ SameWeights weights after ∧
      ∀ index ≠ 0, ∃ loss : ℝ → ℝ,
        (∀ w, calculateLoss env { settings with l1PenaltyWeight := 0 } (assign weights index w)
          (batchRows data batch) = .ok (loss w)) ∧
        HasDerivAt loss (-weightOf gradients index) (weightOf weights index) := by
  obtain ⟨after, drawn', gradients, run, same, nodup, average⟩ :=
    @miniBatchGradient_average _ _ _ env _ weights _ labelled zero_init _ filled valid drawn
  refine ⟨after, drawn', gradients, run, nodup, same, fun index other => ?_⟩
  have rows_labelled := batchRows_labelled labelled batch
  refine ⟨_, fun w => calculateLoss_average rows_labelled (assign weights index w) rfl, ?_⟩
  have sum := sum_slope fun ins member =>
    instanceLoss_slope exp_eq log_eq weights other (rows_labelled ins member)
  refine (sum.div_const _).congr_deriv ?_
  rw [average, batchRows_length valid, gradientTotal, ← neg_div, List.sum_neg, List.map_map]
  rfl

/-- A machine with the functions of the mathematics library, which keeps every order. -/
noncomputable def mathEnvironment : Environment ℝ where
  exp := Real.exp
  log := Real.log
  pow a b := Real.exp (b * Real.log a)
  draw _ := 0
  shuffle _ indexes := indexes
  shuffle_perm _ indexes := List.Perm.refl indexes
  order map := map
  order_perm map := List.Perm.refl map

/-- The batch with the line `1 5:2`. -/
theorem gradients_are_slopes_one_line :
    ∃ after drawn' gradients,
      miniBatchGradient mathEnvironment (defaultSettings ℝ) [] 0 [[(0, 1), (5, 2)]] [0] =
        .ok (after, drawn', gradients) ∧
      (keys gradients).Nodup ∧ SameWeights [] after ∧
      ∀ index ≠ 0, ∃ loss : ℝ → ℝ,
        (∀ w, calculateLoss mathEnvironment { defaultSettings ℝ with l1PenaltyWeight := 0 }
          (assign [] index w) (batchRows [[(0, 1), (5, 2)]] [0]) = .ok (loss w)) ∧
        HasDerivAt loss (-weightOf gradients index) (weightOf [] index) := by
  have labelled : ∀ ins ∈ [[((0 : Int), (1 : ℝ)), (5, 2)]], Labelled ins := by
    intro ins member
    obtain rfl := List.mem_singleton.mp member
    exact ⟨1, [(5, 2)], rfl, List.cons_ne_nil _ _⟩
  exact gradients_are_slopes rfl rfl rfl labelled (List.cons_ne_nil _ _) (by decide) [] 0

end Slopes

end CppProject.LrSgd
