import CppProject.LrSgd.Source
import Mathlib.Algebra.BigOperators.Group.List.Basic
import Mathlib.Tactic.LinearCombination

/-!
# The three scores

A score is a linear form in the features, with 0 for a weight that is missing.  The scoring loops
of `mini_batch_gradient` and `calculate_loss` start behind the label entry; the one of `predict`
starts at it, so a weight for index 0 is multiplied by the label.
-/

namespace CppProject.LrSgd

open Library Library.Checked UnorderedMap

variable {K : Type} [Field K]

/-- The weight of an index, 0 when there is none. -/
def weightOf (weights : UnorderedMap Int K) (index : Int) : K := (find weights index).getD 0

/-- The linear form of the weights. -/
def linearScore (weights : UnorderedMap Int K) (features : List (Int × K)) : K :=
  (features.map fun feature => feature.2 * weightOf weights feature.1).sum

theorem linearScore_cons (weights : UnorderedMap Int K) (feature : Int × K) (features : List (Int × K)) :
    linearScore weights (feature :: features) =
      feature.2 * weightOf weights feature.1 + linearScore weights features :=
  List.sum_cons

/-- A loop that adds the term of each feature adds the score. -/
theorem foldl_score {round : K → Int × K → K}
    (adds : ∀ sum feature, round sum feature = sum + feature.2 * weightOf weights feature.1)
    (features : List (Int × K)) (sum : K) :
    features.foldl round sum = sum + linearScore weights features := by
  induction features generalizing sum with
  | nil => exact (add_zero sum).symm
  | cons feature features ih =>
      rw [List.foldl_cons, ih, adds, linearScore_cons, add_assoc]

variable {env : Environment K} {settings : Settings K} {weights : UnorderedMap Int K}

theorem predictScore_eq (weights : UnorderedMap Int K) (ins : Instance K) :
    predictScore weights ins = linearScore weights ins := by
  refine (foldl_score (fun sum feature => ?_) ins 0).trans (zero_add _)
  unfold predictRound weightOf
  cases find weights feature.1 with
  | none => rw [Option.getD_none, mul_zero, add_zero]
  | some weight => rfl

/-- The label entry is the summand that `predict` adds to the score of the features. -/
theorem predictScore_cons (weights : UnorderedMap Int K) (label : K) (features : List (Int × K)) :
    predictScore weights ((0, label) :: features) =
      label * weightOf weights 0 + linearScore weights features := by
  rw [predictScore_eq, linearScore_cons]

/-! ## The score of `mini_batch_gradient` -/

/-- The same weights, up to entries that are 0. -/
def SameWeights (weights other : UnorderedMap Int K) : Prop :=
  ∀ index, weightOf other index = weightOf weights index

/-- A missing weight is entered as 0. -/
theorem scoreRound_zero (zero_init : settings.randWeight = false) {s : ScoreState K}
    (same : SameWeights weights s.weights) (feature : Int × K) :
    SameWeights weights (scoreRound env settings s feature).weights ∧
      (scoreRound env settings s feature).sum = s.sum + feature.2 * weightOf weights feature.1 := by
  have here := same feature.1
  unfold scoreRound
  cases found : find s.weights feature.1 with
  | some weight =>
      rw [weightOf, found, Option.getD_some] at here
      exact ⟨same, by rw [here]⟩
  | none =>
      rw [weightOf, found, Option.getD_none] at here
      simp only [initWeight, zero_init, Bool.false_eq_true, if_false]
      refine ⟨fun index => ?_, by rw [here]⟩
      rw [weightOf, find_assign]
      split
      next same_index => rw [← same_index, ← here, Option.getD_some]
      next => exact same index

/-- The scoring loop leaves the weights as they were, up to zeros, and adds the score. -/
theorem foldl_scoreRound (zero_init : settings.randWeight = false) (features : List (Int × K))
    {s : ScoreState K} (same : SameWeights weights s.weights) :
    SameWeights weights (features.foldl (scoreRound env settings) s).weights ∧
      (features.foldl (scoreRound env settings) s).sum = s.sum + linearScore weights features := by
  induction features generalizing s with
  | nil => exact ⟨same, (add_zero _).symm⟩
  | cons feature features ih =>
      obtain ⟨still, sum⟩ := @scoreRound_zero _ _ env _ _ zero_init _ same feature
      obtain ⟨last, total⟩ := ih still
      refine ⟨last, ?_⟩
      rw [List.foldl_cons, total, sum, linearScore_cons, add_assoc]

/-- The weights and the draws when the instances before another one of a batch have been scored. -/
def scoreBefore (env : Environment K) (settings : Settings K) (weights : UnorderedMap Int K)
    (drawn : Nat) (before : List (Instance K)) : ScoreState K :=
  before.foldl (fun s ins => scoreInstance env settings s.weights s.drawn ins) ⟨weights, drawn, 0⟩

/-- The instances before another one leave the weights as they were, up to zeros. -/
theorem scoreBefore_same (zero_init : settings.randWeight = false) (drawn : Nat)
    (before : List (Instance K)) :
    SameWeights weights (scoreBefore env settings weights drawn before).weights := by
  have kept : ∀ s : ScoreState K, SameWeights weights s.weights →
      SameWeights weights (before.foldl
        (fun s ins => scoreInstance env settings s.weights s.drawn ins) s).weights := by
    induction before with
    | nil => exact fun s same => same
    | cons ins before ih =>
        intro s same
        have start : SameWeights weights (ScoreState.mk s.weights s.drawn 0).weights := same
        exact ih _ (foldl_scoreRound zero_init (ins.drop 1) start).1
  exact kept ⟨weights, drawn, 0⟩ fun _ => rfl

/-- The score of an instance is the one from the weights at the start of the batch. -/
theorem scoreInstance_sum (zero_init : settings.randWeight = false) (drawn : Nat) {s : ScoreState K}
    (same : SameWeights weights s.weights) (label : K) (features : List (Int × K)) :
    (scoreInstance env settings s.weights drawn ((0, label) :: features)).sum =
      linearScore weights features := by
  have start : SameWeights weights (ScoreState.mk s.weights drawn 0).weights := same
  exact (foldl_scoreRound zero_init features start).2.trans (zero_add _)

/-! ## Agreement -/

variable [LinearOrder K]

theorem labelOf_cons (label : K) (features : List (Int × K)) :
    labelOf ((0, label) :: features) = .ok (if label = 1 then 1 else 0) := rfl

theorem lossScore_eq (weights : UnorderedMap Int K) (label : K) (features : List (Int × K)) :
    lossScore weights ((0, label) :: features) =
      .ok (if label = 1 then -linearScore weights features else linearScore weights features) := by
  have sum : features.foldl (lossRound weights) 0 = linearScore weights features := by
    refine (foldl_score (fun sum feature => ?_) features 0).trans (zero_add _)
    unfold lossRound weightOf
    cases find weights feature.1 with
    | none => rw [Option.getD_none, mul_zero, add_zero]
    | some weight =>
        change (if weight ≠ 0 then sum + weight * feature.2 else sum) = sum + feature.2 * weight
        split
        next => rw [mul_comm]
        next zero => rw [not_not.mp zero, mul_zero, add_zero]
  have positive : (if label = 1 then (1 : K) else 0) = 1 ↔ label = 1 := by
    split
    next one => exact iff_of_true rfl one
    next other => exact iff_of_false zero_ne_one other
  rw [lossScore, labelOf_cons, ok_bind, List.drop_one, List.tail_cons, sum]
  simp only [positive]

/-- The three scores of an instance agree, and the label is not part of them.  The instance may
stand behind others in a batch; missing weights are entered as 0. -/
def ScoresAgree (weights : UnorderedMap Int K) (label : Int) (features : List (Int × K)) : Prop :=
  (∀ (env : Environment K) (settings : Settings K) (drawn : Nat) (before : List (Instance K)),
    settings.randWeight = false →
      (scoreInstance env settings (scoreBefore env settings weights drawn before).weights
        (scoreBefore env settings weights drawn before).drawn ((0, (label : K)) :: features)).sum =
          predictScore weights ((0, (label : K)) :: features)) ∧
  lossScore weights ((0, (label : K)) :: features) =
    .ok (if (label : K) = 1 then -predictScore weights ((0, (label : K)) :: features)
      else predictScore weights ((0, (label : K)) :: features)) ∧
  ∀ other : Int, predictScore weights ((0, (other : K)) :: features) =
    predictScore weights ((0, (label : K)) :: features)

/-- The weights of `mini_batch_gradient` behind some instances of a batch. -/
theorem gradient_scoreBefore {data : List (Instance K)} {dataIdx : List Nat} {drawn : Nat}
    {gradients : UnorderedMap Int K} {s : GradientState K}
    (run : dataIdx.foldlM (gradientRound env settings data) ⟨weights, drawn, gradients⟩ = .ok s) :
    ∃ before : List (Instance K), dataIdx.map (data[·]?) = before.map some ∧
      s.weights = (scoreBefore env settings weights drawn before).weights ∧
      s.drawn = (scoreBefore env settings weights drawn before).drawn := by
  have runs : ∀ (t : GradientState K) (u : ScoreState K), t.weights = u.weights → t.drawn = u.drawn →
      dataIdx.foldlM (gradientRound env settings data) t = .ok s →
      ∃ before : List (Instance K), dataIdx.map (data[·]?) = before.map some ∧
        s.weights = (before.foldl (fun s ins => scoreInstance env settings s.weights s.drawn ins) u).weights ∧
        s.drawn = (before.foldl (fun s ins => scoreInstance env settings s.weights s.drawn ins) u).drawn := by
    clear run
    induction dataIdx with
    | nil =>
        intro t u weights_eq drawn_eq run
        cases run
        exact ⟨[], rfl, weights_eq, drawn_eq⟩
    | cons index dataIdx ih =>
        intro t u weights_eq drawn_eq run
        rw [List.foldlM_cons] at run
        obtain ⟨next, round, rest⟩ := bind_eq_ok.mp run
        obtain ⟨ins, found, round⟩ := bind_eq_ok.mp round
        obtain ⟨label, _, round⟩ := bind_eq_ok.mp round
        cases round
        obtain ⟨before, rows, later⟩ := ih _ (scoreInstance env settings t.weights t.drawn ins) rfl rfl rest
        refine ⟨ins :: before, ?_, ?_⟩
        · rw [List.map_cons, List.map_cons, rows, load_eq_ok.mp found]
        · rwa [List.foldl_cons, ← weights_eq, ← drawn_eq]
  exact runs ⟨weights, drawn, gradients⟩ ⟨weights, drawn, 0⟩ rfl rfl run

/-- The scores agree unless there is a weight other than 0 for the index of the label. -/
theorem scores_agree_iff (weights : UnorderedMap Int K) (label : Int) (features : List (Int × K)) :
    ScoresAgree weights label features ↔ weightOf weights 0 = 0 := by
  unfold ScoresAgree
  simp only [predictScore_cons, lossScore_eq]
  constructor
  · rintro ⟨_, _, independent⟩
    have next := independent (label + 1)
    push_cast at next
    linear_combination next
  · intro no_weight
    simp only [no_weight, mul_zero, zero_add]
    refine ⟨fun env settings drawn before zero_init => ?_, trivial, fun _ => trivial⟩
    exact scoreInstance_sum zero_init _ (scoreBefore_same zero_init drawn before) _ features

/-- A weight for index 0 puts the label into the score of `predict`. -/
theorem scores_disagree_label : ¬ScoresAgree [(0, (1 : Rat)), (5, 2)] 1 [(5, 3)] := by
  rintro ⟨_, _, independent⟩
  have same := independent 0
  rw [predictScore_cons, predictScore_cons] at same
  have label := add_right_cancel same
  norm_num [weightOf, find] at label

end CppProject.LrSgd
