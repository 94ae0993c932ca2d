import CppProject.LrSgd.Batches
import CppProject.LrSgd.TrainingData
import Mathlib.Algebra.Order.Field.Rat

/-!
# The indexes of the gradients

A batch enters a weight for every feature of its instances, and a gradient for every entry of them,
the label entry included.  The gradient of index 0 therefore needs a weight that only a feature
with index 0 can have entered.  Weights are never taken out, so the first batch decides.
-/

namespace CppProject.LrSgd

open Library Library.Checked UnorderedMap

variable {K : Type} {data : List (Instance K)}

/-! ## The indexes of a batch -/

/-- An index of an entry of the instances of a batch, behind the first `start` entries. -/
def InBatch (start : Nat) (data : List (Instance K)) (batch : List Nat) (index : Int) : Prop :=
  ∃ i ∈ batch, ∃ ins, data[i]? = some ins ∧ index ∈ (ins.drop start).map Prod.fst

theorem inBatch_cons {start i : Nat} {batch : List Nat} {index : Int} :
    InBatch start data (i :: batch) index ↔
      InBatch start data [i] index ∨ InBatch start data batch index := by
  unfold InBatch
  rw [List.exists_mem_cons_iff, List.exists_mem_cons_iff]
  exact or_congr_left ⟨Or.inl, fun either => either.resolve_right fun ⟨_, impossible, _⟩ =>
    absurd impossible List.not_mem_nil⟩

/-- The label entry of an instance has index 0. -/
theorem inBatch_zero (labelled : ∀ ins ∈ data, Labelled ins) {batch : List Nat} (filled : batch ≠ [])
    (valid : ∀ i ∈ batch, i < data.length) : InBatch 0 data batch 0 := by
  obtain ⟨i, rest, rfl⟩ := List.exists_cons_of_ne_nil filled
  have inside := valid i List.mem_cons_self
  obtain ⟨label, features, shape, _⟩ := labelled _ (List.getElem_mem inside)
  refine ⟨i, List.mem_cons_self, _, List.getElem?_eq_getElem inside, ?_⟩
  rw [shape]
  exact List.mem_cons_self

/-- The other entries are features. -/
theorem inBatch_of_ne (labelled : ∀ ins ∈ data, Labelled ins) {batch : List Nat} {index : Int}
    (entry : InBatch 0 data batch index) (other : index ≠ 0) : InBatch 1 data batch index := by
  obtain ⟨i, member, ins, found, inside⟩ := entry
  obtain ⟨label, features, rfl, _⟩ := labelled ins (List.mem_of_getElem? found)
  refine ⟨i, member, _, found, ?_⟩
  exact (List.mem_cons.mp inside).resolve_left other

theorem epochIndexes_perm (env : Environment K) (settings : Settings K) {n : Nat} (i : Nat)
    {dataIdx : List Nat} (perm : dataIdx.Perm (List.range n)) :
    (epochIndexes env settings i dataIdx).Perm (List.range n) := by
  unfold epochIndexes
  split
  · exact (env.shuffle_perm i dataIdx).trans perm
  · exact perm

theorem valid_of_perm {dataIdx : List Nat} (perm : dataIdx.Perm (List.range data.length)) :
    ∀ i ∈ dataIdx, i < data.length :=
  fun _ member => List.mem_range.mp (perm.mem_iff.mp member)

variable [Field K] {env : Environment K} {settings : Settings K}

/-! ## The keys of the maps -/

theorem scoreRound_keys (s : ScoreState K) (feature : Int × K) (index : Int) :
    index ∈ keys (scoreRound env settings s feature).weights ↔
      index = feature.1 ∨ index ∈ keys s.weights := by
  unfold scoreRound
  cases found : find s.weights feature.1 with
  | some weight =>
      have present : feature.1 ∈ keys s.weights := exists_find.mp ⟨weight, found⟩
      exact ⟨Or.inr, fun either => either.elim (fun same => same ▸ present) id⟩
  | none => exact mem_keys_assign

/-- Scoring an instance enters the weights of its features. -/
theorem scoreInstance_keys (weights : UnorderedMap Int K) (drawn : Nat) (ins : Instance K) (index : Int) :
    index ∈ keys (scoreInstance env settings weights drawn ins).weights ↔
      index ∈ keys weights ∨ index ∈ (ins.drop 1).map Prod.fst := by
  have entered : ∀ (features : List (Int × K)) (s : ScoreState K),
      index ∈ keys (features.foldl (scoreRound env settings) s).weights ↔
        index ∈ keys s.weights ∨ index ∈ features.map Prod.fst := by
    intro features
    induction features with
    | nil => exact fun s => (or_iff_left List.not_mem_nil).symm
    | cons feature features ih =>
        intro s
        rw [List.foldl_cons, ih, scoreRound_keys, List.map_cons, List.mem_cons, or_assoc,
          or_left_comm]
  exact entered (ins.drop 1) ⟨weights, drawn, 0⟩

/-- The gradients of an instance are those of its entries. -/
theorem addGradient_keys (value : Int × K → K) (ins : Instance K) (gradients : UnorderedMap Int K)
    (index : Int) :
    index ∈ keys (ins.foldl
        (fun gradients feature => addGradient gradients feature.1 (value feature)) gradients) ↔
      index ∈ keys gradients ∨ index ∈ ins.map Prod.fst := by
  induction ins generalizing gradients with
  | nil => exact (or_iff_left List.not_mem_nil).symm
  | cons feature ins ih =>
      rw [List.foldl_cons, ih, addGradient, mem_keys_assign, List.map_cons, List.mem_cons, or_assoc,
        or_left_comm]

theorem mapM_average {dataLen : Nat} (some_data : dataLen ≠ 0) (entries : List (Int × K)) :
    entries.mapM (averageEntry dataLen) =
      .ok (entries.map fun entry => (entry.1, entry.2 / dataLen)) := by
  induction entries with
  | nil => rfl
  | cons entry entries ih =>
      rw [List.mapM_cons, ih, averageEntry, if_neg some_data]
      rfl

/-! ## One batch -/

variable [LinearOrder K]

/-- An instance of the training data enters the weights of its features and the gradients of its
entries. -/
theorem gradientRound_ok (labelled : ∀ ins ∈ data, Labelled ins) {i : Nat} (inside : i < data.length)
    (s : GradientState K) :
    ∃ s', gradientRound env settings data s i = .ok s' ∧
      (∀ index, index ∈ keys s'.weights ↔ index ∈ keys s.weights ∨ InBatch 1 data [i] index) ∧
      ∀ index, index ∈ keys s'.gradients ↔ index ∈ keys s.gradients ∨ InBatch 0 data [i] index := by
  obtain ⟨label, features, shape, _⟩ := labelled _ (List.getElem_mem inside)
  have only (start : Nat) (index : Int) :
      InBatch start data [i] index ↔ index ∈ (data[i].drop start).map Prod.fst := by
    constructor
    · rintro ⟨_, member, ins, found, entry⟩
      obtain rfl := List.mem_singleton.mp member
      cases (List.getElem?_eq_getElem inside).symm.trans found
      exact entry
    · intro entry
      exact ⟨i, List.mem_singleton.mpr rfl, _, List.getElem?_eq_getElem inside, entry⟩
  have labelled_row : ∃ label : K, labelOf data[i] = .ok label := by
    rw [shape]
    exact ⟨_, rfl⟩
  obtain ⟨label, labelled_row⟩ := labelled_row
  unfold gradientRound
  rw [load_of_lt inside, ok_bind, labelled_row, ok_bind]
  refine ⟨_, rfl, fun index => ?_, fun index => ?_⟩
  · rw [only]
    exact scoreInstance_keys _ _ _ _
  · rw [only]
    exact addGradient_keys _ _ _ _

theorem gradients_ok (labelled : ∀ ins ∈ data, Labelled ins) {batch : List Nat}
    (valid : ∀ i ∈ batch, i < data.length) (s : GradientState K) :
    ∃ s', batch.foldlM (gradientRound env settings data) s = .ok s' ∧
      (∀ index, index ∈ keys s'.weights ↔ index ∈ keys s.weights ∨ InBatch 1 data batch index) ∧
      ∀ index, index ∈ keys s'.gradients ↔ index ∈ keys s.gradients ∨ InBatch 0 data batch index := by
  induction batch generalizing s with
  | nil =>
      have none_left (start : Nat) (index : Int) : ¬InBatch start data [] index :=
        fun ⟨_, impossible, _⟩ => absurd impossible List.not_mem_nil
      exact ⟨s, rfl, fun index => (or_iff_left (none_left 1 index)).symm,
        fun index => (or_iff_left (none_left 0 index)).symm⟩
  | cons i batch ih =>
      obtain ⟨inside, valid⟩ := List.forall_mem_cons.mp valid
      obtain ⟨next, round, weights, gradients⟩ := @gradientRound_ok _ _ _ env settings _ labelled _ inside s
      obtain ⟨last, run, weights_later, gradients_later⟩ := ih valid next
      refine ⟨last, ?_, fun index => ?_, fun index => ?_⟩
      · rw [List.foldlM_cons, round, ok_bind, run]
      · rw [weights_later, weights, or_assoc, ← inBatch_cons]
      · rw [gradients_later, gradients, or_assoc, ← inBatch_cons]

/-- The gradient list of a batch has the indexes of its entries; the weights afterwards have those
of its features. -/
theorem miniBatchGradient_ok (labelled : ∀ ins ∈ data, Labelled ins) {batch : List Nat}
    (filled : batch ≠ []) (valid : ∀ i ∈ batch, i < data.length) (weights : UnorderedMap Int K)
    (drawn : Nat) :
    ∃ after drawn' gradients,
      miniBatchGradient env settings weights drawn data batch = .ok (after, drawn', gradients) ∧
      (∀ index, index ∈ keys after ↔ index ∈ keys weights ∨ InBatch 1 data batch index) ∧
      ∀ index, index ∈ gradients.map Prod.fst ↔ InBatch 0 data batch index := by
  obtain ⟨s, run, entered, entries⟩ :=
    @gradients_ok _ _ _ env settings _ labelled _ valid ⟨weights, drawn, []⟩
  have some_data : batch.length ≠ 0 := fun none_left => filled (List.length_eq_zero_iff.mp none_left)
  unfold miniBatchGradient
  rw [run, ok_bind, mapM_average some_data, ok_bind]
  refine ⟨_, _, _, rfl, entered, fun index => ?_⟩
  rw [List.map_map, ((env.order_perm s.gradients).map _).mem_iff]
  exact (entries index).trans (or_iff_right List.not_mem_nil)

/-- A round takes no weight out and enters none. -/
theorem penaltyRound_keys {learningRate penalty : K} {s s' : PenaltyState K} {gradient : Int × K}
    (round : penaltyRound learningRate penalty s gradient = .ok s') (index : Int) :
    index ∈ keys s'.weights ↔ index ∈ keys s.weights := by
  unfold penaltyRound at round
  split at round
  next => cases round
  next weight found =>
    cases round
    rw [mem_keys_assign]
    have present : gradient.1 ∈ keys s.weights := exists_find.mp ⟨weight, found⟩
    exact ⟨fun either => either.elim (fun same => same ▸ present) id, Or.inr⟩

/-- `apply_cumulative_l1_penalty` dereferences `weights.end()` if and only if a gradient has an index
without a weight. -/
theorem applyCumulativeL1Penalty_cases (gradients : List (Int × K)) (learningRate penalty : K)
    (s : PenaltyState K) :
    ((∀ index ∈ gradients.map Prod.fst, index ∈ keys s.weights) ∧
      ∃ s', applyCumulativeL1Penalty gradients learningRate penalty s = .ok s' ∧
        ∀ index, index ∈ keys s'.weights ↔ index ∈ keys s.weights) ∨
    ((∃ index ∈ gradients.map Prod.fst, index ∉ keys s.weights) ∧
      applyCumulativeL1Penalty gradients learningRate penalty s = .error .outOfBounds) := by
  unfold applyCumulativeL1Penalty
  induction gradients generalizing s with
  | nil =>
      exact Or.inl ⟨List.forall_mem_nil _, s, rfl, fun _ => Iff.rfl⟩
  | cons gradient gradients ih =>
      rw [List.foldlM_cons, List.map_cons]
      cases round : penaltyRound learningRate penalty s gradient with
      | error fault =>
          unfold penaltyRound at round
          split at round
          next missing =>
            cases round
            exact Or.inr ⟨⟨gradient.1, List.mem_cons_self, find_eq_none.mp missing⟩, rfl⟩
          next => cases round
      | ok next =>
          have same := penaltyRound_keys round
          have present : gradient.1 ∈ keys s.weights := by
            by_contra missing
            rw [penaltyRound, find_eq_none.mpr missing] at round
            cases round
          rw [ok_bind]
          rcases ih next with ⟨all, s', run, kept⟩ | ⟨⟨index, member, missing⟩, stop⟩
          · refine Or.inl ⟨List.forall_mem_cons.mpr ⟨present, fun index member => ?_⟩, s', run, ?_⟩
            · exact (same index).mp (all index member)
            · exact fun index => (kept index).trans (same index)
          · refine Or.inr ⟨⟨index, List.mem_cons_of_mem _ member, fun found => ?_⟩, stop⟩
            exact missing ((same index).mpr found)

/-- A batch succeeds if and only if there is a weight for index 0 in front of the penalty. -/
theorem trainBatch_cases (labelled : ∀ ins ∈ data, Labelled ins) {batch : List Nat}
    (filled : batch ≠ []) (valid : ∀ i ∈ batch, i < data.length) (s : TrainState K) :
    ((0 ∈ keys s.weights ∨ InBatch 1 data batch 0) ∧
      ∃ s', trainBatch env settings data s batch = .ok s' ∧ 0 ∈ keys s'.weights) ∨
    (¬(0 ∈ keys s.weights ∨ InBatch 1 data batch 0) ∧
      trainBatch env settings data s batch = .error .outOfBounds) := by
  obtain ⟨weights, drawn, gradients, run, entered, entries⟩ :=
    @miniBatchGradient_ok _ _ _ env settings _ labelled _ filled valid s.weights s.drawn
  unfold trainBatch
  simp only [run, ok_bind]
  have needs : (∀ index ∈ gradients.map Prod.fst, index ∈ keys weights) ↔ 0 ∈ keys weights := by
    refine ⟨fun all => all 0 ((entries 0).mpr (inBatch_zero labelled filled valid)), fun zero => ?_⟩
    intro index member
    by_cases label : index = 0
    · exact label ▸ zero
    · exact (entered index).mpr (Or.inr (inBatch_of_ne labelled ((entries index).mp member) label))
  rcases applyCumulativeL1Penalty_cases gradients (nextLearningRate env settings data.length s)
    (s.penalty + nextLearningRate env settings data.length s * settings.l1PenaltyWeight)
    ⟨weights, s.actual⟩ with ⟨all, s', applied, kept⟩ | ⟨⟨index, member, missing⟩, stop⟩
  · have zero := needs.mp all
    rw [applied, ok_bind]
    exact Or.inl ⟨(entered 0).mp zero, _, rfl, (kept 0).mpr zero⟩
  · rw [stop]
    exact Or.inr ⟨fun some_weight => missing (needs.mpr ((entered 0).mpr some_weight) index member), rfl⟩

/-! ## Epochs -/

/-- Once there is a weight for index 0 all batches succeed. -/
theorem foldlM_trainBatch (labelled : ∀ ins ∈ data, Labelled ins) {batches : List (List Nat)}
    (filled : ∀ batch ∈ batches, batch ≠ []) (valid : ∀ i ∈ batches.flatten, i < data.length)
    {s : TrainState K} (zero : 0 ∈ keys s.weights) :
    ∃ s', batches.foldlM (trainBatch env settings data) s = .ok s' ∧ 0 ∈ keys s'.weights := by
  induction batches generalizing s with
  | nil => exact ⟨s, rfl, zero⟩
  | cons batch batches ih =>
      obtain ⟨first_filled, filled⟩ := List.forall_mem_cons.mp filled
      rw [List.flatten_cons] at valid
      obtain ⟨first_valid, valid⟩ := List.forall_mem_append.mp valid
      rcases @trainBatch_cases _ _ _ env settings _ labelled _ first_filled first_valid s with
        ⟨_, next, run, still⟩ | ⟨missing, _⟩
      · rw [List.foldlM_cons, run, ok_bind]
        exact ih filled valid still
      · exact absurd (Or.inl zero) missing

/-- The loss of labelled instances is computed without a fault. -/
theorem calculateLoss_ok (labelled : ∀ ins ∈ data, Labelled ins) (weights : UnorderedMap Int K) :
    ∃ loss, calculateLoss env settings weights data = .ok loss := by
  have sums : ∀ loss : K, ∃ sum, data.foldlM (fun loss ins => do
      let sum ← lossScore weights ins
      .ok (loss + env.log (1 + env.exp sum))) loss = (.ok sum : Except Fault K) := by
    induction data with
    | nil => exact fun loss => ⟨loss, rfl⟩
    | cons ins data ih =>
        intro loss
        obtain ⟨⟨label, features, rfl, _⟩, rest⟩ := List.forall_mem_cons.mp labelled
        exact ih rest _
  obtain ⟨sum, run⟩ := sums 0
  unfold calculateLoss
  rw [run]
  exact ⟨_, rfl⟩

section Epochs

variable {dataIdx : List Nat}

/-- The first batch of an epoch decides whether it succeeds. -/
theorem epoch_cases (labelled : ∀ ins ∈ data, Labelled ins) (fits : data.length < 2 ^ 63) {size : Nat}
    (positive : 0 < size) (bounded : size ≤ data.length)
    (perm : dataIdx.Perm (List.range data.length)) (s : TrainState K) :
    ((0 ∈ keys s.weights ∨ InBatch 1 data (dataIdx.take size) 0) ∧
      ∃ s', forBatches (data.length + 1) size dataIdx (trainBatch env settings data) s = .ok s' ∧
        0 ∈ keys s'.weights) ∨
    (¬(0 ∈ keys s.weights ∨ InBatch 1 data (dataIdx.take size) 0) ∧
      forBatches (data.length + 1) size dataIdx (trainBatch env settings data) s =
        .error .outOfBounds) := by
  have length : dataIdx.length = data.length := perm.length_eq.trans List.length_range
  obtain ⟨batches, filled, flatten, first, run⟩ := @exists_batches dataIdx _ positive (by omega) 0
  rw [List.drop_zero] at flatten first
  have unrolled := run (trainBatch env settings data) s (data.length + 1) (by omega)
  have all_valid := valid_of_perm perm
  rw [← flatten] at all_valid
  have is_first := first (by omega)
  unfold forBatches
  rw [unrolled]
  cases batches with
  | nil => cases is_first
  | cons batch batches =>
      cases is_first
      obtain ⟨⟨first_filled, _⟩, filled⟩ := List.forall_mem_cons.mp filled
      rw [List.flatten_cons] at all_valid
      obtain ⟨first_valid, valid⟩ := List.forall_mem_append.mp all_valid
      rw [List.foldlM_cons]
      rcases @trainBatch_cases _ _ _ env settings _ labelled _ first_filled first_valid s with
        ⟨some_weight, next, here, zero⟩ | ⟨missing, stop⟩
      · rw [here, ok_bind]
        exact Or.inl ⟨some_weight, foldlM_trainBatch labelled (fun batch member => (filled batch member).1)
          valid zero⟩
      · rw [stop]
        exact Or.inr ⟨missing, rfl⟩

/-- Once there is a weight for index 0 all epochs succeed. -/
theorem trainEpochs_ok (labelled : ∀ ins ∈ data, Labelled ins) (fits : data.length < 2 ^ 63) {size : Nat}
    (positive : 0 < size) (bounded : size ≤ data.length) (left i : Nat)
    (perm : dataIdx.Perm (List.range data.length)) (loss : K) {s : TrainState K}
    (zero : 0 ∈ keys s.weights) :
    ∃ s', trainEpochs env settings (data.length + 1) size data left i dataIdx loss s = .ok s' := by
  induction left generalizing i dataIdx loss s with
  | zero => exact ⟨s, rfl⟩
  | succ left ih =>
      rw [trainEpochs]
      have shuffled := epochIndexes_perm env settings i perm
      rcases epoch_cases labelled fits positive bounded shuffled s with ⟨_, next, run, still⟩ | ⟨missing, _⟩
      · obtain ⟨newLoss, computed⟩ := calculateLoss_ok labelled next.weights
        rw [run, ok_bind, computed, ok_bind]
        split
        next => exact ⟨next, rfl⟩
        next => exact ih (i + 1) shuffled newLoss still
      · exact absurd (Or.inl zero) missing

/-- An empty batch changes nothing that can fail. -/
theorem trainBatch_empty (s : TrainState K) : ∃ s', trainBatch env settings data s [] = .ok s' := by
  have no_gradient : env.order [] = [] := List.Perm.eq_nil (env.order_perm [])
  unfold trainBatch miniBatchGradient
  simp only [List.foldlM_nil, pure, Except.pure, ok_bind, no_gradient]
  exact ⟨_, rfl⟩

end Epochs

/-! ## Runs -/

/-- The first batch of the first epoch. -/
def firstBatch (env : Environment K) (settings : Settings K) (n : Nat) : List Nat :=
  (epochIndexes env settings 0 (List.range n)).take (normalizedSize settings.miniBatchSize n)

/-- `train` never dereferences `weights.end()`, and reads nothing outside a vector. -/
def SafeTraining (env : Environment K) (settings : Settings K) (data : List (Instance K)) : Prop :=
  train env settings data ≠ .error .outOfBounds

theorem train_eq (nonempty : data ≠ []) :
    train env settings data =
      trainEpochs env settings (data.length + 1) (normalizedSize settings.miniBatchSize data.length) data
        settings.maxIterationNum.toNat 0 (List.range data.length) 0
        ⟨[], 0, settings.initialLearningRate, 1, 0, []⟩ := by
  obtain ⟨ins, rest, rfl⟩ := List.exists_cons_of_ne_nil nonempty
  rfl

/-- On training data, every gradient has a weight if and only if no gradient is computed at all, or
an instance of the first batch has a feature with index 0. -/
theorem safe_training_iff {stod : Text → Option K} {file : Option Text}
    (produced : getTrainingData stod file = some data) (nonempty : data ≠ [])
    (fits : data.length < 2 ^ 63) (env : Environment K) (settings : Settings K) :
    SafeTraining env settings data ↔
      settings.maxIterationNum ≤ 0 ∨ settings.miniBatchSize = 0 ∨
        InBatch 1 data (firstBatch env settings data.length) 0 := by
  have labelled := getTrainingData_labelled produced
  have some_data : 0 < data.length := List.length_pos_of_ne_nil nonempty
  have range := epochIndexes_perm env settings 0 (List.Perm.refl (List.range data.length))
  unfold SafeTraining
  rw [train_eq nonempty]
  cases iterations : settings.maxIterationNum.toNat with
  | zero =>
      refine iff_of_true ?_ (Or.inl (by omega))
      rw [trainEpochs]
      exact fun impossible => by cases impossible
  | succ left =>
      have some_iteration : ¬settings.maxIterationNum ≤ 0 := by omega
      rw [trainEpochs, or_iff_right some_iteration]
      by_cases no_size : settings.miniBatchSize = 0
      · refine iff_of_true ?_ (Or.inl no_size)
        have some_index : epochIndexes env settings 0 (List.range data.length) ≠ [] :=
          List.ne_nil_of_length_pos (by rw [range.length_eq, List.length_range]; exact some_data)
        rw [no_size, normalizedSize_zero, forBatches_zero _ some_index trainBatch_empty]
        exact fun impossible => by cases impossible
      · obtain ⟨positive, bounded⟩ := normalizedSize_bounds no_size some_data
        rw [or_iff_right no_size]
        have no_weight : (0 : Int) ∉ keys ([] : UnorderedMap Int K) := List.not_mem_nil
        rcases @epoch_cases _ _ _ env settings _ _ labelled fits _ positive bounded range
          ⟨[], 0, settings.initialLearningRate, 1, 0, []⟩ with ⟨decided, next, run, zero⟩ | ⟨missing, stop⟩
        · refine iff_of_true ?_ (decided.resolve_left no_weight)
          obtain ⟨newLoss, computed⟩ := @calculateLoss_ok _ _ _ env settings _ labelled next.weights
          rw [run, ok_bind, computed, ok_bind]
          split
          next => exact fun impossible => by cases impossible
          next =>
            obtain ⟨last, rest⟩ := trainEpochs_ok labelled fits positive bounded left 1 range newLoss zero
            rw [rest]
            exact fun impossible => by cases impossible
        · refine iff_of_false ?_ fun feature => missing (Or.inr feature)
          rw [stop]
          exact fun safe => safe rfl

/-- A machine that draws zeros and keeps every order, with first-order functions. -/
def plainEnvironment : Environment Rat where
  exp x := 1 + x
  log x := x - 1
  pow _ _ := 1
  draw _ := 0
  shuffle _ indexes := indexes
  shuffle_perm _ indexes := List.Perm.refl indexes
  order map := map
  order_perm map := List.Perm.refl map

/-- Training on the line `1 0:2`, which has a feature with index 0. -/
theorem safe_training_zero_feature :
    SafeTraining plainEnvironment (defaultSettings Rat) [[(0, 1), (0, 2)]] := by
  have produced : getTrainingData (fun _ => some (2 : Rat)) (some ['1', ' ', '0', ':', '2']) =
      some [[(0, 1), (0, 2)]] := rfl
  refine (safe_training_iff produced (List.cons_ne_nil _ _) (by decide) _ _).mpr (Or.inr (Or.inr ?_))
  exact ⟨0, List.mem_singleton.mpr rfl, _, rfl, List.mem_singleton.mpr rfl⟩

/-- Training on the line `1 5:2` dereferences `weights.end()` for the label entry. -/
theorem unsafe_training_label :
    getTrainingData (fun _ => some (2 : Rat)) (some ['1', ' ', '5', ':', '2']) =
        some [[(0, 1), (5, 2)]] ∧
      ¬SafeTraining plainEnvironment (defaultSettings Rat) [[(0, 1), (5, 2)]] :=
  ⟨rfl, fun safe => safe rfl⟩

end CppProject.LrSgd
