import CppProject.Library.Loop
import CppProject.Library.Text
import CppProject.Library.UnorderedMaps
import Mathlib.Algebra.Field.Defs
import Mathlib.Algebra.Order.Group.Unbundled.Abs

/-!
# `lr_sgd`

Logistic regression by stochastic gradient descent, with a cumulative L1 penalty.  Weights and
data are the elements of an ordered field, so the arithmetic is exact.  What the program takes
from the machine is a parameter: the transcendental functions, the random draws, the shuffling of
the indexes and the order in which a map is iterated.
-/

namespace CppProject.LrSgd

open Library Library.Checked UnorderedMap

/-- The global variables. -/
structure Settings (K : Type) where
  randWeight : Bool
  initialLearningRate : K
  learningRateDecay : Bool
  learningRateDecayExpBase : K
  maxIterationNum : Int
  needShuffleData : Bool
  miniBatchSize : Nat
  l1PenaltyWeight : K

/-- The values that the global variables are initialised with. -/
def defaultSettings (K : Type) [Field K] : Settings K where
  randWeight := false
  initialLearningRate := 1 / 100
  learningRateDecay := false
  learningRateDecayExpBase := 2
  maxIterationNum := 1000
  needShuffleData := false
  miniBatchSize := 1
  l1PenaltyWeight := 1 / 10000

/-- What the program takes from the machine. -/
structure Environment (K : Type) where
  exp : K → K
  log : K → K
  pow : K → K → K
  -- `dist(e2)`, by the number of draws before
  draw : Nat → K
  -- `shuffle`, by the number of shuffles before
  shuffle : Nat → List Nat → List Nat
  shuffle_perm : ∀ count indexes, (shuffle count indexes).Perm indexes
  -- the iteration order of `gradients`
  order : UnorderedMap Int K → List (Int × K)
  order_perm : ∀ map, (order map).Perm map

/-- The label entry, with index 0, and the features of a line. -/
abbrev Instance (K : Type) := List (Int × K)

/-! ## Training data -/

/-- `split`: an empty item at the end is not pushed. -/
def split (s : Text) (delim : Char) : List Text :=
  let items := s.splitOn delim
  if items.getLast? = some [] then items.dropLast else items

/-- `stoi`; `none` is an exception. -/
def stoi (text : Text) : Option Int :=
  let (negative, rest) := Text.sign (Text.skipSpace text)
  let digits := rest.takeWhile Char.isDigit
  let value : Int := if negative then -Text.decimal digits else Text.decimal digits
  if digits.isEmpty ∨ value < -2 ^ 31 ∨ 2 ^ 31 ≤ value then none else some value

section Parsing

variable {K : Type} [IntCast K] (stod : Text → Option K)

/-- An element behind the label: it is skipped unless it has two parts. -/
def parseElem (elem : Text) : Option (List (Int × K)) :=
  match split elem ':' with
  | [idx, val] => do
      let idx ← stoi idx
      let val ← stod val
      some [(idx, val)]
  | _ => some []

def parseLine (line : Text) : Option (Instance K) :=
  match split line ' ' with
  | [] => some []
  | front :: elems => do
      let label ← stoi front
      let features ← elems.mapM (parseElem stod)
      some ((0, (label : K)) :: features.flatten)

/-- `get_training_Data`, from the content of the file; `none` is a file that cannot be opened. -/
def getTrainingData : Option Text → Option (List (Instance K))
  | none => some []
  | some content => do
      let rows ← (split content '\n').mapM (parseLine stod)
      some (rows.filter fun row => 1 < row.length)

end Parsing

variable {K : Type} [Field K] [LinearOrder K]

/-! ## Scores -/

def sigmoid (env : Environment K) (x : K) : K := 1 / (1 + env.exp (-x))

/-- One round of the loop of `predict`. -/
def predictRound (weights : UnorderedMap Int K) (sum : K) (feature : Int × K) : K :=
  match find weights feature.1 with
  | some weight => sum + feature.2 * weight
  | none => sum

/-- What `predict` passes to `sigmoid`. -/
def predictScore (weights : UnorderedMap Int K) (ins : Instance K) : K :=
  ins.foldl (predictRound weights) 0

def predict (env : Environment K) (weights : UnorderedMap Int K) (ins : Instance K) : K :=
  sigmoid env (predictScore weights ins)

/-- `data_ins.front().second == 1 ? 1 : 0` -/
def labelOf (ins : Instance K) : Except Fault K := do
  let front ← load ins 0
  .ok (if front.2 = 1 then 1 else 0)

/-- The weights, the number of draws so far, and the sum over the features. -/
structure ScoreState (K : Type) where
  weights : UnorderedMap Int K
  drawn : Nat
  sum : K

def initWeight (env : Environment K) (settings : Settings K) (drawn : Nat) : K × Nat :=
  if settings.randWeight then (env.draw drawn, drawn + 1) else (0, drawn)

/-- One round of the scoring loop of `mini_batch_gradient`, which enters a missing weight. -/
def scoreRound (env : Environment K) (settings : Settings K) (s : ScoreState K)
    (feature : Int × K) : ScoreState K :=
  match find s.weights feature.1 with
  | some weight => { s with sum := s.sum + feature.2 * weight }
  | none =>
      let (weight, drawn) := initWeight env settings s.drawn
      ⟨assign s.weights feature.1 weight, drawn, s.sum + feature.2 * weight⟩

/-- The scoring loop of `mini_batch_gradient`; it starts behind the label. -/
def scoreInstance (env : Environment K) (settings : Settings K) (weights : UnorderedMap Int K)
    (drawn : Nat) (ins : Instance K) : ScoreState K :=
  (ins.drop 1).foldl (scoreRound env settings) ⟨weights, drawn, 0⟩

/-- One round of the scoring loop of `calculate_loss`. -/
def lossRound (weights : UnorderedMap Int K) (sum : K) (feature : Int × K) : K :=
  match find weights feature.1 with
  | some weight => if weight ≠ 0 then sum + weight * feature.2 else sum
  | none => sum

/-- The sum that `calculate_loss` passes to `exp`. -/
def lossScore (weights : UnorderedMap Int K) (ins : Instance K) : Except Fault K := do
  let label ← labelOf ins
  let sum := (ins.drop 1).foldl (lossRound weights) 0
  .ok (if label = 1 then -sum else sum)

/-! ## Gradients -/

/-- `gradients[index] += value` -/
def addGradient (gradients : UnorderedMap Int K) (index : Int) (value : K) : UnorderedMap Int K :=
  assign gradients index ((find gradients index).getD 0 + value)

/-- The variables of the loop of `mini_batch_gradient`. -/
structure GradientState (K : Type) where
  weights : UnorderedMap Int K
  drawn : Nat
  gradients : UnorderedMap Int K

/-- One round of the loop of `mini_batch_gradient`. -/
def gradientRound (env : Environment K) (settings : Settings K) (data : List (Instance K))
    (s : GradientState K) (index : Nat) : Except Fault (GradientState K) := do
  let ins ← load data index
  let label ← labelOf ins
  let scored := scoreInstance env settings s.weights s.drawn ins
  let prob := sigmoid env scored.sum
  let gradients := ins.foldl
    (fun gradients feature => addGradient gradients feature.1 ((label - prob) * feature.2)) s.gradients
  .ok ⟨scored.weights, scored.drawn, gradients⟩

/-- `entry.second / dataLen` -/
def averageEntry (dataLen : Nat) (entry : Int × K) : Except Fault (Int × K) :=
  if dataLen = 0 then .error .divisionByZero else .ok (entry.1, entry.2 / dataLen)

/-- `mini_batch_gradient`: the weights and draws afterwards, and the gradient list. -/
def miniBatchGradient (env : Environment K) (settings : Settings K) (weights : UnorderedMap Int K)
    (drawn : Nat) (data : List (Instance K)) (dataIdx : List Nat) :
    Except Fault (UnorderedMap Int K × Nat × List (Int × K)) := do
  let s ← dataIdx.foldlM (gradientRound env settings data) ⟨weights, drawn, []⟩
  let res ← (env.order s.gradients).mapM (averageEntry dataIdx.length)
  .ok (s.weights, s.drawn, res)

/-! ## The penalty -/

/-- The weights and the actual penalties. -/
structure PenaltyState (K : Type) where
  weights : UnorderedMap Int K
  actual : UnorderedMap Int K

/-- The weight that an update leaves. -/
def clip (weight half penalty actual : K) : K :=
  if half > 0 then max 0 (half - (penalty + actual))
  else if half < 0 then max 0 (half + (penalty - actual))
  else weight

/-- One round of the loop of `apply_cumulative_l1_penalty`; it reads the weight without a check. -/
def penaltyRound (learningRate penalty : K) (s : PenaltyState K) (gradient : Int × K) :
    Except Fault (PenaltyState K) :=
  match find s.weights gradient.1 with
  | none => .error .outOfBounds
  | some weight =>
      let half := weight + gradient.2 * learningRate
      let actual := (find s.actual gradient.1).getD 0
      let clipped := clip weight half penalty actual
      .ok ⟨assign s.weights gradient.1 clipped, assign s.actual gradient.1 (actual + (clipped - half))⟩

/-- `apply_cumulative_l1_penalty` -/
def applyCumulativeL1Penalty (gradients : List (Int × K)) (learningRate penalty : K)
    (s : PenaltyState K) : Except Fault (PenaltyState K) :=
  gradients.foldlM (penaltyRound learningRate penalty) s

/-! ## Training -/

/-- `calculate_loss` -/
def calculateLoss (env : Environment K) (settings : Settings K) (weights : UnorderedMap Int K)
    (data : List (Instance K)) : Except Fault K := do
  let loss ← data.foldlM (fun loss ins => do
    let sum ← lossScore weights ins
    .ok (loss + env.log (1 + env.exp sum))) 0
  let l1Val := weights.foldl (fun sum entry => sum + |entry.2|) 0
  .ok (loss / data.length + l1Val * settings.l1PenaltyWeight)

/-- A sum of two `size_t`. -/
def addSize (a b : Nat) : Nat := (a + b) % 2 ^ 64

/-- The guard at the start of `train`.  The size is unsigned. -/
def normalizedSize (miniBatchSize dataLen : Nat) : Nat :=
  if miniBatchSize < 0 ∨ miniBatchSize > dataLen then dataLen else miniBatchSize

/-- The elements from `begin` up to `end` of a vector. -/
def between (cells : List Nat) (start stop : Nat) : Except Fault (List Nat) :=
  if start ≤ stop then readBlock cells start (stop - start) else .error .outOfBounds

section Batches

variable {σ : Type}

/-- One round of the loop over the batches of an epoch; `work` is what is done with a batch. -/
def batchRound (size : Nat) (dataIdx : List Nat) (work : σ → List Nat → Except Fault σ) :
    Nat × σ → Except Fault (Option (Nat × σ))
  | (i, s) =>
      if i < dataIdx.length then do
        let batch ← between dataIdx i (min (addSize i size) dataIdx.length)
        let s ← work s batch
        .ok (some (addSize i size, s))
      else .ok none

/-- The loop over the batches of an epoch, with a bound on the number of rounds. -/
def forBatches (rounds size : Nat) (dataIdx : List Nat) (work : σ → List Nat → Except Fault σ) (s : σ) :
    Except Fault σ := do
  let last ← whileLoop (batchRound size dataIdx work) rounds (0, s)
  .ok last.2

end Batches

/-- The variables of `train` that a batch changes.  `k` is an `int` in the source; nothing but the
`pow` of the decay reads it. -/
structure TrainState (K : Type) where
  weights : UnorderedMap Int K
  drawn : Nat
  learningRate : K
  k : Nat
  penalty : K
  actual : UnorderedMap Int K

/-- The learning rate of the next batch. -/
def nextLearningRate (env : Environment K) (settings : Settings K) (dataLen : Nat) (s : TrainState K) : K :=
  if settings.learningRateDecay then
    env.pow settings.learningRateDecayExpBase (-(s.k : K) / dataLen) * settings.initialLearningRate
  else s.learningRate

/-- The body of the loop over the batches. -/
def trainBatch (env : Environment K) (settings : Settings K) (data : List (Instance K))
    (s : TrainState K) (batch : List Nat) : Except Fault (TrainState K) := do
  let (weights, drawn, gradients) ← miniBatchGradient env settings s.weights s.drawn data batch
  let learningRate := nextLearningRate env settings data.length s
  let penalty := s.penalty + learningRate * settings.l1PenaltyWeight
  let after ← applyCumulativeL1Penalty gradients learningRate penalty ⟨weights, s.actual⟩
  .ok ⟨after.weights, drawn, learningRate, s.k + 1, penalty, after.actual⟩

/-- The indexes in the order of the epoch. -/
def epochIndexes (env : Environment K) (settings : Settings K) (i : Nat) (dataIdx : List Nat) : List Nat :=
  if settings.needShuffleData then env.shuffle i dataIdx else dataIdx

/-- The loop over the iterations, with `left` iterations to come. -/
def trainEpochs (env : Environment K) (settings : Settings K) (rounds size : Nat)
    (data : List (Instance K)) : Nat → Nat → List Nat → K → TrainState K → Except Fault (TrainState K)
  | 0, _, _, _, s => .ok s
  | left + 1, i, dataIdx, loss, s => do
      let dataIdx := epochIndexes env settings i dataIdx
      let s ← forBatches rounds size dataIdx (trainBatch env settings data) s
      let newLoss ← calculateLoss env settings s.weights data
      if |newLoss - loss| < 1 / 1000 then .ok s
      else trainEpochs env settings rounds size data left (i + 1) dataIdx newLoss s

/-- `train` on the training data, with a bound on the rounds of each loop over the batches. -/
def trainIn (rounds : Nat) (env : Environment K) (settings : Settings K) (data : List (Instance K)) :
    Except Fault (TrainState K) :=
  let start : TrainState K := ⟨[], 0, settings.initialLearningRate, 1, 0, []⟩
  if data.isEmpty then .ok start
  else
    trainEpochs env settings rounds (normalizedSize settings.miniBatchSize data.length) data
      settings.maxIterationNum.toNat 0 (List.range data.length) 0 start

def train (env : Environment K) (settings : Settings K) (data : List (Instance K)) :
    Except Fault (TrainState K) :=
  trainIn (data.length + 1) env settings data

end CppProject.LrSgd
