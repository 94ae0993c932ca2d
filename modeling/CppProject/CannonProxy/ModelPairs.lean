import CppProject.CannonProxy.ModelFilesReader
import CppProject.CannonProxy.ProxyServer
import Mathlib.Algebra.Order.BigOperators.Group.List
import Mathlib.Algebra.Order.Group.Nat

/-!
# The pairs of a model

The reading loop of `reload` turns the lines of the model files into the blocks of pairs
that it hands to `_insert`.  A line that cannot be parsed sets `failbit` of its string
stream, but the loop looks at `badbit`.
-/

namespace CppProject.CannonProxy

open Library Library.Checked

section Model

-- the conversion of a field to a double, and the contents of `key` and `value`, which the
-- loop body does not initialise, when the line of a number is about to be read
variable {V : Type} [Zero V] (strtod : Text → Conversion V) (before : Nat → Int64 × V)

/-- `iss >> key >> value`: the two variables, and the stream behind them. -/
def extractKv (uninitialised : Int64 × V) (line : Text) : CannonKV V × IStream :=
  let iss := IStream.ofText line
  let (key, iss) := iss.extract IntField.next .start toInt64 0 uninitialised.1
  let (value, iss) := iss.extract FloatField.next .start strtod 0 uninitialised.2
  (⟨key, value⟩, iss)

/-- The loop over the lines of a block, of which the first one has number `n`. -/
def readKvs : Nat → List Text → List (CannonKV V)
  | _, [] => []
  | n, line :: rest =>
      let (kv, iss) := extractKv strtod (before n) line
      if !iss.bad then kv :: readKvs (n + 1) rest else readKvs (n + 1) rest

/-- `const int block_size` -/
def blockSize : Nat := 1000

variable (fs : String → Option Text)

/-- The reading loop, without the calls of `_insert`. -/
def readBlocks : Nat → Nat → ModelFilesReader → Except Fault (List (List (CannonKV V)))
  | 0, _, _ => .error .outOfFuel
  | fuel + 1, n, reader => do
      let (lines, reader) ← reader.getLines fs blockSize
      if lines.isEmpty then .ok []
      else do
        let rest ← readBlocks fuel (n + lines.length) reader
        .ok (readKvs strtod before n lines :: rest)

/-- There is a line for every character of the files at most. -/
def readFuel (paths : List String) : Nat :=
  (paths.map fun path => ((fs path).getD []).length).sum + 1

/-- A `reload` request, with what its files hold. -/
def readModel (paths : List String) : Except Fault (ReloadCall V) := do
  let blocks ← readBlocks strtod before fs (readFuel fs paths) 0 (.create paths)
  .ok ⟨paths, blocks⟩

/-- The pair that a line begins with: a numeral of a 64-bit integer, and one of a double
behind it. -/
def parsed (line : Text) : Option (CannonKV V) := do
  let (key, rest) ← IStream.numeral IntField.next .start toInt64 line
  let (value, _) ← IStream.numeral FloatField.next .start strtod rest
  some ⟨key, value⟩

end Model

variable {V : Type} [Zero V] {strtod : Text → Conversion V} {before : Nat → Int64 × V}
  {fs : String → Option Text}

/-! ## Lines -/

theorem extractKv_bad (uninitialised : Int64 × V) (line : Text) :
    (extractKv strtod uninitialised line).2.bad = false := by
  unfold extractKv
  simp only
  rw [IStream.extract_bad, IStream.extract_bad]
  rfl

/-- A line that begins with a pair gives that pair, and `failbit` is set on all others. -/
theorem extractKv_parsed (uninitialised : Int64 × V) (line : Text) :
    (∃ kv, parsed strtod line = some kv ∧ (extractKv strtod uninitialised line).1 = kv ∧
      (extractKv strtod uninitialised line).2.fail = false) ∨
    (parsed strtod line = none ∧ (extractKv strtod uninitialised line).2.fail = true) := by
  have first := @IStream.extract_numeral Int64 IntField IntField.next .start toInt64 0 uninitialised.1
    (IStream.ofText line) rfl
  change (∃ key rest, IStream.numeral IntField.next .start toInt64 line = some (key, rest) ∧ _) ∨
    (IStream.numeral IntField.next .start toInt64 line = none ∧ _) at first
  unfold extractKv parsed
  rcases first with ⟨key, rest, numeral, taken⟩ | ⟨none, fails⟩
  · simp only [numeral, taken, Option.bind_eq_bind, Option.bind_some]
    cases rest with
    | nil => exact Or.inr ⟨rfl, IStream.extract_of_not_good _ _ _ _ _ rfl⟩
    | cons c rest =>
        have second := @IStream.extract_numeral V FloatField FloatField.next .start strtod 0
          uninitialised.2 ⟨c :: rest, false, false, false⟩ rfl
        simp only at second
        rcases second with ⟨value, behind, numeral', taken'⟩ | ⟨none, fails⟩
        · left
          refine ⟨⟨key, value⟩, ?_, ?_, ?_⟩
          · rw [numeral', Option.bind_some]
          · exact congrArg (fun outcome : V × IStream => (⟨key, outcome.1⟩ : CannonKV V)) taken'
          · exact congrArg (fun outcome : V × IStream => outcome.2.fail) taken'
        · right
          rw [none]
          exact ⟨rfl, fails⟩
  · right
    rw [none]
    exact ⟨rfl, IStream.extract_of_not_good _ _ _ _ _ (IStream.not_good_of_fail fails)⟩

theorem readKvs_cons (n : Nat) (line : Text) (rest : List Text) :
    readKvs strtod before n (line :: rest) =
      (extractKv strtod (before n) line).1 :: readKvs strtod before (n + 1) rest := by
  rw [readKvs]
  simp only [extractKv_bad, Bool.not_false, if_true]

/-- Every line gives a pair. -/
theorem readKvs_length (n : Nat) (lines : List Text) :
    (readKvs strtod before n lines).length = lines.length := by
  induction lines generalizing n with
  | nil => rfl
  | cons line rest ih => rw [readKvs_cons, List.length_cons, List.length_cons, ih]

theorem readKvs_append (n : Nat) (first second : List Text) :
    readKvs strtod before n (first ++ second) =
      readKvs strtod before n first ++ readKvs strtod before (n + first.length) second := by
  induction first generalizing n with
  | nil => rfl
  | cons line rest ih =>
      rw [List.cons_append, readKvs_cons, readKvs_cons, ih, List.cons_append, List.length_cons,
        Nat.add_assoc, Nat.add_comm 1]

/-- The pairs of the lines are those that the lines begin with exactly when all lines
begin with a pair. -/
theorem readKvs_eq_iff (n : Nat) (lines : List Text) :
    readKvs strtod before n lines = lines.filterMap (parsed strtod) ↔
      ∀ line ∈ lines, (parsed strtod line).isSome = true := by
  constructor
  · intro same
    rw [← List.countP_eq_length, ← List.length_filterMap_eq_countP, ← same, readKvs_length]
  · intro all
    induction lines generalizing n with
    | nil => rfl
    | cons line rest ih =>
        obtain ⟨first, later⟩ := List.forall_mem_cons.mp all
        rcases extractKv_parsed (before n) line with ⟨kv, here, pair, _⟩ | ⟨none, _⟩
        · rw [readKvs_cons, ih (n + 1) later, List.filterMap_cons_some here, pair]
        · rw [none] at first
          cases first

/-! ## Blocks -/

/-- The blocks hold the pairs of all lines to come. -/
theorem readBlocks_spec {fuel : Nat} {reader : ModelFilesReader} (valid : reader.Valid) (n : Nat)
    (enough : (reader.pending fs).length < fuel) :
    ∃ blocks, readBlocks strtod before fs fuel n reader = .ok blocks ∧
      blocks.flatten = readKvs strtod before n (reader.pending fs) := by
  induction fuel generalizing n reader with
  | zero => exact absurd enough (Nat.not_lt_zero _)
  | succ fuel ih =>
      obtain ⟨reader', run, valid', rest⟩ := @ModelFilesReader.getLines_spec fs reader valid blockSize
      unfold readBlocks
      rw [run, ok_bind]
      simp only
      split
      next empty =>
        have nothing : reader.pending fs = [] := by
          have taken := List.isEmpty_iff.mp empty
          rw [List.take_eq_nil_iff] at taken
          exact taken.resolve_left (by decide)
        exact ⟨[], rfl, by rw [nothing]; rfl⟩
      next something =>
        have taken : 0 < ((reader.pending fs).take blockSize).length :=
          List.length_pos_of_ne_nil (mt List.isEmpty_iff.mpr something)
        have split := List.take_append_drop blockSize (reader.pending fs)
        have shorter : (reader'.pending fs).length < fuel := by
          rw [rest, List.length_drop]
          rw [List.length_take] at taken
          omega
        obtain ⟨blocks, later, pairs⟩ :=
          ih valid' (n + ((reader.pending fs).take blockSize).length) shorter
        rw [later, ok_bind]
        refine ⟨_, rfl, ?_⟩
        rw [List.flatten_cons, pairs, rest, ← readKvs_append, split]

/-- No block has more pairs than lines were asked for. -/
theorem readBlocks_bounded {fuel : Nat} {reader : ModelFilesReader} (valid : reader.Valid) {n : Nat}
    {blocks : List (List (CannonKV V))} (run : readBlocks strtod before fs fuel n reader = .ok blocks) :
    ∀ kvs ∈ blocks, kvs.length ≤ blockSize := by
  induction fuel generalizing n reader blocks with
  | zero => cases run
  | succ fuel ih =>
      obtain ⟨reader', gets, valid', _⟩ := @ModelFilesReader.getLines_spec fs reader valid blockSize
      rw [readBlocks, gets, ok_bind] at run
      simp only at run
      split at run
      next empty =>
        cases run
        exact List.forall_mem_nil _
      next something =>
        cases later : readBlocks strtod before fs fuel (n + ((reader.pending fs).take blockSize).length) reader' with
        | error fault =>
            rw [later] at run
            cases run
        | ok rest =>
            rw [later] at run
            cases run
            refine List.forall_mem_cons.mpr ⟨?_, ih valid' later⟩
            rw [readKvs_length]
            exact List.length_take_le _ _

theorem readModel_bounded {paths : List String} {call : ReloadCall V}
    (run : readModel strtod before fs paths = .ok call) : ∀ kvs ∈ call.blocks, kvs.length ≤ blockSize := by
  rw [readModel] at run
  cases reads : readBlocks strtod before fs (readFuel fs paths) 0 (.create paths) with
  | error fault =>
      rw [reads] at run
      cases run
  | ok blocks =>
      rw [reads] at run
      cases run
      exact readBlocks_bounded (fun ifs impossible => by cases impossible) reads

/-- The loop reads all non-empty lines of the files that are reached and can be opened. -/
theorem readModel_spec (paths : List String) :
    ∃ call, readModel strtod before fs paths = .ok call ∧ call.paths = paths ∧
      call.model =
        readKvs strtod before 0 (ModelFilesReader.linesOf fs (ModelFilesReader.reached paths)) := by
  have valid : (ModelFilesReader.create paths).Valid := fun ifs impossible => by cases impossible
  have lines : (ModelFilesReader.create paths).pending fs =
      ModelFilesReader.linesOf fs (ModelFilesReader.reached paths) := rfl
  have fewer : (ModelFilesReader.linesOf fs (ModelFilesReader.reached paths)).length ≤
      (ModelFilesReader.linesOf fs paths).length := by
    rw [ModelFilesReader.linesOf_reached fs paths, List.length_append]
    exact Nat.le_add_right _ _
  have enough : (ModelFilesReader.linesOf fs paths).length < readFuel fs paths := by
    refine Nat.lt_succ_of_le ?_
    rw [ModelFilesReader.linesOf, List.length_flatMap]
    refine List.sum_le_sum fun path _ => ?_
    cases fs path with
    | none => exact Nat.le_refl _
    | some text => exact nonEmptyLines_length_le text
  obtain ⟨blocks, run, pairs⟩ := @readBlocks_spec V _ strtod before fs _ _ valid 0
    (lines ▸ Nat.lt_of_le_of_lt fewer enough)
  refine ⟨⟨paths, blocks⟩, ?_, rfl, pairs⟩
  rw [readModel, run]
  rfl

/-- The pairs that `reload` hands to `_insert` are, in file and line order, the pairs that
the non-empty lines begin with, exactly when every non-empty line begins with a pair.  Of
files that are too many for an `int`, the ones that are not reached must have no pairs. -/
theorem reload_pairs_iff (strtod : Text → Conversion V) (before : Nat → Int64 × V)
    (fs : String → Option Text) (paths : List String) :
    ∃ call, readModel strtod before fs paths = .ok call ∧ call.paths = paths ∧
      (paths.length < 2 ^ 31 →
        (call.model = (ModelFilesReader.linesOf fs paths).filterMap (parsed strtod) ↔
          ∀ line ∈ ModelFilesReader.linesOf fs paths, (parsed strtod line).isSome = true)) ∧
      ((∀ line ∈ ModelFilesReader.linesOf fs (ModelFilesReader.reached paths),
          (parsed strtod line).isSome = true) →
        (∀ line ∈ ModelFilesReader.linesOf fs (ModelFilesReader.missed paths),
          parsed strtod line = none) →
        call.model = (ModelFilesReader.linesOf fs paths).filterMap (parsed strtod)) := by
  obtain ⟨call, run, paths_eq, model⟩ := @readModel_spec V _ strtod before fs paths
  refine ⟨call, run, paths_eq, fun few => ?_, fun pairs no_pairs => ?_⟩
  · rw [model, ModelFilesReader.reached_all few]
    exact readKvs_eq_iff 0 _
  · rw [model, ModelFilesReader.linesOf_reached fs paths, List.filterMap_append,
      List.filterMap_eq_nil_iff.mpr no_pairs, List.append_nil]
    exact (readKvs_eq_iff 0 _).mpr pairs

/-- A file with one pair, behind a file that cannot be opened. -/
theorem reload_pairs_one_pair :
    ∃ call, readModel (fun field => if field = "3".toList then .whole 3 else .notNumeral)
        (fun _ => (5, 5)) (fun path => if path = "b" then some " 7 3\n\n".toList else none)
        ["a", "b"] = .ok call ∧
      call.paths = ["a", "b"] ∧ call.model = [⟨7, (3 : Int)⟩] := by
  obtain ⟨call, run, paths, pairs, _⟩ := reload_pairs_iff
    (fun field => if field = "3".toList then .whole (3 : Int) else .notNumeral) (fun _ => (5, 5))
    (fun path => if path = "b" then some " 7 3\n\n".toList else none) ["a", "b"]
  exact ⟨call, run, paths, ((pairs (by decide)).mpr (by decide)).trans rfl⟩

/-- A file with one line, which begins with no number: the key is set to zero, and the value
is what the variable happened to hold. -/
theorem reload_pairs_no_number :
    ∃ call, readModel (fun _ => .notNumeral) (fun _ => (5, (9 : Int))) (fun _ => some "key 3\n".toList)
        ["a"] = .ok call ∧
      call.model = [⟨0, 9⟩] ∧
      call.model ≠ (ModelFilesReader.linesOf (fun _ => some "key 3\n".toList) ["a"]).filterMap
        (parsed fun _ => .notNumeral) := by
  refine ⟨⟨["a"], [[⟨0, 9⟩]]⟩, by rfl, rfl, ?_⟩
  decide

end CppProject.CannonProxy
