import CppProject.LrSgd.Source

/-!
# The batches of an epoch

The loop over the batches advances by the size of a batch.  With a size from 1 up to the number
of the instances it does its work on consecutive pieces of the indexes; with size 0 it stays where
it is.  The guard at the start of `train` compares an unsigned size with 0, and lets size 0 pass.
-/

namespace CppProject.LrSgd

open Library Library.Checked

variable {dataIdx : List Nat} {size : Nat} {σ : Type}

theorem between_of_le {start stop : Nat} (ordered : start ≤ stop) (inside : stop ≤ dataIdx.length) :
    between dataIdx start stop = .ok (slice dataIdx start (stop - start)) := by
  rw [between, if_pos ordered, readBlock_of_le (by omega)]

theorem addSize_eq {a b : Nat} (small : a + b < 2 ^ 64) : addSize a b = a + b :=
  Nat.mod_eq_of_lt small

/-- A batch is cut off at the end of the indexes. -/
theorem slice_min (i : Nat) :
    slice dataIdx i (min (i + size) dataIdx.length - i) = (dataIdx.drop i).take size := by
  rcases Nat.le_total (i + size) dataIdx.length with whole | short
  · rw [Nat.min_eq_left whole, Nat.add_sub_cancel_left, slice]
  · rw [Nat.min_eq_right short, slice, List.take_of_length_le (by rw [List.length_drop]),
      List.take_of_length_le (by rw [List.length_drop]; omega)]

/-- One round does the work on a batch and goes on behind it. -/
theorem batchRound_of_lt {i : Nat} (work : σ → List Nat → Except Fault σ) (s : σ)
    (inside : i < dataIdx.length) (small : i + size < 2 ^ 64) :
    batchRound size dataIdx work (i, s) =
      (work s ((dataIdx.drop i).take size)).map fun s => some (i + size, s) := by
  have ordered : i ≤ min (i + size) dataIdx.length := Nat.le_min.mpr ⟨Nat.le_add_right i size, by omega⟩
  rw [batchRound, if_pos inside, addSize_eq small, between_of_le ordered (Nat.min_le_right _ _),
    ok_bind, slice_min]
  cases work s ((dataIdx.drop i).take size) with
  | error fault => rfl
  | ok next => rfl

/-- The batches of one loop: none is empty or too long, and they are the indexes from `i` on. -/
structure BatchesFrom (size : Nat) (dataIdx : List Nat) (i : Nat) (batches : List (List Nat)) : Prop where
  filled : ∀ batch ∈ batches, batch ≠ [] ∧ batch.length ≤ size
  flatten : batches.flatten = dataIdx.drop i
  first : i < dataIdx.length → batches.head? = some ((dataIdx.drop i).take size)
  run : ∀ {σ : Type} (work : σ → List Nat → Except Fault σ) (s : σ) (rounds : Nat),
    dataIdx.length - i < rounds →
      (do let last ← whileLoop (batchRound size dataIdx work) rounds (i, s); .ok last.2) =
        batches.foldlM work s

theorem exists_batches (positive : 0 < size) (small : size + dataIdx.length < 2 ^ 64) (i : Nat) :
    ∃ batches, BatchesFrom size dataIdx i batches := by
  induction left : dataIdx.length - i using Nat.strong_induction_on generalizing i with
  | _ n ih =>
      rcases Nat.lt_or_ge i dataIdx.length with inside | behind
      · obtain ⟨batches, rest⟩ := ih (dataIdx.length - (i + size)) (by omega) (i + size) rfl
        have length : ((dataIdx.drop i).take size).length = min size (dataIdx.length - i) := by
          rw [List.length_take, List.length_drop]
        refine ⟨(dataIdx.drop i).take size :: batches, ⟨?_, ?_, fun _ => rfl, ?_⟩⟩
        · refine List.forall_mem_cons.mpr ⟨⟨List.ne_nil_of_length_pos ?_, ?_⟩, rest.filled⟩ <;> omega
        · rw [List.flatten_cons, rest.flatten, ← List.drop_drop, List.take_append_drop]
        · intro σ work s rounds enough
          obtain ⟨rounds, rfl⟩ := Nat.exists_eq_succ_of_ne_zero (Nat.ne_zero_of_lt enough)
          rw [whileLoop, batchRound_of_lt work s inside (by omega), List.foldlM_cons]
          cases work s ((dataIdx.drop i).take size) with
          | error fault => rfl
          | ok next => exact rest.run work next rounds (by omega)
      · refine ⟨[], ⟨List.forall_mem_nil _, ?_,
          fun inside => absurd behind (Nat.not_le.mpr inside), ?_⟩⟩
        · rw [List.drop_eq_nil_of_le behind]
          rfl
        · intro σ work s rounds enough
          obtain ⟨rounds, rfl⟩ := Nat.exists_eq_succ_of_ne_zero (Nat.ne_zero_of_lt enough)
          rw [whileLoop, batchRound, if_neg (Nat.not_lt.mpr behind)]
          rfl

/-- With size 0 the loop does not advance: as long as it works on empty batches without a fault, it
uses up every bound on its rounds. -/
theorem forBatches_zero (rounds : Nat) (nonempty : dataIdx ≠ []) {work : σ → List Nat → Except Fault σ}
    (idle : ∀ s, ∃ s', work s [] = .ok s') (s : σ) :
    forBatches rounds 0 dataIdx work s = .error .outOfFuel := by
  have inside : 0 < dataIdx.length := List.length_pos_of_ne_nil nonempty
  unfold forBatches
  induction rounds generalizing s with
  | zero => rfl
  | succ rounds ih =>
      obtain ⟨s', run⟩ := idle s
      rw [whileLoop, batchRound_of_lt _ s inside (by decide), List.take_zero, run]
      exact ih s'

theorem normalizedSize_zero (n : Nat) : normalizedSize 0 n = 0 :=
  if_neg (by omega)

theorem normalizedSize_bounds {n : Nat} (some_size : size ≠ 0) (some_data : 0 < n) :
    0 < normalizedSize size n ∧ normalizedSize size n ≤ n := by
  unfold normalizedSize
  split <;> omega

/-- Each epoch over `n` instances ends, its batches are not empty and have at most `size` elements
each, and together they are the indexes of the epoch, so every instance is used once. -/
def EpochsPartitioned (size n : Nat) : Prop :=
  ∀ dataIdx : List Nat, dataIdx.Perm (List.range n) → ∃ batches : List (List Nat),
    (∀ {σ : Type} (work : σ → List Nat → Except Fault σ) (s : σ) (rounds : Nat), n < rounds →
      forBatches rounds size dataIdx work s = batches.foldlM work s) ∧
    (∀ batch ∈ batches, batch ≠ [] ∧ batch.length ≤ size) ∧
    batches.flatten = dataIdx ∧ ∀ index < n, batches.flatten.count index = 1

theorem foldlM_unit (batches : List (List Nat)) :
    batches.foldlM (fun (s : Unit) _ => (.ok s : Except Fault Unit)) () = .ok () := by
  induction batches with
  | nil => rfl
  | cons batch batches ih => exact ih

/-- With size 0 no epoch ends. -/
theorem not_partitioned_zero {n : Nat} (some_data : 0 < n) : ¬EpochsPartitioned 0 n := by
  intro partitioned
  obtain ⟨batches, run, _⟩ := partitioned (List.range n) (List.Perm.refl _)
  have some_index : List.range n ≠ [] := fun empty => by
    rw [List.range_eq_nil] at empty
    omega
  have endless := @forBatches_zero _ _ (n + 1) some_index (fun _ _ => .ok ()) (fun _ => ⟨(), rfl⟩) ()
  rw [run _ () (n + 1) (Nat.lt_succ_self n), foldlM_unit] at endless
  cases endless

/-- The batches are as they should be for every size but 0. -/
theorem epochs_partitioned_iff {n : Nat} (some_data : 0 < n) (fits : n < 2 ^ 63) (miniBatchSize : Nat) :
    EpochsPartitioned (normalizedSize miniBatchSize n) n ↔ miniBatchSize ≠ 0 := by
  constructor
  · rintro partitioned rfl
    rw [normalizedSize_zero] at partitioned
    exact not_partitioned_zero some_data partitioned
  · intro some_size dataIdx perm
    obtain ⟨positive, bounded⟩ := normalizedSize_bounds some_size some_data
    have length : dataIdx.length = n := perm.length_eq.trans List.length_range
    obtain ⟨batches, all⟩ := @exists_batches dataIdx _ positive (by omega) 0
    have flatten : batches.flatten = dataIdx := all.flatten.trans List.drop_zero
    refine ⟨batches, fun work s rounds enough => all.run work s rounds (by omega), all.filled, flatten,
      fun index inside => ?_⟩
    rw [flatten, perm.count_eq]
    exact List.count_eq_one_of_mem List.nodup_range (List.mem_range.mpr inside)

theorem epochs_partitioned_two : EpochsPartitioned (normalizedSize 2 5) 5 :=
  (epochs_partitioned_iff (by decide) (by decide) 2).mpr (by decide)

/-- With size 0 the epoch over a single instance does not end. -/
theorem epochs_not_partitioned_zero : ¬EpochsPartitioned (normalizedSize 0 1) 1 := by
  rw [normalizedSize_zero]
  exact not_partitioned_zero (by decide)

end CppProject.LrSgd
