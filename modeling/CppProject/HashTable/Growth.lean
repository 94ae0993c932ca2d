import CppProject.HashTable.LoadFactor

/-!
# The cost of growing

`_rehash` links every entry anew, when a table is full and when its loading ends.  Over a
whole run this comes to three links for an entry that was accepted, at most: the entries since
the last growth pay for the next one, and each entry for the shrinking at the end.
-/

namespace CppProject.HashTable.Chained

open Library Library.Checked Library.Chains
open scoped List

variable {K V : Type}

/-! ## Counting links -/

/-- The entries that `_rehash` links anew: those of all buckets, unless the size stays. -/
def rehashLinks (t : ImmutableHashTable K V) (size : Nat) : Nat :=
  if nextPower size = t.size then 0 else (t.buckets.map List.length).sum

/-- The entries that a call links anew. -/
def links (t : ImmutableHashTable K V) : Operation K V → Nat
  | .insert _ _ => if t.loading ∧ t.size ≤ t.used then rehashLinks t (t.used * 2) else 0
  | .endLoading => if t.used * 2 < t.size then rehashLinks t (t.used * 2) else 0
  | _ => 0

/-- The entries that a call adds. -/
def additions : Operation K V → Answer K V → Nat
  | .insert _ _, .entry (some _) => 1
  | _, _ => 0

/-- The states that a table goes through, with the links and the additions of the calls so far, as
long as its bucket arrays can be allocated. -/
inductive Counted [DecidableEq K] (hash : K → Nat) : ImmutableHashTable K V → Nat → Nat → Prop where
  | create (size : Nat) (allocated : Allocatable (nextPower size)) : Counted hash (create K V size) 0 0
  | step {t next : ImmutableHashTable K V} {linked added : Nat} {operation : Operation K V}
      {answer : Answer K V} (counted : Counted hash t linked added)
      (go : step hash t operation = .ok (answer, next)) (allocated : Allocatable (bucketCount next)) :
      Counted hash next (linked + links t operation) (added + additions operation answer)

/-- Three links are paid for every addition.  The entries of a table that is loading have each one
left for the end, and those in the second half of the buckets two for the next growth. -/
structure Paid (t : ImmutableHashTable K V) (linked added : Nat) : Prop where
  settled : t.loading = false → t.used = 0 ∨ (t.used * 2 < t.size → nextPower (t.used * 2) = t.size)
  tally : linked + (if t.loading then t.used else 0) + (2 * t.used - t.size) ≤ 3 * added

variable {hash : K → Nat} {t next : ImmutableHashTable K V} {linked added : Nat}

theorem paid_create (size : Nat) : Paid (create K V size) 0 0 := by
  refine ⟨fun _ => Or.inl rfl, ?_⟩
  simp [create]

theorem rehash_loading {size : Nat} (run : rehash hash t size = .ok next) : next.loading = t.loading := by
  unfold rehash at run
  split at run
  next => cases run; rfl
  next =>
    obtain ⟨buckets, _, rebuilt⟩ := bind_eq_ok.mp run
    cases rebuilt
    rfl

theorem reset_used (run : reset t = .ok next) : next.used = 0 := by
  unfold reset at run
  split at run
  next =>
    obtain ⟨buckets, _, emptied⟩ := bind_eq_ok.mp run
    cases emptied
    rfl
  next unused =>
    cases run
    exact Nat.eq_zero_of_not_pos unused

/-- Emptying a table costs no link. -/
theorem Paid.beginLoading (paid : Paid t linked added) (run : beginLoading t = .ok next) :
    Paid next linked added := by
  have tally := paid.tally
  obtain ⟨emptied, cleared, begun⟩ := bind_eq_ok.mp run
  cases begun
  have unused := reset_used cleared
  refine ⟨fun stopped => Bool.noConfusion stopped, ?_⟩
  simp only [unused, if_true]
  omega

variable [DecidableEq K]

theorem Counted.reachable (counted : Counted hash t linked added) : Reachable hash t := by
  induction counted with
  | create size allocated => exact .create size allocated
  | step _ go allocated ih => exact ih.step go allocated

theorem Reachable.sum_length (reachable : Reachable hash t) : (t.buckets.map List.length).sum = t.used := by
  obtain ⟨s, represents⟩ := reachable.represents
  rw [← List.length_flatten, represents.perm.length_eq, represents.used_eq]

theorem Reachable.rehashLinks_le (reachable : Reachable hash t) (size : Nat) : rehashLinks t size ≤ t.used := by
  unfold rehashLinks
  split
  · exact Nat.zero_le _
  · exact Nat.le_of_eq reachable.sum_length

/-- Doubling the entries does not exceed what can be allocated. -/
theorem Reachable.double_lt (reachable : Reachable hash t) : t.used * 2 < longMax := by
  have entries := reachable.sized.entries
  have allocated := reachable.allocated
  unfold Allocatable at allocated
  unfold longMax
  omega

/-! ## What is paid for -/

/-- Growing takes what the entries in the second half have left. -/
theorem Paid.expand (paid : Paid t linked added) (reachable : Reachable hash t)
    (loading : t.loading = true) (run : expandIfNeeded hash t = .ok next) (key : K) (val : V) :
    next.loading = true ∧
      linked + links t (.insert key val) + next.used + (2 * next.used - next.size) ≤ 3 * added := by
  have tally := paid.tally
  have entries := reachable.sized.entries
  have spent := reachable.rehashLinks_le (t.used * 2)
  rw [loading, if_pos rfl] at tally
  unfold expandIfNeeded at run
  rw [links]
  split at run
  next full =>
    obtain ⟨size, used⟩ := rehash_size run
    have grown := le_nextPower (Nat.le_of_lt reachable.double_lt)
    rw [if_pos ⟨loading, full⟩]
    exact ⟨(rehash_loading run).trans loading, by omega⟩
  next free =>
    cases run
    rw [if_neg (fun both => free both.2)]
    exact ⟨loading, by omega⟩

theorem Paid.insert (paid : Paid t linked added) (reachable : Reachable hash t) {key : K} {val : V}
    {found : Option (K × V)} (run : insert hash t key val = .ok (found, next)) :
    Paid next (linked + links t (.insert key val)) (added + additions (.insert key val) (.entry found)) := by
  unfold Chained.insert at run
  split at run
  next loading =>
    obtain ⟨grown, expand, rest⟩ := bind_eq_ok.mp run
    obtain ⟨still, tally⟩ := paid.expand reachable loading expand key val
    obtain ⟨chain, _, rest⟩ := bind_eq_ok.mp rest
    split at rest
    · cases rest
      refine ⟨fun stopped => Bool.noConfusion (still.symm.trans stopped), ?_⟩
      rw [still, if_pos rfl]
      exact tally
    · obtain ⟨buckets, _, added_entry⟩ := bind_eq_ok.mp rest
      cases added_entry
      refine ⟨fun stopped => Bool.noConfusion (still.symm.trans stopped), ?_⟩
      simp only [still, if_true, additions]
      omega
  next stopped =>
    cases run
    have nothing : links t (.insert key val) = 0 := if_neg (fun both => stopped both.1)
    rw [nothing]
    exact paid

/-- Shrinking takes what each entry has left. -/
theorem Paid.endLoading (paid : Paid t linked added) (reachable : Reachable hash t)
    (run : endLoading hash t = .ok next) : Paid next (linked + links t (.endLoading : Operation K V)) added := by
  obtain ⟨settled, tally⟩ := paid
  obtain ⟨shrunk, shrink, ended⟩ := bind_eq_ok.mp run
  cases ended
  have spent := reachable.rehashLinks_le (t.used * 2)
  unfold shrinkIfNeeded at shrink
  rw [links]
  split at shrink
  next sparse =>
    obtain ⟨size, used⟩ := rehash_size shrink
    have roomy := le_nextPower (Nat.le_of_lt reachable.double_lt)
    refine ⟨fun _ => Or.inr fun _ => by rw [used, size], ?_⟩
    rw [if_pos sparse]
    simp only [Bool.false_eq_true, if_false]
    cases loading : t.loading with
    | true =>
        rw [loading, if_pos rfl] at tally
        omega
    | false =>
        -- a table that is not loading has no entries or the size that it would get
        have free : rehashLinks t (t.used * 2) = 0 := by
          rcases settled loading with unused | same
          · omega
          · exact if_pos (same sparse)
        rw [loading] at tally
        omega
  next dense =>
    cases shrink
    refine ⟨fun _ => Or.inr fun sparse => absurd sparse dense, ?_⟩
    rw [if_neg dense]
    simp only [Bool.false_eq_true, if_false]
    omega

theorem Paid.step (paid : Paid t linked added) (reachable : Reachable hash t)
    {operation : Operation K V} {answer : Answer K V}
    (run : Chained.step hash t operation = .ok (answer, next)) :
    Paid next (linked + links t operation) (added + additions operation answer) := by
  cases operation with
  | beginLoading =>
      obtain ⟨loading, begun, done⟩ := bind_eq_ok.mp run
      cases done
      exact paid.beginLoading begun
  | insert key val =>
      obtain ⟨⟨found, after⟩, inserted, done⟩ := bind_eq_ok.mp run
      cases done
      exact paid.insert reachable inserted
  | endLoading =>
      obtain ⟨ended, finish, done⟩ := bind_eq_ok.mp run
      cases done
      exact paid.endLoading reachable finish
  | find key =>
      obtain ⟨found, _, done⟩ := bind_eq_ok.mp run
      cases done
      exact paid
  | entryCount =>
      cases run
      exact paid

theorem Counted.paid (counted : Counted hash t linked added) : Paid t linked added := by
  induction counted with
  | create size allocated => exact paid_create size
  | step counted go allocated ih => exact ih.step counted.reachable go

/-- In any order of calls, rehashing has linked three entries for every one that was accepted, at
most: over whole runs an insert takes constantly many links. -/
theorem links_le_additions (counted : Counted hash t linked added) : linked ≤ 3 * added :=
  Nat.le_trans (Nat.le_trans (Nat.le_add_right _ _) (Nat.le_add_right _ _)) counted.paid.tally

/-- A table for twenty entries that takes one and shrinks around it. -/
theorem links_le_additions_shrunk : ∃ t : ImmutableHashTable Nat Nat,
    Counted id t 1 1 ∧ bucketCount t = 16 ∧ 1 ≤ 3 * 1 := by
  have large : Allocatable 32 := by
    unfold Allocatable
    decide
  have least : Allocatable 16 := by
    unfold Allocatable
    decide
  have began : step id (create Nat Nat 20) .beginLoading =
      .ok (.done, { create Nat Nat 20 with loading := true }) := rfl
  obtain ⟨t, filed, size, ended, shrunk, fewer⟩ :
      ∃ t, step id { create Nat Nat 20 with loading := true } (.insert 5 7) =
          .ok (.entry (some (5, 7)), t) ∧ bucketCount t = 32 ∧
        ∃ ended, step id t .endLoading = .ok (.done, ended) ∧ bucketCount ended = 16 ∧ links t .endLoading = 1 :=
    ⟨_, rfl, rfl, _, rfl, rfl, rfl⟩
  have counted : Counted id ended 1 1 := by
    have last := (((Counted.create 20 large).step began large).step filed (size ▸ large)).step shrunk
      (fewer.1 ▸ least)
    rw [fewer.2] at last
    exact last
  exact ⟨ended, counted, fewer.1, links_le_additions counted⟩

end CppProject.HashTable.Chained
