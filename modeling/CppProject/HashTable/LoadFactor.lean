import CppProject.HashTable.Chained

/-!
# The load factor of the chained table

The bucket array is a power of two, it has at least as many buckets as there are entries, and
behind `endLoading` no more than four times as many.  `_rehash` sets the mask, the nodes and
the size one after the other; they belong together again when it returns.
-/

namespace CppProject.HashTable.Chained

open Library Library.Checked Library.Chains

variable {K V : Type} {hash : K → Nat} {t next : ImmutableHashTable K V}

/-- A bucket array that `new` can allocate: its pointers take less than `PTRDIFF_MAX` bytes. -/
def Allocatable (buckets : Nat) : Prop := buckets * 8 < 2 ^ 63

/-- The states that a table goes through, as long as its bucket arrays can be allocated. -/
inductive Reachable [DecidableEq K] (hash : K → Nat) : ImmutableHashTable K V → Prop where
  | create (size : Nat) (allocated : Allocatable (nextPower size)) : Reachable hash (create K V size)
  | step {t next : ImmutableHashTable K V} {operation : Operation K V} {answer : Answer K V}
      (reachable : Reachable hash t) (go : step hash t operation = .ok (answer, next))
      (allocated : Allocatable (bucketCount next)) : Reachable hash next

structure LoadFactor (hash : K → Nat) (t : ImmutableHashTable K V) : Prop where
  power : ∃ k, bucketCount t = 2 ^ k
  least : 16 ≤ bucketCount t
  mask : t.sizeMask = bucketCount t - 1
  array : t.buckets.length = bucketCount t
  filed : ∀ i chain, t.buckets[i]? = some chain → ∀ entry ∈ chain, hash entry.1 &&& t.sizeMask = i
  entries : entryCount t ≤ bucketCount t

/-! ## Sizes -/

/-- The size and the number of entries. -/
structure Sized (t : ImmutableHashTable K V) : Prop where
  power : ∃ k, t.size = 2 ^ k
  least : 16 ≤ t.size
  entries : t.used ≤ t.size

theorem longMax_of_allocatable {size : Nat} (allocated : Allocatable (nextPower size)) :
    size < longMax := by
  by_contra large
  unfold Allocatable nextPower at allocated
  rw [if_pos (Nat.not_lt.mp large)] at allocated
  exact absurd allocated (by decide)

theorem sized_create {size : Nat} (allocated : Allocatable (nextPower size)) :
    Sized (create K V size) :=
  ⟨nextPower_eq_pow (longMax_of_allocatable allocated), initialSize_le_nextPower size, Nat.zero_le _⟩

/-- Whether it rehashes or not, a table has the rounded size behind `_rehash`. -/
theorem rehash_size {size : Nat} (run : rehash hash t size = .ok next) :
    next.size = nextPower size ∧ next.used = t.used := by
  unfold rehash at run
  split at run
  next same =>
    cases run
    exact ⟨same.symm, rfl⟩
  next =>
    obtain ⟨buckets, _, rebuilt⟩ := bind_eq_ok.mp run
    cases rebuilt
    exact ⟨rfl, rfl⟩

/-- There is a free place behind `_expandIfNeeded`. -/
theorem expand_sized (sized : Sized t) (allocated : Allocatable t.size)
    (run : expandIfNeeded hash t = .ok next) : Sized next ∧ next.used = t.used ∧ t.used < next.size := by
  obtain ⟨power, least, entries⟩ := sized
  unfold expandIfNeeded at run
  split at run
  next full =>
    obtain ⟨size, used⟩ := rehash_size run
    have small : t.used * 2 < longMax := by
      unfold Allocatable at allocated
      unfold longMax
      omega
    have grown := le_nextPower (Nat.le_of_lt small)
    refine ⟨⟨?_, ?_, ?_⟩, used, ?_⟩
    · rw [size]
      exact nextPower_eq_pow small
    · rw [size]
      exact initialSize_le_nextPower _
    · omega
    · omega
  next free =>
    cases run
    exact ⟨⟨power, least, entries⟩, rfl, Nat.not_le.mp free⟩

/-- Behind `_shrinkIfNeeded` a quarter of the buckets is used, or there are sixteen. -/
theorem shrink_sized (sized : Sized t) (allocated : Allocatable t.size)
    (run : shrinkIfNeeded hash t = .ok next) :
    Sized next ∧ next.size ≤ t.size ∧ next.size ≤ max 16 (4 * next.used) := by
  obtain ⟨power, least, entries⟩ := sized
  unfold shrinkIfNeeded at run
  split at run
  next sparse =>
    obtain ⟨size, used⟩ := rehash_size run
    have small : t.used * 2 < longMax := by
      unfold Allocatable at allocated
      unfold longMax
      omega
    have grown := le_nextPower (Nat.le_of_lt small)
    have bounded := nextPower_le small
    refine ⟨⟨?_, ?_, ?_⟩, ?_, ?_⟩
    · rw [size]
      exact nextPower_eq_pow small
    · rw [size]
      exact initialSize_le_nextPower _
    · omega
    · obtain ⟨k, table⟩ := power
      rw [size, table]
      exact nextPower_le_pow small (table ▸ least) (table ▸ Nat.le_of_lt sparse)
    · omega
  next dense =>
    cases run
    exact ⟨⟨power, least, entries⟩, Nat.le_refl _, by omega⟩

theorem reset_sized (sized : Sized t) (run : reset t = .ok next) : Sized next := by
  unfold reset at run
  split at run
  · obtain ⟨buckets, _, emptied⟩ := bind_eq_ok.mp run
    cases emptied
    exact ⟨sized.power, sized.least, Nat.zero_le _⟩
  · cases run
    exact sized

variable [DecidableEq K]

theorem insert_sized (sized : Sized t) (allocated : Allocatable t.size) {key : K} {val : V}
    {found : Option (K × V)} (run : insert hash t key val = .ok (found, next)) : Sized next := by
  unfold insert at run
  split at run
  · obtain ⟨grown, expand, rest⟩ := bind_eq_ok.mp run
    obtain ⟨⟨power, least, entries⟩, used, free⟩ := expand_sized sized allocated expand
    obtain ⟨chain, _, rest⟩ := bind_eq_ok.mp rest
    split at rest
    · cases rest
      exact ⟨power, least, entries⟩
    · obtain ⟨buckets, _, linked⟩ := bind_eq_ok.mp rest
      cases linked
      exact ⟨power, least, by simp only [used]; exact free⟩
  · cases run
    exact sized

theorem step_sized (sized : Sized t) (allocated : Allocatable t.size) {operation : Operation K V}
    {answer : Answer K V} (run : step hash t operation = .ok (answer, next)) : Sized next := by
  cases operation with
  | beginLoading =>
      obtain ⟨loading, begun, done⟩ := bind_eq_ok.mp run
      cases done
      obtain ⟨emptied, reset, flagged⟩ := bind_eq_ok.mp begun
      cases flagged
      exact ⟨(reset_sized sized reset).power, (reset_sized sized reset).least,
        (reset_sized sized reset).entries⟩
  | insert key val =>
      obtain ⟨⟨found, after⟩, inserted, done⟩ := bind_eq_ok.mp run
      cases done
      exact insert_sized sized allocated inserted
  | endLoading =>
      obtain ⟨ended, finish, done⟩ := bind_eq_ok.mp run
      cases done
      obtain ⟨shrunk, shrink, flagged⟩ := bind_eq_ok.mp finish
      cases flagged
      obtain ⟨⟨power, least, entries⟩, _⟩ := shrink_sized sized allocated shrink
      exact ⟨power, least, entries⟩
  | find key =>
      obtain ⟨found, _, done⟩ := bind_eq_ok.mp run
      cases done
      exact sized
  | entryCount =>
      cases run
      exact sized

/-! ## Reachable tables -/

theorem Reachable.allocated (reachable : Reachable hash t) : Allocatable t.size := by
  cases reachable with
  | create size allocated => exact allocated
  | step reachable go allocated => exact allocated

theorem Reachable.sized (reachable : Reachable hash t) : Sized t := by
  induction reachable with
  | create size allocated => exact sized_create allocated
  | step reachable go allocated ih => exact step_sized ih reachable.allocated go

theorem Reachable.represents (reachable : Reachable hash t) : ∃ s, Represents hash t s := by
  induction reachable with
  | create size allocated => exact ⟨_, represents_create hash size⟩
  | step reachable go allocated ih =>
      obtain ⟨s, represents⟩ := ih
      obtain ⟨next, run, after⟩ := represents.step _
      obtain ⟨_, rfl⟩ := Prod.mk.inj (Except.ok.inj (run.symm.trans go))
      exact ⟨_, after⟩

theorem Reachable.loadFactor (reachable : Reachable hash t) : LoadFactor hash t := by
  obtain ⟨s, size_eq, under, perm, used_eq, loading_eq⟩ := reachable.represents
  obtain ⟨power, least, entries⟩ := reachable.sized
  exact ⟨power, least, (Nat.sub_eq_of_eq_add size_eq).symm, under.room.trans size_eq.symm,
    under.filed, entries⟩

/-- `endLoading` returns, and leaves at most sixteen buckets or four for an entry. -/
theorem Reachable.ended (reachable : Reachable hash t) :
    ∃ next, Chained.step hash t .endLoading = .ok (.done, next) ∧ Reachable hash next ∧
      bucketCount next ≤ max 16 (4 * entryCount next) := by
  obtain ⟨s, represents⟩ := reachable.represents
  obtain ⟨shrunk, shrink, _⟩ := represents.shrinkIfNeeded
  obtain ⟨_, smaller, dense⟩ := shrink_sized reachable.sized reachable.allocated shrink
  have go : Chained.step hash t .endLoading = .ok (.done, { shrunk with loading := false }) := by
    simp only [Chained.step, Chained.endLoading, shrink, ok_bind]
  have allocated : Allocatable shrunk.size := by
    have before := reachable.allocated
    unfold Allocatable at before ⊢
    omega
  exact ⟨_, go, reachable.step go allocated, dense⟩

/-- In every reachable state the size is a power of two that holds the entries, and the mask and
the buckets belong to it; `endLoading` leaves at most sixteen buckets or four for an entry. -/
theorem load_factor (reachable : Reachable hash t) :
    LoadFactor hash t ∧ ∃ next, step hash t .endLoading = .ok (.done, next) ∧
      Reachable hash next ∧ bucketCount next ≤ max 16 (4 * entryCount next) :=
  ⟨reachable.loadFactor, reachable.ended⟩

/-- A table for twenty entries that begins loading and takes one. -/
theorem load_factor_loading : ∃ t : ImmutableHashTable Nat Nat,
    run id (create Nat Nat 20) [.beginLoading, .insert 5 7] = .ok ([.done, .entry (some (5, 7))], t) ∧
      LoadFactor id t ∧ ∃ next, step id t .endLoading = .ok (.done, next) ∧
        Reachable id next ∧ bucketCount next ≤ max 16 (4 * entryCount next) := by
  have allocated : Allocatable 32 := by
    unfold Allocatable
    decide
  have created : Reachable id (create Nat Nat 20) := .create 20 allocated
  have began : step id (create Nat Nat 20) .beginLoading =
      .ok (.done, { create Nat Nat 20 with loading := true }) := rfl
  have filed : ∃ t, step id { create Nat Nat 20 with loading := true } (.insert 5 7) =
      .ok (.entry (some (5, 7)), t) ∧ bucketCount t = 32 := ⟨_, rfl, rfl⟩
  obtain ⟨t, inserted, buckets⟩ := filed
  have begun := created.step began allocated
  refine ⟨t, ?_, load_factor (begun.step inserted (buckets ▸ allocated))⟩
  simp only [run, began, inserted, ok_bind]

end CppProject.HashTable.Chained
