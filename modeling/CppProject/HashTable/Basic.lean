import CppProject.Library.Checked
import CppProject.Library.Powers

/-!
# Sizes of the hash tables

`_nextPower` is the same in both hash table headers.
-/

namespace CppProject.HashTable

open Library

/-- `HASH_TABLE_INITIAL_SIZE` -/
def initialSize : Nat := 16

/-- `LONG_MAX` -/
def longMax : Nat := 2 ^ 63 - 1

def nextPower (size : Nat) : Nat :=
  if longMax ≤ size then longMax else growPower size size initialSize

theorem initialSize_le_nextPower (size : Nat) : initialSize ≤ nextPower size := by
  unfold nextPower
  split
  · decide
  · exact Powers.growPower_le_result _ _ _

/-- The rounding loop of `_nextPower` leaves before its fuel is spent. -/
theorem le_nextPower {size : Nat} (fits : size ≤ longMax) : size ≤ nextPower size := by
  unfold nextPower
  split
  · exact fits
  · exact Powers.le_growPower (by decide) (Nat.le_add_right _ _)

theorem nextPower_pos (size : Nat) : 0 < nextPower size :=
  Nat.lt_of_lt_of_le (by decide) (initialSize_le_nextPower size)

/-- Rounding gives a power of two, unless the size is `LONG_MAX` or more. -/
theorem nextPower_eq_pow {size : Nat} (small : size < longMax) : ∃ k, nextPower size = 2 ^ k := by
  obtain ⟨k, grown⟩ := Powers.growPower_eq size size initialSize
  exact ⟨4 + k, by rw [nextPower, if_neg (Nat.not_le.mpr small), grown, Nat.pow_add]; rfl⟩

theorem nextPower_le {size : Nat} (small : size < longMax) : nextPower size ≤ max 16 (2 * size) := by
  rw [nextPower, if_neg (Nat.not_le.mpr small)]
  exact Powers.growPower_le _ _ _

/-- Rounding stays below a table size that holds the size asked for. -/
theorem nextPower_le_pow {size k : Nat} (small : size < longMax) (least : 16 ≤ 2 ^ k)
    (holds : size ≤ 2 ^ k) : nextPower size ≤ 2 ^ k := by
  have four : 4 ≤ k := (Nat.pow_le_pow_iff_right (by decide : 1 < 2)).mp (show 2 ^ 4 ≤ 2 ^ k from least)
  have table : 2 ^ k = initialSize * 2 ^ (k - 4) := by
    rw [show initialSize = 2 ^ 4 from rfl, ← Nat.pow_add, Nat.add_sub_cancel' four]
  rw [nextPower, if_neg (Nat.not_le.mpr small), table]
  exact Powers.growPower_le_doubled _ _ (table ▸ holds)

end CppProject.HashTable
