import Mathlib.Algebra.BigOperators.Group.Finset.Basic
import Mathlib.Algebra.BigOperators.Ring.Nat

/-!
# Exclusive prefix sums

The loop that turns the sizes of consecutive ranges into their starts, on natural
numbers and on words.
-/

namespace CppProject.Library

/-- Exclusive prefix sums: every entry becomes the sum of the entries before it. -/
def prefixSums : Nat → List Nat → List Nat
  | _, [] => []
  | currentIndex, index :: rest => currentIndex :: prefixSums (currentIndex + index) rest

theorem prefixSums_length (current : Nat) (counts : List Nat) :
    (prefixSums current counts).length = counts.length := by
  induction counts generalizing current with
  | nil => rfl
  | cons count rest ih => simp [prefixSums, ih]

theorem getElem?_prefixSums (current : Nat) (counts : List Nat) {h : Nat}
    (inside : h < counts.length) :
    (prefixSums current counts)[h]? = some (current + ∑ l ∈ Finset.range h, counts.getD l 0) := by
  induction counts generalizing current h with
  | nil => exact absurd inside (Nat.not_lt_zero _)
  | cons count rest ih =>
      cases h with
      | zero => simp [prefixSums]
      | succ h =>
          have tail := ih (current + count) (Nat.lt_of_succ_lt_succ inside)
          simp only [prefixSums, List.getElem?_cons_succ, tail, Finset.sum_range_succ',
            List.getD_cons_succ, List.getD_cons_zero]
          congr 1
          omega

/-- The same loop on words: every sum is reduced modulo `bound`. -/
def prefixSumsMod (bound : Nat) : Nat → List Nat → List Nat
  | _, [] => []
  | currentIndex, index :: rest =>
      currentIndex :: prefixSumsMod bound ((currentIndex + index) % bound) rest

/-- Reducing at every step is reducing at the end. -/
theorem prefixSumsMod_eq_map (bound current : Nat) (counts : List Nat) :
    prefixSumsMod bound (current % bound) counts = (prefixSums current counts).map (· % bound) := by
  induction counts generalizing current with
  | nil => rfl
  | cons count rest ih =>
      have step : (current % bound + count) % bound = (current + count) % bound := Nat.mod_add_mod _ _ _
      rw [prefixSumsMod, step, ih, prefixSums, List.map_cons]

theorem prefixSumsMod_length (bound current : Nat) (counts : List Nat) :
    (prefixSumsMod bound current counts).length = counts.length := by
  induction counts generalizing current with
  | nil => rfl
  | cons count rest ih => rw [prefixSumsMod, List.length_cons, ih, List.length_cons]

/-- The sum may be taken over any counts that are the same modulo `bound`. -/
theorem getElem?_prefixSumsMod (bound : Nat) (counts : List Nat) {sizes : Nat → Nat} {h : Nat}
    (inside : h < counts.length)
    (same : ∀ l, l < h → counts.getD l 0 % bound = sizes l % bound) :
    (prefixSumsMod bound 0 counts)[h]? = some ((∑ l ∈ Finset.range h, sizes l) % bound) := by
  have each : ∀ l ∈ Finset.range h, counts.getD l 0 % bound = sizes l % bound :=
    fun l lower => same l (Finset.mem_range.mp lower)
  have reduced := prefixSumsMod_eq_map bound 0 counts
  rw [Nat.zero_mod] at reduced
  rw [reduced, List.getElem?_map, getElem?_prefixSums 0 counts inside, Nat.zero_add,
    Option.map_some, Finset.sum_nat_mod, Finset.sum_congr rfl each, ← Finset.sum_nat_mod]

end CppProject.Library
