import Mathlib.Algebra.BigOperators.Fin
import Mathlib.Algebra.BigOperators.Group.Finset.Basic
import Mathlib.Algebra.Order.BigOperators.Group.Finset

/-!
# Totals of a family

The sum of a weight over the members of a finite family, when one member at a time
changes.
-/

namespace CppProject.Library.Totals

variable {W M : Type} {n : Nat}

section Monoid

variable [AddCommMonoid M] (weight : W → M) (family : Fin n → W)

def total : M := ∑ i, weight (family i)

/-- A change of one member changes the total by the difference of its weights. -/
theorem total_update (i : Fin n) (member : W) :
    total weight (Function.update family i member) + weight (family i) =
      total weight family + weight member := by
  have others : ∑ j ∈ Finset.univ.erase i, weight (Function.update family i member j) =
      ∑ j ∈ Finset.univ.erase i, weight (family j) :=
    Finset.sum_congr rfl fun j inside => by
      rw [Function.update_of_ne (Finset.ne_of_mem_erase inside)]
  have before := Finset.add_sum_erase Finset.univ (fun j => weight (family j)) (Finset.mem_univ i)
  have behind := Finset.add_sum_erase Finset.univ
    (fun j => weight (Function.update family i member j)) (Finset.mem_univ i)
  rw [total, total, ← before, ← behind, others]
  simp only [Function.update_self]
  rw [add_right_comm, add_right_comm (weight (family i)), add_comm (weight member)]

theorem total_const (member : W) : total weight (fun _ : Fin n => member) = n • weight member := by
  rw [total, Finset.sum_const, Finset.card_univ, Fintype.card_fin]

variable {weight family} in
theorem total_eq_zero (none : ∀ i, weight (family i) = 0) : total weight family = 0 :=
  Finset.sum_eq_zero fun i _ => none i

end Monoid

/-- Where every member weighs at most one more, the total grows by at most one for each. -/
theorem total_le_add {weight : W → Nat} {family other : Fin n → W}
    (each : ∀ i, weight (other i) ≤ weight (family i) + 1) :
    total weight other ≤ total weight family + n := by
  calc total weight other
      ≤ ∑ i : Fin n, (weight (family i) + 1) := Finset.sum_le_sum fun i _ => each i
    _ = total weight family + n := by
      rw [Finset.sum_add_distrib, Finset.sum_const, Finset.card_univ, Fintype.card_fin, smul_eq_mul, mul_one]
      rfl

end CppProject.Library.Totals
