import Mathlib.Algebra.Order.Group.Nat

/-!
# Growing a size by doubling

The rounding loop of hash tables: start at an initial size and double it until
it reaches the size asked for.
-/

namespace CppProject.Library

/-- `while (i < size) i *= 2;` run on fuel. -/
def growPower (size : Nat) : Nat → Nat → Nat
  | 0, i => i
  | fuel + 1, i => if i < size then growPower size fuel (i * 2) else i

namespace Powers

theorem growPower_le_result (size fuel i : Nat) : i ≤ growPower size fuel i := by
  induction fuel generalizing i with
  | zero => exact Nat.le_refl _
  | succ fuel ih =>
      unfold growPower
      split
      · exact Nat.le_trans (by omega) (ih (i * 2))
      · exact Nat.le_refl _

/-- Fuel for the distance to the target is enough: the loop has left. -/
theorem le_growPower {size fuel i : Nat} (positive : 0 < i) (enough : size ≤ fuel + i) :
    size ≤ growPower size fuel i := by
  induction fuel generalizing i with
  | zero =>
      unfold growPower
      omega
  | succ fuel ih =>
      unfold growPower
      split
      · exact ih (by omega) (by omega)
      · omega

/-- The size stays a power of two times the size that it starts from. -/
theorem growPower_eq (size fuel i : Nat) : ∃ k, growPower size fuel i = i * 2 ^ k := by
  induction fuel generalizing i with
  | zero => exact ⟨0, (Nat.mul_one i).symm⟩
  | succ fuel ih =>
      unfold growPower
      split
      · obtain ⟨k, grown⟩ := ih (i * 2)
        exact ⟨k + 1, by rw [grown, Nat.mul_assoc, ← Nat.pow_succ']⟩
      · exact ⟨0, (Nat.mul_one i).symm⟩

/-- The last doubling is the first one that reaches the size asked for. -/
theorem growPower_le (size fuel i : Nat) : growPower size fuel i ≤ max i (2 * size) := by
  induction fuel generalizing i with
  | zero => exact Nat.le_max_left _ _
  | succ fuel ih =>
      unfold growPower
      split
      · have := ih (i * 2)
        omega
      · exact Nat.le_max_left _ _

/-- A doubled initial size that holds the size asked for is not passed. -/
theorem growPower_le_doubled (size fuel : Nat) {i k : Nat} (holds : size ≤ i * 2 ^ k) :
    growPower size fuel i ≤ i * 2 ^ k := by
  induction fuel generalizing i k with
  | zero => exact Nat.le_mul_of_pos_right i (Nat.two_pow_pos k)
  | succ fuel ih =>
      unfold growPower
      split
      next below =>
        cases k with
        | zero => omega
        | succ k =>
            have doubled : i * 2 ^ (k + 1) = i * 2 * 2 ^ k := by
              rw [Nat.pow_succ', Nat.mul_assoc]
            rw [doubled] at holds ⊢
            exact ih holds
      next => exact Nat.le_mul_of_pos_right i (Nat.two_pow_pos k)

end Powers

end CppProject.Library
