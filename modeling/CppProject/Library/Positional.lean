import Mathlib.Algebra.Order.Ring.Int
import Mathlib.Algebra.Order.Ring.Pow
import Mathlib.Data.List.Basic
import Mathlib.Tactic.Linarith
import Mathlib.Tactic.Ring

/-!
# Positional numerals in cells

The value of a list of cells in some base, the most significant cell first.  Cells need not be
digits while a computation is under way; writing one cell changes the value by its weight.
-/

namespace CppProject.Library.Positional

section Value

variable {R : Type} [CommRing R] (base : R)

def value (cells : List R) : R := cells.foldl (fun front cell => base * front + cell) 0

theorem foldl_cells (cells : List R) (front : R) :
    cells.foldl (fun front cell => base * front + cell) front =
      front * base ^ cells.length + value base cells := by
  induction cells generalizing front with
  | nil => simp [value]
  | cons cell cells ih =>
      rw [value, List.foldl_cons, List.foldl_cons, ih, ih (base * 0 + cell), List.length_cons]
      ring

theorem value_cons (cell : R) (cells : List R) :
    value base (cell :: cells) = cell * base ^ cells.length + value base cells := by
  rw [value, List.foldl_cons, foldl_cells, mul_zero, zero_add]

/-- A cell counts with a power of the base, one less for every cell up to it. -/
theorem value_drop {cells : List R} {index : Nat} (inside : index < cells.length) :
    value base (cells.drop index) =
      cells[index] * base ^ (cells.length - 1 - index) + value base (cells.drop (index + 1)) := by
  have behind : cells.length - (index + 1) = cells.length - 1 - index := by omega
  rw [List.drop_eq_getElem_cons inside, value_cons, List.length_drop, behind]

theorem value_set {cells : List R} {index : Nat} (inside : index < cells.length) (cell : R) :
    value base (cells.set index cell) =
      value base cells + (cell - cells[index]) * base ^ (cells.length - 1 - index) := by
  induction cells generalizing index with
  | nil => exact absurd inside (Nat.not_lt_zero _)
  | cons first cells ih =>
      cases index with
      | zero =>
          rw [List.set_cons_zero, value_cons, value_cons, List.getElem_cons_zero, List.length_cons]
          simp only [Nat.add_sub_cancel, Nat.sub_zero]
          ring
      | succ index =>
          have behind : cells.length + 1 - 1 - (index + 1) = cells.length - 1 - index := by omega
          rw [List.set_cons_succ, value_cons, value_cons, List.length_set,
            ih (Nat.lt_of_succ_lt_succ inside), List.getElem_cons_succ, List.length_cons, behind]
          ring

theorem value_zeros (length : Nat) : value base (List.replicate length 0) = 0 := by
  induction length with
  | zero => rfl
  | succ length ih => rw [List.replicate_succ, value_cons, ih, zero_mul, zero_add]

end Value

/-! ## Digits -/

/-- Cells that hold digits of the base. -/
def Digits (base : Int) (cells : List Int) : Prop := ∀ cell ∈ cells, 0 ≤ cell ∧ cell < base

variable {base : Int} {cells : List Int}

theorem Digits.set (digits : Digits base cells) {cell : Int} (digit : 0 ≤ cell ∧ cell < base)
    (index : Nat) : Digits base (cells.set index cell) := by
  intro other member
  rcases List.mem_or_eq_of_mem_set member with old | rfl
  · exact digits other old
  · exact digit

theorem digits_zeros (positive : 0 < base) (length : Nat) :
    Digits base (List.replicate length 0) := by
  intro cell member
  rw [List.eq_of_mem_replicate member]
  exact ⟨le_refl 0, positive⟩

theorem digits_cons {cell : Int} :
    Digits base (cell :: cells) ↔ (0 ≤ cell ∧ cell < base) ∧ Digits base cells :=
  List.forall_mem_cons

theorem Digits.value_nonneg (positive : 0 < base) (digits : Digits base cells) :
    0 ≤ value base cells := by
  induction cells with
  | nil => exact le_refl 0
  | cons cell cells ih =>
      obtain ⟨digit, rest⟩ := digits_cons.mp digits
      rw [value_cons]
      exact add_nonneg (mul_nonneg digit.1 (pow_nonneg positive.le _)) (ih rest)

/-- The value of digits is less than the power of the base for their number. -/
theorem Digits.value_lt (positive : 0 < base) (digits : Digits base cells) :
    value base cells < base ^ cells.length := by
  induction cells with
  | nil =>
      rw [List.length_nil, pow_zero]
      exact Int.one_pos
  | cons cell cells ih =>
      obtain ⟨digit, rest⟩ := digits_cons.mp digits
      have most : cell + 1 ≤ base := digit.2
      rw [value_cons, List.length_cons]
      calc cell * base ^ cells.length + value base cells
          _ < cell * base ^ cells.length + base ^ cells.length := by linarith only [ih rest]
          _ = (cell + 1) * base ^ cells.length := by ring
          _ ≤ base * base ^ cells.length := mul_le_mul_of_nonneg_right most (pow_nonneg positive.le _)
          _ = base ^ (cells.length + 1) := by ring

/-- Behind a first digit that is not zero, the value has the power of the base for the rest. -/
theorem Digits.le_value (positive : 0 < base) {first : Int} (digits : Digits base (first :: cells))
    (leading : first ≠ 0) : base ^ cells.length ≤ value base (first :: cells) := by
  obtain ⟨digit, rest⟩ := digits_cons.mp digits
  have one : 1 ≤ first := by omega
  rw [value_cons]
  calc base ^ cells.length
      _ = 1 * base ^ cells.length := (one_mul _).symm
      _ ≤ first * base ^ cells.length := mul_le_mul_of_nonneg_right one (pow_pos positive _).le
      _ ≤ first * base ^ cells.length + value base cells :=
          le_add_of_nonneg_right (rest.value_nonneg positive)

end CppProject.Library.Positional
