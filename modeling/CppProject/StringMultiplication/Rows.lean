import CppProject.Library.Positional
import CppProject.StringMultiplication.Source
import Mathlib.Tactic.LinearCombination

/-!
# The rows of the multiplication

A row adds the multiple of the second numeral by one digit of the first one, shifted by its
place.  What the cells and the carry stand for together grows by the digits that have been
passed; the cell that takes the last carry is still zero.
-/

namespace CppProject.StringMultiplication

open Library Library.Checked Library.Positional

/-- The digits of a numeral. -/
def digitsOf (s : Text) : List Int := s.map digitValue

/-- The value of the digits of a numeral from a place on. -/
def valueFrom (s : Text) (i : Nat) : Int := value 10 ((digitsOf s).drop i)

def AllDigits (s : Text) : Prop := ∀ c ∈ s, c.isDigit = true

variable {s1 s2 : Text}

theorem digitValue_digit {c : Char} (digit : c.isDigit = true) :
    0 ≤ digitValue c ∧ digitValue c < 10 := by
  simp only [Char.isDigit, Bool.and_eq_true, decide_eq_true_eq] at digit
  have low : 48 ≤ c.toNat := digit.1
  have high : c.toNat ≤ 57 := digit.2
  unfold digitValue
  omega

theorem digits_digitsOf {s : Text} (all : AllDigits s) : Digits 10 (digitsOf s) := by
  intro cell member
  obtain ⟨c, inside, rfl⟩ := List.mem_map.mp member
  exact digitValue_digit (all c inside)

theorem valueFrom_succ {s : Text} {i : Nat} (inside : i < s.length) :
    valueFrom s i = digitValue s[i] * 10 ^ (s.length - 1 - i) + valueFrom s (i + 1) := by
  have same : (digitsOf s).length = s.length := List.length_map digitValue
  have within : i < (digitsOf s).length := same.symm ▸ inside
  have cell : (digitsOf s)[i] = digitValue s[i] := List.getElem_map digitValue
  rw [valueFrom, value_drop 10 within, same, cell, valueFrom]

/-! ## One row -/

/-- The inner loop in the row of place `i`, with `k` digits of the second numeral to come. -/
structure RowInv (s1 s2 : Text) (i : Nat) (first : i < s1.length) (before : List Int) (k : Nat)
    (row : RowState) : Prop where
  place : row.j = k - 1
  inside : k ≤ s2.length
  room : row.proInt.length = s1.length + s2.length
  digits : Digits 10 row.proInt
  carry : 0 ≤ row.c ∧ row.c < 10
  front : ∀ m ≤ i, row.proInt[m]? = before[m]?
  balance : value 10 row.proInt + row.c * 10 ^ (s1.length + s2.length - 1 - (i + k)) =
    value 10 before + digitValue s1[i] * valueFrom s2 k * 10 ^ (s1.length - 1 - i)

section Row

variable {i k : Nat} {first : i < s1.length} {before : List Int} {row : RowState}

/-- The product of two digits, with a cell and a carry, is less than a hundred. -/
theorem product_lt {a b cell c : Int} (a_digit : 0 ≤ a ∧ a < 10) (b_digit : 0 ≤ b ∧ b < 10)
    (cell_digit : 0 ≤ cell ∧ cell < 10) (c_digit : 0 ≤ c ∧ c < 10) :
    0 ≤ cell + a * b + c ∧ cell + a * b + c < 100 := by
  have some_product : 0 ≤ a * b := mul_nonneg a_digit.1 b_digit.1
  have product : a * b ≤ 9 * 9 :=
    mul_le_mul (Int.le_of_lt_add_one a_digit.2) (Int.le_of_lt_add_one b_digit.2) b_digit.1 (by decide)
  omega

theorem RowInv.product (short : s1.length + s2.length < 2 ^ 31) (s1_digits : AllDigits s1)
    (s2_digits : AllDigits s2) (inv : RowInv s1 s2 i first before (k + 1) row) :
    ∃ (here : i + k + 1 < row.proInt.length) (second : k < s2.length) (product : Int),
      productAt s1 s2 i row = .ok product ∧ 0 ≤ product ∧ product < 100 ∧
        product = row.proInt[i + k + 1] + digitValue s1[i] * digitValue s2[k] + row.c := by
  have second : k < s2.length := inv.inside
  have here : i + k + 1 < row.proInt.length := by
    rw [inv.room]
    omega
  have place : row.j = k := by
    rw [inv.place]
    omega
  have index : (i : Int) + row.j + 1 = (i + k + 1 : Nat) := by
    rw [place]
    rfl
  have bounded := product_lt (digitValue_digit (s1_digits _ (List.getElem_mem first)))
    (digitValue_digit (s2_digits _ (List.getElem_mem second)))
    (inv.digits _ (List.getElem_mem here)) inv.carry
  refine ⟨here, second, _, ?_, bounded.1, bounded.2, rfl⟩
  rw [productAt, index, loadInt_natCast (by omega) (List.getElem?_eq_getElem here), ok_bind,
    loadInt_natCast (by omega) (List.getElem?_eq_getElem first), ok_bind, place,
    loadInt_natCast (by omega) (List.getElem?_eq_getElem second)]
  rfl

/-- A round passes one digit. -/
theorem RowInv.round (short : s1.length + s2.length < 2 ^ 31) (s1_digits : AllDigits s1)
    (s2_digits : AllDigits s2) (inv : RowInv s1 s2 i first before (k + 1) row) :
    ∃ next, rowRound s1 s2 i row = .ok (some next) ∧ RowInv s1 s2 i first before k next := by
  obtain ⟨here, second, product, run, low, high, product_eq⟩ := inv.product short s1_digits s2_digits
  have place : row.j = k := by
    rw [inv.place]
    omega
  have index : (i : Int) + row.j + 1 = (i + k + 1 : Nat) := by
    rw [place]
    rfl
  have small : i + k + 1 < 2 ^ 31 := by omega
  refine ⟨⟨row.proInt.set (i + k + 1) (product.tmod 10), product.tdiv 10, row.j - 1⟩, ?_, ?_⟩
  · rw [rowRound, if_pos (by omega), run, ok_bind, index, storeInt_natCast small here]
    rfl
  rw [Int.tmod_eq_emod_of_nonneg low, Int.tdiv_eq_ediv_of_nonneg low]
  have carry : 0 ≤ product / 10 ∧ product / 10 < 10 := by omega
  refine ⟨by rw [place], Nat.le_of_lt second, List.length_set.trans inv.room,
    inv.digits.set (by omega) _, carry, ?_, ?_⟩
  · intro m before_place
    rw [List.getElem?_set_ne (by omega)]
    exact inv.front m before_place
  · -- the cell and the carry take what the product adds
    have weight : s1.length + s2.length - 1 - (i + k + 1) =
        s2.length - 1 - k + (s1.length - 1 - i) := by omega
    have next_weight : s1.length + s2.length - 1 - (i + k) =
        s2.length - 1 - k + (s1.length - 1 - i) + 1 := by omega
    have balance := inv.balance
    rw [← Nat.add_assoc i k 1, weight, pow_add] at balance
    rw [value_set 10 here, inv.room, weight, next_weight, valueFrom_succ second, pow_succ, pow_add]
    have split : product = product % 10 + 10 * (product / 10) := (Int.emod_add_mul_ediv product 10).symm
    linear_combination balance + 10 ^ (s2.length - 1 - k) * 10 ^ (s1.length - 1 - i) *
      (product_eq - split)

theorem valueFrom_length (s : Text) : valueFrom s s.length = 0 := by
  rw [valueFrom, List.drop_of_length_le (by rw [digitsOf, List.length_map])]
  rfl

theorem rowInv_start (short : s1.length + s2.length < 2 ^ 31)
    (room : before.length = s1.length + s2.length) (digits : Digits 10 before) :
    RowInv s1 s2 i first before s2.length (rowStart s2 before) := by
  have no_carry : (0 : Int) ≤ 0 ∧ (0 : Int) < 10 := by decide
  refine ⟨?_, Nat.le_refl _, room, digits, no_carry, fun m _ => rfl, ?_⟩
  · rw [rowStart, intSize_eq (by omega)]
  · rw [valueFrom_length, mul_zero, zero_mul]
    exact congrArg (value 10 before + ·) (zero_mul _)

theorem rowInv_counts (short : s1.length + s2.length < 2 ^ 31) (s1_digits : AllDigits s1)
    (s2_digits : AllDigits s2) :
    Loop.CountsDown (rowRound s1 s2 i) (RowInv s1 s2 i first before) where
  leaves row inv := by
    refine if_neg ?_
    rw [inv.place]
    decide
  round k row inv := inv.round short s1_digits s2_digits

/-- The inner loop leaves when no digit is left. -/
theorem row_loop (short : s1.length + s2.length < 2 ^ 31) (s1_digits : AllDigits s1)
    (s2_digits : AllDigits s2) (first : i < s1.length)
    (room : before.length = s1.length + s2.length) (digits : Digits 10 before) :
    ∃ row, whileLoop (rowRound s1 s2 i) (s2.length + 1) (rowStart s2 before) = .ok row ∧
      RowInv s1 s2 i first before 0 row :=
  (rowInv_counts short s1_digits s2_digits).run (rowInv_start short room digits)
    (Nat.lt_succ_self _)

end Row

/-! ## All rows -/

/-- The outer loop with `n` digits of the first numeral to come. -/
structure OuterInv (s1 s2 : Text) (n : Nat) (state : List Int × Int) : Prop where
  place : state.2 = n - 1
  inside : n ≤ s1.length
  room : state.1.length = s1.length + s2.length
  digits : Digits 10 state.1
  untouched : ∀ m < n, state.1[m]? = some 0
  balance : value 10 state.1 = valueFrom s1 n * valueFrom s2 0

theorem outerInv_start (short : s1.length + s2.length < 2 ^ 31) :
    OuterInv s1 s2 s1.length (outerStart s1 s2) := by
  refine ⟨?_, Nat.le_refl _, List.length_replicate, digits_zeros (by decide) _, ?_, ?_⟩
  · rw [outerStart, intSize_eq (by omega)]
  · intro m inside
    exact List.getElem?_replicate_of_lt (by omega)
  · rw [valueFrom_length, zero_mul]
    exact value_zeros 10 _

/-- A row, with its last carry in the cell in front of it. -/
theorem OuterInv.round (short : s1.length + s2.length < 2 ^ 31) (s1_digits : AllDigits s1)
    (s2_digits : AllDigits s2) {n : Nat} {state : List Int × Int}
    (inv : OuterInv s1 s2 (n + 1) state) :
    ∃ next, outerRound s1 s2 state = .ok (some next) ∧ OuterInv s1 s2 n next := by
  obtain ⟨proInt, i⟩ := state
  obtain ⟨place, inside, room, digits, untouched, balance⟩ := inv
  have index : i = (n : Nat) := by
    simp only at place
    omega
  obtain ⟨row, run, row_inv⟩ := row_loop short s1_digits s2_digits inside room digits
  have here : n < row.proInt.length := by
    rw [row_inv.room]
    omega
  have zero : row.proInt[n] = 0 := by
    have free := (row_inv.front n (Nat.le_refl n)).trans (untouched n (Nat.lt_succ_self n))
    exact Option.some.inj ((List.getElem?_eq_getElem here).symm.trans free)
  refine ⟨(row.proInt.set n row.c, i - 1), ?_, ?_⟩
  · subst index
    rw [outerRound, if_pos (Int.natCast_nonneg n), run, ok_bind,
      storeInt_natCast (by omega) here]
    rfl
  refine ⟨by rw [index], Nat.le_of_succ_le inside, List.length_set.trans row_inv.room,
    row_inv.digits.set row_inv.carry _, ?_, ?_⟩
  · intro m before_place
    rw [List.getElem?_set_ne (Nat.ne_of_gt before_place), row_inv.front m (Nat.le_of_lt before_place)]
    exact untouched m (Nat.lt_succ_of_lt before_place)
  · have grown := row_inv.balance
    rw [Nat.add_zero] at grown
    rw [value_set 10 here, zero, row_inv.room, valueFrom_succ inside]
    simp only at balance
    linear_combination grown + balance

theorem outerInv_counts (short : s1.length + s2.length < 2 ^ 31) (s1_digits : AllDigits s1)
    (s2_digits : AllDigits s2) : Loop.CountsDown (outerRound s1 s2) (OuterInv s1 s2) where
  leaves state inv := by
    refine if_neg ?_
    rw [inv.place]
    decide
  round n state inv := inv.round short s1_digits s2_digits

/-- The outer loop leaves the digits of the product. -/
theorem outer_loop (short : s1.length + s2.length < 2 ^ 31) (s1_digits : AllDigits s1)
    (s2_digits : AllDigits s2) :
    ∃ state, whileLoop (outerRound s1 s2) (s1.length + 1) (outerStart s1 s2) = .ok state ∧
      OuterInv s1 s2 0 state :=
  (outerInv_counts short s1_digits s2_digits).run (outerInv_start short) (Nat.lt_succ_self _)

end CppProject.StringMultiplication
