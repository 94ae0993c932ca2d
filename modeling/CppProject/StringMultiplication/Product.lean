import CppProject.StringMultiplication.Rows

/-!
# The product of two numerals

The digits of the product have at most one leading zero, which is not written.  The loop that
writes them counts with an `int`, so it does not come to the end of longer products.
-/

namespace CppProject.StringMultiplication

open Library Library.Checked Library.Positional

/-- A decimal numeral without leading zeros. -/
structure Canonical (s : Text) : Prop where
  digits : AllDigits s
  some_digit : s ≠ []
  leading : s.head? = some '0' → s = ['0']

/-- In every round of the loops the cells and the carry are digits, and the product with its
carry is less than a hundred. -/
structure SingleDigits (s1 s2 : Text) : Prop where
  cells : ∀ rounds last, Loop.Trace (outerRound s1 s2) (outerStart s1 s2) rounds last →
    ∀ state ∈ rounds ++ [last], Digits 10 state.1
  rows : ∀ rounds last, Loop.Trace (outerRound s1 s2) (outerStart s1 s2) rounds last →
    ∀ state ∈ rounds, ∀ passed end_row,
      Loop.Trace (rowRound s1 s2 state.2) (rowStart s2 state.1) passed end_row →
        (∀ row ∈ passed ++ [end_row], Digits 10 row.proInt ∧ 0 ≤ row.c ∧ row.c < 10) ∧
          ∀ row ∈ passed, ∃ product, productAt s1 s2 state.2 row = .ok product ∧
            0 ≤ product ∧ product < 100

/-- The result is the numeral of the product, and the loops stay with single digits. -/
structure Multiplies (s1 s2 : Text) : Prop where
  product : ∃ r, stringMultiply s1 s2 = .ok r ∧ Canonical r ∧
    Text.decimal r = Text.decimal s1 * Text.decimal s2
  single_digits : s1 ≠ ['0'] → s2 ≠ ['0'] → SingleDigits s1 s2

variable {s1 s2 : Text}

/-! ## The rounds of the loops -/

theorem singleDigits (short : s1.length + s2.length < 2 ^ 31) (s1_digits : AllDigits s1)
    (s2_digits : AllDigits s2) : SingleDigits s1 s2 := by
  have outer {rounds : List (List Int × Int)} {last : List Int × Int}
      (trace : Loop.Trace (outerRound s1 s2) (outerStart s1 s2) rounds last) :
      (∀ state ∈ rounds, ∃ n, OuterInv s1 s2 (n + 1) state) ∧ ∃ n, OuterInv s1 s2 n last :=
    (outerInv_counts short s1_digits s2_digits).trace trace (outerInv_start short)
  refine ⟨fun rounds last trace state member => ?_, fun rounds last trace state member passed end_row
    inner => ?_⟩
  · rcases List.mem_append.mp member with passed | final
    · obtain ⟨n, inv⟩ := (outer trace).1 state passed
      exact inv.digits
    · rw [List.mem_singleton.mp final]
      obtain ⟨n, inv⟩ := (outer trace).2
      exact inv.digits
  · obtain ⟨n, inv⟩ := (outer trace).1 state member
    have index : state.2 = (n : Nat) := by
      rw [inv.place]
      omega
    rw [index] at inner ⊢
    have start := @rowInv_start s1 s2 n inv.inside state.1 short inv.room inv.digits
    obtain ⟨before_rows, k_end, end_inv⟩ := (rowInv_counts short s1_digits s2_digits).trace inner start
    refine ⟨fun row member => ?_, fun row member => ?_⟩
    · rcases List.mem_append.mp member with passed | final
      · obtain ⟨k, row_inv⟩ := before_rows row passed
        exact ⟨row_inv.digits, row_inv.carry⟩
      · rw [List.mem_singleton.mp final]
        exact ⟨end_inv.digits, end_inv.carry⟩
    · obtain ⟨k, row_inv⟩ := before_rows row member
      obtain ⟨_, _, product, run, low, high, _⟩ := row_inv.product short s1_digits s2_digits
      exact ⟨product, run, low, high⟩

/-! ## Writing digits -/

def digitChar (cell : Int) : Char := Char.ofNat (48 + cell).toNat

theorem digitChar_digit {cell : Int} (digit : 0 ≤ cell ∧ cell < 10) :
    (digitChar cell).isDigit = true ∧ digitValue (digitChar cell) = cell := by
  obtain ⟨n, rfl⟩ := Int.eq_ofNat_of_zero_le digit.1
  have each : ∀ n < 10, (digitChar (n : Nat)).isDigit = true ∧ digitValue (digitChar (n : Nat)) = n := by
    decide
  exact each n (by omega)

theorem foldl_decimal {s : Text} (all : AllDigits s) (front : Nat) :
    ((s.foldl (fun value digit => 10 * value + (digit.toNat - 48)) front : Nat) : Int) =
      (digitsOf s).foldl (fun (front : Int) cell => 10 * front + cell) (front : Int) := by
  induction s generalizing front with
  | nil => rfl
  | cons c s ih =>
      have digit := (digitValue_digit (all c List.mem_cons_self)).1
      have rest : AllDigits s := fun c' member => all c' (List.mem_cons_of_mem c member)
      have next : ((10 * front + (c.toNat - 48) : Nat) : Int) = 10 * front + digitValue c := by
        unfold digitValue at digit ⊢
        omega
      rw [List.foldl_cons, ih rest, next]
      rfl

/-- The value of a numeral, over its digits. -/
theorem decimal_eq {s : Text} (all : AllDigits s) : (Text.decimal s : Int) = valueFrom s 0 :=
  foldl_decimal all 0

/-- The loop that writes the digits, with `left` cells to come. -/
def WriteInv (proInt : List Int) (start left : Nat) (state : Text × Int) : Prop :=
  ∃ k : Nat, k + left = proInt.length ∧ start ≤ k ∧
    state = (((proInt.take k).drop start).map digitChar, (k : Int))

theorem writeInv_counts {proInt : List Int} (short : proInt.length < 2 ^ 31) (start : Nat) :
    Loop.CountsDown (writeRound proInt) (WriteInv proInt start) where
  leaves state inv := by
    obtain ⟨k, all, _, rfl⟩ := inv
    exact if_neg (by omega)
  round left state inv := by
    obtain ⟨k, to_come, behind, rfl⟩ := inv
    have more : k < proInt.length := by omega
    have written : ((proInt.take (k + 1)).drop start).map digitChar =
        ((proInt.take k).drop start).map digitChar ++ [digitChar proInt[k]] := by
      rw [List.take_succ_eq_append_getElem more,
        List.drop_append_of_le_length (by rw [List.length_take]; omega), List.map_append]
      rfl
    have counts : increment k = .ok ((k + 1 : Nat) : Int) := if_pos (by omega)
    refine ⟨_, ?_, k + 1, by omega, by omega, rfl⟩
    rw [writeRound, if_pos (Int.ofNat_lt.mpr more),
      loadInt_natCast (by omega) (List.getElem?_eq_getElem more), ok_bind, counts, written]
    rfl

/-- The loop that writes the digits from a place on. -/
theorem write_loop {proInt : List Int} (short : proInt.length < 2 ^ 31) {start : Nat}
    (inside : start ≤ proInt.length) :
    ∃ s, whileLoop (writeRound proInt) (proInt.length + 1) ([], (start : Int)) =
      .ok ((proInt.drop start).map digitChar, s) := by
  have nothing : WriteInv proInt start (proInt.length - start) ([], (start : Int)) := by
    refine ⟨start, by omega, Nat.le_refl _, ?_⟩
    rw [List.drop_of_length_le (List.length_take_le _ _)]
    rfl
  obtain ⟨last, run, k, all, _, rfl⟩ :=
    (writeInv_counts short start).run nothing (Nat.lt_succ_of_le (Nat.sub_le _ _))
  rw [Nat.add_zero] at all
  refine ⟨k, ?_⟩
  rw [run, all, List.take_length]

/-- Cells that are digits, without leading zeros, are written as a numeral of their value. -/
theorem canonical_map {cells : List Int} (digits : Digits 10 cells) (some_cell : cells ≠ [])
    (leading : ∀ cell ∈ cells.head?, cell ≠ 0) :
    Canonical (cells.map digitChar) ∧
      (Text.decimal (cells.map digitChar) : Int) = value 10 cells := by
  have all : AllDigits (cells.map digitChar) := by
    intro c member
    obtain ⟨cell, inside, rfl⟩ := List.mem_map.mp member
    exact (digitChar_digit (digits cell inside)).1
  have back : digitsOf (cells.map digitChar) = cells := by
    rw [digitsOf, List.map_map]
    refine (List.map_congr_left fun cell inside => ?_).trans (List.map_id cells)
    exact (digitChar_digit (digits cell inside)).2
  refine ⟨⟨all, List.map_eq_nil_iff.not.mpr some_cell, fun zero => ?_⟩, ?_⟩
  · obtain ⟨cell, rest, rfl⟩ := List.exists_cons_of_ne_nil some_cell
    have written : digitChar cell = '0' := Option.some.inj zero
    have same := (digitChar_digit (digits cell List.mem_cons_self)).2
    rw [written] at same
    exact absurd same.symm (leading cell rfl)
  · rw [decimal_eq all, valueFrom, back, List.drop_zero]

/-- The value of a numeral that is not zero. -/
theorem Canonical.le_valueFrom {s : Text} (canonical : Canonical s) (nonzero : s ≠ ['0']) :
    10 ^ (s.length - 1) ≤ valueFrom s 0 := by
  obtain ⟨c, rest, rfl⟩ := List.exists_cons_of_ne_nil canonical.some_digit
  have leading : digitValue c ≠ 0 := by
    intro zero
    have code : c.toNat = 48 := by
      unfold digitValue at zero
      omega
    have same : c = '0' := Char.toNat_inj.mp code
    exact nonzero (canonical.leading (congrArg some same))
  have bound := (digits_digitsOf canonical.digits).le_value (by decide) leading
  rw [List.length_map] at bound
  exact bound

/-! ## The result -/

/-- Numerals that are not zero are multiplied in the loops. -/
theorem stringMultiply_loops (first : Canonical s1) (second : Canonical s2) (nonzero : s1 ≠ ['0'])
    (nonzero' : s2 ≠ ['0']) : stringMultiply s1 s2 = (do
      let (proInt, _) ← whileLoop (outerRound s1 s2) (s1.length + 1) (outerStart s1 s2)
      let first ← load proInt 0
      let (ret, _) ← whileLoop (writeRound proInt) (proInt.length + 1) ([], if first ≠ 0 then 0 else 1)
      .ok ret) := by
  refine if_neg ?_
  rintro (empty | empty | zero | zero)
  · exact first.some_digit (List.isEmpty_iff.mp empty)
  · exact second.some_digit (List.isEmpty_iff.mp empty)
  · exact nonzero (first.leading zero)
  · exact nonzero' (second.leading zero)

theorem stringMultiply_zero (zero : s1 = ['0'] ∨ s2 = ['0']) : stringMultiply s1 s2 = .ok ['0'] := by
  rcases zero with rfl | rfl
  · exact if_pos (Or.inr (Or.inr (Or.inl rfl)))
  · exact if_pos (Or.inr (Or.inr (Or.inr rfl)))

theorem canonical_zero : Canonical ['0'] :=
  ⟨List.forall_mem_singleton.mpr (by decide), List.cons_ne_nil _ _, fun _ => rfl⟩

/-- The digits of the product are written behind at most one leading zero. -/
theorem stringMultiply_product (first : Canonical s1) (second : Canonical s2) (nonzero : s1 ≠ ['0'])
    (nonzero' : s2 ≠ ['0']) (short : s1.length + s2.length < 2 ^ 31) :
    ∃ r, stringMultiply s1 s2 = .ok r ∧ Canonical r ∧
      Text.decimal r = Text.decimal s1 * Text.decimal s2 := by
  obtain ⟨⟨proInt, i⟩, run, place, inside, room, digits, untouched, balance⟩ :=
    outer_loop short first.digits second.digits
  simp only at place room digits untouched balance
  have some1 := List.length_pos_of_ne_nil first.some_digit
  have some2 := List.length_pos_of_ne_nil second.some_digit
  rw [← decimal_eq first.digits, ← decimal_eq second.digits] at balance
  -- the product of two numerals has at least one digit less than both together
  have large : 10 ^ (s1.length + s2.length - 2) ≤ value 10 proInt := by
    have split : s1.length + s2.length - 2 = s1.length - 1 + (s2.length - 1) := by omega
    rw [balance, split, pow_add, decimal_eq first.digits, decimal_eq second.digits]
    have low := first.le_valueFrom nonzero
    have low' := second.le_valueFrom nonzero'
    exact mul_le_mul low low' (pow_nonneg (by decide) _) (le_trans (pow_nonneg (by decide) _) low)
  have product {cells : List Int} (written : stringMultiply s1 s2 = .ok (cells.map digitChar))
      (cells_digits : Digits 10 cells) (some_cell : cells ≠ [])
      (leading : ∀ cell ∈ cells.head?, cell ≠ 0) (same : value 10 cells = value 10 proInt) :
      ∃ r, stringMultiply s1 s2 = .ok r ∧ Canonical r ∧
        Text.decimal r = Text.decimal s1 * Text.decimal s2 := by
    obtain ⟨canonical, value_eq⟩ := canonical_map cells_digits some_cell leading
    refine ⟨_, written, canonical, ?_⟩
    rw [same, balance] at value_eq
    exact_mod_cast value_eq
  have loops := stringMultiply_loops first second nonzero nonzero'
  rw [run, ok_bind] at loops
  obtain ⟨head, rest, rfl⟩ := List.exists_cons_of_ne_nil
    (List.ne_nil_of_length_pos (show 0 < proInt.length by omega))
  have read : load (head :: rest) 0 = .ok head := rfl
  simp only [read, ok_bind] at loops
  rw [List.length_cons] at room
  by_cases leading : head ≠ 0
  · obtain ⟨s, wrote⟩ := @write_loop (head :: rest) (by rw [List.length_cons]; omega) 0 (Nat.zero_le _)
    rw [if_pos leading, show (0 : Int) = (0 : Nat) from rfl, wrote] at loops
    exact product loops digits (List.cons_ne_nil _ _)
      (fun cell first => Option.some.inj first ▸ leading) rfl
  · obtain ⟨s, wrote⟩ := @write_loop (head :: rest) (by rw [List.length_cons]; omega) 1
      (Nat.le_add_left 1 _)
    rw [if_neg leading, show (1 : Int) = (1 : Nat) from rfl, wrote] at loops
    obtain rfl := not_not.mp leading
    have rest_digits := (digits_cons.mp digits).2
    have same : value 10 rest = value 10 (0 :: rest) := by
      rw [value_cons, zero_mul, zero_add]
    have some_digit : 0 < rest.length := by omega
    refine product loops rest_digits (List.ne_nil_of_length_pos some_digit) ?_ same
    rintro cell member rfl
    -- behind two zeros there is no room for the product
    obtain ⟨rest, rfl⟩ := List.head?_eq_some_iff.mp member
    have little := (digits_cons.mp rest_digits).2.value_lt (by decide)
    rw [value_cons, value_cons, zero_mul, zero_mul, zero_add, zero_add] at large
    rw [List.length_cons] at room
    have exponent : s1.length + s2.length - 2 = rest.length := by omega
    rw [exponent] at large
    exact absurd little (not_lt.mpr large)

/-! ## Long products -/

/-- The rounds of the loops keep the number of the cells. -/
theorem rowRound_length {i : Int} {row next : RowState} (go : rowRound s1 s2 i row = .ok (some next)) :
    next.proInt.length = row.proInt.length := by
  unfold rowRound at go
  split at go
  · obtain ⟨product, _, rest⟩ := bind_eq_ok.mp go
    obtain ⟨proInt, write, done⟩ := bind_eq_ok.mp rest
    cases done
    exact storeInt_length write
  · cases go

theorem outerRound_length {state next : List Int × Int}
    (go : outerRound s1 s2 state = .ok (some next)) : next.1.length = state.1.length := by
  obtain ⟨proInt, i⟩ := state
  rw [outerRound] at go
  split at go
  · obtain ⟨row, run, rest⟩ := bind_eq_ok.mp go
    obtain ⟨written, write, done⟩ := bind_eq_ok.mp rest
    cases done
    obtain ⟨rounds, trace, _⟩ := Loop.trace_of_left run
    have kept := (trace.invariant (fun row next same go => (rowRound_length go).trans same)
      (rfl : (rowStart s2 proInt).proInt.length = proInt.length)).2
    exact (storeInt_length write).trans kept
  · cases go

theorem writeRound_counts {proInt : List Int} {state next : Text × Int}
    (go : writeRound proInt state = .ok (some next)) : next.2 < 2 ^ 31 := by
  obtain ⟨ret, s⟩ := state
  rw [writeRound] at go
  split at go
  · obtain ⟨cell, _, rest⟩ := bind_eq_ok.mp go
    obtain ⟨s', counted, done⟩ := bind_eq_ok.mp rest
    cases done
    unfold increment at counted
    split at counted
    · cases counted
      assumption
    · cases counted
  · cases go

/-- A product is written only if an `int` can count its cells. -/
theorem stringMultiply_short (first : Canonical s1) (second : Canonical s2) (nonzero : s1 ≠ ['0'])
    (nonzero' : s2 ≠ ['0']) {r : Text} (returns : stringMultiply s1 s2 = .ok r) :
    s1.length + s2.length < 2 ^ 31 := by
  rw [stringMultiply_loops first second nonzero nonzero'] at returns
  obtain ⟨state, run, rest⟩ := bind_eq_ok.mp returns
  obtain ⟨head, _, rest⟩ := bind_eq_ok.mp rest
  obtain ⟨last, wrote, _⟩ := bind_eq_ok.mp rest
  obtain ⟨rounds, outer, _⟩ := Loop.trace_of_left run
  have room := (outer.invariant (fun state next same go => (outerRound_length go).trans same)
    (List.length_replicate : (outerStart s1 s2).1.length = s1.length + s2.length)).2
  obtain ⟨rounds', writes, left⟩ := Loop.trace_of_left wrote
  have start : (if head ≠ 0 then (0 : Int) else 1) < 2 ^ 31 := by
    split <;> decide
  have counts := (writes.invariant (fun state next _ go => writeRound_counts go) start).2
  have done : ¬last.2 < state.1.length := by
    intro more
    rw [writeRound, if_pos more] at left
    obtain ⟨cell, _, rest⟩ := bind_eq_ok.mp left
    obtain ⟨s, _, impossible⟩ := bind_eq_ok.mp rest
    cases impossible
  omega

/-- `stringMultiply` multiplies two numerals exactly when one of them is zero or an `int` can
count the digits of both. -/
theorem string_multiply_correct (first : Canonical s1) (second : Canonical s2) :
    Multiplies s1 s2 ↔ s1 = ['0'] ∨ s2 = ['0'] ∨ s1.length + s2.length < 2 ^ 31 := by
  constructor
  · rintro ⟨⟨r, returns, _⟩, _⟩
    by_cases zero : s1 = ['0']
    · exact Or.inl zero
    by_cases zero' : s2 = ['0']
    · exact Or.inr (Or.inl zero')
    exact Or.inr (Or.inr (stringMultiply_short first second zero zero' returns))
  · intro condition
    by_cases zero : s1 = ['0'] ∨ s2 = ['0']
    · refine ⟨⟨['0'], stringMultiply_zero zero, canonical_zero, ?_⟩, fun nonzero nonzero' => ?_⟩
      · rcases zero with rfl | rfl
        · exact (Nat.zero_mul _).symm
        · exact (Nat.mul_zero _).symm
      · exact absurd zero (not_or.mpr ⟨nonzero, nonzero'⟩)
    · obtain ⟨nonzero, nonzero'⟩ := not_or.mp zero
      have short : s1.length + s2.length < 2 ^ 31 :=
        (condition.resolve_left nonzero).resolve_left nonzero'
      exact ⟨stringMultiply_product first second nonzero nonzero' short,
        fun _ _ => singleDigits short first.digits second.digits⟩

/-- The product of the test. -/
theorem string_multiply_correct_test : Multiplies "12942".toList "19392".toList :=
  (string_multiply_correct
    ⟨List.all_eq_true.mp (by decide), by decide, by decide⟩
    ⟨List.all_eq_true.mp (by decide), by decide, by decide⟩).mpr (Or.inr (Or.inr (by decide)))

theorem canonical_ones {length : Nat} (positive : 0 < length) :
    Canonical (List.replicate length '1') := by
  refine ⟨fun c member => ?_, List.ne_nil_of_length_pos (List.length_replicate.symm ▸ positive),
    fun zero => ?_⟩
  · rw [List.eq_of_mem_replicate member]
    decide
  · rw [List.head?_replicate, if_neg (Nat.ne_of_gt positive)] at zero
    exact absurd zero (by decide)

/-- Two numerals of `2 ^ 30 + 1` digits: the subscript `i + j + 1` of the first product is over
the largest `int`. -/
theorem string_multiply_long :
    Canonical (List.replicate (2 ^ 30 + 1) '1') ∧
      ¬Multiplies (List.replicate (2 ^ 30 + 1) '1') (List.replicate (2 ^ 30 + 1) '1') := by
  have canonical := @canonical_ones (2 ^ 30 + 1) (Nat.succ_pos _)
  have nonzero : List.replicate (2 ^ 30 + 1) '1' ≠ ['0'] := by
    intro same
    have head := congrArg List.head? same
    rw [List.head?_replicate, if_neg (by decide)] at head
    exact absurd head (by decide)
  refine ⟨canonical, ?_⟩
  rintro ⟨⟨r, returns, _⟩, _⟩
  have short := stringMultiply_short canonical canonical nonzero nonzero returns
  rw [List.length_replicate] at short
  exact absurd short (by decide)

end CppProject.StringMultiplication
