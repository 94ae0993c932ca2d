import CppProject.ReversePolishExpression.Evaluation
import Mathlib.Algebra.Order.Field.Rat

/-!
# Values from the left and from the right

Reading an expression from the right changes its value only behind a `-` or a `/` that
another operator of its run follows.
-/

namespace CppProject.ReversePolishExpression

open Library Library.Checked

variable {level : Level}

/-- In every run of operators of equal precedence, `-` and `/` stand last only. -/
def InversesLast : {level : Level} → Infix SumOp ProductOp Numeral level → Prop
  | _, .literal _ => True
  | _, .group e => InversesLast e
  | _, .factor f => InversesLast f
  | _, .times f op rest => InversesLast f ∧ InversesLast rest ∧ (op = .mul ∨ ∃ g, rest = .factor g)
  | _, .product p => InversesLast p
  | _, .plus p op rest => InversesLast p ∧ InversesLast rest ∧ (op = .add ∨ ∃ q, rest = .product q)

/-! ## Trees of equal value -/

theorem value_node {op : Operator} {left left' right right' : Tree Operator Numeral}
    (same : exact.value left = exact.value left') (same' : exact.value right = exact.value right') :
    exact.value (.node op left right) = exact.value (.node op left' right') := by
  unfold Arithmetic.value at same same' ⊢
  rw [Tree.eval, Tree.eval, same, same']

/-- Operators that associate may be grouped either way. -/
theorem value_regroup {op next : Operator} {f : ℚ → ℚ → ℚ}
    (total : ∀ x y, exact.apply op x y = .ok (f x y))
    (assoc : ∀ x y z, exact.apply next (f x y) z = exact.apply next y z >>= fun w => .ok (f x w))
    (a b c : Tree Operator Numeral) :
    exact.value (.node next (.node op a b) c) = exact.value (.node op a (.node next b c)) := by
  simp only [Arithmetic.value, Tree.eval, total]
  cases a.eval _ exact.apply with
  | error fault => rfl
  | ok x =>
      cases b.eval _ exact.apply with
      | error fault => rfl
      | ok y =>
          cases c.eval _ exact.apply with
          | error fault => rfl
          | ok z => exact assoc x y z

theorem value_sums (op : SumOp) (a b c : Tree Operator Numeral) :
    exact.value (.node (.inl op) (.node (.inl .add) a b) c) =
      exact.value (.node (.inl .add) a (.node (.inl op) b c)) := by
  refine value_regroup (fun x y => rfl) (fun x y z => ?_) a b c
  cases op with
  | add => exact congrArg Except.ok (Rat.add_assoc x y z)
  | sub => exact congrArg Except.ok (add_sub_assoc x y z)

theorem value_products (op : ProductOp) (a b c : Tree Operator Numeral) :
    exact.value (.node (.inr op) (.node (.inr .mul) a b) c) =
      exact.value (.node (.inr .mul) a (.node (.inr op) b c)) := by
  refine value_regroup (fun x y => rfl) (fun x y z => ?_) a b c
  cases op with
  | mul => exact congrArg Except.ok (Rat.mul_assoc x y z)
  | div =>
      change (if z = 0 then _ else _) = (if z = 0 then _ else _) >>= _
      split
      · rfl
      · exact congrArg Except.ok (mul_div_assoc x y z)

/-! ## Runs of operators -/

theorem leftFrom_factor (front : Option (Tree Operator Numeral × Operator))
    (f : Infix SumOp ProductOp Numeral .factor) : f.leftFrom front = Infix.join front f.leftTree := by
  cases f <;> cases front <;> rfl

/-- The operator of a level that associates. -/
def associative : Level → Operator
  | .sum => .inl .add
  | _ => .inr .mul

/-- Both readings have the same value, also behind an operand and an operator that associates. -/
theorem readings_agree (e : Infix SumOp ProductOp Numeral level) (inverses : InversesLast e) :
    exact.value e.leftTree = exact.value e.rightTree ∧
      ∀ left, exact.value (e.leftFrom (some (left, associative level))) =
        exact.value (.node (associative level) left e.rightTree) := by
  induction e with
  | literal n => exact ⟨rfl, fun left => rfl⟩
  | group e ih =>
      obtain ⟨same, _⟩ := ih inverses
      exact ⟨same, fun left => value_node rfl same⟩
  | factor f ih =>
      obtain ⟨same, _⟩ := ih inverses
      refine ⟨same, fun left => ?_⟩
      rw [Infix.leftFrom, leftFrom_factor]
      exact value_node rfl same
  | times f op rest f_ih rest_ih =>
      obtain ⟨first, later, last⟩ := inverses
      obtain ⟨first_same, _⟩ := f_ih first
      obtain ⟨rest_same, behind⟩ := rest_ih later
      have step (left : Tree Operator Numeral) :
          exact.value (rest.leftFrom (some (left, .inr op))) =
            exact.value (.node (.inr op) left rest.rightTree) := by
        rcases last with rfl | ⟨g, rfl⟩
        · exact behind left
        · rw [Infix.leftFrom, leftFrom_factor]
          exact value_node rfl rest_same
      refine ⟨(step _).trans (value_node first_same rfl), fun left => ?_⟩
      rw [Infix.leftFrom, step, leftFrom_factor]
      exact (value_products op left f.leftTree rest.rightTree).trans
        (value_node rfl (value_node first_same rfl))
  | product p ih =>
      obtain ⟨same, _⟩ := ih inverses
      exact ⟨same, fun left => value_node rfl same⟩
  | plus p op rest p_ih rest_ih =>
      obtain ⟨first, later, last⟩ := inverses
      obtain ⟨first_same, _⟩ := p_ih first
      obtain ⟨rest_same, behind⟩ := rest_ih later
      have step (left : Tree Operator Numeral) :
          exact.value (rest.leftFrom (some (left, .inl op))) =
            exact.value (.node (.inl op) left rest.rightTree) := by
        rcases last with rfl | ⟨q, rfl⟩
        · exact behind left
        · exact value_node rfl rest_same
      refine ⟨(step _).trans (value_node first_same rfl), fun left => ?_⟩
      rw [Infix.leftFrom, step]
      exact (value_sums op left p.leftTree rest.rightTree).trans
        (value_node rfl (value_node first_same rfl))

/-- Where `-` and `/` stand last in their runs, both readings have the same value. -/
theorem regroupedValue_eq {e : Infix SumOp ProductOp Numeral level} (inverses : InversesLast e) :
    regroupedValue e = standardValue e := (readings_agree e inverses).1.symm

/-! ## The value that is returned -/

/-- The standard value of an expression is returned exactly when the expression read from the
right has it; of a text that is too long for an `int`, the expression that is read must. -/
theorem set_exp_calculate_iff (e : Expression) (defined : ∃ v, standardValue e = .ok v) :
    (evaluate exact (text e) = standardValue e ↔
        ∃ read, Reads e read ∧ regroupedValue read = standardValue e) ∧
      ((text e).length < 2 ^ 31 →
        (evaluate exact (text e) = standardValue e ↔ regroupedValue e = standardValue e)) := by
  obtain ⟨v, standard⟩ := defined
  refine ⟨⟨fun returns => ?_, ?_⟩, fun short => ?_⟩
  · obtain ⟨read, reads⟩ := evaluate_returns exact (returns.trans standard)
    exact ⟨read, reads, (evaluate_reads exact reads).symm.trans returns⟩
  · rintro ⟨read, reads, same⟩
    exact (evaluate_reads exact reads).trans same
  · rw [evaluate_reads exact (reads_self short)]
    rfl

/-- Where `-` and `/` stand last in their runs, the standard value is returned. -/
theorem evaluate_inversesLast {e : Expression} (short : (text e).length < 2 ^ 31)
    (inverses : InversesLast e) : evaluate exact (text e) = standardValue e :=
  (evaluate_reads exact (reads_self short)).trans (regroupedValue_eq inverses)

def digits (ds : Text) (some_digit : ds ≠ []) (all_digits : ds.all digit = true) :
    Infix SumOp ProductOp Numeral .factor :=
  .literal ⟨ds, some_digit, List.all_eq_true.mp all_digits⟩

/-- `(1+2)/10+6/3+7+8` -/
def mainExpression : Expression :=
  let one := digits ['1'] (by decide) (by decide)
  let two := digits ['2'] (by decide) (by decide)
  let three := digits ['3'] (by decide) (by decide)
  let six := digits ['6'] (by decide) (by decide)
  let seven := digits ['7'] (by decide) (by decide)
  let eight := digits ['8'] (by decide) (by decide)
  let ten := digits ['1', '0'] (by decide) (by decide)
  .plus (.times (.group (.plus (.factor one) .add (.product (.factor two)))) .div (.factor ten)) .add
    (.plus (.times six .div (.factor three)) .add
      (.plus (.factor seven) .add (.product (.factor eight))))

theorem set_exp_calculate_main :
    text mainExpression = "(1+2)/10+6/3+7+8".toList ∧
      (evaluate exact (text mainExpression) = standardValue mainExpression ↔
        regroupedValue mainExpression = standardValue mainExpression) ∧
      evaluate exact (text mainExpression) = .ok (173 / 10) := by
  have same := (set_exp_calculate_iff mainExpression ⟨173 / 10, by decide +kernel⟩).2 (by decide)
  exact ⟨by decide, same, (same.mpr (by decide +kernel)).trans (by decide +kernel)⟩

/-- `1-2+3` -/
def subThenAdd : Expression :=
  let one := digits ['1'] (by decide) (by decide)
  let two := digits ['2'] (by decide) (by decide)
  let three := digits ['3'] (by decide) (by decide)
  .plus (.factor one) .sub (.plus (.factor two) .add (.product (.factor three)))

/-- The value of `1-2+3` is 2, and -4 is returned. -/
theorem set_exp_calculate_sub_add :
    text subThenAdd = "1-2+3".toList ∧ standardValue subThenAdd = .ok 2 ∧
      evaluate exact (text subThenAdd) = .ok (-4) ∧
      ¬∀ (e : Expression) v, standardValue e = .ok v → evaluate exact (text e) = .ok v := by
  have standard : standardValue subThenAdd = .ok 2 := by decide +kernel
  have returned : evaluate exact (text subThenAdd) = .ok (-4) := by decide +kernel
  refine ⟨by decide, standard, returned, fun always => ?_⟩
  have same := returned.symm.trans (always subThenAdd 2 standard)
  exact absurd same (by decide +kernel)

end CppProject.ReversePolishExpression
