import CppProject.ReversePolishExpression.Evaluation

/-!
# What the translation keeps

The elements of an expression come back in the postfix code, its parentheses apart: the
literals in their order, the operators in another one.  The calculation of the code finds two
operands for every operator and leaves one value.
-/

namespace CppProject.ReversePolishExpression

open Library Library.Checked
open scoped List

variable {level : Level}

def isLiteral (elem : Text) : Bool := digit (elem.headD '\x00')

def isOperator (elem : Text) : Bool :=
  elem = ['+'] || elem = ['-'] || elem = ['*'] || elem = ['/']

/-- The elements that an expression is written with. -/
def elements (e : Infix SumOp ProductOp Numeral level) : List Text := e.tokens.map spelling

/-- No parenthesis is left, and no literal and no operator is lost or repeated. -/
structure Keeps (elems expStk : List Text) : Prop where
  no_paren : ['('] ∉ expStk ∧ [')'] ∉ expStk
  literals : expStk.filter isLiteral = elems.filter isLiteral
  operators : expStk.filter isOperator ~ elems.filter isOperator
  nothing_else : ∀ elem ∈ expStk, isLiteral elem ∨ isOperator elem

section Calculation

variable {V : Type}

/-- Wherever a calculation meets an operator, there are two operands. -/
def FindsOperands (arith : Arithmetic V) (expStk : List Text) : Prop :=
  ∀ front elem rest resStk, expStk = front ++ elem :: rest → ¬isLiteral elem →
    front.foldlM (calcElem arith) [] = .ok resStk → 2 ≤ resStk.length

/-- The translation keeps the elements, and the calculation ends with one value. -/
structure Sound (arith : Arithmetic V) (e : Expression) (expStk : List Text) : Prop where
  translates : setExp (text e) = .ok expStk
  keeps : Keeps (elements e) expStk
  operands : FindsOperands arith expStk
  one_value : ∃ v, expStk.foldlM (calcElem arith) [] = .ok [v]

end Calculation

/-! ## The elements of the code -/

theorem isLiteral_operator (op : Operator) : isLiteral op.text = false := by
  rcases op with op | op <;> cases op <;> rfl

theorem isOperator_operator (op : Operator) : isOperator op.text = true := by
  rcases op with op | op <;> cases op <;> decide

theorem isLiteral_numeral (n : Numeral) : isLiteral n.digits = true := n.is_number

theorem isOperator_numeral (n : Numeral) : isOperator n.digits = false := by
  have number := n.is_number
  by_contra operator
  simp only [isOperator, Bool.not_eq_false, Bool.or_eq_true, decide_eq_true_eq] at operator
  rcases operator with ((same | same) | same) | same <;>
    exact absurd (same ▸ number) (by decide)

/-- The code of two operands and an operator keeps what their codes keep. -/
theorem Keeps.node {first rest code code' : List Text} (left : Keeps first code)
    (right : Keeps rest code') (op : Operator) :
    Keeps (first ++ op.text :: rest) (code ++ (code' ++ [op.text])) := by
  have no_literal := isLiteral_operator op
  have operator := isOperator_operator op
  refine ⟨?_, ?_, ?_, ?_⟩
  · have other : ['('] ≠ op.text ∧ [')'] ≠ op.text := by
      rcases op with op | op <;> cases op <;> decide
    simp only [List.mem_append, List.mem_singleton, not_or]
    exact ⟨⟨left.no_paren.1, right.no_paren.1, other.1⟩, left.no_paren.2, right.no_paren.2, other.2⟩
  · rw [List.filter_append, List.filter_append, List.filter_append, left.literals, right.literals,
      List.filter_cons_of_neg (by rw [no_literal]; decide),
      List.filter_cons_of_neg (by rw [no_literal]; decide), List.filter_nil, List.append_nil]
  · rw [List.filter_append, List.filter_append, List.filter_append, List.filter_cons_of_pos operator,
      List.filter_cons_of_pos operator, List.filter_nil]
    have behind : code'.filter isOperator ++ [op.text] ~ op.text :: rest.filter isOperator :=
      (right.operators.append_right _).trans List.perm_append_comm
    exact left.operators.append behind
  · intro elem member
    rcases List.mem_append.mp member with inside | behind
    · exact left.nothing_else elem inside
    rcases List.mem_append.mp behind with inside | last
    · exact right.nothing_else elem inside
    · rw [List.mem_singleton.mp last]
      exact Or.inr operator

theorem postfixCode_keeps (e : Infix SumOp ProductOp Numeral level) :
    Keeps (elements e) (postfixCode e) := by
  induction e with
  | literal n =>
      have other : ∀ c, digit c = false → [c] ≠ n.digits := by
        rintro c symbol same
        have number := n.is_number
        rw [← same] at number
        exact absurd number (Bool.not_eq_true _ ▸ symbol)
      refine ⟨?_, rfl, .refl _, ?_⟩
      · exact ⟨fun member => other '(' (by decide) (List.mem_singleton.mp member),
          fun member => other ')' (by decide) (List.mem_singleton.mp member)⟩
      · intro elem member
        rw [List.mem_singleton.mp member]
        exact Or.inl (isLiteral_numeral n)
  | group e ih =>
      have inner : elements (.group e) = ['('] :: (elements e ++ [[')']]) := by
        rw [elements, Infix.tokens, List.map_cons, List.map_append]
        rfl
      obtain ⟨no_paren, literals, operators, nothing_else⟩ := ih
      refine ⟨no_paren, ?_, ?_, nothing_else⟩
      · rw [inner, List.filter_cons_of_neg (by decide), List.filter_append,
          List.filter_cons_of_neg (by decide), List.filter_nil, List.append_nil]
        exact literals
      · rw [inner, List.filter_cons_of_neg (by decide), List.filter_append,
          List.filter_cons_of_neg (by decide), List.filter_nil, List.append_nil]
        exact operators
  | factor f ih => exact ih
  | times f op rest f_ih rest_ih =>
      have parts : elements (.times f op rest) = elements f ++ Operator.text (.inr op) :: elements rest := by
        rw [elements, Infix.tokens, List.map_append, List.map_cons]
        rfl
      rw [parts]
      exact f_ih.node rest_ih (.inr op)
  | product p ih => exact ih
  | plus p op rest p_ih rest_ih =>
      have parts : elements (.plus p op rest) = elements p ++ Operator.text (.inl op) :: elements rest := by
        rw [elements, Infix.tokens, List.map_append, List.map_cons]
        rfl
      rw [parts]
      exact p_ih.node rest_ih (.inl op)

/-! ## The calculation of the code -/

section Calculation

variable {V : Type} (arith : Arithmetic V)

/-- The arithmetic of which only the number of the values is left. -/
def shapes : Arithmetic Unit where
  stod _ := .ok ()
  add _ _ := ()
  sub _ _ := ()
  mul _ _ := ()
  div _ _ := .ok ()

theorem calculation (e : Infix SumOp ProductOp Numeral level) :
    (postfixCode e).foldlM (calcElem arith) [] = arith.value e.rightTree >>= fun v => .ok [v] :=
  Tree.run_code (calcElem_literal arith) (calcElem_operator arith) e.rightTree []

theorem shapes_value (tree : Tree Operator Numeral) : shapes.value tree = .ok () := by
  induction tree with
  | leaf n => rfl
  | node op left right left_ih right_ih =>
      unfold Arithmetic.value at left_ih right_ih ⊢
      rw [Tree.eval, left_ih, right_ih]
      rcases op with op | op <;> cases op <;> rfl

/-- An operator is applied to the two topmost values. -/
theorem calcElem_two {elem : Text} (symbol : ¬isLiteral elem) {resStk next : List V}
    (step : calcElem arith resStk elem = .ok next) : 2 ≤ resStk.length := by
  have other : ¬digit (elem.headD '\x00') = true := symbol
  unfold calcElem at step
  rw [isNumber_zero, ok_bind, if_neg other] at step
  split at step
  · exact Nat.le_add_left 2 _
  · cases step

/-- The number of the values does not depend on the arithmetic. -/
theorem postfixCode_operands (e : Infix SumOp ProductOp Numeral level) :
    FindsOperands arith (postfixCode e) := by
  intro front elem rest resStk split symbol run
  have whole := calculation shapes e
  rw [shapes_value, ok_bind, split, List.foldlM_append] at whole
  obtain ⟨shape, shaped, behind⟩ := bind_eq_ok.mp whole
  rw [List.foldlM_cons] at behind
  obtain ⟨next, step, _⟩ := bind_eq_ok.mp behind
  have two := calcElem_two shapes symbol step
  have values := foldlM_measure (calcElem_weight arith) run
  have units := foldlM_measure (calcElem_weight shapes) shaped
  rw [List.length_nil] at values units
  omega

theorem value_node_returns (total : ∀ x y, ∃ z, arith.div x y = .ok z) (op : Operator)
    (left right : Tree Operator Numeral) : (∃ v, arith.value (.node op left right) = .ok v) ↔
      (∃ v, arith.value left = .ok v) ∧ ∃ v, arith.value right = .ok v := by
  unfold Arithmetic.value
  rw [Tree.eval]
  constructor
  · rintro ⟨v, returns⟩
    obtain ⟨x, first, behind⟩ := bind_eq_ok.mp returns
    obtain ⟨y, second, _⟩ := bind_eq_ok.mp behind
    exact ⟨⟨x, first⟩, y, second⟩
  · rintro ⟨⟨x, first⟩, y, second⟩
    rw [first, second]
    rcases op with op | op <;> cases op
    · exact ⟨_, rfl⟩
    · exact ⟨_, rfl⟩
    · exact ⟨_, rfl⟩
    · exact total x y

/-- When divisions return, a calculation returns if every literal can be read. -/
theorem value_returns (total : ∀ x y, ∃ z, arith.div x y = .ok z)
    (e : Infix SumOp ProductOp Numeral level) : (∃ v, arith.value e.rightTree = .ok v) ↔
      ∀ n, .literal n ∈ e.tokens → ∃ v, arith.stod n.digits = .ok v := by
  induction e with
  | literal n =>
      refine ⟨fun returns m member => ?_, fun all => all n List.mem_cons_self⟩
      obtain rfl := Token.literal.inj (List.mem_singleton.mp member)
      exact returns
  | group e ih =>
      refine ih.trans (forall_congr' fun n => ?_)
      simp [Infix.tokens]
  | factor f ih => exact ih
  | times f op rest f_ih rest_ih =>
      rw [Infix.rightTree, value_node_returns arith total, f_ih, rest_ih, ← forall_and]
      refine forall_congr' fun n => ?_
      simp [Infix.tokens, or_imp]
  | product p ih => exact ih
  | plus p op rest p_ih rest_ih =>
      rw [Infix.rightTree, value_node_returns arith total, p_ih, rest_ih, ← forall_and]
      refine forall_congr' fun n => ?_
      simp [Infix.tokens, or_imp]

/-- The operators of an expression are the operator tokens. -/
theorem operators_length (tokens : List Symbol) :
    ((tokens.map spelling).filter isOperator).length = Infix.operatorCount tokens := by
  induction tokens with
  | nil => rfl
  | cons token rest ih =>
      have counted : Infix.operatorCount (token :: rest) =
          Infix.operatorCount rest + if token.weight = -1 then 1 else 0 := by
        rw [Infix.operatorCount, List.countP_cons, Infix.operatorCount]
        simp only [decide_eq_true_eq]
      rw [counted, List.map_cons, ← ih]
      cases token with
      | literal n => rw [List.filter_cons_of_neg (by rw [spelling, isOperator_numeral]; decide)]; rfl
      | sum op => cases op <;> rfl
      | product op => cases op <;> rfl
      | opening => rfl
      | closing => rfl

theorem postfixCode_sound (total : ∀ x y, ∃ z, arith.div x y = .ok z) {e : Expression}
    (short : (text e).length < 2 ^ 31)
    (readable : ∀ n, .literal n ∈ e.tokens → ∃ v, arith.stod n.digits = .ok v) :
    Sound arith e (postfixCode e) := by
  refine ⟨setExp_reads (reads_self short), postfixCode_keeps e, postfixCode_operands arith e, ?_⟩
  obtain ⟨v, returns⟩ := (value_returns arith total e).mpr readable
  exact ⟨v, by rw [calculation, returns, ok_bind]⟩

/-- When nothing is lost, all of the expression has been read. -/
theorem Sound.all_read {e : Expression} {expStk : List Text} (sound : Sound arith e expStk) :
    Reads e e := by
  obtain ⟨translates, keeps, _, v, one⟩ := sound
  have returns : evaluate arith (text e) = .ok v := by
    rw [evaluate, translates, ok_bind, calculate, one]
    rfl
  obtain ⟨read, reads⟩ := evaluate_returns arith returns
  have code := Except.ok.inj ((setExp_reads reads).symm.trans translates)
  have kept : (expStk.filter isOperator).length = ((elements read).filter isOperator).length := by
    rw [← code]
    exact (postfixCode_keeps read).operators.length_eq
  have same := keeps.operators.length_eq
  rw [kept, elements, elements, operators_length, operators_length] at same
  have part : read.tokens <+: e.tokens := by
    rw [reads.1]
    exact prefix_begun _ _ _
  rcases e.prefix_lacks part with whole | fewer | nothing
  · refine ⟨whole ▸ reads.1, ?_⟩
    rw [text, ← whole]
    exact reads.2
  · exact absurd same (Nat.ne_of_lt fewer)
  · rw [read.tokens_weight] at nothing
    exact absurd nothing (by decide)

end Calculation

/-- With divisions that return, an expression is translated and calculated soundly exactly when
its length is an `int` and its literals can be read.  Operands are never missing in a text of
that length. -/
theorem set_exp_calculate_sound {V : Type} (arith : Arithmetic V)
    (total : ∀ x y, ∃ z, arith.div x y = .ok z) (e : Expression) :
    ((∃ expStk, Sound arith e expStk) ↔ (text e).length < 2 ^ 31 ∧
        ∀ n, .literal n ∈ e.tokens → ∃ v, arith.stod n.digits = .ok v) ∧
      ((text e).length < 2 ^ 31 → ∃ expStk, setExp (text e) = .ok expStk ∧
        Keeps (elements e) expStk ∧ FindsOperands arith expStk) := by
  refine ⟨⟨?_, ?_⟩, fun short => ?_⟩
  · rintro ⟨expStk, sound⟩
    have reads := sound.all_read
    obtain ⟨translates, _, _, v, one⟩ := sound
    have code : expStk = postfixCode e := Except.ok.inj (translates.symm.trans (setExp_reads reads))
    rw [code, calculation] at one
    obtain ⟨w, returns, _⟩ := bind_eq_ok.mp one
    exact ⟨reads.2, (value_returns arith total e).mp ⟨w, returns⟩⟩
  · rintro ⟨short, readable⟩
    exact ⟨_, postfixCode_sound arith total short readable⟩
  · exact ⟨_, setExp_reads (reads_self short), postfixCode_keeps e, postfixCode_operands arith e⟩

/-- Numbers in which a division by zero gives zero. -/
def totalDivision : Arithmetic ℚ := { exact with div := fun x y => .ok (x / y) }

/-- `(1+2)*3` -/
def productOfGroup : Expression :=
  let one : Numeral := ⟨['1'], List.cons_ne_nil _ _, List.forall_mem_singleton.mpr rfl⟩
  let two : Numeral := ⟨['2'], List.cons_ne_nil _ _, List.forall_mem_singleton.mpr rfl⟩
  let three : Numeral := ⟨['3'], List.cons_ne_nil _ _, List.forall_mem_singleton.mpr rfl⟩
  .product (.times (.group (.plus (.factor (.literal one)) .add (.product (.factor (.literal two)))))
    .mul (.factor (.literal three)))

theorem set_exp_calculate_sound_group :
    text productOfGroup = "(1+2)*3".toList ∧ ∃ expStk, Sound totalDivision productOfGroup expStk :=
  ⟨by decide, (set_exp_calculate_sound totalDivision (fun x y => ⟨x / y, rfl⟩) productOfGroup).1.mpr
    ⟨by decide, fun n _ => ⟨Text.decimal n.digits, rfl⟩⟩⟩

/-- A text whose length is not positive as an `int` is not read. -/
theorem setExp_unread {e : Expression} (negative : intSize (text e).length ≤ 0) :
    setExp (text e) = .ok [] := by
  have none : begun (intSize (text e).length) 0 e.tokens = [] := by
    cases e.tokens with
    | nil => rfl
    | cons token rest => exact if_neg (Int.not_lt.mpr negative)
  have split := (splitExp_text e).1
  rw [none] at split
  rw [setExp_text, split (by decide)]
  rfl

/-- A literal of `length` digits. -/
def ones (length : Nat) (positive : 0 < length) : Expression :=
  .product (.factor (.literal ⟨List.replicate length '1',
    List.ne_nil_of_length_pos (List.length_replicate.symm ▸ positive),
    fun c member => (List.eq_of_mem_replicate member).symm ▸ by decide⟩))

theorem length_ones (length : Nat) (positive : 0 < length) :
    (text (ones length positive)).length = length :=
  (congrArg List.length (List.append_nil (List.replicate length '1'))).trans List.length_replicate

/-- The length of a text of `2 ^ 31` characters is negative as an `int`, so nothing is read, and
the calculation reads the back of an empty stack. -/
theorem set_exp_loses_literal :
    setExp (text (ones (2 ^ 31) (by decide))) = .ok [] ∧
      calculate totalDivision [] = .error .outOfBounds ∧
      ¬∃ expStk, Sound totalDivision (ones (2 ^ 31) (by decide)) expStk := by
  have unread : setExp (text (ones (2 ^ 31) (by decide))) = .ok [] := by
    refine setExp_unread ?_
    rw [length_ones]
    decide
  refine ⟨unread, rfl, ?_⟩
  rintro ⟨expStk, translates, _, _, v, one⟩
  obtain rfl := Except.ok.inj (unread.symm.trans translates)
  cases one

end CppProject.ReversePolishExpression
