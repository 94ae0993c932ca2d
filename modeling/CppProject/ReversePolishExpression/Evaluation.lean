import CppProject.ReversePolishExpression.Translation
import Mathlib.Tactic.Linarith

/-!
# Evaluation of a written expression

A text whose length is an `int` is read in full, and its value is the one of the expression
read from the right.  Of a longer text only the tokens in front of some place are read; when
these are no expression, the stacks run empty.
-/

namespace CppProject.ReversePolishExpression

open Library Library.Checked

variable {level : Level}

/-! ## Weights -/

/-- How many values an element adds; an element that is neither a number nor an operator
takes two. -/
def elemWeight (elem : Text) : Int :=
  let c := elem.headD '\x00'
  if digit c then 1 else if c = '+' ∨ c = '-' ∨ c = '*' ∨ c = '/' then -1 else -2

def weight (elems : List Text) : Int := (elems.map elemWeight).sum

/-- The weight of what has been written and of the operators that wait. -/
def SetState.weight (s : SetState) : Int :=
  ReversePolishExpression.weight s.expStk + ReversePolishExpression.weight (popped s.ops)

theorem weight_append (front back : List Text) : weight (front ++ back) = weight front + weight back := by
  rw [weight, List.map_append, List.sum_append]
  rfl

theorem weight_cons (elem : Text) (rest : List Text) :
    weight (elem :: rest) = elemWeight elem + weight rest := List.sum_cons

theorem weight_singleton (elem : Text) : weight [elem] = elemWeight elem := Int.add_zero _

theorem SetState.weight_mk (ops : List Char) (expStk : List Text) :
    SetState.weight ⟨ops, expStk⟩ =
      ReversePolishExpression.weight expStk + ReversePolishExpression.weight (popped ops) := rfl

/-- Popping an operator and writing it keeps the weight. -/
theorem weight_pop (op : Char) (ops : List Char) (expStk : List Text) :
    SetState.weight ⟨ops, expStk ++ [[op]]⟩ = SetState.weight ⟨op :: ops, expStk⟩ := by
  change weight (expStk ++ [[op]]) + _ = _ + weight ([op] :: popped ops)
  rw [weight_append, weight_singleton, weight_cons, Int.add_assoc]

theorem popParen_weight {ops : List Char} {expStk : List Text} {s : SetState}
    (pops : popParen ops expStk = .ok s) : s.weight = SetState.weight ⟨ops, expStk⟩ + 2 := by
  induction ops generalizing expStk with
  | nil => cases pops
  | cons op ops ih =>
      rw [popParen] at pops
      split at pops
      next other => rw [ih pops, weight_pop]
      next paren =>
        obtain rfl : op = '(' := not_not.mp paren
        cases pops
        have paren_weight : elemWeight ['('] = -2 := by decide
        have stacked : weight (popped ('(' :: ops)) = -2 + weight (popped ops) := by
          rw [← paren_weight]
          exact weight_cons _ _
        rw [SetState.weight_mk, SetState.weight_mk, stacked]
        omega

theorem popProducts_weight (ops : List Char) (expStk : List Text) :
    (popProducts ops expStk).weight = SetState.weight ⟨ops, expStk⟩ := by
  induction ops generalizing expStk with
  | nil => rfl
  | cons op ops ih =>
      rw [popProducts]
      split
      · rw [ih, weight_pop]
      · rfl

theorem push_weight (op : Char) (s : SetState) :
    SetState.weight { s with ops := op :: s.ops } = s.weight + elemWeight [op] := by
  have stacked : weight (popped (op :: s.ops)) = elemWeight [op] + weight (popped s.ops) :=
    weight_cons _ _
  rw [SetState.weight_mk, stacked, SetState.weight, Int.add_assoc, Int.add_comm (elemWeight [op])]

theorem pushSum_weight (op : Char) (s : SetState) :
    (pushSum op s).weight = s.weight + elemWeight [op] := by
  unfold pushSum
  split
  next => exact push_weight op s
  next back ops stacked =>
    split
    · exact push_weight op s
    · exact (push_weight op _).trans (congrArg (· + _) (popProducts_weight s.ops s.expStk))

/-- Every token of an expression adds its weight. -/
theorem setElem_weight (s : SetState) (token : Symbol) (next : SetState)
    (step : setElem s (spelling token) = .ok next) : next.weight = s.weight + token.weight := by
  cases token with
  | literal n =>
      rw [setElem_literal] at step
      cases step
      have number : elemWeight n.digits = 1 := if_pos n.is_number
      rw [SetState.weight_mk, weight_append, weight_singleton, number, SetState.weight, Token.weight]
      exact Int.add_right_comm _ _ _
  | sum op =>
      rw [setElem_sum] at step
      cases step
      have operator : elemWeight [op.char] = -1 := by cases op <;> decide
      rw [pushSum_weight, operator, Token.weight]
  | product op =>
      rw [setElem_product] at step
      cases step
      have operator : elemWeight [op.char] = -1 := by cases op <;> decide
      rw [push_weight, operator, Token.weight]
  | opening =>
      rw [setElem_opening] at step
      cases step
      exact push_weight '(' s
  | closing =>
      rw [setElem_closing] at step
      exact popParen_weight step

theorem elemWeight_number {elem : Text} (number : digit (elem.headD '\x00') = true) :
    elemWeight elem = 1 := if_pos number

theorem elemWeight_operator {elem : Text} (symbol : ¬digit (elem.headD '\x00') = true)
    (operator : elem.headD '\x00' = '+' ∨ elem.headD '\x00' = '-' ∨ elem.headD '\x00' = '*' ∨
      elem.headD '\x00' = '/') : elemWeight elem = -1 :=
  (if_neg symbol).trans (if_pos operator)

section Values

variable {V : Type} (arith : Arithmetic V)

theorem calcElem_weight (resStk : List V) (elem : Text) (next : List V)
    (step : calcElem arith resStk elem = .ok next) :
    (next.length : Int) = resStk.length + elemWeight elem := by
  unfold calcElem at step
  rw [isNumber_zero, ok_bind] at step
  split at step
  next number =>
    obtain ⟨res, _, pushed⟩ := bind_eq_ok.mp step
    cases pushed
    rw [elemWeight_number number]
    rfl
  next symbol =>
    split at step
    next operand0 operand1 resStk =>
      have two : ((operand0 :: operand1 :: resStk).length : Int) = resStk.length + 2 := rfl
      have one (res : V) : ((res :: resStk).length : Int) = resStk.length + 1 := rfl
      rw [charAt_zero, ok_bind] at step
      rw [two]
      split at step
      next add =>
        cases step
        rw [one, elemWeight_operator symbol (Or.inl add)]
        omega
      split at step
      next sub =>
        cases step
        rw [one, elemWeight_operator symbol (Or.inr (Or.inl sub))]
        omega
      split at step
      next mul =>
        cases step
        rw [one, elemWeight_operator symbol (Or.inr (Or.inr (Or.inl mul)))]
        omega
      split at step
      next div =>
        obtain ⟨res, _, pushed⟩ := bind_eq_ok.mp step
        cases pushed
        rw [one, elemWeight_operator symbol (Or.inr (Or.inr (Or.inr div)))]
        omega
      next add sub mul div =>
        cases step
        have other : ¬(elem.headD '\x00' = '+' ∨ elem.headD '\x00' = '-' ∨
            elem.headD '\x00' = '*' ∨ elem.headD '\x00' = '/') := by
          simp only [add, sub, mul, div, or_self, not_false_eq_true]
        rw [elemWeight, if_neg symbol, if_neg other]
        omega
    next => cases step

/-- A calculation that returns a value has left one on its stack. -/
theorem calculate_weight {expStk : List Text} {v : V} (returns : calculate arith expStk = .ok v) :
    0 < weight expStk := by
  obtain ⟨resStk, run, back⟩ := bind_eq_ok.mp returns
  have left := foldlM_measure (calcElem_weight arith) run
  cases resStk with
  | nil => cases back
  | cons res resStk =>
      rw [List.length_cons, List.length_nil] at left
      rw [weight]
      omega

/-! ## The text of an expression -/

/-- Whether the tokens that are read of an expression are an expression themselves. -/
def Reads (e read : Expression) : Prop :=
  read.tokens = begun (intSize (text e).length) 0 e.tokens ∧ (text read).length < 2 ^ 31

theorem reads_self {e : Expression} (short : (text e).length < 2 ^ 31) : Reads e e := by
  refine ⟨(begun_all ?_).symm, short⟩
  rw [intSize_eq short]
  exact Int.ofNat_le.mpr (Nat.le_of_eq (Nat.zero_add _))

theorem setExp_text (e : Expression) : setExp (text e) = (do
    let elems ← splitExp (text e)
    let s ← elems.foldlM setElem ⟨[], []⟩
    .ok (popAll s.ops s.expStk)) := by
  have filled : ¬(text e).isEmpty = true := by
    intro none
    have no_tokens : e.tokens = [] := List.length_eq_zero_iff.mp (Nat.le_zero.mp
      (Nat.le_trans (length_le_spellings e.tokens) (Nat.le_of_eq (List.length_eq_zero_iff.mpr
        (List.isEmpty_iff.mp none)))))
    have one := e.tokens_weight
    rw [no_tokens] at one
    cases one
  exact if_neg filled

/-- The expression that is read is translated. -/
theorem setExp_reads {e read : Expression} (reads : Reads e read) :
    setExp (text e) = .ok (postfixCode read) := by
  obtain ⟨same, inside⟩ := reads
  have split := (splitExp_text e).1 (by rw [← same]; exact inside)
  rw [setExp_text, split, ok_bind, ← same]
  exact setElems_expression read

theorem evaluate_reads {e read : Expression} (reads : Reads e read) :
    evaluate arith (text e) = arith.value read.rightTree := by
  rw [evaluate, setExp_reads reads, ok_bind, calculate_postfixCode]

/-- When a value is returned, an expression has been read. -/
theorem evaluate_returns {e : Expression} {v : V} (returns : evaluate arith (text e) = .ok v) :
    ∃ read, Reads e read := by
  obtain ⟨expStk, translates, calculates⟩ := bind_eq_ok.mp returns
  rw [setExp_text] at translates
  have inside : (spellings (begun (intSize (text e).length) 0 e.tokens)).length < 2 ^ 31 := by
    by_contra outside
    obtain ⟨fault, stop⟩ := (splitExp_text e).2 (Nat.not_lt.mp outside)
    rw [stop] at translates
    cases translates
  rw [(splitExp_text e).1 inside, ok_bind, foldlM_spelling] at translates
  obtain ⟨s, run, popped⟩ := bind_eq_ok.mp translates
  cases popped
  have gained := foldlM_measure setElem_weight run
  have some_value := calculate_weight arith calculates
  rw [popAll_eq, weight_append] at some_value
  rcases e.prefix_cases (prefix_begun _ _ _) with ⟨read, same⟩ | nothing
  · refine ⟨read, same, ?_⟩
    rw [text, same]
    exact inside
  · have nothing_yet : SetState.weight ⟨[], []⟩ = 0 := rfl
    rw [nothing_yet, SetState.weight] at gained
    omega

end Values

end CppProject.ReversePolishExpression
