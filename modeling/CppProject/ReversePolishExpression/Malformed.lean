import CppProject.ReversePolishExpression.Soundness
import Mathlib.Data.List.Count
import Mathlib.Data.List.SplitBy

/-!
# Strings that are no expressions

`set_exp` takes any string.  It reads numbers as long as they are, and every other character on its
own; characters that mean nothing are dropped with a message.  What can go wrong is a parenthesis
that closes nothing: it pops the operator stack until that is empty, and then once more.
-/

namespace CppProject.ReversePolishExpression

open Library Library.Checked
open scoped List

/-- The elements of a string: a number is as long as it can be, anything else is one character. -/
def elementsOf (exp : Text) : List Text := exp.splitBy fun a b => digit a && digit b

theorem elementsOf_symbol {c : Char} (no_digit : digit c = false) (rest : Text) :
    elementsOf (c :: rest) = [c] :: elementsOf rest := by
  have apart : ∀ a ∈ [c].getLast?, ∀ b ∈ rest.head?, (digit a && digit b) = false := by
    intro a last b _
    cases last
    change (digit c && digit b) = false
    rw [no_digit, Bool.false_and]
  exact List.splitBy_append apart

theorem elementsOf_number {digits rest : Text} (some_digit : digits ≠ [])
    (all_digits : ∀ c ∈ digits, digit c = true) (ends : digit (rest.headD '\x00') = false) :
    elementsOf (digits ++ rest) = digits :: elementsOf rest := by
  have apart : ∀ a ∈ digits.getLast?, ∀ b ∈ rest.head?, (digit a && digit b) = false := by
    intro a _ b first
    rw [List.headD_eq_head?_getD, Option.mem_def.mp first, Option.getD_some] at ends
    rw [ends, Bool.and_false]
  have together : digits.IsChain fun a b => (digit a && digit b) = true := by
    refine List.Pairwise.isChain (List.pairwise_of_forall_mem_list fun a first b second => ?_)
    rw [all_digits a first, all_digits b second]
    rfl
  rw [elementsOf, List.splitBy_append apart, List.splitBy_of_isChain some_digit together]
  rfl

/-- A string is empty, or it begins with a character or a number in front of another string. -/
theorem elements_induction {P : Text → Prop} (nil : P [])
    (symbol : ∀ c rest, digit c = false → P rest → P (c :: rest))
    (number : ∀ digits rest : Text, digits ≠ [] → (∀ c ∈ digits, digit c = true) →
      digit (rest.headD '\x00') = false → P rest → P (digits ++ rest)) (exp : Text) : P exp := by
  induction size : exp.length using Nat.strong_induction_on generalizing exp with
  | _ n ih =>
      cases exp with
      | nil => exact nil
      | cons c rest =>
          cases kind : digit c with
          | false =>
              refine symbol c rest kind (ih rest.length ?_ rest rfl)
              rw [← size, List.length_cons]
              exact Nat.lt_succ_self _
          | true =>
              have whole := List.takeWhile_append_dropWhile (p := digit) (l := c :: rest)
              have some_digit : (c :: rest).takeWhile digit ≠ [] := by
                rw [List.takeWhile_cons_of_pos kind]
                exact List.cons_ne_nil _ _
              have shorter : ((c :: rest).dropWhile digit).length < n := by
                have length := congrArg List.length whole
                have := List.length_pos_of_ne_nil some_digit
                rw [List.length_append, size] at length
                omega
              rw [← whole]
              refine number _ _ some_digit (fun a member => List.mem_takeWhile_imp member) ?_
                (ih _ shorter _ rfl)
              cases behind : (c :: rest).dropWhile digit with
              | nil => rfl
              | cons next later =>
                  have stops := List.head?_dropWhile_not digit (c :: rest)
                  rw [behind] at stops
                  exact stops

/-! ## Splitting -/

/-- The loop over the elements takes all of them, when the length is an `int`. -/
theorem split_all {exp front back : Text} (split : exp = front ++ back) (short : exp.length < 2 ^ 31)
    {fuel : Nat} (enough : back.length < fuel) (res : List Text) :
    whileLoop (splitRound exp exp.length) fuel (res, front.length) =
      .ok (res ++ elementsOf back, exp.length) := by
  induction back using elements_induction generalizing front fuel res with
  | nil =>
      obtain ⟨fuel, rfl⟩ := Nat.exists_eq_succ_of_ne_zero (Nat.ne_of_gt enough)
      rw [List.append_nil] at split
      have finished : ¬(front.length : Int) < exp.length := by
        rw [split]
        exact lt_irrefl _
      rw [whileLoop, splitRound, if_neg finished, split]
      exact congrArg (fun all => Except.ok (all, front.length)) (List.append_nil res).symm
  | symbol c rest no_digit ih =>
      obtain ⟨fuel, rfl⟩ := Nat.exists_eq_succ_of_ne_zero (Nat.ne_zero_of_lt enough)
      have length := congrArg List.length split
      rw [List.length_append, List.length_cons] at length
      have more : (front.length : Int) < exp.length := by omega
      have inside : front.length < 2 ^ 31 := by omega
      have behind : exp = (front ++ [c]) ++ rest := by
        rw [split, List.append_assoc]
        rfl
      have later := ih behind (Nat.lt_of_succ_lt_succ enough) (res ++ [[c]])
      rw [List.length_append, List.length_singleton, List.append_assoc] at later
      rw [whileLoop, splitRound, if_pos more, isNumber_split split inside, charAt_split split inside,
        List.headD_cons, no_digit, elementsOf_symbol no_digit]
      exact later
  | number digits rest some_digit all_digits ends ih =>
      obtain ⟨fuel, rfl⟩ := Nat.exists_eq_succ_of_ne_zero (Nat.ne_zero_of_lt enough)
      have length := congrArg List.length split
      rw [List.length_append, List.length_append] at length
      rw [List.length_append] at enough
      have positive := List.length_pos_of_ne_nil some_digit
      have more : (front.length : Int) < exp.length := by omega
      have inside : front.length < 2 ^ 31 := by omega
      have first : digit ((digits ++ rest).headD '\x00') = true := by
        obtain ⟨c, others, rfl⟩ := List.exists_cons_of_ne_nil some_digit
        exact all_digits c List.mem_cons_self
      have behind : exp = (front ++ digits) ++ rest := by
        rw [split, List.append_assoc]
      have left : rest.length < fuel := by omega
      have later := ih behind left (res ++ [digits])
      rw [List.length_append, List.append_assoc] at later
      have long : digits.length < exp.length + 1 := by omega
      have fits : front.length + digits.length < 2 ^ 31 := by omega
      have reads := (digit_loop split all_digits ends long []).1 fits
      rw [whileLoop, splitRound, if_pos more, isNumber_split split inside, first, ok_bind, if_pos rfl,
        reads, elementsOf_number some_digit all_digits ends]
      exact later

/-- `_split_exp` on any string whose length is an `int`. -/
theorem splitExp_eq {exp : Text} (short : exp.length < 2 ^ 31) : splitExp exp = .ok (elementsOf exp) := by
  unfold splitExp
  rw [intSize_eq short]
  have run := @split_all exp [] exp rfl short _ (Nat.lt_succ_self _) []
  rw [List.length_nil] at run
  rw [run]
  rfl

/-! ## The stack -/

/-- A parenthesis closes the last one that is open, or pops an empty stack. -/
theorem popParen_cases (ops : List Char) (expStk : List Text) :
    (ops.count '(' = 0 ∧ popParen ops expStk = .error .outOfBounds) ∨
      ∃ waiting rest, ops = waiting ++ '(' :: rest ∧ '(' ∉ waiting ∧
        popParen ops expStk = .ok ⟨rest, expStk ++ popped waiting⟩ := by
  by_cases opened : '(' ∈ ops
  · refine Or.inr ?_
    obtain ⟨waiting, rest, rfl, first⟩ := List.eq_append_cons_of_mem opened
    exact ⟨waiting, rest, rfl, first, popParen_eq first rest expStk⟩
  · refine Or.inl ⟨List.count_eq_zero.mpr opened, ?_⟩
    induction ops generalizing expStk with
    | nil => rfl
    | cons op ops ih =>
        obtain ⟨other, later⟩ := not_or.mp (mt List.mem_cons.mpr opened)
        rw [popParen, if_pos (Ne.symm other)]
        exact ih _ later

theorem popProducts_cases (ops : List Char) (expStk : List Text) :
    ∃ waiting rest, ops = waiting ++ rest ∧ (∀ op ∈ waiting, op = '*' ∨ op = '/') ∧
      popProducts ops expStk = ⟨rest, expStk ++ popped waiting⟩ := by
  induction ops generalizing expStk with
  | nil => exact ⟨[], [], rfl, List.forall_mem_nil _, congrArg (SetState.mk []) (List.append_nil _).symm⟩
  | cons op ops ih =>
      rw [popProducts]
      split
      next product =>
          obtain ⟨waiting, rest, rfl, products, run⟩ := ih (expStk ++ [[op]])
          refine ⟨op :: waiting, rest, rfl, List.forall_mem_cons.mpr ⟨product, products⟩, ?_⟩
          rw [run, List.append_assoc]
          rfl
      next =>
          exact ⟨[], op :: ops, rfl, List.forall_mem_nil _,
            congrArg (SetState.mk _) (List.append_nil _).symm⟩

/-- An operator of a sum pops the products on top of the stack, if it pops anything. -/
theorem pushSum_cases (op : Char) (s : SetState) :
    ∃ waiting rest, s.ops = waiting ++ rest ∧ (∀ op ∈ waiting, op = '*' ∨ op = '/') ∧
      pushSum op s = ⟨op :: rest, s.expStk ++ popped waiting⟩ := by
  obtain ⟨ops, expStk⟩ := s
  unfold pushSum
  cases ops with
  | nil => exact ⟨[], [], rfl, List.forall_mem_nil _, congrArg (SetState.mk _) (List.append_nil _).symm⟩
  | cons back ops =>
      simp only
      split
      next =>
          exact ⟨[], back :: ops, rfl, List.forall_mem_nil _,
            congrArg (SetState.mk _) (List.append_nil _).symm⟩
      next =>
          obtain ⟨waiting, rest, whole, products, run⟩ := popProducts_cases (back :: ops) expStk
          exact ⟨waiting, rest, whole, products, by rw [run]⟩

/-! ## Parentheses -/

/-- A parenthesis that closes nothing, when there are some open ones in front. -/
def overclosed : Nat → Text → Bool
  | _, [] => false
  | depth, c :: rest =>
      if c = '(' then overclosed (depth + 1) rest
      else if c = ')' then depth = 0 || overclosed (depth - 1) rest
      else overclosed depth rest

theorem overclosed_iff (depth : Nat) (exp : Text) :
    overclosed depth exp = true ↔ ∃ front, front <+: exp ∧ depth + front.count '(' < front.count ')' := by
  induction exp generalizing depth with
  | nil =>
      refine iff_of_false Bool.false_ne_true ?_
      rintro ⟨front, before, impossible⟩
      rw [List.prefix_nil.mp before] at impossible
      exact absurd impossible (Nat.not_lt_zero _)
  | cons c rest ih =>
      have behind : (∃ front, front <+: c :: rest ∧ depth + front.count '(' < front.count ')') ↔
          ∃ front, front <+: rest ∧ depth + (c :: front).count '(' < (c :: front).count ')' := by
        constructor
        · rintro ⟨front, before, more⟩
          rcases List.prefix_cons_iff.mp before with rfl | ⟨front, rfl, inner⟩
          · exact absurd more (Nat.not_lt_zero _)
          · exact ⟨front, inner, more⟩
        · rintro ⟨front, inner, more⟩
          exact ⟨c :: front, (List.prefix_cons_inj c).mpr inner, more⟩
      rw [behind, overclosed]
      split
      next opens =>
          subst opens
          rw [ih]
          have counts (front : Text) : depth + ('(' :: front).count '(' < ('(' :: front).count ')' ↔
              depth + 1 + front.count '(' < front.count ')' := by
            rw [List.count_cons_self, List.count_cons_of_ne (by decide)]
            omega
          simp only [counts]
      next =>
          split
          next closes =>
              subst closes
              rw [Bool.or_eq_true, decide_eq_true_iff, ih]
              have counts (front : Text) : depth + (')' :: front).count '(' < (')' :: front).count ')' ↔
                  depth + front.count '(' < front.count ')' + 1 := by
                rw [List.count_cons_self, List.count_cons_of_ne (by decide)]
              simp only [counts]
              constructor
              · rintro (none_open | ⟨front, inner, more⟩)
                · exact ⟨[], List.nil_prefix, by rw [none_open]; exact Nat.zero_lt_one⟩
                · exact ⟨front, inner, by omega⟩
              · rintro ⟨front, inner, more⟩
                by_cases none_open : depth = 0
                · exact Or.inl none_open
                · exact Or.inr ⟨front, inner, by omega⟩
          next no_open no_close =>
              rw [ih]
              have counts (front : Text) : depth + (c :: front).count '(' < (c :: front).count ')' ↔
                  depth + front.count '(' < front.count ')' := by
                rw [List.count_cons_of_ne no_open, List.count_cons_of_ne no_close]
              simp only [counts]

theorem overclosed_digits (depth : Nat) {digits : Text} (all_digits : ∀ c ∈ digits, digit c = true)
    (rest : Text) : overclosed depth (digits ++ rest) = overclosed depth rest := by
  induction digits with
  | nil => rfl
  | cons c digits ih =>
      obtain ⟨first, later⟩ := List.forall_mem_cons.mp all_digits
      have no_open : c ≠ '(' := by
        rintro rfl
        cases first
      have no_close : c ≠ ')' := by
        rintro rfl
        cases first
      rw [List.cons_append, overclosed, if_neg no_open, if_neg no_close]
      exact ih later

/-! ## One element -/

/-- What has been read, and what of it has been written or waits. -/
structure Carried (elems : List Text) (s : SetState) : Prop where
  literals : s.expStk.filter isLiteral = elems.filter isLiteral
  operators : (s.expStk ++ popped s.ops).filter isOperator ~ elems.filter isOperator
  unclosed : s.ops.count '(' + elems.count [')'] = elems.count ['(']
  written : ∀ elem ∈ s.expStk, isLiteral elem ∨ isOperator elem
  waiting : ∀ op ∈ s.ops, op = '(' ∨ isOperator [op]

variable {elems : List Text} {s : SetState}

theorem not_operator_of_literal {elem : Text} (literal : isLiteral elem = true) : isOperator elem = false := by
  cases plain : isOperator elem with
  | false => rfl
  | true =>
      simp only [isOperator, Bool.or_eq_true, decide_eq_true_eq] at plain
      rcases plain with ((rfl | rfl) | rfl) | rfl <;> cases literal

theorem setElem_of_literal {elem : Text} (literal : isLiteral elem = true) (s : SetState) :
    setElem s elem = .ok { s with expStk := s.expStk ++ [elem] } := by
  have number : digit (elem.headD '\x00') = true := literal
  rw [setElem, isNumber_zero, number]
  rfl

/-- A number is written at once. -/
theorem Carried.literal (carried : Carried elems s) {elem : Text} (literal : isLiteral elem = true) :
    Carried (elems ++ [elem]) { s with expStk := s.expStk ++ [elem] } := by
  have plain := not_operator_of_literal literal
  have no_open : elem ≠ ['('] := by
    rintro rfl
    cases literal
  have no_close : elem ≠ [')'] := by
    rintro rfl
    cases literal
  have no_operator : [elem].filter isOperator = [] := by
    rw [List.filter_singleton, plain]
    rfl
  constructor
  · rw [List.filter_append, List.filter_append, carried.literals]
  · change (s.expStk ++ [elem] ++ popped s.ops).filter isOperator ~ _
    rw [List.filter_append, List.filter_append, List.filter_append, no_operator, List.append_nil,
      List.append_nil, ← List.filter_append]
    exact carried.operators
  · have opens : [elem].count ['('] = 0 := List.count_eq_zero.mpr fun same =>
      no_open (List.mem_singleton.mp same).symm
    have closes : [elem].count [')'] = 0 := List.count_eq_zero.mpr fun same =>
      no_close (List.mem_singleton.mp same).symm
    rw [List.count_append, List.count_append, opens, closes]
    exact carried.unclosed
  · exact List.forall_mem_append.mpr ⟨carried.written, List.forall_mem_singleton.mpr (Or.inl literal)⟩
  · exact carried.waiting

/-- What is popped from the stack is written. -/
theorem Carried.pop (carried : Carried elems s) {waiting rest : List Char} (whole : s.ops = waiting ++ rest)
    (no_paren : '(' ∉ waiting) : Carried elems ⟨rest, s.expStk ++ popped waiting⟩ := by
  have operators : ∀ op ∈ waiting, isOperator [op] = true := fun op member =>
    (carried.waiting op (whole ▸ List.mem_append_left _ member)).resolve_left fun same =>
      no_paren (same ▸ member)
  constructor
  · have no_literal : (popped waiting).filter isLiteral = [] := by
      refine List.filter_eq_nil_iff.mpr fun elem member literal => ?_
      obtain ⟨op, inside, rfl⟩ := List.mem_map.mp member
      have operator := operators op inside
      rw [not_operator_of_literal literal] at operator
      cases operator
    rw [List.filter_append, no_literal, List.append_nil]
    exact carried.literals
  · have same := carried.operators
    rwa [whole, popped_append, ← List.append_assoc] at same
  · have same := carried.unclosed
    rwa [whole, List.count_append, List.count_eq_zero.mpr no_paren, Nat.zero_add] at same
  · refine List.forall_mem_append.mpr ⟨carried.written, fun elem member => ?_⟩
    obtain ⟨op, inside, rfl⟩ := List.mem_map.mp member
    exact Or.inr (operators op inside)
  · exact fun op member => carried.waiting op (whole ▸ List.mem_append_right _ member)

/-- A character that is pushed waits. -/
theorem Carried.push (carried : Carried elems s) {op : Char} (kind : op = '(' ∨ isOperator [op] = true)
    (no_close : op ≠ ')') : Carried (elems ++ [[op]]) { s with ops := op :: s.ops } := by
  have no_literal : [[op]].filter isLiteral = [] := by
    refine List.filter_eq_nil_iff.mpr fun elem member literal => ?_
    obtain rfl := List.mem_singleton.mp member
    rcases kind with rfl | operator
    · cases literal
    · rw [not_operator_of_literal literal] at operator
      cases operator
  constructor
  · rw [List.filter_append, no_literal, List.append_nil]
    exact carried.literals
  · have moved : s.expStk ++ popped (op :: s.ops) ~ (s.expStk ++ popped s.ops) ++ [[op]] := by
      rw [List.append_assoc]
      exact List.Perm.append_left _ (List.perm_append_singleton [op] (popped s.ops)).symm
    refine (moved.filter isOperator).trans ?_
    rw [List.filter_append, List.filter_append elems]
    exact carried.operators.append_right _
  · have closes : [[op]].count [')'] = 0 := List.count_eq_zero.mpr fun same =>
      no_close (List.singleton_inj.mp (List.mem_singleton.mp same)).symm
    rw [List.count_append, List.count_append, closes, List.count_cons, List.count_singleton]
    have same := carried.unclosed
    have equal : (op == '(') = ([op] == ['(']) := by simp
    rw [equal]
    omega
  · exact carried.written
  · exact List.forall_mem_cons.mpr ⟨kind, carried.waiting⟩

/-- A parenthesis that closes takes the open one away. -/
theorem Carried.close {rest : List Char} {expStk : List Text} (carried : Carried elems ⟨'(' :: rest, expStk⟩) :
    Carried (elems ++ [[')']]) ⟨rest, expStk⟩ := by
  constructor
  · rw [List.filter_append]
    exact carried.literals.trans (List.append_nil _).symm
  · have same := carried.operators
    rw [List.filter_append] at same ⊢
    rw [List.filter_append]
    exact same.trans (List.Perm.of_eq (List.append_nil _).symm)
  · have same := carried.unclosed
    rw [List.count_cons_self] at same
    rw [List.count_append, List.count_append]
    change rest.count '(' + (elems.count [')'] + 1) = elems.count ['('] + 0
    omega
  · exact carried.written
  · exact (List.forall_mem_cons.mp carried.waiting).2

/-- A character that means nothing is dropped. -/
theorem Carried.drop (carried : Carried elems s) {c : Char} (no_literal : isLiteral [c] = false)
    (no_operator : isOperator [c] = false) (no_open : c ≠ '(') (no_close : c ≠ ')') :
    Carried (elems ++ [[c]]) s := by
  have literals : [[c]].filter isLiteral = [] := by
    rw [List.filter_singleton, no_literal]
    rfl
  have operators : [[c]].filter isOperator = [] := by
    rw [List.filter_singleton, no_operator]
    rfl
  have opens : [[c]].count ['('] = 0 := List.count_eq_zero.mpr fun same =>
    no_open (List.singleton_inj.mp (List.mem_singleton.mp same)).symm
  have closes : [[c]].count [')'] = 0 := List.count_eq_zero.mpr fun same =>
    no_close (List.singleton_inj.mp (List.mem_singleton.mp same)).symm
  constructor
  · rw [List.filter_append, literals, List.append_nil]
    exact carried.literals
  · rw [List.filter_append elems, operators, List.append_nil]
    exact carried.operators
  · rw [List.count_append, List.count_append, opens, closes]
    exact carried.unclosed
  · exact carried.written
  · exact carried.waiting

/-- A character that is read on its own. -/
theorem setElem_symbol (carried : Carried elems s) {c : Char} (no_digit : digit c = false) (rest : Text) :
    (overclosed (s.ops.count '(') (c :: rest) = true ∧ setElem s [c] = .error .outOfBounds) ∨
      ∃ s', setElem s [c] = .ok s' ∧ Carried (elems ++ [[c]]) s' ∧
        overclosed (s.ops.count '(') (c :: rest) = overclosed (s'.ops.count '(') rest := by
  have number : isNumber [c] 0 = .ok false := by
    rw [isNumber_zero]
    exact congrArg Except.ok no_digit
  have front : charAt [c] 0 = .ok c := charAt_zero [c]
  rw [setElem, number, front, overclosed]
  simp only [ok_bind, Bool.false_eq_true, if_false]
  by_cases opens : c = '('
  · subst opens
    refine Or.inr ⟨_, rfl, carried.push (Or.inl rfl) (by decide), ?_⟩
    rw [if_pos rfl, List.count_cons_self]
  by_cases closes : c = ')'
  · subst closes
    simp only [opens, if_false, if_true]
    rcases popParen_cases s.ops s.expStk with ⟨none_open, stop⟩ | ⟨waiting, left, whole, no_paren, run⟩
    · refine Or.inl ⟨?_, stop⟩
      rw [none_open]
      rfl
    · refine Or.inr ⟨_, run, (carried.pop whole no_paren).close, ?_⟩
      rw [whole, List.count_append, List.count_eq_zero.mpr no_paren, List.count_cons_self, Nat.zero_add]
      rfl
  simp only [opens, closes, if_false]
  by_cases sum : c = '+' ∨ c = '-'
  · rw [if_pos sum]
    obtain ⟨waiting, left, whole, products, run⟩ := pushSum_cases c s
    have no_paren : '(' ∉ waiting := fun member => by
      rcases products _ member with impossible | impossible <;> cases impossible
    have operator : isOperator [c] = true := by
      rcases sum with rfl | rfl <;> rfl
    refine Or.inr ⟨_, congrArg Except.ok run, (carried.pop whole no_paren).push (Or.inr operator) closes, ?_⟩
    rw [whole, List.count_append, List.count_eq_zero.mpr no_paren, Nat.zero_add,
      List.count_cons_of_ne (fun same => opens same)]
  by_cases product : c = '*' ∨ c = '/'
  · rw [if_neg sum, if_pos product]
    have operator : isOperator [c] = true := by
      rcases product with rfl | rfl <;> rfl
    refine Or.inr ⟨_, rfl, carried.push (Or.inr operator) closes, ?_⟩
    rw [List.count_cons_of_ne (fun same => opens same)]
  · rw [if_neg sum, if_neg product]
    have no_operator : isOperator [c] = false := by
      simp only [isOperator, List.cons.injEq, and_true, Bool.or_eq_false_iff, decide_eq_false_iff_not]
      tauto
    exact Or.inr ⟨s, rfl, carried.drop no_digit no_operator opens closes, rfl⟩

/-! ## All elements -/

/-- The elements of a string are read up to the first parenthesis that closes nothing. -/
theorem setElems_cases (exp : Text) (carried : Carried elems s) :
    (overclosed (s.ops.count '(') exp = true ∧
      (elementsOf exp).foldlM setElem s = .error .outOfBounds) ∨
    (overclosed (s.ops.count '(') exp = false ∧
      ∃ s', (elementsOf exp).foldlM setElem s = .ok s' ∧ Carried (elems ++ elementsOf exp) s') := by
  induction exp using elements_induction generalizing elems s with
  | nil =>
      refine Or.inr ⟨rfl, s, rfl, ?_⟩
      rw [elementsOf, List.splitBy_nil, List.append_nil]
      exact carried
  | symbol c rest no_digit ih =>
      rw [elementsOf_symbol no_digit, List.foldlM_cons]
      rcases setElem_symbol carried no_digit rest with ⟨closed, stop⟩ | ⟨next, run, later, same⟩
      · rw [stop]
        exact Or.inl ⟨closed, rfl⟩
      · rw [run, ok_bind, same]
        have behind := ih later
        rwa [List.append_assoc] at behind
  | number digits rest some_digit all_digits ends ih =>
      have literal : isLiteral digits = true := by
        obtain ⟨c, others, rfl⟩ := List.exists_cons_of_ne_nil some_digit
        exact all_digits c List.mem_cons_self
      rw [elementsOf_number some_digit all_digits ends, List.foldlM_cons, setElem_of_literal literal, ok_bind,
        overclosed_digits _ all_digits]
      have behind := ih (carried.literal literal)
      rwa [List.append_assoc] at behind

/-- What comes back of any string: the numbers in their order, the operators as often as they were
there, and the parentheses that are never closed. -/
structure Survives (elems expStk : List Text) : Prop where
  literals : expStk.filter isLiteral = elems.filter isLiteral
  operators : expStk.filter isOperator ~ elems.filter isOperator
  unclosed : expStk.count ['('] + elems.count [')'] = elems.count ['(']
  nothing_else : ∀ elem ∈ expStk, isLiteral elem ∨ isOperator elem ∨ elem = ['(']

theorem Carried.survives (carried : Carried elems s) : Survives elems (s.expStk ++ popped s.ops) := by
  constructor
  · have no_literal : (popped s.ops).filter isLiteral = [] := by
      refine List.filter_eq_nil_iff.mpr fun elem member literal => ?_
      obtain ⟨op, inside, rfl⟩ := List.mem_map.mp member
      rcases carried.waiting op inside with rfl | operator
      · cases literal
      · rw [not_operator_of_literal literal] at operator
        cases operator
    rw [List.filter_append, no_literal, List.append_nil]
    exact carried.literals
  · exact carried.operators
  · have none_written : s.expStk.count ['('] = 0 := List.count_eq_zero.mpr fun member => by
      rcases carried.written _ member with impossible | impossible <;> cases impossible
    have waits : (popped s.ops).count ['('] = s.ops.count '(' :=
      List.count_map_of_injective s.ops (fun op => [op]) List.singleton_injective '('
    rw [List.count_append, none_written, waits, Nat.zero_add]
    exact carried.unclosed
  · refine List.forall_mem_append.mpr ⟨fun elem member => ?_, fun elem member => ?_⟩
    · exact (carried.written elem member).imp_right Or.inl
    · obtain ⟨op, inside, rfl⟩ := List.mem_map.mp member
      rcases carried.waiting op inside with rfl | operator
      · exact Or.inr (Or.inr rfl)
      · exact Or.inr (Or.inl operator)

/-- `set_exp` on any string whose length is an `int`: it pops an empty operator stack if and only if
somewhere more parentheses have been closed than opened, and otherwise nothing of the string is lost
but the parentheses that match and the characters that mean nothing. -/
theorem set_exp_any_string {exp : Text} (short : exp.length < 2 ^ 31) :
    ((∃ front, front <+: exp ∧ front.count '(' < front.count ')') ∧ setExp exp = .error .outOfBounds) ∨
    ((∀ front, front <+: exp → front.count ')' ≤ front.count '(') ∧
      ∃ expStk, setExp exp = .ok expStk ∧ Survives (elementsOf exp) expStk) := by
  have start : Carried [] ⟨[], []⟩ :=
    ⟨rfl, List.Perm.refl _, rfl, List.forall_mem_nil _, List.forall_mem_nil _⟩
  have ahead := overclosed_iff 0 exp
  simp only [Nat.zero_add] at ahead
  have unfolded : setExp exp = (do
      let s ← (elementsOf exp).foldlM setElem ⟨[], []⟩
      .ok (popAll s.ops s.expStk)) := by
    unfold setExp
    split
    next empty =>
        rw [List.isEmpty_iff.mp empty]
        rfl
    next => rw [splitExp_eq short, ok_bind]
  rw [unfolded]
  rcases setElems_cases exp start with ⟨closed, stop⟩ | ⟨closed, s, run, carried⟩
  · rw [stop]
    exact Or.inl ⟨ahead.mp closed, rfl⟩
  · rw [run, ok_bind, popAll_eq]
    refine Or.inr ⟨fun front before => ?_, _, rfl, carried.survives⟩
    by_contra more
    have impossible := ahead.mpr ⟨front, before, Nat.not_le.mp more⟩
    exact Bool.false_ne_true (closed.symm.trans impossible)

/-- The string `a(1`, in which a parenthesis is never closed: it stays behind the number. -/
theorem set_exp_any_string_unclosed :
    (∀ front, front <+: ['a', '(', '1'] → front.count ')' ≤ front.count '(') ∧
      setExp ['a', '(', '1'] = .ok [['1'], ['(']] ∧
      Survives (elementsOf ['a', '(', '1']) [['1'], ['(']] := by
  have run : setExp ['a', '(', '1'] = .ok [['1'], ['(']] := by decide +kernel
  rcases @set_exp_any_string ['a', '(', '1'] (by decide) with ⟨_, stop⟩ | ⟨fronts, _, returned, survives⟩
  · rw [run] at stop
    cases stop
  · cases run.symm.trans returned
    exact ⟨fronts, run, survives⟩

end CppProject.ReversePolishExpression
