import CppProject.ReversePolishExpression.Splitting
import Mathlib.Tactic.Ring

/-!
# The translation and its value

`set_exp` leaves the operators of a run of `+` and `-`, or of `*` and `/`, on its stack until
the run ends.  What it writes is therefore the postfix code of the expression read from the
right: operators of equal precedence associate to the right.
-/

namespace CppProject.ReversePolishExpression

open Library Library.Checked

variable {level : Level}

/-! ## Two readings -/

abbrev Operator := SumOp ⊕ ProductOp

def Operator.text : Operator → Text
  | .inl op => [op.char]
  | .inr op => [op.char]

section Values

variable {V : Type}

def Arithmetic.apply (arith : Arithmetic V) : Operator → V → V → Except Fault V
  | .inl .add, x, y => .ok (arith.add x y)
  | .inl .sub, x, y => .ok (arith.sub x y)
  | .inr .mul, x, y => .ok (arith.mul x y)
  | .inr .div, x, y => arith.div x y

def Arithmetic.value (arith : Arithmetic V) (tree : Tree Operator Numeral) : Except Fault V :=
  tree.eval (fun n => arith.stod n.digits) arith.apply

end Values

/-- The value of an expression whose operators of equal precedence associate to the left. -/
def standardValue (e : Infix SumOp ProductOp Numeral level) : Except Fault ℚ :=
  exact.value e.leftTree

/-- The value of an expression whose operators of equal precedence associate to the right. -/
def regroupedValue (e : Infix SumOp ProductOp Numeral level) : Except Fault ℚ :=
  exact.value e.rightTree

def postfixCode (e : Infix SumOp ProductOp Numeral level) : List Text :=
  e.rightTree.code Numeral.digits Operator.text

/-! ## What waits on the stack -/

/-- The operators that `set_exp` has on its stack when it has read an expression; the last
one is at the head. -/
def pending : {level : Level} → Infix SumOp ProductOp Numeral level → List Char
  | _, .literal _ => []
  | _, .group _ => []
  | _, .factor _ => []
  | _, .times _ op rest => pending rest ++ [op.char]
  | _, .product p => pending p
  | _, .plus _ op rest => pending rest ++ [op.char]

def popped (ops : List Char) : List Text := ops.map fun op => [op]

/-- The elements that `set_exp` has written when it has read an expression. -/
def written : {level : Level} → Infix SumOp ProductOp Numeral level → List Text
  | _, .literal n => [n.digits]
  | _, .group e => written e ++ popped (pending e)
  | _, .factor f => written f
  | _, .times f _ rest => written f ++ written rest
  | _, .product p => written p
  | _, .plus p _ rest => (written p ++ popped (pending p)) ++ written rest

theorem popped_append (front back : List Char) :
    popped (front ++ back) = popped front ++ popped back := List.map_append

theorem pending_factor (f : Infix SumOp ProductOp Numeral .factor) : pending f = [] := by
  cases f <;> rfl

/-- What has been written and what waits are the postfix code. -/
theorem written_pending (e : Infix SumOp ProductOp Numeral level) :
    written e ++ popped (pending e) = postfixCode e := by
  induction e with
  | literal n => rfl
  | group e ih =>
      rw [written, pending, ih]
      exact List.append_nil _
  | factor f ih =>
      rw [pending_factor] at ih
      exact ih
  | times f op rest f_ih rest_ih =>
      have first : written f = postfixCode f := by
        rw [← f_ih, pending_factor]
        exact (List.append_nil _).symm
      rw [written, pending, popped_append, first, List.append_assoc, ← List.append_assoc (written rest),
        rest_ih]
      rfl
  | product p ih => exact ih
  | plus p op rest p_ih rest_ih =>
      rw [written, pending, popped_append, p_ih, List.append_assoc,
        ← List.append_assoc (written rest), rest_ih]
      rfl

/-- Only products wait behind a product. -/
theorem pending_product (p : Infix SumOp ProductOp Numeral .product) :
    ∀ op ∈ pending p, op = '*' ∨ op = '/' := by
  match p with
  | .factor f => exact List.forall_mem_nil _
  | .times f op rest =>
      intro c member
      rcases List.mem_append.mp member with inside | last
      · exact pending_product rest c inside
      · rw [List.mem_singleton.mp last]
        cases op <;> decide

/-- No parenthesis waits behind an expression. -/
theorem pending_no_paren (e : Infix SumOp ProductOp Numeral level) : '(' ∉ pending e := by
  induction e with
  | literal n => exact List.not_mem_nil
  | group e ih => exact List.not_mem_nil
  | factor f ih => exact List.not_mem_nil
  | times f op rest f_ih rest_ih =>
      rw [pending, List.mem_append, not_or]
      exact ⟨rest_ih, by cases op <;> decide⟩
  | product p ih => exact ih
  | plus p op rest p_ih rest_ih =>
      rw [pending, List.mem_append, not_or]
      exact ⟨rest_ih, by cases op <;> decide⟩

/-! ## The loops over the stack -/

theorem popAll_eq (ops : List Char) (expStk : List Text) : popAll ops expStk = expStk ++ popped ops := by
  induction ops generalizing expStk with
  | nil => exact (List.append_nil _).symm
  | cons op ops ih =>
      rw [popAll, ih, List.append_assoc]
      rfl

theorem popParen_eq {waiting : List Char} (no_paren : '(' ∉ waiting) (ops : List Char)
    (expStk : List Text) :
    popParen (waiting ++ '(' :: ops) expStk = .ok ⟨ops, expStk ++ popped waiting⟩ := by
  induction waiting generalizing expStk with
  | nil =>
      rw [List.nil_append, popParen, if_neg (not_not_intro rfl)]
      exact congrArg (fun stk => Except.ok (SetState.mk ops stk)) (List.append_nil _).symm
  | cons op waiting ih =>
      obtain ⟨other, later⟩ := not_or.mp (mt List.mem_cons.mpr no_paren)
      rw [List.cons_append, popParen, if_pos (Ne.symm other), ih later, List.append_assoc]
      rfl

/-- A stack on which the operands of a sum begin. -/
def SumStarts (ops : List Char) : Prop := ∀ op ∈ ops.head?, op = '(' ∨ op = '+' ∨ op = '-'

theorem popProducts_eq {waiting ops : List Char} (products : ∀ op ∈ waiting, op = '*' ∨ op = '/')
    (starts : SumStarts ops) (expStk : List Text) :
    popProducts (waiting ++ ops) expStk = ⟨ops, expStk ++ popped waiting⟩ := by
  induction waiting generalizing expStk with
  | nil =>
      rw [List.nil_append]
      cases ops with
      | nil => exact congrArg (SetState.mk []) (List.append_nil _).symm
      | cons op ops =>
          have stays : ¬(op = '*' ∨ op = '/') := by
            rcases starts op rfl with rfl | rfl | rfl <;> decide
          rw [popProducts, if_neg stays]
          exact congrArg (SetState.mk _) (List.append_nil _).symm
  | cons op waiting ih =>
      obtain ⟨first, later⟩ := List.forall_mem_cons.mp products
      rw [List.cons_append, popProducts, if_pos first, ih later, List.append_assoc]
      rfl

/-- An operator of a sum pops the finished product in front of it. -/
theorem pushSum_eq (op : SumOp) {waiting ops : List Char}
    (products : ∀ op ∈ waiting, op = '*' ∨ op = '/') (starts : SumStarts ops)
    (expStk : List Text) :
    pushSum op.char ⟨waiting ++ ops, expStk⟩ = ⟨op.char :: ops, expStk ++ popped waiting⟩ := by
  cases waiting with
  | nil =>
      rw [List.nil_append, pushSum]
      have same : expStk = expStk ++ popped [] := (List.append_nil _).symm
      cases ops with
      | nil => exact congrArg (SetState.mk _) same
      | cons back ops => exact (if_pos (starts back rfl)).trans (congrArg (SetState.mk _) same)
  | cons back waiting =>
      have product : ¬(back = '(' ∨ back = '+' ∨ back = '-') := by
        rcases products back List.mem_cons_self with rfl | rfl <;> decide
      have pops := popProducts_eq products starts expStk
      exact (if_neg product).trans
        (congrArg (fun s : SetState => { s with ops := op.char :: s.ops }) pops)

/-! ## One token -/

theorem isNumber_zero (elem : Text) : isNumber elem 0 = .ok (digit (elem.headD '\x00')) := by
  cases elem <;> rfl

theorem charAt_zero (elem : Text) : charAt elem 0 = .ok (elem.headD '\x00') := by
  cases elem <;> rfl

theorem Numeral.is_number (n : Numeral) : digit (n.digits.headD '\x00') = true := by
  have first := n.starts []
  rw [List.append_nil] at first
  exact first

theorem setElem_literal (n : Numeral) (s : SetState) :
    setElem s (spelling (.literal n)) = .ok { s with expStk := s.expStk ++ [n.digits] } := by
  rw [setElem, spelling, isNumber_zero, n.is_number]
  rfl

theorem setElem_sum (op : SumOp) (s : SetState) :
    setElem s (spelling (.sum op)) = .ok (pushSum op.char s) := by
  cases op <;> rfl

theorem setElem_product (op : ProductOp) (s : SetState) :
    setElem s (spelling (.product op)) = .ok { s with ops := op.char :: s.ops } := by
  cases op <;> rfl

theorem setElem_opening (s : SetState) :
    setElem s (spelling .opening) = .ok { s with ops := '(' :: s.ops } := rfl

theorem setElem_closing (s : SetState) : setElem s (spelling .closing) = popParen s.ops s.expStk := rfl

/-! ## Whole expressions -/

theorem foldlM_spelling (tokens : List Symbol) (s : SetState) :
    (tokens.map spelling).foldlM setElem s =
      tokens.foldlM (fun s token => setElem s (spelling token)) s := by
  induction tokens generalizing s with
  | nil => rfl
  | cons token rest ih =>
      rw [List.map_cons, List.foldlM_cons, List.foldlM_cons]
      exact congrArg (setElem s (spelling token) >>= ·) (funext ih)

/-- Reading an expression writes and stacks its own elements, on top of what was there. -/
theorem setElem_tokens (e : Infix SumOp ProductOp Numeral level) {ops : List Char}
    (starts : level = .sum → SumStarts ops) (expStk : List Text) :
    e.tokens.foldlM (fun s token => setElem s (spelling token)) ⟨ops, expStk⟩ =
      .ok ⟨pending e ++ ops, expStk ++ written e⟩ := by
  induction e generalizing ops expStk with
  | literal n =>
      rw [Infix.tokens, List.foldlM_cons, setElem_literal]
      rfl
  | group e ih =>
      have inner : SumStarts ('(' :: ops) := fun op head => Or.inl (Option.some.inj head).symm
      rw [Infix.tokens, List.foldlM_cons, setElem_opening, ok_bind, List.foldlM_append,
        ih (fun _ => inner), ok_bind, List.foldlM_cons, setElem_closing,
        popParen_eq (pending_no_paren e), List.append_assoc]
      rfl
  | factor f ih =>
      have read := @ih ops (fun impossible => by cases impossible) expStk
      rw [pending_factor] at read
      exact read
  | times f op rest f_ih rest_ih =>
      have first := @f_ih ops (fun impossible => by cases impossible) expStk
      rw [Infix.tokens, List.foldlM_append, first, pending_factor, ok_bind, List.foldlM_cons,
        setElem_product, ok_bind, rest_ih (fun impossible => by cases impossible), pending, written,
        List.append_assoc, List.append_assoc]
      rfl
  | product p ih => exact ih (fun impossible => by cases impossible) expStk
  | plus p op rest p_ih rest_ih =>
      have first := @p_ih ops (fun impossible => by cases impossible) expStk
      have next : SumStarts (op.char :: ops) := by
        intro c head
        rw [← Option.some.inj head]
        cases op <;> decide
      rw [Infix.tokens, List.foldlM_append, first, ok_bind, List.foldlM_cons, setElem_sum,
        pushSum_eq op (pending_product p) (starts rfl), ok_bind, rest_ih (fun _ => next), pending,
        written]
      simp only [List.append_assoc, List.cons_append, List.nil_append]

/-- `set_exp` translates an expression to the postfix code of its reading from the right. -/
theorem setElems_expression (e : Expression) :
    (e.tokens.map spelling).foldlM setElem ⟨[], []⟩ >>= (fun s => .ok (popAll s.ops s.expStk)) =
      .ok (postfixCode e) := by
  have empty : SumStarts [] := fun op impossible => by cases impossible
  rw [foldlM_spelling, setElem_tokens e (fun _ => empty), ok_bind, popAll_eq, List.append_nil,
    List.nil_append, written_pending]

/-! ## `calculate` -/

section Calculate

variable {V : Type} (arith : Arithmetic V)

theorem calcElem_literal (n : Numeral) (resStk : List V) :
    calcElem arith resStk n.digits = arith.stod n.digits >>= fun v => .ok (v :: resStk) := by
  unfold calcElem
  rw [isNumber_zero, n.is_number]
  rfl

theorem calcElem_operator (op : Operator) (x y : V) (resStk : List V) :
    calcElem arith (y :: x :: resStk) op.text = arith.apply op x y >>= fun z => .ok (z :: resStk) := by
  rcases op with op | op <;> cases op <;> rfl

/-- `calculate` computes the value of the expression read from the right. -/
theorem calculate_postfixCode (e : Infix SumOp ProductOp Numeral level) :
    calculate arith (postfixCode e) = arith.value e.rightTree := by
  rw [calculate, postfixCode, Tree.run_code (calcElem_literal arith) (calcElem_operator arith)]
  change (arith.value _ >>= _) >>= _ = _
  cases arith.value e.rightTree <;> rfl

end Calculate

end CppProject.ReversePolishExpression
