import CppProject.Library.Loop
import CppProject.Library.Text
import Mathlib.Data.Rat.Defs

/-!
# `ReversePolishExpression`

The calculator, function by function.  The arithmetic of its values is a parameter, and
exact arithmetic stops at a division by zero.  An operator stack is a list with its back at
the head, as is the stack of values; reading or popping the back of an empty one is a fault.
-/

namespace CppProject.ReversePolishExpression

open Library Library.Checked

/-- `str[i]` for an `int` that counts up from zero: behind the last character there is a
zero, and an index that has run over its largest value is negative. -/
def charAt (str : Text) (i : Nat) : Except Fault Char :=
  if i < 2 ^ 31 ∧ i ≤ str.length then .ok (str.getD i '\x00') else .error .outOfBounds

def digit (c : Char) : Bool := '0' ≤ c && c ≤ '9'

def isNumber (str : Text) (start : Nat) : Except Fault Bool := do
  let c ← charAt str start
  .ok (digit c)

/-! ## `_split_exp` -/

/-- One round of the loop over the digits of a number. -/
def digitRound (exp : Text) : Text × Nat → Except Fault (Option (Text × Nat))
  | (str, i) => do
      if ← isNumber exp i then
        let c ← charAt exp i
        .ok (some (str ++ [c], i + 1))
      else .ok none

/-- One round of the loop over the elements. -/
def splitRound (exp : Text) (len : Int) : List Text × Nat → Except Fault (Option (List Text × Nat))
  | (res, i) =>
      if (i : Int) < len then do
        if ← isNumber exp i then
          let (str, i) ← whileLoop (digitRound exp) (exp.length + 1) ([], i)
          .ok (some (res ++ [str], i))
        else
          let c ← charAt exp i
          .ok (some (res ++ [[c]], i + 1))
      else .ok none

def splitExp (exp : Text) : Except Fault (List Text) := do
  let (res, _) ← whileLoop (splitRound exp (intSize exp.length)) (exp.length + 1) ([], 0)
  .ok res

/-! ## `set_exp` -/

/-- The variables of `set_exp`. -/
structure SetState where
  ops : List Char
  expStk : List Text
  deriving DecidableEq, Repr

/-- The loop that pops operators until it meets an open parenthesis. -/
def popParen : List Char → List Text → Except Fault SetState
  | [], _ => .error .outOfBounds
  | op :: ops, expStk =>
      if op ≠ '(' then popParen ops (expStk ++ [[op]]) else .ok ⟨ops, expStk⟩

/-- The loop that pops operators while they are `*` or `/`. -/
def popProducts : List Char → List Text → SetState
  | [], expStk => ⟨[], expStk⟩
  | op :: ops, expStk =>
      if op = '*' ∨ op = '/' then popProducts ops (expStk ++ [[op]]) else ⟨op :: ops, expStk⟩

/-- The loop that pops all operators. -/
def popAll : List Char → List Text → List Text
  | [], expStk => expStk
  | op :: ops, expStk => popAll ops (expStk ++ [[op]])

/-- The branch of `+` and `-`. -/
def pushSum (op : Char) (s : SetState) : SetState :=
  match s.ops with
  | [] => { s with ops := op :: s.ops }
  | back :: _ =>
      if back = '(' ∨ back = '+' ∨ back = '-' then { s with ops := op :: s.ops }
      else
        let s := popProducts s.ops s.expStk
        { s with ops := op :: s.ops }

/-- The body of the loop over the elements.  The default branch prints a message. -/
def setElem (s : SetState) (elem : Text) : Except Fault SetState := do
  if ← isNumber elem 0 then .ok { s with expStk := s.expStk ++ [elem] }
  else
    let op ← charAt elem 0
    if op = '(' then .ok { s with ops := op :: s.ops }
    else if op = ')' then popParen s.ops s.expStk
    else if op = '+' ∨ op = '-' then .ok (pushSum op s)
    else if op = '*' ∨ op = '/' then .ok { s with ops := op :: s.ops }
    else .ok s

/-- `set_exp`: the contents of `_exp_stk` behind the call. -/
def setExp (exp : Text) : Except Fault (List Text) :=
  if exp.isEmpty then .ok []
  else do
    let elems ← splitExp exp
    let s ← elems.foldlM setElem ⟨[], []⟩
    .ok (popAll s.ops s.expStk)

/-! ## `calculate` -/

/-- The arithmetic of `calculate`. -/
structure Arithmetic (V : Type) where
  stod : Text → Except Fault V
  add : V → V → V
  sub : V → V → V
  mul : V → V → V
  div : V → V → Except Fault V

/-- Exact arithmetic; the numbers have no point. -/
def exact : Arithmetic ℚ where
  stod elem := .ok (Text.decimal elem)
  add x y := x + y
  sub x y := x - y
  mul x y := x * y
  div x y := if y = 0 then .error .divisionByZero else .ok (x / y)

section Calculate

variable {V : Type} (arith : Arithmetic V)

/-- The body of the loop over `_exp_stk`.  The default branch prints a message. -/
def calcElem (resStk : List V) (elem : Text) : Except Fault (List V) := do
  if ← isNumber elem 0 then
    let res ← arith.stod elem
    .ok (res :: resStk)
  else
    match resStk with
    | operand0 :: operand1 :: resStk => do
        let op ← charAt elem 0
        if op = '+' then .ok (arith.add operand1 operand0 :: resStk)
        else if op = '-' then .ok (arith.sub operand1 operand0 :: resStk)
        else if op = '*' then .ok (arith.mul operand1 operand0 :: resStk)
        else if op = '/' then do
          let res ← arith.div operand1 operand0
          .ok (res :: resStk)
        else .ok resStk
    | _ => .error .outOfBounds

def calculate (expStk : List Text) : Except Fault V := do
  let resStk ← expStk.foldlM (calcElem arith) []
  match resStk with
  | [] => .error .outOfBounds
  | res :: _ => .ok res

/-- `set_exp`, and `calculate` behind it. -/
def evaluate (exp : Text) : Except Fault V := do
  let expStk ← setExp exp
  calculate arith expStk

end Calculate

end CppProject.ReversePolishExpression
