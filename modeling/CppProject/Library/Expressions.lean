import CppProject.Library.Checked
import Mathlib.Algebra.BigOperators.Group.List.Basic
import Mathlib.Algebra.Order.Ring.Int
import Mathlib.Data.List.Chain

/-!
# Expressions, infix and postfix

Trees over binary operators with their postfix code, the stack machine that runs it, and
infix expressions with two levels of precedence.  An infix expression is a chain of
operators of one level, so it can be read as a tree from the left or from the right.
-/

namespace CppProject.Library

/-! ## Runs over tokens -/

section Fold

variable {ε σ τ : Type} {step : σ → τ → Except ε σ}

/-- When every token changes a measure by its weight, a run changes it by the sum. -/
theorem foldlM_measure {size : σ → Int} {weight : τ → Int}
    (each : ∀ s token s', step s token = .ok s' → size s' = size s + weight token)
    {tokens : List τ} {s s' : σ} (run : tokens.foldlM step s = .ok s') :
    size s' = size s + (tokens.map weight).sum := by
  induction tokens generalizing s with
  | nil =>
      cases run
      simp
  | cons token rest ih =>
      rw [List.foldlM_cons] at run
      cases first : step s token with
      | error fault =>
          rw [first] at run
          cases run
      | ok next =>
          rw [first] at run
          rw [ih run, each s token next first, List.map_cons, List.sum_cons, Int.add_assoc]

end Fold

/-! ## Trees and postfix code -/

inductive Tree (Op Lit : Type) where
  | leaf (literal : Lit)
  | node (op : Op) (left right : Tree Op Lit)
  deriving DecidableEq, Repr

namespace Tree

variable {ε Op Lit V T : Type}

/-- The value of a tree; the operands are evaluated from left to right. -/
def eval (value : Lit → Except ε V) (apply : Op → V → V → Except ε V) :
    Tree Op Lit → Except ε V
  | .leaf literal => value literal
  | .node op left right => do
      let x ← left.eval value apply
      let y ← right.eval value apply
      apply op x y

/-- Both operands, and the operator behind them. -/
def code (literal : Lit → T) (operator : Op → T) : Tree Op Lit → List T
  | .leaf l => [literal l]
  | .node op left right =>
      left.code literal operator ++ (right.code literal operator ++ [operator op])

/-- A stack machine that pushes literals, and applies operators to the two topmost values,
computes the value of a tree from its postfix code. -/
theorem run_code {literal : Lit → T} {operator : Op → T} {value : Lit → Except ε V}
    {apply : Op → V → V → Except ε V} {step : List V → T → Except ε (List V)}
    (pushes : ∀ l stack, step stack (literal l) = value l >>= fun v => .ok (v :: stack))
    (applies : ∀ op x y stack, step (y :: x :: stack) (operator op) =
      apply op x y >>= fun z => .ok (z :: stack))
    (tree : Tree Op Lit) (stack : List V) :
    (tree.code literal operator).foldlM step stack =
      tree.eval value apply >>= fun v => .ok (v :: stack) := by
  induction tree generalizing stack with
  | leaf l =>
      rw [code, List.foldlM_cons, pushes, eval]
      cases value l <;> rfl
  | node op left right left_ih right_ih =>
      rw [code, List.foldlM_append, left_ih, eval]
      cases left.eval value apply with
      | error fault => rfl
      | ok x =>
          change (right.code literal operator ++ [operator op]).foldlM step (x :: stack) = _
          rw [List.foldlM_append, right_ih]
          cases right.eval value apply with
          | error fault => rfl
          | ok y =>
              change [operator op].foldlM step (y :: x :: stack) = apply op x y >>= _
              rw [List.foldlM_cons, applies]
              cases apply op x y <;> rfl

end Tree

/-! ## Infix expressions -/

inductive Level where
  | factor
  | product
  | sum
  deriving DecidableEq, Repr

/-- Infix expressions over the operators `A` of sums, the operators `M` of products, which
bind tighter, and literals. -/
inductive Infix (A M Lit : Type) : Level → Type where
  | literal (l : Lit) : Infix A M Lit .factor
  | group (e : Infix A M Lit .sum) : Infix A M Lit .factor
  | factor (f : Infix A M Lit .factor) : Infix A M Lit .product
  | times (f : Infix A M Lit .factor) (op : M) (rest : Infix A M Lit .product) :
      Infix A M Lit .product
  | product (p : Infix A M Lit .product) : Infix A M Lit .sum
  | plus (p : Infix A M Lit .product) (op : A) (rest : Infix A M Lit .sum) : Infix A M Lit .sum

inductive Token (A M Lit : Type) where
  | literal (l : Lit)
  | sum (op : A)
  | product (op : M)
  | opening
  | closing
  deriving DecidableEq, Repr

namespace Infix

variable {A M Lit : Type}

/-- The tokens of an expression, in writing order. -/
def tokens : {level : Level} → Infix A M Lit level → List (Token A M Lit)
  | _, .literal l => [.literal l]
  | _, .group e => .opening :: (e.tokens ++ [.closing])
  | _, .factor f => f.tokens
  | _, .times f op rest => f.tokens ++ .product op :: rest.tokens
  | _, .product p => p.tokens
  | _, .plus p op rest => p.tokens ++ .sum op :: rest.tokens

/-! ## Readings -/

/-- What stands in front of an operand: nothing, or a left operand and an operator. -/
def join (front : Option (Tree (A ⊕ M) Lit × (A ⊕ M))) (operand : Tree (A ⊕ M) Lit) :
    Tree (A ⊕ M) Lit :=
  match front with
  | none => operand
  | some (left, op) => .node op left operand

/-- The reading from the left, behind an operand that has been read. -/
def leftFrom (front : Option (Tree (A ⊕ M) Lit × (A ⊕ M))) :
    {level : Level} → Infix A M Lit level → Tree (A ⊕ M) Lit
  | _, .literal l => join front (.leaf l)
  | _, .group e => join front (e.leftFrom none)
  | _, .factor f => f.leftFrom front
  | _, .times f op rest => rest.leftFrom (some (f.leftFrom front, .inr op))
  | _, .product p => join front (p.leftFrom none)
  | _, .plus p op rest => rest.leftFrom (some (join front (p.leftFrom none), .inl op))

/-- Operators of equal precedence associate to the left. -/
def leftTree {level : Level} (e : Infix A M Lit level) : Tree (A ⊕ M) Lit := e.leftFrom none

/-- Operators of equal precedence associate to the right. -/
def rightTree : {level : Level} → Infix A M Lit level → Tree (A ⊕ M) Lit
  | _, .literal l => .leaf l
  | _, .group e => e.rightTree
  | _, .factor f => f.rightTree
  | _, .times f op rest => .node (.inr op) f.rightTree rest.rightTree
  | _, .product p => p.rightTree
  | _, .plus p op rest => .node (.inl op) p.rightTree rest.rightTree

/-! ## Prefixes -/

end Infix

namespace Token

variable {A M Lit : Type}

/-- How many values a token adds, where an open parenthesis is owed two of them. -/
def weight : Token A M Lit → Int
  | .literal _ => 1
  | .sum _ => -1
  | .product _ => -1
  | .opening => -2
  | .closing => 2

end Token

namespace Infix

variable {A M Lit : Type} {level : Level}

theorem tokens_weight (e : Infix A M Lit level) : (e.tokens.map Token.weight).sum = 1 := by
  induction e with
  | literal l => rfl
  | group e ih => simp [tokens, Token.weight, ih]
  | factor f ih => exact ih
  | times f op rest f_ih rest_ih => simp [tokens, Token.weight, f_ih, rest_ih]
  | product p ih => exact ih
  | plus p op rest p_ih rest_ih => simp [tokens, Token.weight, p_ih, rest_ih]

/-- The prefixes of two parts with an operator between them, when the first one adds a value. -/
theorem prefix_chain {front first rest : List (Token A M Lit)} {op : Token A M Lit}
    (op_weight : op.weight = -1) (first_weight : (first.map Token.weight).sum = 1)
    (prefixed : front <+: first ++ op :: rest) :
    front <+: first ∨ ∃ last, front = first ++ op :: last ∧ last <+: rest ∧
      (front.map Token.weight).sum = (last.map Token.weight).sum := by
  obtain ⟨behind, whole⟩ := prefixed
  rcases List.append_eq_append_iff.mp whole with ⟨more, split, _⟩ | ⟨more, split, split'⟩
  · exact Or.inl ⟨more, split.symm⟩
  cases more with
  | nil => exact Or.inl ⟨[], by rw [split, List.append_nil, List.append_nil]⟩
  | cons token last =>
      obtain ⟨rfl, same⟩ := List.cons.inj split'
      refine Or.inr ⟨last, split, ⟨behind, same.symm⟩, ?_⟩
      rw [split, List.map_append, List.sum_append, first_weight, List.map_cons, List.sum_cons,
        op_weight]
      omega

/-- The tokens in front of some place in an expression are an expression themselves, or
they add no value. -/
theorem prefix_cases (e : Infix A M Lit level) {front : List (Token A M Lit)}
    (prefixed : front <+: e.tokens) :
    (∃ part : Infix A M Lit level, part.tokens = front) ∨ (front.map Token.weight).sum ≤ 0 := by
  induction e generalizing front with
  | literal l =>
      rcases List.prefix_cons_iff.mp prefixed with rfl | ⟨rest, rfl, none⟩
      · exact Or.inr (Int.le_refl 0)
      · rw [List.prefix_nil.mp none]
        exact Or.inl ⟨.literal l, rfl⟩
  | group e ih =>
      rcases List.prefix_cons_iff.mp prefixed with rfl | ⟨rest, rfl, inner⟩
      · exact Or.inr (Int.le_refl 0)
      rcases List.prefix_concat_iff.mp inner with rfl | inside
      · exact Or.inl ⟨.group e, rfl⟩
      · right
        rw [List.map_cons, List.sum_cons, Token.weight]
        rcases ih inside with ⟨part, rfl⟩ | nothing
        · rw [tokens_weight]
          decide
        · omega
  | factor f ih =>
      exact (ih prefixed).imp_left fun ⟨part, spelled⟩ => ⟨.factor part, spelled⟩
  | times f op rest f_ih rest_ih =>
      rcases prefix_chain rfl (tokens_weight f) prefixed with inside | ⟨last, rfl, inner, same⟩
      · exact (f_ih inside).imp_left fun ⟨part, spelled⟩ => ⟨.factor part, spelled⟩
      · rw [same]
        exact (rest_ih inner).imp_left fun ⟨part, spelled⟩ =>
          ⟨.times f op part, by rw [tokens, spelled]⟩
  | product p ih =>
      exact (ih prefixed).imp_left fun ⟨part, spelled⟩ => ⟨.product part, spelled⟩
  | plus p op rest p_ih rest_ih =>
      rcases prefix_chain rfl (tokens_weight p) prefixed with inside | ⟨last, rfl, inner, same⟩
      · exact (p_ih inside).imp_left fun ⟨part, spelled⟩ => ⟨.product part, spelled⟩
      · rw [same]
        exact (rest_ih inner).imp_left fun ⟨part, spelled⟩ =>
          ⟨.plus p op part, by rw [tokens, spelled]⟩

/-- The operators among some tokens. -/
def operatorCount (tokens : List (Token A M Lit)) : Nat :=
  tokens.countP fun token => token.weight = -1

/-- All of some tokens, or fewer operators, or tokens that add no value. -/
def Lacks (tokens front : List (Token A M Lit)) : Prop :=
  front = tokens ∨ operatorCount front < operatorCount tokens ∨ (front.map Token.weight).sum ≤ 0

theorem operatorCount_chain (first rest : List (Token A M Lit)) {op : Token A M Lit}
    (op_weight : op.weight = -1) :
    operatorCount (first ++ op :: rest) = operatorCount first + (operatorCount rest + 1) := by
  unfold operatorCount
  rw [List.countP_append, List.countP_cons, if_pos (decide_eq_true op_weight)]

theorem Lacks.chain {front first rest : List (Token A M Lit)} {op : Token A M Lit}
    (op_weight : op.weight = -1) (first_weight : (first.map Token.weight).sum = 1)
    (first_lacks : ∀ {front}, front <+: first → Lacks first front)
    (rest_lacks : ∀ {front}, front <+: rest → Lacks rest front)
    (prefixed : front <+: first ++ op :: rest) : Lacks (first ++ op :: rest) front := by
  unfold Lacks
  rw [operatorCount_chain first rest op_weight]
  rcases prefix_chain op_weight first_weight prefixed with inside | ⟨last, rfl, inner, same⟩
  · rcases first_lacks inside with rfl | fewer | nothing
    · exact Or.inr (Or.inl (Nat.lt_add_of_pos_right (Nat.succ_pos _)))
    · exact Or.inr (Or.inl (Nat.lt_add_right _ fewer))
    · exact Or.inr (Or.inr nothing)
  · rw [operatorCount_chain first last op_weight, same]
    rcases rest_lacks inner with rfl | fewer | nothing
    · exact Or.inl rfl
    · exact Or.inr (Or.inl (Nat.add_lt_add_left (Nat.succ_lt_succ fewer) _))
    · exact Or.inr (Or.inr nothing)

/-- The tokens in front of some place are all of them, or they lack an operator, or they add no
value. -/
theorem prefix_lacks (e : Infix A M Lit level) {front : List (Token A M Lit)}
    (prefixed : front <+: e.tokens) : Lacks e.tokens front := by
  induction e generalizing front with
  | literal l =>
      rcases List.prefix_cons_iff.mp prefixed with rfl | ⟨rest, rfl, none⟩
      · exact Or.inr (Or.inr (Int.le_refl 0))
      · rw [List.prefix_nil.mp none]
        exact Or.inl rfl
  | group e ih =>
      rcases List.prefix_cons_iff.mp prefixed with rfl | ⟨rest, rfl, inner⟩
      · exact Or.inr (Or.inr (Int.le_refl 0))
      rcases List.prefix_concat_iff.mp inner with rfl | inside
      · exact Or.inl rfl
      · -- an open parenthesis is owed more than an expression adds
        right; right
        rw [List.map_cons, List.sum_cons, Token.weight]
        rcases e.prefix_cases inside with ⟨part, rfl⟩ | nothing
        · rw [tokens_weight]
          decide
        · omega
  | factor f ih => exact ih prefixed
  | times f op rest f_ih rest_ih => exact .chain rfl (tokens_weight f) f_ih rest_ih prefixed
  | product p ih => exact ih prefixed
  | plus p op rest p_ih rest_ih => exact .chain rfl (tokens_weight p) p_ih rest_ih prefixed

/-! ## Neighbours -/

/-- Two tokens that need nothing between them. -/
def Apart : Token A M Lit → Token A M Lit → Prop
  | .literal _, .literal _ => False
  | _, _ => True

theorem isChain_around {first rest : List (Token A M Lit)} {token : Token A M Lit}
    (symbol : ∀ l, token ≠ .literal l) (first_apart : first.IsChain Apart)
    (rest_apart : rest.IsChain Apart) : (first ++ token :: rest).IsChain Apart := by
  refine List.isChain_append.mpr ⟨first_apart, List.isChain_cons.mpr ⟨fun other _ => ?_, rest_apart⟩,
    fun other _ next here => ?_⟩
  · cases token <;> simp_all [Apart]
  · obtain rfl : token = next := Option.some.inj here
    cases other <;> cases token <;> simp_all [Apart]

/-- No two literals of an expression are next to each other. -/
theorem tokens_apart (e : Infix A M Lit level) : e.tokens.IsChain Apart := by
  induction e with
  | literal l => exact List.isChain_singleton _
  | group e ih =>
      have closed : (e.tokens ++ [Token.closing]).IsChain Apart :=
        isChain_around (fun l impossible => by cases impossible) ih List.isChain_nil
      exact @isChain_around _ _ _ [] _ _ (fun l impossible => by cases impossible) List.isChain_nil
        closed
  | factor f ih => exact ih
  | times f op rest f_ih rest_ih =>
      exact isChain_around (fun l impossible => by cases impossible) f_ih rest_ih
  | product p ih => exact ih
  | plus p op rest p_ih rest_ih =>
      exact isChain_around (fun l impossible => by cases impossible) p_ih rest_ih

end Infix

end CppProject.Library
