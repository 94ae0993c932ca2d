import CppProject.Library.Expressions
import CppProject.ReversePolishExpression.Source

/-!
# Written expressions and their elements

`_split_exp` takes a written expression apart into its tokens.  Its bound is the length
as an `int`, so of a text that is too long for that it takes the tokens in front of some
place only, and a number must not reach over the largest index.
-/

namespace CppProject.ReversePolishExpression

open Library Library.Checked

inductive SumOp where
  | add
  | sub
  deriving DecidableEq, Repr

inductive ProductOp where
  | mul
  | div
  deriving DecidableEq, Repr

/-- A non-negative integer literal. -/
structure Numeral where
  digits : Text
  some_digit : digits ≠ []
  all_digits : ∀ c ∈ digits, digit c = true

abbrev Symbol := Token SumOp ProductOp Numeral

/-- A well-formed infix expression. -/
abbrev Expression := Infix SumOp ProductOp Numeral .sum

def SumOp.char : SumOp → Char
  | .add => '+'
  | .sub => '-'

def ProductOp.char : ProductOp → Char
  | .mul => '*'
  | .div => '/'

def spelling : Symbol → Text
  | .literal n => n.digits
  | .sum op => [op.char]
  | .product op => [op.char]
  | .opening => ['(']
  | .closing => [')']

def spellings (tokens : List Symbol) : Text := (tokens.map spelling).flatten

/-- The text of an expression, without spaces. -/
def text {level : Level} (e : Infix SumOp ProductOp Numeral level) : Text := spellings e.tokens

/-- The tokens that begin in front of position `len`, when the first one begins at `i`. -/
def begun (len : Int) : Nat → List Symbol → List Symbol
  | _, [] => []
  | i, token :: rest =>
      if (i : Int) < len then token :: begun len (i + (spelling token).length) rest else []

/-! ## Characters -/

theorem spellings_cons (token : Symbol) (rest : List Symbol) :
    spellings (token :: rest) = spelling token ++ spellings rest := rfl

theorem prefix_begun (len : Int) (i : Nat) (tokens : List Symbol) : begun len i tokens <+: tokens := by
  induction tokens generalizing i with
  | nil => exact List.prefix_rfl
  | cons token rest ih =>
      rw [begun]
      split
      · exact List.cons_prefix_cons.mpr ⟨rfl, ih _⟩
      · exact List.nil_prefix

theorem spelling_ne_nil (token : Symbol) : spelling token ≠ [] := by
  cases token with
  | literal n => exact n.some_digit
  | sum op => exact List.cons_ne_nil _ _
  | product op => exact List.cons_ne_nil _ _
  | opening => exact List.cons_ne_nil _ _
  | closing => exact List.cons_ne_nil _ _

/-- A token that is no literal is one character, which is no digit. -/
theorem spelling_symbol {token : Symbol} (symbol : ∀ n, token ≠ .literal n) :
    ∃ c, spelling token = [c] ∧ digit c = false := by
  cases token with
  | literal n => exact absurd rfl (symbol n)
  | sum op => cases op <;> exact ⟨_, rfl, rfl⟩
  | product op => cases op <;> exact ⟨_, rfl, rfl⟩
  | opening => exact ⟨_, rfl, rfl⟩
  | closing => exact ⟨_, rfl, rfl⟩

theorem Numeral.starts (n : Numeral) (rest : Text) :
    digit ((n.digits ++ rest).headD '\x00') = true := by
  obtain ⟨c, cs, digits⟩ := List.exists_cons_of_ne_nil n.some_digit
  rw [digits]
  exact n.all_digits c (by rw [digits]; exact List.mem_cons_self)

/-- Behind a literal there is no digit. -/
theorem digit_behind_literal {n : Numeral} {rest : List Symbol}
    (apart : (Token.literal n :: rest).IsChain Infix.Apart) :
    digit ((spellings rest).headD '\x00') = false := by
  cases rest with
  | nil => rfl
  | cons next behind =>
      have symbol : ∀ m, next ≠ .literal m := by
        rintro m rfl
        exact (List.isChain_cons_cons.mp apart).1
      obtain ⟨c, spelled, no_digit⟩ := spelling_symbol symbol
      rw [spellings_cons, spelled]
      exact no_digit

section Positions

variable {exp front back : Text}

theorem charAt_split (split : exp = front ++ back) (inside : front.length < 2 ^ 31) :
    charAt exp front.length = .ok (back.headD '\x00') := by
  have within : front.length ≤ exp.length := by
    rw [split, List.length_append]
    exact Nat.le_add_right _ _
  rw [charAt, if_pos ⟨inside, within⟩, split, List.getD_eq_getElem?_getD,
    List.getElem?_append_right (Nat.le_refl _), Nat.sub_self]
  cases back <;> rfl

theorem isNumber_split (split : exp = front ++ back) (inside : front.length < 2 ^ 31) :
    isNumber exp front.length = .ok (digit (back.headD '\x00')) := by
  rw [isNumber, charAt_split split inside]
  rfl

theorem isNumber_outside {i : Nat} (outside : 2 ^ 31 ≤ i) :
    isNumber exp i = .error .outOfBounds := by
  rw [isNumber, charAt, if_neg (fun both => absurd both.1 (Nat.not_lt.mpr outside))]
  rfl

end Positions

/-! ## Numbers -/

/-- The loop over the digits of a number takes all of them, unless they reach over the
largest index. -/
theorem digit_loop {exp front digits rest : Text} (split : exp = front ++ (digits ++ rest))
    (all_digits : ∀ c ∈ digits, digit c = true) (ends : digit (rest.headD '\x00') = false)
    {fuel : Nat} (enough : digits.length < fuel) (str : Text) :
    (front.length + digits.length < 2 ^ 31 →
      whileLoop (digitRound exp) fuel (str, front.length) =
        .ok (str ++ digits, front.length + digits.length)) ∧
    (2 ^ 31 ≤ front.length + digits.length →
      ∃ fault, whileLoop (digitRound exp) fuel (str, front.length) = .error fault) := by
  induction digits generalizing front fuel str with
  | nil =>
      obtain ⟨fuel, rfl⟩ := Nat.exists_eq_succ_of_ne_zero (Nat.ne_of_gt enough)
      rw [List.nil_append] at split
      rw [List.length_nil, Nat.add_zero, whileLoop, digitRound]
      constructor
      · intro inside
        rw [isNumber_split split inside, ends, List.append_nil]
        rfl
      · intro outside
        rw [isNumber_outside outside]
        exact ⟨_, rfl⟩
  | cons c digits ih =>
      obtain ⟨fuel, rfl⟩ := Nat.exists_eq_succ_of_ne_zero (Nat.ne_zero_of_lt enough)
      obtain ⟨first, later⟩ := List.forall_mem_cons.mp all_digits
      rw [whileLoop, digitRound]
      by_cases inside : front.length < 2 ^ 31
      · have next : exp = (front ++ [c]) ++ (digits ++ rest) := by
          rw [split, List.append_assoc]
          rfl
        have found := ih next later (Nat.lt_of_succ_lt_succ enough) (str ++ [c])
        rw [List.length_append, List.length_singleton, List.append_assoc, Nat.add_assoc,
          Nat.add_comm 1] at found
        rw [isNumber_split split inside, ok_bind, charAt_split split inside]
        rw [List.cons_append, List.headD_cons, first]
        exact found
      · rw [isNumber_outside (Nat.not_lt.mp inside)]
        refine ⟨fun impossible => ?_, fun _ => ⟨_, rfl⟩⟩
        rw [List.length_cons] at impossible
        omega

/-! ## Elements -/

/-- A round takes the token that begins at its position, unless that reaches over the
largest index. -/
theorem splitRound_token {exp front : Text} {token : Symbol} {rest : List Symbol}
    (split : exp = front ++ spellings (token :: rest)) (apart : (token :: rest).IsChain Infix.Apart)
    {len : Int} (int_len : len < 2 ^ 31) (more : (front.length : Int) < len) (res : List Text) :
    (front.length + (spelling token).length < 2 ^ 31 →
      splitRound exp len (res, front.length) =
        .ok (some (res ++ [spelling token], front.length + (spelling token).length))) ∧
    (2 ^ 31 ≤ front.length + (spelling token).length →
      ∃ fault, splitRound exp len (res, front.length) = .error fault) := by
  have inside : front.length < 2 ^ 31 := by omega
  have here : exp = front ++ (spelling token ++ spellings rest) := split
  rw [splitRound, if_pos more]
  by_cases number : ∃ n, token = .literal n
  · obtain ⟨n, rfl⟩ := number
    have first : digit ((spelling (.literal n) ++ spellings rest).headD '\x00') = true := n.starts _
    have long : n.digits.length < exp.length + 1 := by
      rw [here, List.length_append, List.length_append]
      change _ < _ + (n.digits.length + _) + 1
      omega
    obtain ⟨reads, overruns⟩ := digit_loop here n.all_digits (digit_behind_literal apart) long []
    rw [isNumber_split here inside, first, ok_bind, if_pos rfl]
    constructor
    · intro fits
      rw [reads fits]
      rfl
    · intro outside
      obtain ⟨fault, stop⟩ := overruns outside
      rw [stop]
      exact ⟨fault, rfl⟩
  · push Not at number
    obtain ⟨c, spelled, no_digit⟩ := spelling_symbol number
    rw [spelled] at here ⊢
    rw [isNumber_split here inside, charAt_split here inside]
    rw [List.cons_append, List.headD_cons, no_digit]
    refine ⟨fun _ => rfl, fun outside => ?_⟩
    rw [List.length_singleton] at outside
    omega

/-- The loop over the elements takes the tokens that begin in front of the bound, unless
the last one reaches over the largest index. -/
theorem split_loop {exp front : Text} {tokens : List Symbol} (split : exp = front ++ spellings tokens)
    (apart : tokens.IsChain Infix.Apart) {len : Int} (bounded : len ≤ exp.length)
    (int_len : len < 2 ^ 31) (inside : front.length < 2 ^ 31) {fuel : Nat}
    (enough : tokens.length < fuel) (res : List Text) :
    (front.length + (spellings (begun len front.length tokens)).length < 2 ^ 31 →
      ∃ i, whileLoop (splitRound exp len) fuel (res, front.length) =
        .ok (res ++ (begun len front.length tokens).map spelling, i)) ∧
    (2 ^ 31 ≤ front.length + (spellings (begun len front.length tokens)).length →
      ∃ fault, whileLoop (splitRound exp len) fuel (res, front.length) = .error fault) := by
  induction tokens generalizing front fuel res with
  | nil =>
      obtain ⟨fuel, rfl⟩ := Nat.exists_eq_succ_of_ne_zero (Nat.ne_of_gt enough)
      have finished : ¬(front.length : Int) < len := by
        have : exp.length = front.length := by
          rw [split]
          exact congrArg List.length (List.append_nil front)
        omega
      rw [whileLoop, splitRound, if_neg finished]
      refine ⟨fun _ => ⟨_, by rw [begun, List.map_nil, List.append_nil]⟩, fun outside => ?_⟩
      exact absurd inside (Nat.not_lt.mpr outside)
  | cons token rest ih =>
      obtain ⟨fuel, rfl⟩ := Nat.exists_eq_succ_of_ne_zero (Nat.ne_zero_of_lt enough)
      rw [whileLoop, begun]
      split
      next more =>
        have behind : exp = (front ++ spelling token) ++ spellings rest := by
          rw [split, spellings_cons, List.append_assoc]
        obtain ⟨takes, overruns⟩ := splitRound_token split apart int_len more res
        rw [spellings_cons, List.length_append, ← Nat.add_assoc]
        by_cases fits : front.length + (spelling token).length < 2 ^ 31
        · have later := ih behind (List.isChain_cons.mp apart).2 (List.length_append ▸ fits)
            (Nat.lt_of_succ_lt_succ enough) (res ++ [spelling token])
          rw [List.length_append, List.append_assoc] at later
          rw [takes fits]
          exact later
        · obtain ⟨fault, stop⟩ := overruns (Nat.not_lt.mp fits)
          rw [stop]
          exact ⟨fun impossible => absurd impossible (by omega), fun _ => ⟨fault, rfl⟩⟩
      next past =>
        rw [splitRound, if_neg past]
        refine ⟨fun _ => ⟨_, by rw [List.map_nil, List.append_nil]⟩, fun outside => ?_⟩
        exact absurd inside (Nat.not_lt.mpr outside)

theorem length_le_spellings (tokens : List Symbol) : tokens.length ≤ (spellings tokens).length := by
  induction tokens with
  | nil => exact Nat.le_refl 0
  | cons token rest ih =>
      have := List.length_pos_of_ne_nil (spelling_ne_nil token)
      rw [spellings_cons, List.length_cons, List.length_append]
      omega

/-- What `_split_exp` makes of an expression. -/
theorem splitExp_text {level : Level} (e : Infix SumOp ProductOp Numeral level) :
    ((spellings (begun (intSize (text e).length) 0 e.tokens)).length < 2 ^ 31 →
      splitExp (text e) = .ok ((begun (intSize (text e).length) 0 e.tokens).map spelling)) ∧
    (2 ^ 31 ≤ (spellings (begun (intSize (text e).length) 0 e.tokens)).length →
      ∃ fault, splitExp (text e) = .error fault) := by
  have enough : e.tokens.length < (text e).length + 1 := Nat.lt_succ_of_le (length_le_spellings _)
  obtain ⟨reads, overruns⟩ := @split_loop (text e) [] e.tokens rfl e.tokens_apart _
    (intSize_le _) (intSize_lt _) (by decide) _ enough []
  rw [List.length_nil, Nat.zero_add] at reads overruns
  unfold splitExp
  constructor
  · intro fits
    obtain ⟨i, run⟩ := reads fits
    rw [run]
    rfl
  · intro outside
    obtain ⟨fault, stop⟩ := overruns outside
    rw [stop]
    exact ⟨fault, rfl⟩

theorem begun_all {len : Int} {i : Nat} {tokens : List Symbol}
    (wide : (i + (spellings tokens).length : Nat) ≤ len) : begun len i tokens = tokens := by
  induction tokens generalizing i with
  | nil => rfl
  | cons token rest ih =>
      have := List.length_pos_of_ne_nil (spelling_ne_nil token)
      rw [spellings_cons, List.length_append] at wide
      rw [begun, if_pos (by omega), ih (by omega)]

end CppProject.ReversePolishExpression
