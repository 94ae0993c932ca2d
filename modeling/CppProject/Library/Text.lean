import Mathlib.Algebra.Order.Ring.Int
import Mathlib.Data.List.Basic
import Mathlib.Data.List.TakeWhile

/-!
# Byte text

Strings of C++ as lists of characters, with the character classes of the classic
locale and the decimal numerals that the conversion functions read.
-/

namespace CppProject.Library

abbrev Text := List Char

namespace Text

/-- `isspace`: the blank and the control characters from tab to carriage return. -/
def isSpace (c : Char) : Bool := c = ' ' || (9 ≤ c.toNat && c.toNat ≤ 13)

/-- The text without its leading white space. -/
def skipSpace (text : Text) : Text := text.dropWhile isSpace

/-- The text without the white space around it. -/
def trim (text : Text) : Text := (skipSpace (skipSpace text).reverse).reverse

/-- `tolower` of every character. -/
def toLower (text : Text) : Text := text.map Char.toLower

/-- The value of a string of decimal digits. -/
def decimal (digits : Text) : Nat :=
  digits.foldl (fun value digit => 10 * value + (digit.toNat - 48)) 0

/-- An optional sign in front of a numeral: whether it is a minus, and the rest. -/
def sign : Text → Bool × Text
  | '-' :: rest => (true, rest)
  | '+' :: rest => (false, rest)
  | text => (false, text)

/-- `strtoull` in base 10, as `std::stoull` calls it: white space, a sign and digits
are read and the rest is ignored; a negated value wraps around. -/
def stoull (text : Text) : Option UInt64 :=
  let (negative, rest) := sign (skipSpace text)
  let digits := rest.takeWhile Char.isDigit
  if digits.isEmpty ∨ 2 ^ 64 ≤ decimal digits then none
  else some (if negative then -UInt64.ofNat (decimal digits) else UInt64.ofNat (decimal digits))

/-! ## White space around a text -/

def Spaces (text : Text) : Prop := ∀ c ∈ text, isSpace c = true

theorem skipSpace_append {before : Text} (spaces : Spaces before) (text : Text) :
    skipSpace (before ++ text) = skipSpace text := List.dropWhile_append_of_pos spaces

theorem skipSpace_spaces {text : Text} (spaces : Spaces text) : skipSpace text = [] :=
  List.dropWhile_eq_nil_iff.mpr spaces

theorem skipSpace_eq_self {text : Text} (starts : ∀ c ∈ text.head?, isSpace c = false) :
    skipSpace text = text := by
  cases text with
  | nil => rfl
  | cons c text => exact List.dropWhile_cons_of_neg (by rw [starts c rfl]; decide)

/-- A text that neither starts nor ends with white space is what is left when the white space
around it is taken away. -/
theorem trim_surrounded {before text after : Text} (before_spaces : Spaces before)
    (after_spaces : Spaces after) (starts : ∀ c ∈ text.head?, isSpace c = false)
    (ends : ∀ c ∈ text.getLast?, isSpace c = false) : trim (before ++ (text ++ after)) = text := by
  rw [trim, skipSpace_append before_spaces]
  rcases eq_or_ne text [] with rfl | filled
  · rw [List.nil_append, skipSpace_spaces after_spaces]
    rfl
  have reversed : Spaces after.reverse := fun c member => after_spaces c (List.mem_reverse.mp member)
  have whole : skipSpace (text ++ after) = text ++ after := by
    refine skipSpace_eq_self fun c head => starts c ?_
    obtain ⟨first, rest, rfl⟩ := List.exists_cons_of_ne_nil filled
    exact head
  rw [whole, List.reverse_append, skipSpace_append reversed, skipSpace_eq_self, List.reverse_reverse]
  intro c head
  rw [List.head?_reverse] at head
  exact ends c head

/-- Every text is its trimmed text with white space around it. -/
theorem exists_trim (text : Text) :
    ∃ before after, text = before ++ (trim text ++ after) ∧ Spaces before ∧ Spaces after := by
  have split := List.takeWhile_append_dropWhile (p := isSpace) (l := text)
  have split' := List.takeWhile_append_dropWhile (p := isSpace) (l := (skipSpace text).reverse)
  refine ⟨text.takeWhile isSpace, ((skipSpace text).reverse.takeWhile isSpace).reverse, ?_,
    fun c member => List.mem_takeWhile_imp member,
    fun c member => List.mem_takeWhile_imp (List.mem_reverse.mp member)⟩
  rw [trim, ← List.reverse_append]
  conv_rhs => rw [show skipSpace (skipSpace text).reverse = List.dropWhile isSpace _ from rfl, split']
  rw [List.reverse_reverse]
  exact split.symm

/-- White space has no case. -/
theorem toLower_space {c : Char} (space : isSpace c = true) : c.toLower = c := by
  have small : c.toNat < 65 := by
    simp only [isSpace, Bool.or_eq_true, Bool.and_eq_true, decide_eq_true_eq] at space
    rcases space with rfl | ⟨_, control⟩
    · decide
    · omega
  have lower : ¬(65 ≤ c.val ∧ c.val ≤ 90) := fun upper => absurd small (Nat.not_lt.mpr upper.1)
  exact dif_neg lower

/-! ## Numerals -/

theorem isSpace_digit {c : Char} (digit : c.isDigit = true) : isSpace c = false := by
  have low : 48 ≤ c.toNat := (of_decide_eq_true (Bool.and_eq_true_iff.mp digit).1 : '0'.val ≤ c.val)
  have other : c ≠ ' ' := by
    rintro rfl
    exact absurd low (by decide)
  simp only [isSpace, other, decide_false, Bool.false_or, Bool.and_eq_false_iff, decide_eq_false_iff_not]
  omega

theorem sign_digit {c : Char} (digit : c.isDigit = true) (rest : Text) :
    sign (c :: rest) = (false, c :: rest) := by
  unfold sign
  split
  next same =>
    obtain ⟨rfl, _⟩ := List.cons.inj same
    exact absurd digit (by decide)
  next same =>
    obtain ⟨rfl, _⟩ := List.cons.inj same
    exact absurd digit (by decide)
  next => rfl

theorem takeWhile_digits {digits behind : Text} (all_digits : ∀ c ∈ digits, c.isDigit = true)
    (ends : ∀ c ∈ behind.head?, c.isDigit = false) :
    (digits ++ behind).takeWhile Char.isDigit = digits := by
  rw [List.takeWhile_append_of_pos all_digits]
  cases behind with
  | nil => exact List.append_nil _
  | cons c behind =>
      rw [List.takeWhile_cons_of_neg (by rw [ends c rfl]; decide), List.append_nil]

/-- `stoull` of a text that starts with digits reads them. -/
theorem stoull_digits {digits behind : Text} (some_digit : digits ≠ [])
    (all_digits : ∀ c ∈ digits, c.isDigit = true) (ends : ∀ c ∈ behind.head?, c.isDigit = false) :
    stoull (digits ++ behind) =
      if 2 ^ 64 ≤ decimal digits then none else some (UInt64.ofNat (decimal digits)) := by
  have read := takeWhile_digits all_digits ends
  obtain ⟨first, rest, rfl⟩ := List.exists_cons_of_ne_nil some_digit
  have digit := all_digits first List.mem_cons_self
  have skipped : skipSpace (first :: rest ++ behind) = first :: rest ++ behind :=
    skipSpace_eq_self fun c head => Option.some.inj head ▸ isSpace_digit digit
  have unsigned : sign (first :: rest ++ behind) = (false, first :: rest ++ behind) :=
    sign_digit digit _
  simp only [stoull, skipped, unsigned, read, List.isEmpty_cons, Bool.false_eq_true, false_or, if_false]

end Text

end CppProject.Library
