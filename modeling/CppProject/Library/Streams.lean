import CppProject.Library.Text
import Mathlib.Data.List.TakeWhile

/-!
# Input streams

Text streams of the standard library: `getline`, and the extraction of numbers with
`>>`.  A number is read in stages: the characters that can go on a numeral are taken off
the stream, and then the whole field is converted.  A field that cannot be converted sets
`failbit`; no extraction of a number sets `badbit`.
-/

namespace CppProject.Library

/-- What is left of the text, and the state bits. -/
structure IStream where
  text : Text
  eof : Bool
  fail : Bool
  bad : Bool
  deriving DecidableEq, Repr

/-- The outcome of the conversion of a field. -/
inductive Conversion (α : Type) where
  | whole (value : α)
  | outOfRange (nearest : α)
  | notNumeral
  deriving DecidableEq, Repr

/-- The characters that can go on a field, one state after another, and the rest. -/
def scanField {τ : Type} (next : τ → Char → Option τ) : τ → Text → Text × Text
  | _, [] => ([], [])
  | state, c :: rest =>
      match next state c with
      | none => ([], c :: rest)
      | some state =>
          let (field, rest) := scanField next state rest
          (c :: field, rest)

/-! ## Integers -/

inductive IntField where
  | start
  | digits
  deriving DecidableEq, Repr

/-- `%d` -/
def IntField.next : IntField → Char → Option IntField
  | .start, c => if c = '+' ∨ c = '-' ∨ c.isDigit then some .digits else none
  | .digits, c => if c.isDigit then some .digits else none

def toInt64 (field : Text) : Conversion Int64 :=
  let (negative, digits) := Text.sign field
  if digits.isEmpty then .notNumeral
  else if negative then
    if Text.decimal digits ≤ 2 ^ 63 then .whole (-Int64.ofNat (Text.decimal digits))
    else .outOfRange Int64.minValue
  else if Text.decimal digits < 2 ^ 63 then .whole (Int64.ofNat (Text.decimal digits))
  else .outOfRange Int64.maxValue

/-! ## Floating-point numbers -/

inductive FloatField where
  | start
  | signed
  | zero
  | digits
  | point
  | fraction
  | exponent
  | exponentSigned
  | exponentDigits
  | hex
  | hexDigits
  | hexPoint
  | hexFraction
  deriving DecidableEq, Repr

def isHexDigit (c : Char) : Bool :=
  c.isDigit || ('a' ≤ c && c ≤ 'f') || ('A' ≤ c && c ≤ 'F')

/-- `%g`, over the characters that `num_get` knows: `p` is not among them, nor are all the
letters of an infinity. -/
def FloatField.next : FloatField → Char → Option FloatField
  | .start, c =>
      if c = '+' ∨ c = '-' then some .signed
      else if c = '0' then some .zero
      else if c.isDigit then some .digits
      else if c = '.' then some .point
      else none
  | .signed, c =>
      if c = '0' then some .zero
      else if c.isDigit then some .digits
      else if c = '.' then some .point
      else none
  | .zero, c =>
      if c = 'x' ∨ c = 'X' then some .hex
      else if c.isDigit then some .digits
      else if c = '.' then some .fraction
      else if c = 'e' ∨ c = 'E' then some .exponent
      else none
  | .digits, c =>
      if c.isDigit then some .digits
      else if c = '.' then some .fraction
      else if c = 'e' ∨ c = 'E' then some .exponent
      else none
  | .point, c => if c.isDigit then some .fraction else none
  | .fraction, c =>
      if c.isDigit then some .fraction
      else if c = 'e' ∨ c = 'E' then some .exponent
      else none
  | .exponent, c =>
      if c = '+' ∨ c = '-' then some .exponentSigned
      else if c.isDigit then some .exponentDigits
      else none
  | .exponentSigned, c => if c.isDigit then some .exponentDigits else none
  | .exponentDigits, c => if c.isDigit then some .exponentDigits else none
  | .hex, c =>
      if isHexDigit c then some .hexDigits
      else if c = '.' then some .hexPoint
      else none
  | .hexDigits, c =>
      if isHexDigit c then some .hexDigits
      else if c = '.' then some .hexFraction
      else none
  | .hexPoint, c => if isHexDigit c then some .hexFraction else none
  | .hexFraction, c => if isHexDigit c then some .hexFraction else none

namespace IStream

def ofText (text : Text) : IStream := ⟨text, false, false, false⟩

def good (s : IStream) : Bool := !(s.eof || s.fail || s.bad)

/-! ## Lines -/

/-- `std::getline`: the line, unless the extraction has failed, and the stream behind it. -/
def getline (s : IStream) : Option Text × IStream :=
  if s.good then
    let line := s.text.takeWhile (· ≠ '\n')
    match s.text.dropWhile (· ≠ '\n') with
    | _ :: rest => (some line, { s with text := rest })
    | [] =>
        if line.isEmpty then (none, { s with text := [], eof := true, fail := true })
        else (some line, { s with text := [], eof := true })
  else (none, { s with fail := true })

/-! ## Numbers -/

/-- The sentry of a formatted extraction, which skips white space. -/
def skipws (s : IStream) : IStream :=
  if s.good then
    if (Text.skipSpace s.text).isEmpty then { s with text := [], eof := true, fail := true }
    else { s with text := Text.skipSpace s.text }
  else { s with fail := true }

/-- `s >> variable`, from the value that the variable has before.  The variable is not
written when the sentry fails. -/
def extract {α τ : Type} (next : τ → Char → Option τ) (start : τ) (convert : Text → Conversion α)
    (zero before : α) (s : IStream) : α × IStream :=
  let s := s.skipws
  if s.good then
    let (field, rest) := scanField next start s.text
    let s := { s with text := rest, eof := rest.isEmpty }
    match convert field with
    | .whole value => (value, s)
    | .outOfRange nearest => (nearest, { s with fail := true })
    | .notNumeral => (zero, { s with fail := true })
  else (before, s)

end IStream

/-! ## The lines of a text -/

/-- The lines of a text that have characters; the last one needs no newline. -/
def nonEmptyLines (text : Text) : List Text := (text.splitOn '\n').filter fun line => !line.isEmpty

theorem nonEmptyLines_nil : nonEmptyLines [] = [] := rfl

theorem nonEmptyLines_single {line : Text} (whole : '\n' ∉ line) :
    nonEmptyLines line = if line.isEmpty then [] else [line] := by
  rw [nonEmptyLines, List.splitOn_eq_singleton whole]
  cases line <;> rfl

theorem nonEmptyLines_cons {line : Text} (whole : '\n' ∉ line) (rest : Text) :
    nonEmptyLines (line ++ '\n' :: rest) =
      (if line.isEmpty then [] else [line]) ++ nonEmptyLines rest := by
  rw [← nonEmptyLines_single whole]
  unfold nonEmptyLines
  rw [List.splitOn_append_cons_self, List.filter_append]

/-- A text is a line, or a line with a newline and more text behind it. -/
theorem line_cases (text : Text) :
    '\n' ∉ text ∧ text.takeWhile (· ≠ '\n') = text ∧ text.dropWhile (· ≠ '\n') = [] ∨
    ∃ line rest, '\n' ∉ line ∧ text = line ++ '\n' :: rest ∧
      text.takeWhile (· ≠ '\n') = line ∧ text.dropWhile (· ≠ '\n') = '\n' :: rest := by
  have split := List.takeWhile_append_dropWhile (p := (· ≠ '\n')) (l := text)
  have whole : '\n' ∉ text.takeWhile (· ≠ '\n') := by
    intro member
    simpa using List.mem_takeWhile_imp member
  cases ends : text.dropWhile (· ≠ '\n') with
  | nil =>
      rw [ends, List.append_nil] at split
      exact Or.inl ⟨split ▸ whole, split, rfl⟩
  | cons c rest =>
      have head := List.head?_dropWhile_not (· ≠ '\n') text
      rw [ends] at head split
      obtain rfl : c = '\n' := by simpa using head
      exact Or.inr ⟨_, rest, whole, split.symm, rfl, rfl⟩

theorem nonEmptyLines_length_le (text : Text) : (nonEmptyLines text).length ≤ text.length := by
  induction length : text.length using Nat.strong_induction_on generalizing text with
  | _ size ih =>
      subst length
      rcases line_cases text with ⟨whole, _, _⟩ | ⟨line, rest, whole, split, _, _⟩
      · rw [nonEmptyLines_single whole]
        cases text <;> simp
      · have shorter : rest.length < text.length := by
          rw [split, List.length_append, List.length_cons]
          omega
        have later := ih rest.length shorter rest rfl
        rw [split, nonEmptyLines_cons whole, List.length_append, List.length_append, List.length_cons]
        cases line <;> simp <;> omega

namespace IStream

/-- From a good stream `getline` takes a line, or it finds the end of the text. -/
theorem getline_spec {s : IStream} (good : s.good = true) :
    (s.text = [] ∧ ∃ s', s.getline = (none, s') ∧ s'.good = false ∧ s'.text = []) ∨
    ∃ line s', s.getline = (some line, s') ∧ s'.text.length < s.text.length ∧
      nonEmptyLines s.text = (if line.isEmpty then [] else [line]) ++ nonEmptyLines s'.text ∧
      (s'.good = true ∨ s'.text = []) := by
  unfold getline
  rw [if_pos good]
  rcases line_cases s.text with ⟨whole, takes, drops⟩ | ⟨line, rest, whole, text, takes, drops⟩
  · simp only [takes, drops]
    split
    next none =>
      left
      exact ⟨List.isEmpty_iff.mp none, _, rfl, by simp [IStream.good], rfl⟩
    next some =>
      right
      refine ⟨s.text, _, rfl, ?_, ?_, Or.inr rfl⟩
      · exact List.length_pos_of_ne_nil (mt List.isEmpty_iff.mpr some)
      · rw [nonEmptyLines_single whole, nonEmptyLines_nil, List.append_nil]
  · right
    simp only [takes, drops]
    refine ⟨line, _, rfl, ?_, ?_, Or.inl good⟩
    · simp only [text, List.length_append, List.length_cons]
      omega
    · rw [text, nonEmptyLines_cons whole]

theorem getline_of_not_good {s : IStream} (stuck : s.good = false) :
    ∃ s', s.getline = (none, s') ∧ s'.good = false ∧ s'.text = s.text := by
  refine ⟨{ s with fail := true }, ?_, by simp [IStream.good], rfl⟩
  rw [getline, stuck]
  rfl

/-! ## Extractions -/

section Extract

variable {α τ : Type} (next : τ → Char → Option τ) (start : τ) (convert : Text → Conversion α)
  (zero before : α) (s : IStream)

/-- The numeral that a text begins with, behind white space, and the text behind it. -/
def numeral (text : Text) : Option (α × Text) :=
  if (Text.skipSpace text).isEmpty then none
  else
    let (field, rest) := scanField next start (Text.skipSpace text)
    match convert field with
    | .whole value => some (value, rest)
    | _ => none

/-- No extraction of a number sets `badbit`. -/
theorem extract_bad : (s.extract next start convert zero before).2.bad = s.bad := by
  have skipped : s.skipws.bad = s.bad := by
    unfold skipws
    split
    · split <;> rfl
    · rfl
  unfold extract
  simp only
  split
  · split <;> exact skipped
  · exact skipped

variable {s}

theorem skipws_of_not_good (stuck : s.good = false) :
    s.skipws.good = false ∧ s.skipws.fail = true := by
  unfold skipws
  rw [stuck]
  simp [good]

theorem extract_of_not_good (stuck : s.good = false) :
    (s.extract next start convert zero before).2.fail = true := by
  obtain ⟨stays, fails⟩ := skipws_of_not_good stuck
  unfold extract
  simp only [stays, Bool.false_eq_true, if_false, fails]

/-- An extraction from a good stream takes a numeral off it, or sets `failbit`. -/
theorem extract_numeral (ready : s.good = true) :
    (∃ value rest, numeral next start convert s.text = some (value, rest) ∧
      s.extract next start convert zero before =
        (value, { s with text := rest, eof := rest.isEmpty })) ∨
    (numeral next start convert s.text = none ∧
      (s.extract next start convert zero before).2.fail = true) := by
  unfold extract numeral skipws
  rw [if_pos ready]
  split
  next nothing =>
    right
    simp [good]
  next something =>
    have still : ({ s with text := Text.skipSpace s.text } : IStream).good = true := ready
    simp only [still, if_true]
    cases converted : convert (scanField next start (Text.skipSpace s.text)).1 with
    | whole value => exact Or.inl ⟨value, _, rfl, rfl⟩
    | outOfRange nearest => exact Or.inr ⟨rfl, rfl⟩
    | notNumeral => exact Or.inr ⟨rfl, rfl⟩

end Extract

theorem not_good_of_fail {s : IStream} (fails : s.fail = true) : s.good = false := by
  simp [good, fails]

end IStream

end CppProject.Library
