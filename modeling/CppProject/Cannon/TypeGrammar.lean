import CppProject.Cannon.KVSchema

/-!
# The grammar of schema types

A type is a known name, or a known name and a count in brackets.  The constructor splits at
`[` and gives the second part to `std::stoull`, which stops behind the digits and takes a sign;
what else is written is not looked at.
-/

namespace CppProject.Cannon.KVSchemaType

open Library Library.Text

/-- An element name, in any letter case. -/
def Known (name : Text) (size : UInt64) : Prop := typeSizeMap.lookup (toLower name) = some size

/-- A known name alone, up to surrounding white space. -/
def Alone (s : Text) (size : UInt64) : Prop :=
  ∃ before name after, s = before ++ (name ++ after) ∧ Spaces before ∧ Spaces after ∧ Known name size

/-- A known name with one bracketed decimal count and nothing else, up to surrounding white
space.  When the type is `spaced`, white space may also stand next to the brackets. -/
def Counted (spaced : Bool) (s : Text) (size : UInt64) (digits : Text) : Prop :=
  ∃ before name gap lead trail after,
    s = before ++ (name ++ gap) ++ '[' :: (lead ++ (digits ++ (trail ++ [']']) ++ after)) ∧
      Spaces before ∧ Spaces gap ∧ Spaces lead ∧ Spaces trail ∧ Spaces after ∧
      (spaced = false → gap = [] ∧ lead = [] ∧ trail = []) ∧
      Known name size ∧ digits ≠ [] ∧ ∀ c ∈ digits, c.isDigit = true

/-- The texts of types, with their sizes. -/
def TypeText (spaced : Bool) (s : Text) (n : Nat) : Prop :=
  (∃ size, Alone s size ∧ n = size.toNat) ∨
    ∃ size digits, Counted spaced s size digits ∧ n = size.toNat * decimal digits

/-- Exactly the types are accepted, with exactly their sizes. -/
def Exact (spaced : Bool) (s : Text) : Prop :=
  ∀ n, TypeText spaced s n ↔ ∃ size, construct s = .ok size ∧ size.toNat = n

variable {spaced : Bool} {s : Text} {size : UInt64} {digits : Text}

/-! ## Names -/

theorem Known.mem {name : Text} (known : Known name size) : (toLower name, size) ∈ typeSizeMap := by
  obtain ⟨front, back, split, _⟩ := List.lookup_eq_some_iff.mp known
  rw [split]
  exact List.mem_append_right _ List.mem_cons_self

theorem Known.size_pos {name : Text} (known : Known name size) : 0 < size.toNat := by
  have all : typeSizeMap.all (fun entry => 0 < entry.2.toNat) = true := by decide
  exact of_decide_eq_true (List.all_eq_true.mp all _ known.mem)

/-- The characters of names are neither white space nor brackets. -/
theorem Known.plain {name : Text} (known : Known name size) :
    name ≠ [] ∧ ∀ c ∈ name, isSpace c = false ∧ c ≠ '[' := by
  have all : typeSizeMap.all (fun entry => entry.1 ≠ [] ∧ entry.1.all fun c => !isSpace c && c != '[') =
      true := by decide
  obtain ⟨filled, plain⟩ := of_decide_eq_true (List.all_eq_true.mp all _ known.mem)
  refine ⟨fun empty => filled (by rw [empty]; rfl), fun c member => ?_⟩
  have lower := List.all_eq_true.mp plain c.toLower (List.mem_map_of_mem member)
  rw [Bool.and_eq_true, Bool.not_eq_true', bne_iff_ne] at lower
  -- white space and brackets have no case
  constructor
  · by_contra space
    rw [toLower_space (Bool.not_eq_false _ ▸ space)] at lower
    exact space lower.1
  · rintro rfl
    exact lower.2 rfl

/-- White space around a name is trimmed away. -/
theorem Known.trim_eq {name before after : Text} (known : Known name size) (before_spaces : Spaces before)
    (after_spaces : Spaces after) : trim (before ++ (name ++ after)) = name :=
  trim_surrounded before_spaces after_spaces
    (fun c head => (known.plain.2 c (List.mem_of_mem_head? head)).1)
    (fun c last => (known.plain.2 c (List.mem_of_mem_getLast? last)).1)

theorem spaces_no_bracket {text : Text} (spaces : Spaces text) : '[' ∉ text :=
  fun member => absurd (spaces _ member) (by decide)

/-! ## The parts of a type -/

theorem Alone.parts (alone : Alone s size) : s.splitOn '[' = [s] ∧ '[' ∉ s ∧ Known (trim s) size := by
  obtain ⟨before, name, after, rfl, before_spaces, after_spaces, known⟩ := alone
  have plain : '[' ∉ before ++ (name ++ after) := by
    simp only [List.mem_append, not_or]
    exact ⟨spaces_no_bracket before_spaces, fun member => (known.plain.2 _ member).2 rfl,
      spaces_no_bracket after_spaces⟩
  exact ⟨List.splitOn_eq_singleton plain, plain, (known.trim_eq before_spaces after_spaces).symm ▸ known⟩

theorem alone_of_known (known : Known (trim s) size) : Alone s size := by
  obtain ⟨before, after, split, before_spaces, after_spaces⟩ := exists_trim s
  exact ⟨before, trim s, after, split, before_spaces, after_spaces, known⟩

/-- A count starts with a digit. -/
theorem head_digits (some_digit : digits ≠ []) (all_digits : ∀ c ∈ digits, c.isDigit = true)
    (rest : Text) : ∀ c ∈ (digits ++ rest).head?, isSpace c = false := by
  obtain ⟨first, more, rfl⟩ := List.exists_cons_of_ne_nil some_digit
  intro c head
  obtain rfl := Option.some.inj head
  exact isSpace_digit (all_digits _ List.mem_cons_self)

/-- Behind a count there is no digit. -/
theorem head_trail {trail : Text} (trail_spaces : Spaces trail) (after : Text) :
    ∀ c ∈ (trail ++ ']' :: after).head?, c.isDigit = false := by
  intro c head
  cases trail with
  | nil =>
      obtain rfl := Option.some.inj head
      rfl
  | cons space trail =>
      obtain rfl := Option.some.inj head
      by_contra digit
      have := isSpace_digit (Bool.not_eq_false _ ▸ digit)
      rw [trail_spaces _ List.mem_cons_self] at this
      cases this

/-- The name and the count of a type are its parts, and `stoull` reads the digits. -/
theorem Counted.parts (counted : Counted spaced s size digits) :
    ∃ front rest, s.splitOn '[' = [front, rest] ∧ '[' ∈ s ∧ Known (trim front) size ∧
      (skipSpace rest).takeWhile Char.isDigit = digits ∧
      stoull (trim rest) = if 2 ^ 64 ≤ decimal digits then none else some (UInt64.ofNat (decimal digits)) := by
  obtain ⟨before, name, gap, lead, trail, after, rfl, before_spaces, gap_spaces, lead_spaces,
    trail_spaces, after_spaces, _, known, some_digit, all_digits⟩ := counted
  have no_bracket : '[' ∉ digits := fun member => absurd (all_digits _ member) (by decide)
  have front_plain : '[' ∉ before ++ (name ++ gap) := by
    simp only [List.mem_append, not_or]
    exact ⟨spaces_no_bracket before_spaces, fun member => (known.plain.2 _ member).2 rfl,
      spaces_no_bracket gap_spaces⟩
  have rest_plain : '[' ∉ lead ++ (digits ++ (trail ++ [']']) ++ after) := by
    simp only [List.mem_append, not_or]
    exact ⟨spaces_no_bracket lead_spaces, ⟨no_bracket, spaces_no_bracket trail_spaces, by decide⟩,
      spaces_no_bracket after_spaces⟩
  have ends : ∀ c ∈ (digits ++ (trail ++ [']'])).getLast?, isSpace c = false := by
    intro c last
    rw [← List.append_assoc, List.getLast?_concat] at last
    obtain rfl := Option.some.inj last
    rfl
  refine ⟨before ++ (name ++ gap), lead ++ (digits ++ (trail ++ [']']) ++ after), ?_, ?_, ?_, ?_, ?_⟩
  · rw [List.splitOn_append_cons_self, List.splitOn_eq_singleton front_plain,
      List.splitOn_eq_singleton rest_plain]
    rfl
  · exact List.mem_append_right _ List.mem_cons_self
  · rw [known.trim_eq before_spaces gap_spaces]
    exact known
  · have starts := head_digits some_digit all_digits (trail ++ [']'] ++ after)
    have behind := head_trail trail_spaces after
    rw [List.append_cons] at behind
    rw [skipSpace_append lead_spaces, List.append_assoc, skipSpace_eq_self starts]
    exact takeWhile_digits all_digits behind
  · have starts := head_digits some_digit all_digits (trail ++ [']'])
    rw [trim_surrounded lead_spaces after_spaces starts ends]
    exact stoull_digits some_digit all_digits (head_trail trail_spaces [])

/-- A type has one size. -/
theorem Counted.unique {size' : UInt64} {digits' : Text} (counted : Counted spaced s size digits)
    (counted' : Counted spaced s size' digits') : size = size' ∧ digits = digits' := by
  obtain ⟨front, rest, split, _, known, read, _⟩ := counted.parts
  obtain ⟨front', rest', split', _, known', read', _⟩ := counted'.parts
  rw [split] at split'
  obtain ⟨rfl, tail⟩ := List.cons.inj split'
  obtain ⟨rfl, _⟩ := List.cons.inj tail
  exact ⟨Option.some.inj (known.symm.trans known'), read.symm.trans read'⟩

/-! ## The constructor -/

theorem splitOn_parts (s : Text) : ∃ front rest, s.splitOn '[' = front :: rest :=
  List.exists_cons_of_ne_nil (List.splitOn_ne_nil _ _)

theorem construct_unknown {front : Text} {rest : List Text} (split : s.splitOn '[' = front :: rest)
    (unknown : typeSizeMap.lookup (toLower (trim front)) = none) :
    construct s = .error (.unknownType front) := by
  simp only [construct, split, List.headD_cons, unknown]

theorem construct_alone {front : Text} (split : s.splitOn '[' = [front])
    (known : Known (trim front) size) : construct s = .ok size := by
  have found : typeSizeMap.lookup (toLower (trim front)) = some size := known
  simp only [construct, split, List.headD_cons, found]
  exact congrArg Except.ok (UInt64.mul_one size)

theorem construct_count {front count : Text} {rest : List Text}
    (split : s.splitOn '[' = front :: count :: rest) (known : Known (trim front) size) :
    construct s = match stoull (trim count) with
      | none => .error (.badCount count)
      | some elementCount => .ok (size * elementCount) := by
  have found : typeSizeMap.lookup (toLower (trim front)) = some size := known
  simp only [construct, split, List.headD_cons, found]
  rfl

/-- The name in front of the first bracket of a type is known. -/
theorem TypeText.known {n : Nat} (type : TypeText spaced s n) :
    ∃ size, Known (trim ((s.splitOn '[').headD [])) size := by
  rcases type with ⟨size, alone, _⟩ | ⟨size, digits, counted, _⟩
  · obtain ⟨split, _, known⟩ := alone.parts
    exact ⟨size, by rw [split]; exact known⟩
  · obtain ⟨front, rest, split, _, known, _⟩ := counted.parts
    exact ⟨size, by rw [split]; exact known⟩

theorem exact_unknown (unknown : typeSizeMap.lookup (toLower (trim ((s.splitOn '[').headD []))) = none) :
    Exact spaced s := by
  intro n
  constructor
  · intro type
    obtain ⟨size, known⟩ := type.known
    cases unknown.symm.trans known
  · rintro ⟨size, accepted, _⟩
    obtain ⟨front, rest, split⟩ := splitOn_parts s
    rw [split] at unknown
    rw [construct_unknown split unknown] at accepted
    cases accepted

/-- Names alone are accepted. -/
theorem exact_alone (plain : '[' ∉ s) : Exact spaced s := by
  have split : s.splitOn '[' = [s] := List.splitOn_eq_singleton plain
  intro n
  constructor
  · rintro (⟨size, alone, rfl⟩ | ⟨size, digits, counted, _⟩)
    · exact ⟨size, construct_alone split alone.parts.2.2, rfl⟩
    · obtain ⟨_, _, _, bracket, _⟩ := counted.parts
      exact absurd bracket plain
  · rintro ⟨size, accepted, rfl⟩
    cases found : typeSizeMap.lookup (toLower (trim s)) with
    | none =>
        rw [construct_unknown split found] at accepted
        cases accepted
    | some elementSize =>
        rw [construct_alone split found] at accepted
        cases accepted
        exact Or.inl ⟨size, alone_of_known found, rfl⟩

/-- A counted type is accepted with its size, unless that is too large. -/
theorem exact_counted (counted : Counted spaced s size digits) :
    Exact spaced s ↔ size.toNat * decimal digits < 2 ^ 64 := by
  obtain ⟨front, rest, split, bracket, known, _, reads⟩ := counted.parts
  have run := construct_count split known
  rw [reads] at run
  have type {n : Nat} : TypeText spaced s n ↔ n = size.toNat * decimal digits := by
    constructor
    · rintro (⟨other, alone, _⟩ | ⟨other, digits', counted', rfl⟩)
      · exact absurd bracket alone.parts.2.1
      · obtain ⟨rfl, rfl⟩ := counted.unique counted'
        rfl
    · exact fun same => Or.inr ⟨size, digits, counted, same⟩
  constructor
  · intro exact
    obtain ⟨product, _, same⟩ := (exact _).mp (type.mpr rfl)
    exact same ▸ product.toNat_lt
  · intro small n
    have positive := known.size_pos
    have count_small : decimal digits < 2 ^ 64 :=
      Nat.lt_of_le_of_lt (Nat.le_mul_of_pos_left _ positive) small
    rw [if_neg (Nat.not_le.mpr count_small)] at run
    have product : (size * UInt64.ofNat (decimal digits)).toNat = size.toNat * decimal digits := by
      rw [UInt64.toNat_mul, UInt64.toNat_ofNat_of_lt' count_small, Nat.mod_eq_of_lt small]
    rw [type]
    constructor
    · rintro rfl
      exact ⟨_, run, product⟩
    · rintro ⟨size', accepted, rfl⟩
      cases run.symm.trans accepted
      exact product

/-- Behind a known name, what is no type is rejected if there is no number to read. -/
theorem exact_uncounted {front count : Text} {rest : List Text}
    (split : s.splitOn '[' = front :: count :: rest) (bracket : '[' ∈ s)
    (known : Known (trim front) size) (uncounted : ∀ size digits, ¬Counted spaced s size digits) :
    Exact spaced s ↔ stoull (trim count) = none := by
  have run := construct_count split known
  have no_type {n : Nat} : ¬TypeText spaced s n := by
    rintro (⟨other, alone, _⟩ | ⟨other, digits, counted, _⟩)
    · exact alone.parts.2.1 bracket
    · exact uncounted other digits counted
  cases reads : stoull (trim count) with
  | none =>
      rw [reads] at run
      refine iff_of_true (fun n => iff_of_false no_type ?_) rfl
      rintro ⟨size', accepted, _⟩
      cases run.symm.trans accepted
  | some elementCount =>
      rw [reads] at run
      refine iff_of_false (fun exact => ?_) (fun impossible => by cases impossible)
      exact no_type ((exact _).mpr ⟨_, run, rfl⟩)

/-- The texts that are accepted or rejected as they ought to be: there is no known name in front
of the first bracket, or there is no bracket; or what is written is a type whose size is a
`size_t`; or it is none, and there is no number to read up to the next bracket. -/
def Judged (spaced : Bool) (s : Text) : Prop :=
  typeSizeMap.lookup (toLower (trim ((s.splitOn '[').headD []))) = none ∨ '[' ∉ s ∨
    (∃ size digits, Counted spaced s size digits ∧ size.toNat * decimal digits < 2 ^ 64) ∨
    (∀ size digits, ¬Counted spaced s size digits) ∧
      ∃ count, (s.splitOn '[')[1]? = some count ∧ stoull (trim count) = none

theorem splitOn_bracket (bracket : '[' ∈ s) :
    ∃ front count rest, s.splitOn '[' = front :: count :: rest := by
  obtain ⟨front, behind, rfl, plain⟩ := List.eq_append_cons_of_mem bracket
  obtain ⟨count, rest, split⟩ := splitOn_parts behind
  refine ⟨front, count, rest, ?_⟩
  rw [List.splitOn_append_cons_self, List.splitOn_eq_singleton plain, split]
  rfl

/-- The constructor accepts exactly the types, with exactly their sizes, on the texts that it
judges and on no others. -/
theorem type_grammar_exact (spaced : Bool) (s : Text) : Exact spaced s ↔ Judged spaced s := by
  cases found : typeSizeMap.lookup (toLower (trim ((s.splitOn '[').headD []))) with
  | none => exact iff_of_true (exact_unknown found) (Or.inl found)
  | some size =>
      by_cases bracket : '[' ∈ s
      swap
      · exact iff_of_true (exact_alone bracket) (Or.inr (Or.inl bracket))
      obtain ⟨front, count, rest, split⟩ := splitOn_bracket bracket
      have known : Known (trim front) size := by
        rw [split] at found
        exact found
      unfold Judged
      rw [found, split]
      by_cases typed : ∃ size digits, Counted spaced s size digits
      · obtain ⟨size', digits, counted⟩ := typed
        refine (exact_counted counted).trans ⟨fun small => ?_, ?_⟩
        · exact Or.inr (Or.inr (Or.inl ⟨size', digits, counted, small⟩))
        · rintro (none | plain | ⟨other, digits', counted', small⟩ | ⟨uncounted, _⟩)
          · cases none
          · exact absurd bracket plain
          · obtain ⟨rfl, rfl⟩ := counted.unique counted'
            exact small
          · exact absurd counted (uncounted _ _)
      · have uncounted : ∀ size digits, ¬Counted spaced s size digits :=
          fun size digits counted => typed ⟨size, digits, counted⟩
        refine (exact_uncounted split bracket known uncounted).trans ⟨fun nothing => ?_, ?_⟩
        · exact Or.inr (Or.inr (Or.inr ⟨uncounted, count, rfl, nothing⟩))
        · rintro (none | plain | ⟨other, digits', counted', _⟩ | ⟨_, count', same, nothing⟩)
          · cases none
          · exact absurd bracket plain
          · exact absurd counted' (uncounted _ _)
          · exact Option.some.inj same ▸ nothing

/-- A type without its closing bracket, one with two dimensions, one with a signed count, one
with text behind the digits and one that is too large are accepted. -/
theorem type_grammar_accepts :
    construct "i32[3".toList = .ok 12 ∧ construct "i32[3][4]".toList = .ok 12 ∧
      construct "i32[-1]".toList = .ok 0xfffffffffffffffc ∧ construct "i32[3x]".toList = .ok 12 ∧
      construct "i32[4611686018427387904]".toList = .ok 0 ∧
      ¬Exact true "i32[3".toList ∧ ¬Exact false "i32[3".toList := by
  have accepted : construct "i32[3".toList = .ok 12 := by decide
  have no_type (spaced : Bool) : ¬Exact spaced "i32[3".toList := by
    intro exact
    rcases (exact 12).mpr ⟨12, accepted, rfl⟩ with ⟨size, alone, _⟩ | ⟨size, digits, counted, _⟩
    · exact alone.parts.2.1 (by decide)
    · obtain ⟨before, name, gap, lead, trail, after, split, _⟩ := counted
      have closed : ']' ∈ "i32[3".toList := by
        rw [split]
        simp
      exact absurd closed (by decide)
  exact ⟨accepted, by decide, by decide, by decide, by decide, no_type true, no_type false⟩

end CppProject.Cannon.KVSchemaType
