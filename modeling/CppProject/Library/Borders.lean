import Mathlib.Data.List.Basic

/-!
# Prefixes of a pattern that end in a text

Searching for a pattern keeps a prefix of it that ends where the text has been read to.
When that prefix cannot be extended, the next shorter one is its longest border.  The
borders of the prefixes are found by searching for the pattern in itself, behind its
first position.
-/

namespace CppProject.Library.Borders

variable {α : Type}

/-- The first `b` elements of the pattern stand in the text from `pos` on. -/
def Agrees (pattern text : List α) (pos b : Nat) : Prop :=
  ∀ t < b, pattern[t]? = text[pos + t]?

/-- The first `b` elements of the pattern end in front of position `j` of the text, and
begin at `start` or behind it. -/
def Ends (pattern text : List α) (start j b : Nat) : Prop :=
  start + b ≤ j ∧ Agrees pattern text (j - b) b

/-- The longest prefix of the pattern that ends in front of position `j`. -/
structure Longest (pattern text : List α) (start j b : Nat) : Prop where
  ends : Ends pattern text start j b
  longest : ∀ other, Ends pattern text start j other → other ≤ b

/-- The longest proper border of the first `k` elements of a pattern. -/
abbrev LongestBorder (pattern : List α) (k b : Nat) : Prop := Longest pattern pattern 1 k b

/-- The prefix that a search tries to extend at position `j`, where `-1` stands for none: all
longer prefixes that end there are followed by another element. -/
structure Candidate (pattern text : List α) (start j : Nat) (i : Int) : Prop where
  ends : i = -1 ∨ ∃ b : Nat, i = b ∧ Ends pattern text start j b
  tried : ∀ b : Nat, Ends pattern text start j b → i < b → pattern[b]? ≠ text[j]?

/-- An entry of the table of longest borders. -/
inductive Entry (pattern : List α) : Nat → Int → Prop where
  | none : Entry pattern 0 (-1)
  | border {k b : Nat} (positive : 0 < k) (longest : LongestBorder pattern k b) : Entry pattern k b

variable {pattern text : List α} {start j b : Nat} {i : Int}

theorem ends_zero (begun : start ≤ j) : Ends pattern text start j 0 :=
  ⟨begun, fun t impossible => absurd impossible (Nat.not_lt_zero t)⟩

/-- A prefix that ends one position further extends a prefix that ends here. -/
theorem ends_succ :
    Ends pattern text start (j + 1) (b + 1) ↔
      Ends pattern text start j b ∧ pattern[b]? = text[j]? := by
  unfold Ends Agrees
  rw [Nat.add_sub_add_right, Nat.forall_lt_succ_right, ← Nat.add_assoc, Nat.add_le_add_iff_right,
    and_assoc]
  refine and_congr_right fun inside => and_congr_right fun _ => ?_
  rw [Nat.sub_add_cancel (Nat.le_of_add_left_le inside)]

/-- The prefixes that end in front of a place are no longer than the place. -/
theorem Ends.le (ends : Ends pattern text start j b) : b ≤ j := Nat.le_of_add_left_le ends.1

/-- What ends in the text is a prefix of the pattern. -/
theorem Ends.le_length (ends : Ends pattern text start j b) (inside : j ≤ text.length) :
    b ≤ pattern.length := by
  by_contra longer
  have position := ends.1
  have same := ends.2 pattern.length (by omega)
  rw [List.getElem?_eq_none (Nat.le_refl _), List.getElem?_eq_getElem (by omega)] at same
  cases same

/-- A border of a prefix that ends somewhere ends there as well. -/
theorem Ends.border {c : Nat} (ends : Ends pattern text start j b)
    (border : Ends pattern pattern 1 b c) : Ends pattern text start j c := by
  have shorter : 1 + c ≤ b := border.1
  have inside := ends.1
  refine ⟨by omega, fun t below => ?_⟩
  rw [border.2 t below, ends.2 (b - c + t) (by omega)]
  congr 1
  omega

/-- Of two prefixes that end in the same place the shorter one is a border of the longer one. -/
theorem Ends.shorter {c : Nat} (ends : Ends pattern text start j b)
    (other : Ends pattern text start j c) (shorter : c < b) : Ends pattern pattern 1 b c := by
  have inside := ends.1
  refine ⟨by omega, fun t below => ?_⟩
  rw [other.2 t below, ends.2 (b - c + t) (by omega)]
  congr 1
  omega

/-- A longest prefix is the first candidate. -/
theorem Longest.candidate (longest : Longest pattern text start j b) :
    Candidate pattern text start j b := by
  refine ⟨Or.inr ⟨b, rfl, longest.ends⟩, fun other ends longer => ?_⟩
  have := longest.longest other ends
  omega

/-- A candidate that can be extended gives the longest prefix one position further. -/
theorem Candidate.extend (candidate : Candidate pattern text start j b)
    (same : pattern[b]? = text[j]?) : Longest pattern text start (j + 1) (b + 1) := by
  obtain ⟨ends, tried⟩ := candidate
  constructor
  · rcases ends with impossible | ⟨c, eq, ends⟩
    · omega
    · obtain rfl : b = c := Int.ofNat.inj eq
      exact ends_succ.mpr ⟨ends, same⟩
  · intro other ends
    cases other with
    | zero => exact Nat.zero_le _
    | succ other =>
        obtain ⟨shorter, extended⟩ := ends_succ.mp ends
        by_contra longer
        exact tried other shorter (by omega) extended

/-- When no prefix can be extended, none ends one position further. -/
theorem Candidate.restart (candidate : Candidate pattern text start j (-1)) (begun : start ≤ j + 1) :
    Longest pattern text start (j + 1) 0 := by
  refine ⟨ends_zero begun, fun other ends => ?_⟩
  cases other with
  | zero => exact Nat.le_refl 0
  | succ other =>
      obtain ⟨shorter, extended⟩ := ends_succ.mp ends
      exact absurd extended (candidate.tried other shorter (by omega))

/-- Behind a candidate that cannot be extended the longest border of it is the next one. -/
theorem Candidate.fall_back (candidate : Candidate pattern text start j b)
    (differ : pattern[b]? ≠ text[j]?) {v : Int} (entry : Entry pattern b v) :
    Candidate pattern text start j v ∧ v < b := by
  obtain ⟨here, tried⟩ := candidate
  have ends : Ends pattern text start j b := by
    rcases here with impossible | ⟨c, eq, ends⟩
    · omega
    · obtain rfl : b = c := Int.ofNat.inj eq
      exact ends
  cases entry with
  | none =>
      refine ⟨⟨Or.inl rfl, fun other also _ => ?_⟩, by decide⟩
      rcases Nat.eq_zero_or_pos other with rfl | positive
      · exact differ
      · exact tried other also (by omega)
  | @border _ c positive longest =>
      have proper : 1 + c ≤ b := longest.ends.1
      refine ⟨⟨Or.inr ⟨c, rfl, ends.border longest.ends⟩, fun other also longer => ?_⟩, by omega⟩
      rcases Nat.lt_trichotomy other b with shorter | rfl | more
      · have := longest.longest other (ends.shorter also shorter)
        omega
      · exact differ
      · exact tried other also (by omega)

/-- The whole pattern stands in the text from `pos` on when it ends behind that. -/
theorem occurs_iff {pos : Nat} :
    pattern <+: text.drop pos ↔ Ends pattern text 0 (pos + pattern.length) pattern.length := by
  have position : pos + pattern.length - pattern.length = pos := by omega
  rw [List.prefix_iff_getElem?, Ends, Agrees, position]
  refine ⟨fun same => ⟨by omega, fun t below => ?_⟩, fun same t below => ?_⟩
  · rw [← List.getElem?_drop, same t below, List.getElem?_eq_getElem below]
  · rw [List.getElem?_drop, ← same.2 t below, List.getElem?_eq_getElem below]

/-! ## Borders as prefixes and suffixes -/

/-- A proper prefix of the first `k` elements that is also a suffix of them, by its length. -/
def ProperBorder (pattern : List α) (k b : Nat) : Prop :=
  b < k ∧ pattern.take b <+: pattern.take k ∧ pattern.take b <:+ pattern.take k

theorem properBorder_iff {k : Nat} (inside : k ≤ pattern.length) :
    ProperBorder pattern k b ↔ Ends pattern pattern 1 k b := by
  unfold ProperBorder Ends Agrees
  rw [Nat.add_comm 1 b, Nat.succ_le_iff]
  refine and_congr_right fun shorter => ?_
  have front : pattern.take b <+: pattern.take k := List.take_prefix_take_left (Nat.le_of_lt shorter)
  rw [and_iff_right front, List.suffix_iff_eq_drop, List.length_take_of_le inside,
    List.length_take_of_le (by omega), List.ext_getElem?_iff]
  have shown (t : Nat) (below : t < b) : ((pattern.take k).drop (k - b))[t]? = pattern[k - b + t]? := by
    rw [List.getElem?_drop, List.getElem?_take_of_lt (by omega)]
  constructor
  · intro same t below
    rw [← List.getElem?_take_of_lt below, same t, shown t below]
  · intro same t
    by_cases below : t < b
    · rw [List.getElem?_take_of_lt below, same t below, shown t below]
    · rw [List.getElem?_eq_none (by rw [List.length_take]; omega),
        List.getElem?_eq_none (by rw [List.length_drop, List.length_take]; omega)]

end CppProject.Library.Borders
