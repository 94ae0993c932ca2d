import CppProject.Library.Checked
import Mathlib.Order.Basic

/-!
# Ranges of a vector

Algorithms that rearrange a vector in place own a range of it: the cells from `lo` up to, but
without, `hi`.  They leave the cells outside the range alone, and what holds of all cells of
the range before holds of all of them after.
-/

namespace CppProject.Library.Ranges

open Checked

variable {α : Type} {lo hi mid : Nat} {before after last cells : List α}

/-- The cells of a vector with those of a range in another order. -/
structure Rearranged (lo hi : Nat) (before after : List α) : Prop where
  perm : after.Perm before
  outside : ∀ m, m < lo ∨ hi ≤ m → after[m]? = before[m]?

/-- Every cell of a range has the property. -/
def AllOn (P : α → Prop) (lo hi : Nat) (cells : List α) : Prop :=
  ∀ m x, lo ≤ m → m < hi → cells[m]? = some x → P x

/-- The cells of a range are in order. -/
def SortedOn [LE α] (lo hi : Nat) (cells : List α) : Prop :=
  ∀ m n x y, lo ≤ m → m < n → n < hi → cells[m]? = some x → cells[n]? = some y → x ≤ y

namespace Rearranged

theorem refl (lo hi : Nat) (cells : List α) : Rearranged lo hi cells cells :=
  ⟨List.Perm.refl _, fun _ _ => rfl⟩

theorem trans (first : Rearranged lo hi before after) (second : Rearranged lo hi after last) :
    Rearranged lo hi before last :=
  ⟨second.perm.trans first.perm, fun m out => (second.outside m out).trans (first.outside m out)⟩

theorem symm (rearranged : Rearranged lo hi before after) : Rearranged lo hi after before :=
  ⟨rearranged.perm.symm, fun m out => (rearranged.outside m out).symm⟩

/-- A rearranged range is part of every range around it. -/
theorem widen {lo' hi' : Nat} (inner : Rearranged lo hi before after) (below : lo' ≤ lo)
    (above : hi ≤ hi') : Rearranged lo' hi' before after :=
  ⟨inner.perm, fun m out => inner.outside m (by omega)⟩

theorem length (rearranged : Rearranged lo hi before after) : after.length = before.length :=
  rearranged.perm.length_eq

/-- Two cells of the range change places. -/
theorem swap {a b : Nat} {x y : α} (a_in : lo ≤ a ∧ a < hi) (b_in : lo ≤ b ∧ b < hi)
    (at_a : cells[a]? = some x) (at_b : cells[b]? = some y) :
    Rearranged lo hi cells ((cells.set a y).set b x) := by
  obtain ⟨a_inside, rfl⟩ := List.getElem?_eq_some_iff.mp at_a
  obtain ⟨b_inside, rfl⟩ := List.getElem?_eq_some_iff.mp at_b
  refine ⟨List.set_set_perm a_inside b_inside, fun m out => ?_⟩
  rw [List.getElem?_set_ne (by omega), List.getElem?_set_ne (by omega)]

end Rearranged

/-- What stands where after two cells have changed places. -/
theorem getElem?_swap {a b m : Nat} {x y : α} (at_a : cells[a]? = some x) (at_b : cells[b]? = some y) :
    ((cells.set a y).set b x)[m]? = if m = b then some x else if m = a then some y else cells[m]? := by
  obtain ⟨a_inside, _⟩ := List.getElem?_eq_some_iff.mp at_a
  obtain ⟨b_inside, _⟩ := List.getElem?_eq_some_iff.mp at_b
  by_cases is_b : m = b
  · rw [if_pos is_b, is_b, List.getElem?_set_self (by rwa [List.length_set])]
  · rw [if_neg is_b, List.getElem?_set_ne (Ne.symm is_b)]
    by_cases is_a : m = a
    · rw [if_pos is_a, is_a, List.getElem?_set_self a_inside]
    · rw [if_neg is_a, List.getElem?_set_ne (Ne.symm is_a)]

/-! ## The cells of a range -/

theorem mem_slice {x : α} :
    x ∈ slice cells lo (hi - lo) ↔ ∃ m, lo ≤ m ∧ m < hi ∧ cells[m]? = some x := by
  rw [List.mem_iff_getElem?]
  constructor
  · rintro ⟨offset, found⟩
    have inside : offset < hi - lo := by
      by_contra behind
      rw [slice, List.getElem?_take_eq_none (Nat.not_lt.mp behind)] at found
      cases found
    rw [getElem?_slice cells inside] at found
    exact ⟨lo + offset, by omega, by omega, found⟩
  · rintro ⟨m, low, high, found⟩
    refine ⟨m - lo, ?_⟩
    rw [getElem?_slice cells (by omega), Nat.add_sub_cancel' low, found]

theorem allOn_iff {P : α → Prop} : AllOn P lo hi cells ↔ ∀ x ∈ slice cells lo (hi - lo), P x := by
  constructor
  · intro all x member
    obtain ⟨m, low, high, found⟩ := mem_slice.mp member
    exact all m x low high found
  · intro all m x low high found
    exact all x (mem_slice.mpr ⟨m, low, high, found⟩)

/-- The cells of the range itself are rearranged. -/
theorem Rearranged.slice_perm (rearranged : Rearranged lo hi before after) :
    (slice after lo (hi - lo)).Perm (slice before lo (hi - lo)) := by
  rcases Nat.lt_or_ge hi lo with empty | ordered
  · rw [Nat.sub_eq_zero_of_le (Nat.le_of_lt empty)]
    exact List.Perm.refl _
  have parts (cells : List α) :
      cells = cells.take lo ++ (slice cells lo (hi - lo) ++ cells.drop hi) := by
    have back : (cells.drop lo).drop (hi - lo) = cells.drop hi := by
      rw [List.drop_drop, Nat.add_sub_cancel' ordered]
    rw [← back, slice, List.take_append_drop, List.take_append_drop]
  have front : after.take lo = before.take lo := by
    apply List.ext_getElem?
    intro m
    rw [List.getElem?_take, List.getElem?_take]
    split
    next below => exact rearranged.outside m (Or.inl below)
    next => rfl
  have back : after.drop hi = before.drop hi := by
    apply List.ext_getElem?
    intro m
    rw [List.getElem?_drop, List.getElem?_drop]
    exact rearranged.outside _ (Or.inr (Nat.le_add_right hi m))
  have perm := rearranged.perm
  rw [parts after, parts before, front, back] at perm
  exact (List.perm_append_right_iff _).mp ((List.perm_append_left_iff _).mp perm)

/-- What holds of all cells of the range still does. -/
theorem AllOn.rearranged {P : α → Prop} (all : AllOn P lo hi before)
    (rearranged : Rearranged lo hi before after) : AllOn P lo hi after := by
  rw [allOn_iff] at all ⊢
  intro x member
  exact all x (rearranged.slice_perm.mem_iff.mp member)

/-- What holds of all cells of a range outside of the rearranged one still does. -/
theorem AllOn.apart {P : α → Prop} {lo' hi' : Nat} (all : AllOn P lo' hi' before)
    (rearranged : Rearranged lo hi before after) (apart : hi' ≤ lo ∨ hi ≤ lo') :
    AllOn P lo' hi' after := by
  intro m x low high found
  rw [rearranged.outside m (by omega)] at found
  exact all m x low high found

theorem AllOn.empty {P : α → Prop} (none_left : hi ≤ lo) : AllOn P lo hi cells :=
  fun _ _ low high _ => absurd none_left (by omega)

theorem AllOn.imp {P Q : α → Prop} (all : AllOn P lo hi cells) (weaker : ∀ x, P x → Q x) :
    AllOn Q lo hi cells :=
  fun m x low high found => weaker x (all m x low high found)

/-- Two ranges that are adjacent. -/
theorem AllOn.append {P : α → Prop} (left : AllOn P lo mid cells) (right : AllOn P mid hi cells) :
    AllOn P lo hi cells := by
  intro m x low high found
  rcases Nat.lt_or_ge m mid with front | behind
  · exact left m x low front found
  · exact right m x behind high found

/-- A range and the cell behind it. -/
theorem AllOn.snoc {P : α → Prop} (all : AllOn P lo hi cells)
    (next : ∀ x, cells[hi]? = some x → P x) : AllOn P lo (hi + 1) cells := by
  intro m x low high found
  rcases Nat.lt_or_eq_of_le (Nat.le_of_lt_succ high) with old | rfl
  · exact all m x low old found
  · exact next x found

/-- Of cells that differ from each other only one is equal to a value. -/
theorem AllOn.nodup {a b : Nat} {p : α} (equal : AllOn (· = p) a b cells) (low : lo ≤ a) (high : b ≤ hi)
    (inside : hi ≤ cells.length) (nodup : (slice cells lo (hi - lo)).Nodup) : b ≤ a + 1 := by
  by_contra others
  have next_inside : a + 1 < cells.length := by omega
  have at_a := List.getElem?_eq_getElem (Nat.lt_of_succ_lt next_inside)
  have at_next := List.getElem?_eq_getElem next_inside
  rw [equal a _ (Nat.le_refl a) (by omega) at_a] at at_a
  rw [equal (a + 1) _ (Nat.le_succ a) (by omega) at_next] at at_next
  have shown (m : Nat) (behind : lo ≤ m) (front : m < hi) :
      (slice cells lo (hi - lo))[m - lo]? = cells[m]? := by
    rw [getElem?_slice cells (by omega), Nat.add_sub_cancel' behind]
  have same : (slice cells lo (hi - lo))[a - lo]? = (slice cells lo (hi - lo))[a + 1 - lo]? := by
    rw [shown a low (by omega), shown (a + 1) (by omega) (by omega), at_a, at_next]
  have inside_slice : a - lo < (slice cells lo (hi - lo)).length := by
    rw [slice_length (by omega)]
    omega
  have := (List.getElem?_inj inside_slice nodup).mp same
  omega

/-! ## Sorted ranges -/

section Order

variable [Preorder α]

theorem SortedOn.single (short : hi ≤ lo + 1) : SortedOn lo hi cells :=
  fun _ _ _ _ low between high _ _ => absurd short (by omega)

/-- A range outside of the rearranged one stays sorted. -/
theorem SortedOn.apart {lo' hi' : Nat} (sorted : SortedOn lo' hi' before)
    (rearranged : Rearranged lo hi before after) (apart : hi' ≤ lo ∨ hi ≤ lo') :
    SortedOn lo' hi' after := by
  intro m n x y low between high at_m at_n
  rw [rearranged.outside m (by omega)] at at_m
  rw [rearranged.outside n (by omega)] at at_n
  exact sorted m n x y low between high at_m at_n

/-- Two sorted ranges with a value between them. -/
theorem SortedOn.append {p : α} (left : SortedOn lo mid cells) (right : SortedOn mid hi cells)
    (below : AllOn (· ≤ p) lo mid cells) (above : AllOn (p ≤ ·) mid hi cells) :
    SortedOn lo hi cells := by
  intro m n x y low between high at_m at_n
  rcases Nat.lt_or_ge n mid with front | behind
  · exact left m n x y low between front at_m at_n
  rcases Nat.lt_or_ge m mid with before_mid | back
  · exact (below m x low before_mid at_m).trans (above n y behind high at_n)
  · exact right m n x y back between high at_m at_n

theorem SortedOn.pairwise (sorted : SortedOn lo hi cells) :
    (slice cells lo (hi - lo)).Pairwise (· ≤ ·) := by
  rw [List.pairwise_iff_getElem]
  intro m n m_inside n_inside between
  have length : (slice cells lo (hi - lo)).length ≤ hi - lo := by
    rw [slice, List.length_take]
    exact Nat.min_le_left _ _
  have at_m := List.getElem?_eq_getElem m_inside
  have at_n := List.getElem?_eq_getElem n_inside
  rw [getElem?_slice cells (by omega)] at at_m at_n
  exact sorted _ _ _ _ (Nat.le_add_right lo m) (by omega) (by omega) at_m at_n

end Order

end CppProject.Library.Ranges
