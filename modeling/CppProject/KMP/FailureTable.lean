import CppProject.KMP.Source
import CppProject.Library.Borders

/-!
# The failure table

`getNext` searches the pattern in itself.  Entry `k` of the table is the length of the longest
proper border of the first `k` characters; the last one that is written belongs to the whole
pattern, and is the entry behind the table.
-/

namespace CppProject.KMP

open Library Library.Checked Library.Borders

variable {pattern text : Text} {room : Nat}

theorem sameAt_natCast {b j : Nat} (b_small : b < 2 ^ 31) (j_small : j < 2 ^ 31)
    (b_inside : b < pattern.length) (j_inside : j < text.length) :
    sameAt pattern text b j = .ok (decide (pattern[b]? = text[j]?)) := by
  have counted : ¬((b : Int) = -1) := by omega
  rw [sameAt, if_neg counted, loadInt_natCast b_small (List.getElem?_eq_getElem b_inside), ok_bind,
    loadInt_natCast j_small (List.getElem?_eq_getElem j_inside), ok_bind,
    List.getElem?_eq_getElem b_inside, List.getElem?_eq_getElem j_inside]
  congr 1
  rw [Bool.eq_iff_iff, beq_iff_eq, decide_eq_true_iff, Option.some_inj]

/-- The states of the construction loop: the entries up to `j` are written, and `i` is the
border that is about to be extended. -/
structure Building (pattern : Text) (room : Nat) (next : List Int) (i : Int) (j : Nat) : Prop where
  length : next.length = room
  inside : j < room
  small : j < 2 ^ 31
  within : j ≤ pattern.length
  table : ∀ k ≤ j, ∃ v, next[k]? = some v ∧ Entry pattern k v
  candidate : Candidate pattern pattern 1 j i

theorem building_initial (some_room : 0 < room) :
    Building pattern room ((List.replicate room 0).set 0 (-1)) (-1) 0 := by
  refine ⟨by rw [List.length_set, List.length_replicate], some_room, by decide, Nat.zero_le _,
    fun k first => ?_, ⟨Or.inl rfl, fun b ends => absurd ends.1 (by omega)⟩⟩
  obtain rfl : k = 0 := Nat.le_zero.mp first
  exact ⟨-1, List.getElem?_set_self (by rwa [List.length_replicate]), .none⟩

section Round

variable {next : List Int} {i : Int} {j : Nat}

/-- Writing the entry of one more character. -/
theorem Building.write {b : Nat} (building : Building pattern room next i j)
    (more : j < pattern.length) (longest : LongestBorder pattern (j + 1) b) :
    (∃ written, storeInt next (j + 1) b = .ok written ∧ Building pattern room written b (j + 1)) ∨
      (storeInt next (j + 1) b = .error .outOfBounds ∧ (room ≤ j + 1 ∨ 2 ^ 31 ≤ j + 1)) := by
  have entry : ((j : Int) + 1) = (j + 1 : Nat) := rfl
  rw [entry]
  by_cases outside : room ≤ j + 1 ∨ 2 ^ 31 ≤ j + 1
  · exact Or.inr ⟨storeInt_outside (building.length ▸ outside) _, outside⟩
  · rw [not_or, Nat.not_le, Nat.not_le] at outside
    obtain ⟨fits, small⟩ := outside
    have inside : j + 1 < next.length := building.length.symm ▸ fits
    refine Or.inl ⟨_, storeInt_natCast small inside _, by rw [List.length_set, building.length], fits,
      small, more, fun k upto => ?_, longest.candidate⟩
    rcases Nat.lt_or_eq_of_le upto with old | rfl
    · obtain ⟨v, found, is_entry⟩ := building.table k (Nat.le_of_lt_succ old)
      exact ⟨v, by rw [List.getElem?_set_ne (Nat.ne_of_gt old), found], is_entry⟩
    · exact ⟨b, List.getElem?_set_self inside, .border (Nat.succ_pos j) longest⟩

/-- A round writes the next entry, leaves the table, or falls back to a shorter border. -/
theorem nextRound_cases (building : Building pattern room next i j) (more : j < pattern.length) :
    (∃ (written : List Int) (b : Nat), nextRound pattern ⟨next, i, j⟩ = .ok (some ⟨written, b, j + 1⟩) ∧
      (b : Int) = i + 1 ∧ Building pattern room written b (j + 1)) ∨
    (nextRound pattern ⟨next, i, j⟩ = .error .outOfBounds ∧ (room ≤ j + 1 ∨ 2 ^ 31 ≤ j + 1)) ∨
    ∃ v, nextRound pattern ⟨next, i, j⟩ = .ok (some ⟨next, v, j⟩) ∧ -1 ≤ v ∧ v < i ∧
      Building pattern room next v j := by
  have goes : (j : Int) < pattern.length := by omega
  rw [nextRound, if_pos goes]
  rcases building.candidate.ends with rfl | ⟨b, rfl, ends⟩
  · have restarted := building.candidate.restart (by omega)
    rcases building.write more restarted with ⟨written, run, after⟩ | ⟨stop, outside⟩
    · exact Or.inl ⟨written, 0, by rw [sameAt, if_pos rfl, ok_bind, if_pos rfl]; exact congrArg (· >>= _) run,
        rfl, after⟩
    · exact Or.inr (Or.inl ⟨by rw [sameAt, if_pos rfl, ok_bind, if_pos rfl]; exact congrArg (· >>= _) stop,
        outside⟩)
  · have shorter : 1 + b ≤ j := ends.1
    have small := building.small
    rw [sameAt_natCast (by omega) small (by omega) more, ok_bind]
    by_cases same : pattern[b]? = pattern[j]?
    · rw [decide_eq_true same, if_pos rfl]
      rcases building.write more (building.candidate.extend same) with ⟨written, run, after⟩ |
        ⟨stop, outside⟩
      · exact Or.inl ⟨written, b + 1, congrArg (· >>= _) run, rfl, after⟩
      · exact Or.inr (Or.inl ⟨congrArg (· >>= _) stop, outside⟩)
    · rw [decide_eq_false same, if_neg Bool.false_ne_true]
      obtain ⟨v, found, entry⟩ := building.table b (by omega)
      obtain ⟨candidate, smaller⟩ := building.candidate.fall_back same entry
      refine Or.inr (Or.inr ⟨v, ?_, ?_, smaller, { building with candidate := candidate }⟩)
      · rw [loadInt_natCast (by omega) found]
        rfl
      · cases entry <;> omega

end Round

/-- The entries of a finished table that a search reads, and the one behind them. -/
structure FailureTable (pattern : Text) (room : Nat) (next : List Int) : Prop where
  length : next.length = room
  small : pattern.length < 2 ^ 31
  inside : pattern.length < room
  table : ∀ k ≤ pattern.length, ∃ v, next[k]? = some v ∧ Entry pattern k v

def InLoop (pattern : Text) (room : Nat) (s : NextState) : Prop :=
  ∃ j : Nat, s.j = j ∧ Building pattern room s.next s.i j

/-- A round reads on, or leaves the position and falls back to a shorter border. -/
def roundsLeft (pattern : Text) (s : NextState) : Nat :=
  2 * (pattern.length - s.j.toNat) + (s.i + 1).toNat

theorem nextRound_round {s : NextState} (in_loop : InLoop pattern room s) :
    Loop.Round (nextRound pattern) (InLoop pattern room) (roundsLeft pattern)
      (fun fault => fault = .outOfBounds ∧ (room ≤ pattern.length ∨ 2 ^ 31 ≤ pattern.length)) s := by
  obtain ⟨next, i, _⟩ := s
  obtain ⟨j, rfl, building⟩ := in_loop
  rcases Nat.lt_or_ge j pattern.length with more | finished
  · rcases nextRound_cases building more with ⟨written, b, go, counted, after⟩ | ⟨stop, outside⟩ |
      ⟨v, go, lower, smaller, after⟩
    · refine Or.inr (Or.inr ⟨_, go, ⟨j + 1, rfl, after⟩, ?_⟩)
      simp only [roundsLeft] at counted ⊢
      omega
    · exact Or.inr (Or.inl ⟨_, stop, rfl, by omega⟩)
    · refine Or.inr (Or.inr ⟨_, go, ⟨j, rfl, after⟩, ?_⟩)
      simp only [roundsLeft] at smaller ⊢
      omega
  · exact Or.inl (if_neg (Int.not_lt.mpr (Int.ofNat_le.mpr finished)))

/-- The loop is left at the end of the pattern. -/
theorem nextRound_none {next : List Int} {i : Int} {j : Nat}
    (building : Building pattern room next i j) (done : nextRound pattern ⟨next, i, j⟩ = .ok none) :
    j = pattern.length := by
  by_contra unfinished
  have more : j < pattern.length := Nat.lt_of_le_of_ne building.within unfinished
  rcases nextRound_cases building more with ⟨_, _, go, _⟩ | ⟨stop, _⟩ | ⟨_, go, _⟩
  · rw [go] at done
    cases done
  · rw [stop] at done
    cases done
  · rw [go] at done
    cases done

/-- The loop writes one entry more than the pattern has characters. -/
theorem getNextIn_spec (some_room : 0 < room) :
    (∃ next, getNextIn room pattern = .ok next ∧ FailureTable pattern room next) ∨
      (getNextIn room pattern = .error .outOfBounds ∧
        (room ≤ pattern.length ∨ 2 ^ 31 ≤ pattern.length)) := by
  have first : store (List.replicate room (0 : Int)) 0 (-1) = .ok ((List.replicate room 0).set 0 (-1)) :=
    store_of_lt (by rwa [List.length_replicate]) _
  have begun : InLoop pattern room ⟨(List.replicate room 0).set 0 (-1), -1, 0⟩ :=
    ⟨0, rfl, building_initial some_room⟩
  have enough : roundsLeft pattern ⟨(List.replicate room 0).set 0 (-1), -1, 0⟩ <
      2 * pattern.length + 2 := Nat.lt_add_of_pos_right (by decide)
  unfold getNextIn
  rw [first, ok_bind]
  rcases Loop.ends (fun s => nextRound_round) begun enough with
    ⟨⟨next, i, _⟩, left, ⟨j, rfl, building⟩, done⟩ | ⟨_, stop, rfl, outside⟩
  · obtain rfl := nextRound_none building done
    refine Or.inl ⟨next, ?_, building.length, building.small, building.inside, building.table⟩
    rw [left]
    rfl
  · exact Or.inr ⟨by rw [stop]; rfl, outside⟩

/-! ## The entry behind the table -/

/-- No index that `getNext` reads or writes is outside the table or the pattern. -/
def StaysInside (pattern : Text) : Prop := ∃ next, getNext pattern = .ok next

/-- For every pattern that is not empty `getNext` writes behind its table.  One more entry is
room enough for the patterns that an `int` can count. -/
theorem get_next_leaves_table (pattern : Text) (nonempty : pattern ≠ []) :
    ¬StaysInside pattern ∧ getNext pattern = .error .outOfBounds ∧
      (pattern.length < 2 ^ 31 → ∃ next, getNextIn (pattern.length + 1) pattern = .ok next) := by
  have leaves : getNext pattern = .error .outOfBounds := by
    rcases @getNextIn_spec pattern _ (List.length_pos_of_ne_nil nonempty) with ⟨next, _, table⟩ | stop
    · exact absurd table.inside (Nat.lt_irrefl _)
    · exact stop.1
  refine ⟨?_, leaves, fun short => ?_⟩
  · rintro ⟨next, run⟩
    rw [leaves] at run
    cases run
  · rcases @getNextIn_spec pattern (pattern.length + 1) (Nat.succ_pos _) with ⟨next, run, _⟩ | ⟨_, outside⟩
    · exact ⟨next, run⟩
    · omega

theorem get_next_leaves_table_two :
    ¬StaysInside ['a', 'b'] ∧ ∃ next, getNextIn 3 ['a', 'b'] = .ok next := by
  obtain ⟨leaves, _, roomy⟩ := get_next_leaves_table ['a', 'b'] (List.cons_ne_nil _ _)
  exact ⟨leaves, roomy (by decide)⟩

/-- Entry 1 of a table with one entry is written. -/
theorem get_next_single : getNext ['a'] = .error .outOfBounds ∧ ¬StaysInside ['a'] := by
  have leaves : getNext ['a'] = .error .outOfBounds := by decide
  refine ⟨leaves, ?_⟩
  rintro ⟨next, run⟩
  rw [leaves] at run
  cases run

/-! ## The entries -/

/-- With room for the last entry `getNext` returns, entry 0 of the table is -1, and entry `k` is
the length of the longest proper prefix of the first `k` characters that is also a suffix. -/
def TableCorrect (pattern : Text) : Prop :=
  ∃ next, getNextIn (pattern.length + 1) pattern = .ok next ∧ next[0]? = some (-1) ∧
    ∀ k, 1 ≤ k → k < pattern.length → ∃ b : Nat, next[k]? = some (b : Int) ∧
      ProperBorder pattern k b ∧ ∀ other, ProperBorder pattern k other → other ≤ b

theorem FailureTable.zero {next : List Int} (table : FailureTable pattern room next) :
    next[0]? = some (-1) := by
  obtain ⟨v, found, entry⟩ := table.table 0 (Nat.zero_le _)
  cases entry with
  | none => exact found
  | border positive longest => exact absurd positive (Nat.lt_irrefl 0)

theorem FailureTable.longest {next : List Int} (table : FailureTable pattern room next) {k : Nat}
    (positive : 1 ≤ k) (inside : k ≤ pattern.length) :
    ∃ b : Nat, next[k]? = some (b : Int) ∧ ProperBorder pattern k b ∧
      ∀ other, ProperBorder pattern k other → other ≤ b := by
  obtain ⟨v, found, entry⟩ := table.table k inside
  cases entry with
  | none => exact absurd positive (by decide)
  | @border _ b _ longest =>
      refine ⟨b, found, (properBorder_iff inside).mpr longest.ends, fun other border => ?_⟩
      exact longest.longest other ((properBorder_iff inside).mp border)

/-- The index of the entry behind a longer pattern runs over the largest `int`. -/
theorem TableCorrect.short (correct : TableCorrect pattern) : pattern.length < 2 ^ 31 := by
  obtain ⟨next, run, _⟩ := correct
  rcases @getNextIn_spec pattern (pattern.length + 1) (Nat.succ_pos _) with ⟨_, _, table⟩ | ⟨stop, _⟩
  · exact table.small
  · rw [stop] at run
    cases run

/-- The table is right for the patterns that an `int` can count. -/
theorem table_correct_iff (pattern : Text) : TableCorrect pattern ↔ pattern.length < 2 ^ 31 := by
  refine ⟨TableCorrect.short, fun short => ?_⟩
  rcases @getNextIn_spec pattern (pattern.length + 1) (Nat.succ_pos _) with
    ⟨next, run, table⟩ | ⟨_, outside⟩
  · exact ⟨next, run, table.zero, fun k positive below => table.longest positive (Nat.le_of_lt below)⟩
  · omega

example : getNextIn 7 ['a', 'a', 'b', 'a', 'a', 'a'] = .ok [-1, 0, 1, 0, 1, 2, 2] := by decide

/-- The table of a pattern of 2^31 characters is not finished. -/
theorem table_incorrect_long : ¬TableCorrect (List.replicate (2 ^ 31) 'a') := by
  intro correct
  have short := correct.short
  rw [List.length_replicate] at short
  exact absurd short (Nat.lt_irrefl _)

end CppProject.KMP
