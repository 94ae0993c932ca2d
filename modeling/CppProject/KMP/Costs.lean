import CppProject.KMP.Search

/-!
# The cost of a search

A fall back to a shorter border takes back what was matched before, and no character is read
again behind one that was.  So the rounds of both loops are at most two for a character.
-/

namespace CppProject.KMP

open Library Library.Checked Library.Loop

variable {src ptn : Text} {next : List Int} {room : Nat}

/-- A round of the construction leaves fewer rounds. -/
theorem nextRound_next {s s' : NextState} (in_loop : InLoop ptn room s)
    (go : nextRound ptn s = .ok (some s')) :
    InLoop ptn room s' ∧ roundsLeft ptn s' + 1 ≤ roundsLeft ptn s := by
  rcases nextRound_round in_loop with done | ⟨fault, stop, _⟩ | ⟨s'', go', after, less⟩
  · cases done.symm.trans go
  · cases stop.symm.trans go
  · cases go'.symm.trans go
    exact ⟨after, less⟩

/-- A round of the search leaves fewer rounds. -/
theorem searchRound_next (table : FailureTable ptn room next) (src_short : src.length < 2 ^ 31)
    {s s' : Int × Int} (in_search : InSearch src ptn s) (go : searchRound src ptn next s = .ok (some s')) :
    InSearch src ptn s' ∧ searchLeft src s' + 1 ≤ searchLeft src s := by
  obtain ⟨i, _⟩ := s
  obtain ⟨j, rfl, searching⟩ := in_search
  by_cases goes : i < ptn.length ∧ j < src.length
  · rcases searchRound_cases table src_short searching goes.1 goes.2 with
      ⟨b, go', counted, after⟩ | ⟨v, go', lower, smaller, after⟩
    · cases go'.symm.trans go
      refine ⟨⟨j + 1, rfl, after⟩, ?_⟩
      have := goes.2
      simp only [searchLeft] at counted ⊢
      omega
    · cases go'.symm.trans go
      refine ⟨⟨j, rfl, after⟩, ?_⟩
      simp only [searchLeft] at smaller ⊢
      omega
  · have done : searchRound src ptn next (i, j) = .ok none := by
      refine if_neg fun both => goes ?_
      rw [intSize_eq table.small, intSize_eq src_short] at both
      exact ⟨both.1, Int.ofNat_lt.mp both.2⟩
    cases done.symm.trans go

/-- The state in which the construction starts. -/
def nextStart (room : Nat) : NextState := ⟨(List.replicate room 0).set 0 (-1), -1, 0⟩

/-- `getNext` takes two rounds for a character of the pattern at most. -/
theorem getNext_linear {table : List Int} (some_room : 0 < room) (built : getNextIn room ptn = .ok table) :
    ∃ last rounds, Trace (nextRound ptn) (nextStart room) rounds last ∧ nextRound ptn last = .ok none ∧
      last.next = table ∧ rounds.length ≤ 2 * ptn.length := by
  obtain ⟨first, stored, rest⟩ := bind_eq_ok.mp built
  obtain ⟨last, left, same⟩ := bind_eq_ok.mp rest
  cases same
  rw [store_of_lt (by rwa [List.length_replicate])] at stored
  cases stored
  obtain ⟨rounds, trace, ended⟩ := trace_of_left left
  have begun : InLoop ptn room (nextStart room) := ⟨0, rfl, building_initial some_room⟩
  obtain ⟨states, _⟩ := trace.invariant (fun _ _ inv go => (nextRound_next inv go).1) begun
  have counted := trace.length_le (roundsLeft ptn) (fun _ _ inv go => (nextRound_next inv go).2) states
  have whole : roundsLeft ptn (nextStart room) = 2 * ptn.length := rfl
  exact ⟨last, rounds, trace, ended, rfl, Nat.le_trans (Nat.le_add_left _ _) (counted.trans whole.le)⟩

/-- With room for the entry behind the failure table, a search for a pattern that is no longer
than the source takes two rounds for each character of both, and one more at most. -/
theorem kmp_linear (src ptn : Text) (src_short : src.length < 2 ^ 31) (nonempty : ptn ≠ [])
    (fits : ptn.length ≤ src.length) :
    ∃ built building found searching,
      Trace (nextRound ptn) (nextStart (ptn.length + 1)) building built ∧ nextRound ptn built = .ok none ∧
      Trace (searchRound src ptn built.next) (0, 0) searching found ∧
      searchRound src ptn built.next found = .ok none ∧
      kmpIn (ptn.length + 1) src ptn =
        .ok (if found.1 = intSize ptn.length then found.2 - intSize ptn.length else -1) ∧
      building.length + searching.length ≤ 2 * ptn.length + 2 * src.length + 1 := by
  rcases @getNextIn_spec ptn (ptn.length + 1) (Nat.succ_pos _) with ⟨next, run, table⟩ | ⟨_, outside⟩
  swap
  · omega
  obtain ⟨built, building, built_trace, built_end, rfl, building_le⟩ := getNext_linear (Nat.succ_pos _) run
  obtain ⟨i, j, left, _, _⟩ := search_ends table src_short nonempty
  obtain ⟨searching, trace, ended⟩ := trace_of_left left
  have begun : InSearch src ptn (0, 0) := ⟨0, rfl, searching_initial nonempty⟩
  obtain ⟨states, _⟩ := trace.invariant (fun _ _ inv go => (searchRound_next table src_short inv go).1) begun
  have counted :=
    trace.length_le (searchLeft src) (fun _ _ inv go => (searchRound_next table src_short inv go).2) states
  have whole : searchLeft src (0, 0) = 2 * src.length + 1 := rfl
  refine ⟨built, building, (i, j), searching, built_trace, built_end, trace, ended, ?_, by omega⟩
  have filled : ¬ptn.isEmpty = true := mt List.isEmpty_iff.mp nonempty
  rw [kmpIn, if_neg filled, if_neg (Nat.not_lt.mpr fits), run, ok_bind, left, ok_bind]
  simp only
  split
  · rfl
  · rfl

/-- The search of the program's main function. -/
theorem kmp_linear_main :
    ∃ built building found searching,
      Trace (nextRound "3345".toList) (nextStart 5) building built ∧
      Trace (searchRound "1212334567".toList "3345".toList built.next) (0, 0) searching found ∧
      building.length + searching.length ≤ 29 := by
  obtain ⟨built, building, found, searching, built_trace, _, trace, _, _, few⟩ :=
    kmp_linear "1212334567".toList "3345".toList (by decide) (by decide) (by decide)
  exact ⟨built, building, found, searching, built_trace, trace, few⟩

end CppProject.KMP
