import CppProject.KMP.FailureTable

/-!
# The search

`KMP` reads the source from left to right.  When a character does not match it goes on with the
longest border of what has matched, so the occurrences it does not look at are none.
-/

namespace CppProject.KMP

open Library Library.Checked Library.Borders

variable {src ptn : Text} {next : List Int} {room : Nat}

/-- The states of the search: the pattern has not ended in front of `j`, and not at `j` unless
all of it has matched. -/
structure Searching (src ptn : Text) (i : Int) (j : Nat) : Prop where
  candidate : Candidate ptn src 0 j i
  inside : j ≤ src.length
  before : ∀ k < j, ¬Ends ptn src 0 k ptn.length
  here : i < ptn.length → ¬Ends ptn src 0 j ptn.length

theorem searching_initial (nonempty : ptn ≠ []) : Searching src ptn 0 0 := by
  have positive := List.length_pos_of_ne_nil nonempty
  refine ⟨⟨Or.inr ⟨0, rfl, ends_zero (Nat.le_refl 0)⟩, fun b ends longer => ?_⟩, Nat.zero_le _,
    fun k impossible => absurd impossible (Nat.not_lt_zero k), fun _ ends => ?_⟩
  · have := ends.le
    omega
  · have := ends.le
    omega

/-- One more character has been read, and `b` is the longest prefix that ends behind it. -/
theorem Searching.read {i : Int} {j b : Nat} (searching : Searching src ptn i j)
    (unfinished : i < ptn.length) (more : j < src.length) (longest : Longest ptn src 0 (j + 1) b) :
    Searching src ptn b (j + 1) := by
  refine ⟨longest.candidate, more, fun k upto => ?_, fun shorter ends => ?_⟩
  · rcases Nat.lt_or_eq_of_le (Nat.le_of_lt_succ upto) with earlier | rfl
    · exact searching.before k earlier
    · exact searching.here unfinished
  · have := longest.longest _ ends
    omega

/-- A round reads a character or falls back to a shorter border. -/
theorem searchRound_cases (table : FailureTable ptn room next) (src_short : src.length < 2 ^ 31)
    {i : Int} {j : Nat} (searching : Searching src ptn i j) (unfinished : i < ptn.length)
    (more : j < src.length) :
    (∃ b : Nat, searchRound src ptn next (i, j) = .ok (some (b, (j + 1 : Nat))) ∧ (b : Int) = i + 1 ∧
      Searching src ptn b (j + 1)) ∨
    ∃ v, searchRound src ptn next (i, j) = .ok (some (v, j)) ∧ -1 ≤ v ∧ v < i ∧
      Searching src ptn v j := by
  have goes : i < intSize ptn.length ∧ (j : Int) < intSize src.length := by
    rw [intSize_eq table.small, intSize_eq src_short]
    exact ⟨unfinished, Int.ofNat_lt.mpr more⟩
  rw [searchRound, if_pos goes]
  rcases searching.candidate.ends with rfl | ⟨b, rfl, ends⟩
  · refine Or.inl ⟨0, ?_, rfl, searching.read unfinished more ?_⟩
    · rw [sameAt, if_pos rfl]
      rfl
    · exact searching.candidate.restart (Nat.zero_le _)
  · have below : b < ptn.length := Int.ofNat_lt.mp unfinished
    have small := table.small
    rw [sameAt_natCast (by omega) (by omega) below more, ok_bind]
    by_cases same : ptn[b]? = src[j]?
    · rw [decide_eq_true same]
      exact Or.inl ⟨b + 1, rfl, rfl,
        searching.read unfinished more (searching.candidate.extend same)⟩
    · rw [decide_eq_false same]
      obtain ⟨v, found, entry⟩ := table.table b (Nat.le_of_lt below)
      obtain ⟨candidate, smaller⟩ := searching.candidate.fall_back same entry
      refine Or.inr ⟨v, ?_, ?_, smaller, candidate, searching.inside, searching.before,
        fun _ => searching.here unfinished⟩
      · rw [loadInt_natCast (by omega) found]
        rfl
      · cases entry <;> omega

def InSearch (src ptn : Text) (s : Int × Int) : Prop := ∃ j : Nat, s.2 = j ∧ Searching src ptn s.1 j

/-- A round reads on, or leaves the position and falls back to a shorter border. -/
def searchLeft (src : Text) (s : Int × Int) : Nat := 2 * (src.length - s.2.toNat) + (s.1 + 1).toNat

/-- The loop ends, and it ends in a state of the search that cannot go on. -/
theorem search_ends (table : FailureTable ptn room next) (src_short : src.length < 2 ^ 31)
    (nonempty : ptn ≠ []) :
    ∃ (i : Int) (j : Nat), whileLoop (searchRound src ptn next) (2 * src.length + 2) (0, 0) =
      .ok (i, j) ∧ Searching src ptn i j ∧ ¬(i < ptn.length ∧ j < src.length) := by
  have round : ∀ s, InSearch src ptn s → searchRound src ptn next s = .ok none ∨
      ∃ s', searchRound src ptn next s = .ok (some s') ∧ InSearch src ptn s' ∧
        searchLeft src s' < searchLeft src s := by
    rintro ⟨i, _⟩ ⟨j, rfl, searching⟩
    by_cases goes : i < ptn.length ∧ j < src.length
    · right
      rcases searchRound_cases table src_short searching goes.1 goes.2 with
        ⟨b, go, counted, after⟩ | ⟨v, go, lower, smaller, after⟩
      · refine ⟨_, go, ⟨j + 1, rfl, after⟩, ?_⟩
        have := goes.2
        simp only [searchLeft] at counted ⊢
        omega
      · refine ⟨_, go, ⟨j, rfl, after⟩, ?_⟩
        simp only [searchLeft] at smaller ⊢
        omega
    · left
      refine if_neg (fun both => goes ?_)
      rw [intSize_eq table.small, intSize_eq src_short] at both
      exact ⟨both.1, Int.ofNat_lt.mp both.2⟩
  have begun : InSearch src ptn (0, 0) := ⟨0, rfl, searching_initial nonempty⟩
  have enough : searchLeft src (0, 0) < 2 * src.length + 2 := Nat.lt_succ_self _
  obtain ⟨⟨i, _⟩, left, ⟨j, rfl, searching⟩, done⟩ := Loop.leaves round begun enough
  refine ⟨i, j, left, searching, fun goes => ?_⟩
  rcases searchRound_cases table src_short searching goes.1 goes.2 with ⟨_, go, _⟩ | ⟨_, go, _⟩
  · rw [go] at done
    cases done
  · rw [go] at done
    cases done

/-! ## The occurrence that is found -/

/-- The first position at which the pattern stands in the source, or `-1` when it does not. -/
def FirstOccurrence (src ptn : Text) (r : Int) : Prop :=
  (r = -1 ∧ ∀ pos, ¬ptn <+: src.drop pos) ∨
    ∃ pos : Nat, r = pos ∧ ptn <+: src.drop pos ∧ ∀ earlier < pos, ¬ptn <+: src.drop earlier

/-- A search that has come to the end of the pattern has found its first occurrence. -/
theorem Searching.found {j : Nat} (searching : Searching src ptn ptn.length j) :
    FirstOccurrence src ptn (j - ptn.length) := by
  have ends : Ends ptn src 0 j ptn.length := by
    rcases searching.candidate.ends with impossible | ⟨b, same, ends⟩
    · omega
    · obtain rfl : ptn.length = b := Int.ofNat.inj same
      exact ends
  have inside := ends.le
  refine Or.inr ⟨j - ptn.length, by omega, ?_, fun earlier before stands => ?_⟩
  · rw [occurs_iff, Nat.sub_add_cancel inside]
    exact ends
  · exact searching.before _ (by omega) (occurs_iff.mp stands)

/-- A search that has come to the end of the source only has not missed an occurrence. -/
theorem Searching.missed {i : Int} {j : Nat} (searching : Searching src ptn i j)
    (nonempty : ptn ≠ []) (unfinished : i < ptn.length) (read : src.length ≤ j) :
    FirstOccurrence src ptn (-1) := by
  have positive := List.length_pos_of_ne_nil nonempty
  refine Or.inl ⟨rfl, fun pos stands => ?_⟩
  have within := stands.length_le
  rw [List.length_drop] at within
  have ends := occurs_iff.mp stands
  rcases Nat.lt_or_eq_of_le (show pos + ptn.length ≤ j by omega) with before | here
  · exact searching.before _ before ends
  · exact searching.here unfinished (here ▸ ends)

theorem Searching.le_length {i : Int} {j : Nat} (searching : Searching src ptn i j) :
    i ≤ ptn.length := by
  rcases searching.candidate.ends with rfl | ⟨b, rfl, ends⟩
  · omega
  · exact Int.ofNat_le.mpr (ends.le_length searching.inside)

/-- With room for the entry behind the failure table, `KMP` ends with the first position of the
pattern in the source. -/
theorem kmp_finds_first (src ptn : Text) (src_short : src.length < 2 ^ 31)
    (ptn_short : ptn.length < 2 ^ 31) :
    ∃ r, kmpIn (ptn.length + 1) src ptn = .ok r ∧ FirstOccurrence src ptn r := by
  rcases eq_or_ne ptn [] with rfl | nonempty
  · exact ⟨0, rfl, Or.inr ⟨0, rfl, List.nil_prefix, fun _ impossible => absurd impossible (by omega)⟩⟩
  have filled : ¬ptn.isEmpty = true := mt List.isEmpty_iff.mp nonempty
  rw [kmpIn, if_neg filled]
  rcases Nat.lt_or_ge src.length ptn.length with short | long
  · refine ⟨-1, if_pos short, Or.inl ⟨rfl, fun pos stands => ?_⟩⟩
    have := stands.length_le
    rw [List.length_drop] at this
    omega
  rw [if_neg (Nat.not_lt.mpr long)]
  rcases @getNextIn_spec ptn (ptn.length + 1) (Nat.succ_pos _) with ⟨next, built, table⟩ | ⟨_, outside⟩
  swap
  · omega
  obtain ⟨i, j, left, searching, done⟩ := search_ends table src_short nonempty
  rw [built, ok_bind, left, ok_bind, intSize_eq ptn_short]
  simp only
  by_cases found : i = ptn.length
  · rw [if_pos found]
    exact ⟨_, rfl, (found ▸ searching).found⟩
  · rw [if_neg found]
    have unfinished : i < ptn.length := Int.lt_iff_le_and_ne.mpr ⟨searching.le_length, found⟩
    have read : src.length ≤ j := Nat.le_of_not_lt fun more => done ⟨unfinished, more⟩
    exact ⟨_, rfl, searching.missed nonempty unfinished read⟩

/-- The search of the program's main function. -/
theorem kmp_finds_first_main :
    ∃ r, kmpIn 5 "1212334567".toList "3345".toList = .ok r ∧
      FirstOccurrence "1212334567".toList "3345".toList r ∧ r = 4 := by
  obtain ⟨r, run, first⟩ := kmp_finds_first "1212334567".toList "3345".toList (by decide) (by decide)
  have computed : kmpIn 5 "1212334567".toList "3345".toList = .ok 4 := by decide
  exact ⟨r, run, first, Except.ok.inj (run.symm.trans computed)⟩

end CppProject.KMP
