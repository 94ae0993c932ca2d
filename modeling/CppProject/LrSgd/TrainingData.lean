import CppProject.LrSgd.Source

/-!
# The training data

Every row of the training data is the label entry, with index 0, and at least one feature.  The
indexes of the features are those of the file, and 0 may be one of them.
-/

namespace CppProject.LrSgd

open Library Library.Checked

variable {K : Type}

/-- The label entry followed by at least one feature. -/
def Labelled (ins : Instance K) : Prop :=
  ∃ label features, ins = (0, label) :: features ∧ features ≠ []

/-- What a list of lines is read into comes from the lines. -/
theorem exists_of_mem_mapM {α β : Type} {read : α → Option β} {lines : List α} {rows : List β}
    (all : lines.mapM read = some rows) {row : β} (member : row ∈ rows) :
    ∃ line ∈ lines, read line = some row := by
  induction lines generalizing rows with
  | nil =>
      cases all
      exact absurd member List.not_mem_nil
  | cons line lines ih =>
      rw [List.mapM_cons] at all
      obtain ⟨first, here, rest⟩ := Option.bind_eq_some_iff.mp all
      obtain ⟨later, there, rows_eq⟩ := Option.bind_eq_some_iff.mp rest
      cases rows_eq
      rcases List.mem_cons.mp member with rfl | behind
      · exact ⟨line, List.mem_cons_self, here⟩
      · obtain ⟨other, inside, parsed⟩ := ih there behind
        exact ⟨other, List.mem_cons_of_mem line inside, parsed⟩

variable [IntCast K] {stod : Text → Option K}

theorem parseLine_shape {line : Text} {row : Instance K} (parsed : parseLine stod line = some row)
    (filled : 1 < row.length) : Labelled row := by
  unfold parseLine at parsed
  split at parsed
  next =>
    cases parsed
    exact absurd filled (Nat.not_lt_zero 1)
  next front elems _ =>
    obtain ⟨label, _, rest⟩ := Option.bind_eq_some_iff.mp parsed
    obtain ⟨features, _, row_eq⟩ := Option.bind_eq_some_iff.mp rest
    cases row_eq
    refine ⟨_, _, rfl, List.ne_nil_of_length_pos ?_⟩
    rw [List.length_cons] at filled
    omega

/-- Every instance of the training data is labelled. -/
theorem getTrainingData_labelled {file : Option Text} {data : List (Instance K)}
    (produced : getTrainingData stod file = some data) : ∀ ins ∈ data, Labelled ins := by
  cases file with
  | none =>
      cases produced
      exact List.forall_mem_nil _
  | some content =>
      obtain ⟨rows, read, data_eq⟩ := Option.bind_eq_some_iff.mp produced
      cases data_eq
      intro ins member
      obtain ⟨inside, filled⟩ := List.mem_filter.mp member
      obtain ⟨line, _, parsed⟩ := exists_of_mem_mapM read inside
      exact parseLine_shape parsed (of_decide_eq_true filled)

end CppProject.LrSgd
