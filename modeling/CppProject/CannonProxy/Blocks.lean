import CppProject.CannonProxy.ModelFilesReader

/-!
# The blocks of a reader

Calls of `get_lines`, one after another.  The blocks are the lines of the files in order, cut
after the counts that are asked for, so a block that is not full is the last one with lines.
-/

namespace CppProject.CannonProxy.ModelFilesReader

open Library Library.Checked

variable (fs : String → Option Text)

/-- A call of `get_lines` for every count. -/
def getBlocks : List Nat → ModelFilesReader → Except Fault (List (List Text) × ModelFilesReader)
  | [], reader => .ok ([], reader)
  | count :: counts, reader => do
      let (block, reader) ← getLines fs count reader
      let (blocks, reader) ← getBlocks counts reader
      .ok (block :: blocks, reader)

/-- What the blocks for some counts are to be: the lines in order, no block larger than its
count, and none smaller unless it has the last line. -/
structure Cuts (lines : List Text) (counts : List Nat) (blocks : List (List Text)) : Prop where
  length_eq : blocks.length = counts.length
  in_order : blocks.flatten <+: lines
  bounded : ∀ (i count : Nat) (block : List Text), counts[i]? = some count → blocks[i]? = some block →
    block.length ≤ count
  complete : ∀ (i count : Nat) (block : List Text), counts[i]? = some count → blocks[i]? = some block →
    block.length < count → (blocks.take (i + 1)).flatten = lines

/-- A reader of some files delivers their lines, whatever counts it is asked for. -/
def Delivers (files : List String) : Prop :=
  ∀ counts, ∃ blocks last, getBlocks fs counts (create files) = .ok (blocks, last) ∧
    Cuts (linesOf fs files) counts blocks

variable {fs : String → Option Text} {reader : ModelFilesReader}

/-- A block in front of the blocks of the lines behind it. -/
theorem Cuts.cons {lines : List Text} {counts : List Nat} {blocks : List (List Text)} {count : Nat}
    (cuts : Cuts (lines.drop count) counts blocks) :
    Cuts lines (count :: counts) (lines.take count :: blocks) := by
  obtain ⟨length_eq, in_order, bounded, complete⟩ := cuts
  refine ⟨congrArg Nat.succ length_eq, ?_, ?_, ?_⟩
  · conv_rhs => rw [← List.take_append_drop count lines]
    exact (List.prefix_append_right_inj _).mpr in_order
  · intro i wanted block asked answered
    cases i with
    | zero =>
        cases asked
        cases answered
        exact List.length_take_le _ _
    | succ i => exact bounded i wanted block asked answered
  · intro i wanted block asked answered short
    cases i with
    | zero =>
        cases asked
        cases answered
        have all : lines.length ≤ count := by
          rw [List.length_take] at short
          omega
        rw [List.take_succ_cons, List.take_zero, List.flatten_cons, List.flatten_nil, List.append_nil,
          List.take_of_length_le all]
    | succ i =>
        rw [List.take_succ_cons, List.flatten_cons, complete i wanted block asked answered short,
          List.take_append_drop]

/-- The calls return, and cut the lines that are pending. -/
theorem getBlocks_spec (valid : reader.Valid) (counts : List Nat) :
    ∃ blocks last, getBlocks fs counts reader = .ok (blocks, last) ∧
      Cuts (pending fs reader) counts blocks := by
  induction counts generalizing reader with
  | nil =>
      refine ⟨[], reader, rfl, rfl, List.nil_prefix, ?_, ?_⟩
      · intro i count block asked
        cases asked
      · intro i count block asked
        cases asked
  | cons count counts ih =>
      obtain ⟨next, run, next_valid, left⟩ := @getLines_spec fs _ valid count
      obtain ⟨blocks, last, runs, cuts⟩ := ih next_valid
      rw [left] at cuts
      refine ⟨_, last, ?_, cuts.cons⟩
      rw [getBlocks, run, ok_bind]
      simp only [runs, ok_bind]

theorem create_valid (files : List String) : (create files).Valid :=
  fun ifs impossible => by cases impossible

theorem pending_create (files : List String) :
    pending fs (create files) = linesOf fs (reached files) := rfl

/-- The lines of a file that is not reached are not delivered. -/
theorem Delivers.nothing_missed {files : List String} (delivers : Delivers fs files) :
    linesOf fs (missed files) = [] := by
  obtain ⟨blocks, last, runs, cuts⟩ := delivers [(linesOf fs (reached files)).length + 1]
  obtain ⟨blocks', last', runs', taken⟩ := @getBlocks_spec fs _ (create_valid files)
    [(linesOf fs (reached files)).length + 1]
  obtain ⟨rfl, rfl⟩ := Prod.mk.inj (Except.ok.inj (runs.symm.trans runs'))
  rw [pending_create] at taken
  obtain ⟨block, rfl⟩ := List.length_eq_one_iff.mp cuts.length_eq
  have short : block.length < (linesOf fs (reached files)).length + 1 := by
    have := taken.in_order.length_le
    simp only [List.flatten_cons, List.flatten_nil, List.append_nil] at this
    omega
  have all := cuts.complete 0 _ block rfl rfl short
  have some := taken.complete 0 _ block rfl rfl short
  rw [all, linesOf_reached] at some
  exact List.append_right_eq_self.mp some

/-- A reader delivers the lines of its files for all counts exactly when no line is in a file
that is not reached, and an `int` can reach all of fewer than `2 ^ 31` files. -/
theorem get_lines_delivers (fs : String → Option Text) (files : List String) :
    (Delivers fs files ↔ linesOf fs (missed files) = []) ∧
      (files.length < 2 ^ 31 → Delivers fs files) := by
  have delivers (nothing : linesOf fs (missed files) = []) : Delivers fs files := by
    intro counts
    obtain ⟨blocks, last, runs, cuts⟩ := @getBlocks_spec fs _ (create_valid files) counts
    rw [pending_create] at cuts
    refine ⟨blocks, last, runs, ?_⟩
    rw [linesOf_reached, nothing, List.append_nil]
    exact cuts
  refine ⟨⟨Delivers.nothing_missed, delivers⟩, fun few => delivers ?_⟩
  rw [missed, intSize_eq few, Int.toNat_natCast, List.drop_length]
  rfl

/-- The number of `2 ^ 31` file names is negative as an `int`, so no file is opened. -/
theorem get_lines_too_many : ∃ fs : String → Option Text,
    fs "model" = some "1 2\n".toList ∧ ¬Delivers fs (List.replicate (2 ^ 31) "model") := by
  refine ⟨fun _ => some "1 2\n".toList, rfl, fun delivers => ?_⟩
  have nothing := delivers.nothing_missed
  have count : (2 ^ 31 : Nat) = (2 ^ 31 - 1) + 1 := by decide
  have all : missed (List.replicate (2 ^ 31) "model") = List.replicate (2 ^ 31) "model" := by
    rw [missed, List.length_replicate]
    exact List.drop_zero
  rw [all, count, List.replicate_succ, linesOf, List.flatMap_cons] at nothing
  exact absurd (List.append_eq_nil_iff.mp nothing).1 (by decide)

end CppProject.CannonProxy.ModelFilesReader
