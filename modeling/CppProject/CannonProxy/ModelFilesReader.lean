import CppProject.Library.Checked
import CppProject.Library.Streams

/-!
# `ModelFilesReader`

The non-empty lines of a list of files, in blocks.  A block may end anywhere in a file,
so the open stream and `_cur_file` are kept from one call to the next.  The file system is
a parameter: the contents of the files that can be opened.
-/

namespace CppProject.CannonProxy

open Library Library.Checked

/-- `_ifs` is `none` while no file is open; the state bits of a closed stream are cleared
before the next file is opened. -/
structure ModelFilesReader where
  files : List String
  ifs : Option IStream
  curFile : Nat

namespace ModelFilesReader

def create (files : List String) : ModelFilesReader := ⟨files, none, 0⟩

/-- `(int)_files.size()` -/
def fileNum (reader : ModelFilesReader) : Int := intSize reader.files.length

/-- The loop `while ((int)ret.size() < count && std::getline(_ifs, line))`. -/
def readLines (count : Int) : Nat → List Text → IStream → Except Fault (List Text × IStream)
  | 0, _, _ => .error .outOfFuel
  | fuel + 1, ret, ifs =>
      if (ret.length : Int) < count then
        match ifs.getline with
        | (some line, ifs) =>
            if line.length > 0 then readLines count fuel (ret ++ [line]) ifs
            else readLines count fuel ret ifs
        | (none, ifs) => .ok (ret, ifs)
      else .ok (ret, ifs)

section FileSystem

variable (fs : String → Option Text)

/-- The loop of `_open_file_if_needed`, which returns whether a file is open. -/
def openFrom : Nat → ModelFilesReader → Except Fault ModelFilesReader
  | 0, _ => .error .outOfFuel
  | fuel + 1, reader =>
      match reader.ifs with
      | some _ => .ok reader
      | none =>
          if (reader.curFile : Int) < reader.fileNum then do
            let file ← load reader.files reader.curFile
            match fs file with
            | some text => .ok { reader with ifs := some (IStream.ofText text) }
            | none => openFrom fuel { reader with curFile := reader.curFile + 1 }
          else .ok reader

/-- `_open_file_if_needed` -/
def openFileIfNeeded (reader : ModelFilesReader) : Except Fault ModelFilesReader :=
  openFrom fs (reader.files.length + 1) reader

/-- The outer loop of `get_lines`. -/
def getLinesFrom (count : Int) :
    Nat → List Text → ModelFilesReader → Except Fault (List Text × ModelFilesReader)
  | 0, _, _ => .error .outOfFuel
  | fuel + 1, ret, reader => do
      let reader ← openFileIfNeeded fs reader
      match reader.ifs with
      | none => .ok (ret, reader)
      | some ifs =>
          if (ret.length : Int) < count then do
            let (ret, ifs) ← readLines count (ifs.text.length + 1) ret ifs
            if ifs.good then getLinesFrom count fuel ret { reader with ifs := some ifs }
            else getLinesFrom count fuel ret { reader with ifs := none, curFile := reader.curFile + 1 }
          else .ok (ret, reader)

/-- `get_lines` -/
def getLines (count : Int) (reader : ModelFilesReader) :
    Except Fault (List Text × ModelFilesReader) :=
  if count < 0 then .ok ([], reader)
  else getLinesFrom fs count (reader.files.length + 1) [] reader

/-! ## The lines to come -/

/-- The non-empty lines of the files that can be opened, in file order. -/
def linesOf (files : List String) : List Text :=
  files.flatMap fun file => ((fs file).map nonEmptyLines).getD []

/-- The files that are opened: as many as their number is as an `int`. -/
def reached (files : List String) : List String := files.take (intSize files.length).toNat

/-- The other files. -/
def missed (files : List String) : List String := files.drop (intSize files.length).toNat

/-- The lines that a reader has not returned yet. -/
def pending (reader : ModelFilesReader) : List Text :=
  match reader.ifs with
  | some ifs => nonEmptyLines ifs.text ++ linesOf fs ((reached reader.files).drop (reader.curFile + 1))
  | none => linesOf fs ((reached reader.files).drop reader.curFile)

/-- A reader between two calls: an open file is one of its files and can be read on. -/
def Valid (reader : ModelFilesReader) : Prop :=
  ∀ ifs, reader.ifs = some ifs → ifs.good = true ∧ reader.curFile < reader.files.length

end FileSystem

variable {fs : String → Option Text} {reader : ModelFilesReader}

theorem length_reached (files : List String) :
    (reached files).length = (intSize files.length).toNat := length_take_intSize files

theorem reached_all {files : List String} (few : files.length < 2 ^ 31) : reached files = files :=
  take_intSize few

theorem linesOf_reached (fs : String → Option Text) (files : List String) :
    linesOf fs files = linesOf fs (reached files) ++ linesOf fs (missed files) := by
  rw [linesOf, linesOf, linesOf, ← List.flatMap_append, reached, missed, List.take_append_drop]

theorem lt_fileNum (i : Nat) : (i : Int) < reader.fileNum ↔ i < (reached reader.files).length := by
  rw [length_reached, fileNum]
  omega

theorem getElem?_reached {files : List String} {i : Nat} (inside : i < (reached files).length) :
    ∃ file, files[i]? = some file ∧ (reached files)[i]? = some file := by
  obtain ⟨file, here⟩ : ∃ file, (reached files)[i]? = some file :=
    ⟨_, List.getElem?_eq_getElem inside⟩
  refine ⟨file, ?_, here⟩
  rw [reached, List.getElem?_take_of_lt (length_reached files ▸ inside)] at here
  exact here

theorem linesOf_drop {files : List String} {i : Nat} {file : String} (here : files[i]? = some file) :
    linesOf fs (files.drop i) =
      ((fs file).map nonEmptyLines).getD [] ++ linesOf fs (files.drop (i + 1)) := by
  obtain ⟨inside, rfl⟩ := List.getElem?_eq_some_iff.mp here
  rw [linesOf, List.drop_eq_getElem_cons inside, List.flatMap_cons]
  rfl

/-- Opening a file loses no lines, and there is none left when no file can be opened. -/
theorem openFrom_spec (valid : reader.Valid) {fuel : Nat}
    (enough : reader.files.length < fuel + reader.curFile) (some_fuel : 0 < fuel) :
    ∃ opened, openFrom fs fuel reader = .ok opened ∧ opened.Valid ∧
      opened.files = reader.files ∧ pending fs opened = pending fs reader ∧
      reader.curFile ≤ opened.curFile ∧ (opened.ifs = none → pending fs opened = []) := by
  induction fuel generalizing reader with
  | zero => exact absurd some_fuel (Nat.lt_irrefl 0)
  | succ fuel ih =>
      unfold openFrom
      cases stream : reader.ifs with
      | some ifs =>
          refine ⟨reader, rfl, valid, rfl, rfl, Nat.le_refl _, fun none => ?_⟩
          rw [stream] at none
          cases none
      | none =>
          simp only [lt_fileNum]
          split
          next more =>
            obtain ⟨file, here, here'⟩ := getElem?_reached more
            obtain ⟨inside, _⟩ := List.getElem?_eq_some_iff.mp here
            have rest := @linesOf_drop fs _ _ _ here'
            rw [load_eq_ok.mpr here, ok_bind]
            cases content : fs file with
            | some text =>
                refine ⟨_, rfl, ?_, rfl, ?_, Nat.le_refl _, fun none => by cases none⟩
                · rintro ifs same
                  cases same
                  exact ⟨rfl, inside⟩
                · rw [content] at rest
                  simp only [pending, stream, rest]
                  rfl
            | none =>
                rw [content] at rest
                have next : (⟨reader.files, none, reader.curFile + 1⟩ : ModelFilesReader).Valid :=
                  fun ifs impossible => by cases impossible
                obtain ⟨opened, run, opened_valid, files, kept, later, ends⟩ :=
                  @ih ⟨reader.files, none, reader.curFile + 1⟩ next (by simp only; omega) (by omega)
                refine ⟨opened, run, opened_valid, files, kept.trans ?_, Nat.le_of_succ_le later, ends⟩
                simp only [pending, stream, rest]
                rfl
          next past =>
            refine ⟨reader, rfl, valid, rfl, rfl, Nat.le_refl _, fun none => ?_⟩
            rw [pending, stream]
            simp only
            rw [List.drop_eq_nil_of_le (Nat.le_of_not_lt past)]
            rfl

/-- What reading from an open file does: it takes lines off the stream until there are
enough, or until the file has ended. -/
structure Took (count : Int) (ret : List Text) (ifs : IStream) (new : List Text) (ifs' : IStream) :
    Prop where
  split : nonEmptyLines ifs.text = new ++ nonEmptyLines ifs'.text
  bounded : ((ret ++ new).length : Int) ≤ count
  full : ifs'.good = true → ((ret ++ new).length : Int) = count
  ended : ifs'.good = false → ifs'.text = []

theorem readLines_spec {count : Int} {fuel : Nat} {ret : List Text} {ifs : IStream}
    (readable : ifs.good = true ∨ ifs.text = []) (fits : (ret.length : Int) ≤ count)
    (enough : ifs.text.length < fuel) :
    ∃ new ifs', readLines count fuel ret ifs = .ok (ret ++ new, ifs') ∧ Took count ret ifs new ifs' := by
  induction fuel generalizing ret ifs with
  | zero => exact absurd enough (Nat.not_lt_zero _)
  | succ fuel ih =>
      have fits_nil : ((ret ++ []).length : Int) ≤ count := by rwa [List.append_nil]
      have at_end : ∀ ifs' : IStream, ifs'.good = false → ifs'.text = [] → ifs.text = [] →
          Took count ret ifs [] ifs' := by
        intro ifs' stuck text' text
        refine ⟨by rw [text, text']; rfl, fits_nil, fun good => ?_, fun _ => text'⟩
        rw [stuck] at good
        cases good
      unfold readLines
      split
      next fewer =>
        rcases Bool.eq_false_or_eq_true ifs.good with good | stuck
        · rcases IStream.getline_spec good with ⟨text, ifs', gets, stuck, text'⟩ |
            ⟨line, ifs', gets, shorter, lines, still⟩
          · exact ⟨[], ifs', by rw [gets, List.append_nil], at_end ifs' stuck text' text⟩
          · rw [gets]
            cases line with
            | nil =>
                obtain ⟨new, last, run, took⟩ := ih still fits (by omega)
                exact ⟨new, last, run, lines ▸ took.split, took.bounded, took.full, took.ended⟩
            | cons c line =>
                obtain ⟨new, last, run, took⟩ := @ih (ret ++ [c :: line]) ifs' still
                  (by rw [List.length_append, List.length_singleton]; omega) (by omega)
                rw [← List.append_cons] at run
                obtain ⟨split, bounded, full, ended⟩ := took
                rw [← List.append_cons] at bounded full
                exact ⟨(c :: line) :: new, last, run, by rw [lines, split]; rfl, bounded, full, ended⟩
        · have text := readable.resolve_left (by simp [stuck])
          obtain ⟨ifs', gets, stuck', same⟩ := IStream.getline_of_not_good stuck
          exact ⟨[], ifs', by rw [gets, List.append_nil], at_end ifs' stuck' (same.trans text) text⟩
      next full =>
        refine ⟨[], ifs, by rw [List.append_nil], rfl, fits_nil, fun _ => ?_, fun stuck => ?_⟩
        · rw [List.append_nil]
          omega
        · exact readable.resolve_left (by simp [stuck])

/-- `get_lines` goes on with the lines to come until it has enough of them or there are no more. -/
theorem getLinesFrom_spec {count : Int} {fuel : Nat} {ret : List Text} (valid : reader.Valid)
    (fits : (ret.length : Int) ≤ count) (some_fuel : 0 < fuel)
    (enough : (ret.length : Int) < count → reader.files.length < fuel + reader.curFile) :
    ∃ new reader', getLinesFrom fs count fuel ret reader = .ok (ret ++ new, reader') ∧
      reader'.Valid ∧ pending fs reader = new ++ pending fs reader' ∧
      ((ret ++ new).length : Int) ≤ count ∧
      (((ret ++ new).length : Int) < count → pending fs reader' = []) := by
  induction fuel generalizing ret reader with
  | zero => exact absurd some_fuel (Nat.lt_irrefl 0)
  | succ fuel ih =>
      obtain ⟨opened, run, opened_valid, files, kept, later, ends⟩ :=
        @openFrom_spec fs reader valid (reader.files.length + 1) (by omega) (by omega)
      have start : openFileIfNeeded fs reader = .ok opened := run
      unfold getLinesFrom
      rw [start, ok_bind, ← kept]
      cases stream : opened.ifs with
      | none =>
          refine ⟨[], opened, by rw [List.append_nil], opened_valid, rfl, by rwa [List.append_nil], ?_⟩
          exact fun _ => ends stream
      | some ifs =>
          obtain ⟨good, inside⟩ := opened_valid ifs stream
          simp only
          split
          next fewer =>
            obtain ⟨new, ifs', reads, took⟩ :=
              @readLines_spec count (ifs.text.length + 1) ret ifs (Or.inl good) fits (by omega)
            rw [reads, ok_bind]
            simp only
            have lines : pending fs opened =
                new ++ (nonEmptyLines ifs'.text ++ linesOf fs ((reached opened.files).drop (opened.curFile + 1))) := by
              rw [pending, stream, ← List.append_assoc, ← took.split]
            have size : opened.files.length = reader.files.length := congrArg List.length files
            have wide := enough fewer
            split
            next good' =>
              -- there are enough lines, and the file stays open
              obtain ⟨more, last, run', last_valid, split, bounded, last_ends⟩ :=
                @ih ⟨opened.files, some ifs', opened.curFile⟩ (ret ++ new)
                  (fun other same => by cases same; exact ⟨good', inside⟩)
                  took.bounded (by omega) (fun short => absurd (took.full good') (by omega))
              rw [List.append_assoc] at run' bounded last_ends
              refine ⟨new ++ more, last, run', last_valid, ?_, bounded, last_ends⟩
              rw [lines, List.append_assoc, ← split]
              rfl
            next stuck =>
              obtain ⟨more, last, run', last_valid, split, bounded, last_ends⟩ :=
                @ih ⟨opened.files, none, opened.curFile + 1⟩ (ret ++ new)
                  (fun other impossible => by cases impossible)
                  took.bounded (by omega) (fun short => by simp only; omega)
              rw [List.append_assoc] at run' bounded last_ends
              refine ⟨new ++ more, last, run', last_valid, ?_, bounded, last_ends⟩
              rw [lines, List.append_assoc, ← split, took.ended (by simpa using stuck)]
              rfl
          next full =>
            refine ⟨[], opened, by rw [List.append_nil], opened_valid, rfl, by rwa [List.append_nil], ?_⟩
            rw [List.append_nil]
            exact fun fewer => absurd fewer full

/-- A call of `get_lines` takes as many of the lines to come as it is asked for. -/
theorem getLines_spec (valid : reader.Valid) (count : Nat) :
    ∃ reader', getLines fs count reader = .ok ((pending fs reader).take count, reader') ∧
      reader'.Valid ∧ pending fs reader' = (pending fs reader).drop count := by
  obtain ⟨new, reader', run, valid', split, fits, ends⟩ :=
    @getLinesFrom_spec fs reader count (reader.files.length + 1) [] valid (by simp) (by omega)
      (fun _ => by omega)
  rw [List.nil_append] at run fits ends
  have takes : (pending fs reader).take count = new ∧
      (pending fs reader).drop count = pending fs reader' := by
    rw [split]
    rcases Nat.lt_or_eq_of_le (Int.ofNat_le.mp fits) with short | full
    · rw [ends (Int.ofNat_lt.mpr short), List.append_nil, List.take_of_length_le short.le,
        List.drop_eq_nil_of_le short.le]
      exact ⟨rfl, rfl⟩
    · rw [← full, List.take_left, List.drop_left]
      exact ⟨rfl, rfl⟩
  refine ⟨reader', ?_, valid', takes.2.symm⟩
  rw [getLines, if_neg (by omega), run, takes.1]

end ModelFilesReader

end CppProject.CannonProxy
