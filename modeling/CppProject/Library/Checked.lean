import Mathlib.Algebra.Order.Ring.Int
import Mathlib.Data.List.Basic
import Mathlib.Data.List.TakeDrop

/-!
# Checked memory

Vectors are lists, and every subscript and block copy checks its bounds.  A
computation that would read or write outside its vector stops with a fault, so
a run that returns a value has touched only cells that exist.
-/

namespace CppProject.Library

/-- Why a computation stops without a value. -/
inductive Fault where
  | outOfBounds
  | divisionByZero
  | overflow
  | outOfFuel
  deriving DecidableEq, Repr

namespace Checked

variable {α β : Type}

/-- `cells[index]` as a read. -/
def load (cells : List α) (index : Nat) : Except Fault α :=
  match cells[index]? with
  | some cell => .ok cell
  | none => .error .outOfBounds

/-- `cells[index] = cell`. -/
def store (cells : List α) (index : Nat) (cell : α) : Except Fault (List α) :=
  if index < cells.length then .ok (cells.set index cell) else .error .outOfBounds

/-- The block of `size` cells that starts at `pos`. -/
def slice (cells : List α) (pos size : Nat) : List α := (cells.drop pos).take size

/-- `memcpy` of `size` cells out of a vector. -/
def readBlock (cells : List α) (pos size : Nat) : Except Fault (List α) :=
  if pos + size ≤ cells.length then .ok (slice cells pos size) else .error .outOfBounds

/-- The vector after a block has been copied over the cells from `pos` on. -/
def splice (cells : List α) (pos : Nat) (block : List α) : List α :=
  cells.take pos ++ (block ++ cells.drop (pos + block.length))

/-- `memcpy` of a block into a vector. -/
def writeBlock (cells : List α) (pos : Nat) (block : List α) : Except Fault (List α) :=
  if pos + block.length ≤ cells.length then .ok (splice cells pos block) else .error .outOfBounds

/-- `cells.resize(size, cell)`: a longer vector is cut, a shorter one is filled up. -/
def resize (cells : List α) (size : Nat) (cell : α) : List α :=
  cells.take size ++ List.replicate (size - cells.length) cell

/-- `(int)size` of a container. -/
def intSize (size : Nat) : Int := (Int32.ofNat size).toInt

@[simp] theorem ok_bind (value : α) (f : α → Except Fault β) :
    ((Except.ok value : Except Fault α) >>= f) = f value := rfl

@[simp] theorem error_bind (fault : Fault) (f : α → Except Fault β) :
    ((Except.error fault : Except Fault α) >>= f) = .error fault := rfl

/-- A computation in two steps returns when both steps do. -/
theorem bind_eq_ok {ε : Type} {computation : Except ε α} {f : α → Except ε β} {result : β} :
    computation >>= f = .ok result ↔ ∃ value, computation = .ok value ∧ f value = .ok result := by
  cases computation with
  | error fault =>
      refine iff_of_false (fun impossible => by cases impossible) ?_
      rintro ⟨_, impossible, _⟩
      cases impossible
  | ok value =>
      refine ⟨fun rest => ⟨value, rfl, rest⟩, ?_⟩
      rintro ⟨_, same, rest⟩
      cases same
      exact rest

/-- The computation returns, with a value that meets the condition. -/
def Returns {ε : Type} (computation : Except ε α) (Post : α → Prop) : Prop :=
  ∃ value, computation = .ok value ∧ Post value

/-- The rule for computations in two steps. -/
theorem Returns.bind {ε : Type} {computation : Except ε α} {f : α → Except ε β} {Mid : α → Prop}
    {Post : β → Prop} (first : Returns computation Mid) (rest : ∀ value, Mid value → Returns (f value) Post) :
    Returns (computation >>= f) Post := by
  obtain ⟨value, run, mid⟩ := first
  obtain ⟨result, after, post⟩ := rest value mid
  exact ⟨result, bind_eq_ok.mpr ⟨value, run, after⟩, post⟩

theorem load_eq_ok {cells : List α} {index : Nat} {cell : α} :
    load cells index = .ok cell ↔ cells[index]? = some cell := by
  unfold load
  cases cells[index]? with
  | none => simp
  | some other => simp

theorem load_of_lt {cells : List α} {index : Nat} (inside : index < cells.length) :
    load cells index = .ok cells[index] :=
  load_eq_ok.mpr (List.getElem?_eq_getElem inside)

theorem load_eq_error {cells : List α} {index : Nat} (outside : cells.length ≤ index) :
    load cells index = .error .outOfBounds := by
  rw [load, List.getElem?_eq_none outside]

theorem store_of_lt {cells : List α} {index : Nat} (inside : index < cells.length) (cell : α) :
    store cells index cell = .ok (cells.set index cell) :=
  if_pos inside

theorem load_append (front : List α) (cell : α) (back : List α) :
    load (front ++ cell :: back) front.length = .ok cell := by
  rw [load_eq_ok, List.getElem?_append_right (Nat.le_refl _), Nat.sub_self]
  rfl

theorem store_append (front : List α) (cell new : α) (back : List α) :
    store (front ++ cell :: back) front.length new = .ok (front ++ new :: back) := by
  rw [store_of_lt (by simp), List.set_append_right _ _ (Nat.le_refl _), Nat.sub_self]
  rfl

theorem getD_set {cells : List α} {index : Nat} (inside : index < cells.length) (cell filler : α)
    (other : Nat) :
    (cells.set index cell).getD other filler =
      if other = index then cell else cells.getD other filler := by
  simp only [List.getD_eq_getElem?_getD, List.getElem?_set, inside, if_true, eq_comm (a := index)]
  split <;> rfl

theorem readBlock_of_le {cells : List α} {pos size : Nat} (inside : pos + size ≤ cells.length) :
    readBlock cells pos size = .ok (slice cells pos size) :=
  if_pos inside

theorem readBlock_eq_error {cells : List α} {pos size : Nat} (outside : cells.length < pos + size) :
    readBlock cells pos size = .error .outOfBounds :=
  if_neg (Nat.not_le.mpr outside)

/-- A block that can be read lies inside the vector. -/
theorem readBlock_inside {cells block : List α} {pos size : Nat}
    (read : readBlock cells pos size = .ok block) : pos + size ≤ cells.length := by
  by_contra outside
  rw [readBlock_eq_error (by omega)] at read
  cases read

theorem writeBlock_of_le {cells block : List α} {pos : Nat}
    (inside : pos + block.length ≤ cells.length) :
    writeBlock cells pos block = .ok (splice cells pos block) :=
  if_pos inside

theorem slice_length {cells : List α} {pos size : Nat} (inside : pos + size ≤ cells.length) :
    (slice cells pos size).length = size := by
  rw [slice, List.length_take, List.length_drop]
  omega

theorem slice_take (cells : List α) (pos : Nat) {short size : Nat} (shorter : short ≤ size) :
    (slice cells pos size).take short = slice cells pos short := by
  unfold slice
  rw [List.take_take, Nat.min_eq_left shorter]

/-- Cells up to a point and a slice behind it are the cells up to the end of the slice. -/
theorem take_add_eq_iff {a b : List α} (same_length : a.length = b.length) (n size : Nat) :
    a.take (n + size) = b.take (n + size) ↔ a.take n = b.take n ∧ slice a n size = slice b n size := by
  rw [List.take_add, List.take_add]
  refine ⟨fun same => List.append_inj same ?_, ?_⟩
  · rw [List.length_take, List.length_take, same_length]
  · rintro ⟨front, back⟩
    exact congrArg₂ _ front back

theorem getElem?_slice (cells : List α) {pos size offset : Nat} (inside : offset < size) :
    (slice cells pos size)[offset]? = cells[pos + offset]? := by
  rw [slice, List.getElem?_take_of_lt inside, List.getElem?_drop]

theorem splice_length {cells block : List α} {pos : Nat}
    (inside : pos + block.length ≤ cells.length) :
    (splice cells pos block).length = cells.length := by
  rw [splice, List.length_append, List.length_append, List.length_take, List.length_drop]
  omega

/-- Reading back the block that was just written. -/
theorem slice_splice_self {cells block : List α} {pos : Nat}
    (inside : pos + block.length ≤ cells.length) :
    slice (splice cells pos block) pos block.length = block := by
  have front : (cells.take pos).length = pos := List.length_take_of_le (by omega)
  unfold slice splice
  rw [List.drop_left' front, List.take_left]

/-- A block that does not overlap the written one is unchanged. -/
theorem slice_splice_apart {cells block : List α} {pos other size : Nat}
    (inside : pos + block.length ≤ cells.length)
    (apart : other + size ≤ pos ∨ pos + block.length ≤ other) :
    slice (splice cells pos block) other size = slice cells other size := by
  have front : (cells.take pos).length = pos := List.length_take_of_le (by omega)
  apply List.ext_getElem?
  intro offset
  by_cases near : offset < size
  · rw [getElem?_slice _ near, getElem?_slice _ near]
    unfold splice
    cases apart with
    | inl before =>
        rw [List.getElem?_append_left (by omega), List.getElem?_take_of_lt (by omega)]
    | inr after =>
        rw [List.getElem?_append_right (by omega), List.getElem?_append_right (by omega),
          List.getElem?_drop, front]
        congr 1
        omega
  · have far {cells : List α} : (slice cells other size)[offset]? = none := by
      rw [slice, List.getElem?_eq_none]
      rw [List.length_take]
      omega
    rw [far, far]

/-! ## Cells behind the ones in use -/

theorem readBlock_append {cells : List α} {pos size : Nat} (inside : pos + size ≤ cells.length)
    (back : List α) : readBlock (cells ++ back) pos size = readBlock cells pos size := by
  rw [readBlock_of_le inside, readBlock_of_le (by rw [List.length_append]; omega)]
  congr 1
  apply List.ext_getElem?
  intro offset
  by_cases near : offset < size
  · rw [getElem?_slice _ near, getElem?_slice _ near, List.getElem?_append_left (by omega)]
  · rw [List.getElem?_eq_none (by rw [slice, List.length_take]; omega),
      List.getElem?_eq_none (by rw [slice, List.length_take]; omega)]

theorem writeBlock_append {cells block : List α} {pos : Nat}
    (inside : pos + block.length ≤ cells.length) (back : List α) :
    writeBlock (cells ++ back) pos block = .ok (splice cells pos block ++ back) := by
  rw [writeBlock_of_le (by rw [List.length_append]; omega), splice, splice,
    List.take_append_of_le_length (by omega), List.drop_append_of_le_length inside]
  simp only [List.append_assoc]

theorem resize_length (cells : List α) (size : Nat) (cell : α) :
    (resize cells size cell).length = size := by
  rw [resize, List.length_append, List.length_take, List.length_replicate]
  omega

theorem getElem?_resize (cells : List α) {size index : Nat} (inside : index < size) (cell : α) :
    (resize cells size cell)[index]? = some (cells.getD index cell) := by
  rw [resize, List.getD_eq_getElem?_getD]
  by_cases old : index < cells.length
  · rw [List.getElem?_append_left (by rw [List.length_take]; omega),
      List.getElem?_take_of_lt inside, List.getElem?_eq_getElem old, Option.getD_some]
  · have cut : (cells.take size).length = cells.length := by
      rw [List.length_take]
      omega
    rw [List.getElem?_append_right (by omega), cut, List.getElem?_replicate_of_lt (by omega),
      List.getElem?_eq_none (by omega), Option.getD_none]

/-! ## Sizes as `int` -/

theorem intSize_le (size : Nat) : intSize size ≤ size := by
  rw [intSize, Int32.toInt_ofNat', Int.bmod, Int32.size]
  split <;> omega

theorem intSize_lt (size : Nat) : intSize size < 2 ^ 31 := Int32.toInt_lt _

theorem intSize_eq {size : Nat} (short : size < 2 ^ 31) : intSize size = size :=
  Int32.toInt_ofNat_of_lt short

/-- There are as many cells in front of the size as an `int`. -/
theorem length_take_intSize (cells : List α) :
    (cells.take (intSize cells.length).toNat).length = (intSize cells.length).toNat := by
  have := intSize_le cells.length
  rw [List.length_take]
  omega

/-- An `int` can count the cells of a shorter vector. -/
theorem take_intSize {cells : List α} (short : cells.length < 2 ^ 31) :
    cells.take (intSize cells.length).toNat = cells := by
  rw [intSize_eq short]
  exact List.take_length

/-! ## Subscripts of type `int` -/

/-- `cells[index]` as a read; an `int` that has run over its largest value is negative. -/
def loadInt (cells : List α) (index : Int) : Except Fault α :=
  if 0 ≤ index ∧ index < 2 ^ 31 then load cells index.toNat else .error .outOfBounds

/-- `cells[index] = cell` -/
def storeInt (cells : List α) (index : Int) (cell : α) : Except Fault (List α) :=
  if 0 ≤ index ∧ index < 2 ^ 31 then store cells index.toNat cell else .error .outOfBounds

theorem loadInt_natCast {cells : List α} {index : Nat} {cell : α} (small : index < 2 ^ 31)
    (found : cells[index]? = some cell) : loadInt cells index = .ok cell := by
  rw [loadInt, if_pos (by omega), Int.toNat_natCast]
  exact load_eq_ok.mpr found

theorem storeInt_natCast {cells : List α} {index : Nat} (small : index < 2 ^ 31)
    (inside : index < cells.length) (cell : α) :
    storeInt cells index cell = .ok (cells.set index cell) := by
  rw [storeInt, if_pos (by omega), Int.toNat_natCast]
  exact store_of_lt inside cell

/-- Writing a cell keeps the number of the cells. -/
theorem storeInt_length {cells written : List α} {index : Int} {cell : α}
    (write : storeInt cells index cell = .ok written) : written.length = cells.length := by
  unfold storeInt store at write
  split at write
  · split at write
    · cases write
      exact List.length_set
    · cases write
  · cases write

theorem storeInt_outside {cells : List α} {index : Nat}
    (outside : cells.length ≤ index ∨ 2 ^ 31 ≤ index) (cell : α) :
    storeInt cells index cell = .error .outOfBounds := by
  unfold storeInt
  split
  · rw [Int.toNat_natCast, store, if_neg (by omega)]
  · rfl

end Checked

end CppProject.Library
