import CppProject.Library.Loop

/-!
# `qsort`

The quicksort of a range of a vector, with a three-way partition.  Indexes are ints; one that
has run over its largest value is negative.
-/

namespace CppProject.QSort

open Library Library.Checked

/-- `swap(nums[i], nums[j])` -/
def swapCells (nums : List Int) (i j : Int) : Except Fault (List Int) := do
  let a ← loadInt nums i
  let b ← loadInt nums j
  let nums ← storeInt nums i b
  storeInt nums j a

/-- `(e + s) / 2` -/
def middle (s e : Int) : Int := ((e + s).bmod (2 ^ 32)).tdiv 2

/-- The value that the cells are compared with. -/
def choosePartition (nums : List Int) (s e : Int) : Except Fault Int := do
  let a ← loadInt nums e
  let b ← loadInt nums (middle s e)
  let c ← loadInt nums e
  .ok (min (max a b) (max b c))

/-- The variables of the partition loop. -/
structure PartitionState where
  nums : List Int
  i : Int
  j : Int
  k : Int
  deriving DecidableEq, Repr

/-- One round of the partition loop. -/
def partitionRound (partition : Int) : PartitionState → Except Fault (Option PartitionState)
  | ⟨nums, i, j, k⟩ =>
      if j ≤ k then do
        let cell ← loadInt nums j
        if cell < partition then
          let nums ← swapCells nums i j
          .ok (some ⟨nums, i + 1, j + 1, k⟩)
        else if cell > partition then
          let nums ← swapCells nums j k
          .ok (some ⟨nums, i, j, k - 1⟩)
        else .ok (some ⟨nums, i, j + 1, k⟩)
      else .ok none

/-- The partition of the range from `s` to `e`. -/
def partitionRange (nums : List Int) (s e : Int) : Except Fault PartitionState := do
  let partition ← choosePartition nums s e
  whileLoop (partitionRound partition) (nums.length + 1) ⟨nums, s, s, e⟩

/-- `qsort` with a bound on the depth of the recursion. -/
def qsortIn : Nat → List Int → Int → Int → Except Fault (List Int)
  | 0, _, _, _ => .error .outOfFuel
  | depth + 1, nums, s, e =>
      if s ≥ e then .ok nums
      else if s + 1 = e then do
        let first ← loadInt nums s
        let last ← loadInt nums e
        if first > last then swapCells nums s e else .ok nums
      else do
        let split ← partitionRange nums s e
        let nums ← qsortIn depth split.nums s (split.i - 1)
        qsortIn depth nums (split.k + 1) e

def qsort (nums : List Int) (s e : Int) : Except Fault (List Int) :=
  qsortIn (nums.length + 1) nums s e

end CppProject.QSort
