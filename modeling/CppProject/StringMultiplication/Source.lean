import CppProject.Library.Loop
import CppProject.Library.Text

/-!
# `stringMultiply`

The two loops over the digits, and the loop that writes the result.  An `int` that is counted
over its largest value is a fault, as is a subscript that is not an `int`.
-/

namespace CppProject.StringMultiplication

open Library Library.Checked

/-- `c - '0'` -/
def digitValue (c : Char) : Int := c.toNat - 48

/-- `s++` of an `int`. -/
def increment (s : Int) : Except Fault Int :=
  if s + 1 < 2 ^ 31 then .ok (s + 1) else .error .outOfBounds

/-- The variables of the inner loop. -/
structure RowState where
  proInt : List Int
  c : Int
  j : Int
  deriving DecidableEq, Repr

/-- `product` in the row of `s1[i]`. -/
def productAt (s1 s2 : Text) (i : Int) (row : RowState) : Except Fault Int := do
  let cell ← loadInt row.proInt (i + row.j + 1)
  let a ← loadInt s1 i
  let b ← loadInt s2 row.j
  .ok (cell + digitValue a * digitValue b + row.c)

/-- One round of the inner loop. -/
def rowRound (s1 s2 : Text) (i : Int) (row : RowState) : Except Fault (Option RowState) :=
  if 0 ≤ row.j then do
    let product ← productAt s1 s2 i row
    let proInt ← storeInt row.proInt (i + row.j + 1) (product.tmod 10)
    .ok (some ⟨proInt, product.tdiv 10, row.j - 1⟩)
  else .ok none

/-- The inner loop starts from the last digit of `s2`. -/
def rowStart (s2 : Text) (proInt : List Int) : RowState := ⟨proInt, 0, intSize s2.length - 1⟩

/-- One round of the outer loop. -/
def outerRound (s1 s2 : Text) : List Int × Int → Except Fault (Option (List Int × Int))
  | (proInt, i) =>
      if 0 ≤ i then do
        let row ← whileLoop (rowRound s1 s2 i) (s2.length + 1) (rowStart s2 proInt)
        let proInt ← storeInt row.proInt i row.c
        .ok (some (proInt, i - 1))
      else .ok none

/-- The outer loop starts from the last digit of `s1`, over zeros. -/
def outerStart (s1 s2 : Text) : List Int × Int :=
  (List.replicate (s1.length + s2.length) 0, intSize s1.length - 1)

/-- One round of the loop that writes the result. -/
def writeRound (proInt : List Int) : Text × Int → Except Fault (Option (Text × Int))
  | (ret, s) =>
      if s < proInt.length then do
        let cell ← loadInt proInt s
        let s ← increment s
        .ok (some (ret ++ [Char.ofNat (48 + cell).toNat], s))
      else .ok none

def stringMultiply (s1 s2 : Text) : Except Fault Text :=
  if s1.isEmpty ∨ s2.isEmpty ∨ s1.head? = some '0' ∨ s2.head? = some '0' then .ok ['0']
  else do
    let (proInt, _) ← whileLoop (outerRound s1 s2) (s1.length + 1) (outerStart s1 s2)
    let first ← load proInt 0
    let (ret, _) ← whileLoop (writeRound proInt) (proInt.length + 1) ([], if first ≠ 0 then 0 else 1)
    .ok ret

end CppProject.StringMultiplication
