import CppProject.Library.Loop
import CppProject.Library.Text

/-!
# `KMP`

The failure table and the search.  The table starts with as many entries as the pattern has
characters; the number is a parameter here, to tell what the construction loop writes behind
them.
-/

namespace CppProject.KMP

open Library Library.Checked

/-- The variables of the loop of `getNext`. -/
structure NextState where
  next : List Int
  i : Int
  j : Int
  deriving DecidableEq, Repr

/-- `i == -1 || pattern[i] == text[j]` -/
def sameAt (pattern text : Text) (i j : Int) : Except Fault Bool :=
  if i = -1 then .ok true
  else do
    let a ← loadInt pattern i
    let b ← loadInt text j
    .ok (a == b)

/-- One round of the loop of `getNext`. -/
def nextRound (pattern : Text) : NextState → Except Fault (Option NextState)
  | ⟨next, i, j⟩ =>
      if j < pattern.length then do
        if ← sameAt pattern pattern i j then
          let next ← storeInt next (j + 1) (i + 1)
          .ok (some ⟨next, i + 1, j + 1⟩)
        else
          let i ← loadInt next i
          .ok (some ⟨next, i, j⟩)
      else .ok none

/-- `getNext` with a table of `room` entries. -/
def getNextIn (room : Nat) (pattern : Text) : Except Fault (List Int) := do
  let next ← store (List.replicate room 0) 0 (-1)
  let last ← whileLoop (nextRound pattern) (2 * pattern.length + 2) ⟨next, -1, 0⟩
  .ok last.next

def getNext (pattern : Text) : Except Fault (List Int) := getNextIn pattern.length pattern

/-- One round of the loop of `KMP`, over the indexes `i` of the pattern and `j` of the source. -/
def searchRound (src ptn : Text) (next : List Int) :
    Int × Int → Except Fault (Option (Int × Int))
  | (i, j) =>
      if i < intSize ptn.length ∧ j < intSize src.length then do
        if ← sameAt ptn src i j then .ok (some (i + 1, j + 1))
        else
          let i ← loadInt next i
          .ok (some (i, j))
      else .ok none

/-- `KMP` with a failure table of `room` entries. -/
def kmpIn (room : Nat) (src ptn : Text) : Except Fault Int :=
  if ptn.isEmpty then .ok 0
  else if src.length < ptn.length then .ok (-1)
  else do
    let next ← getNextIn room ptn
    let (i, j) ← whileLoop (searchRound src ptn next) (2 * src.length + 2) (0, 0)
    if i = intSize ptn.length then .ok (j - intSize ptn.length) else .ok (-1)

def kmp (src ptn : Text) : Except Fault Int := kmpIn ptn.length src ptn

end CppProject.KMP
