import CppProject.Library.LinkedLists

/-!
# `mergeSortedLists`

Two sorted lists are merged by linking their nodes anew.  The local node `dummy` stands in front
of the merged list; it is no node of the heap.
-/

namespace CppProject.MergeSortedLists

open Library Library.Checked Library.LinkedLists

/-- Where `tail` points to. -/
inductive Tail where
  | dummy
  | node (place : Nat)
  deriving DecidableEq, Repr

/-- The nodes, `dummy.next`, and the variables of the loop. -/
structure MergeState where
  heap : List (Node Int)
  dummyNext : Pointer
  tail : Tail
  h1 : Pointer
  h2 : Pointer
  deriving DecidableEq, Repr

/-- `*h`; null points to no node. -/
def deref (heap : List (Node Int)) : Pointer → Except Fault (Node Int)
  | some place => load heap place
  | none => .error .outOfBounds

/-- `tail->next = next` -/
def linkTail (s : MergeState) (next : Pointer) : Except Fault MergeState :=
  match s.tail with
  | .dummy => .ok { s with dummyNext := next }
  | .node place => do
      let node ← load s.heap place
      let heap ← store s.heap place { node with next := next }
      .ok { s with heap := heap }

/-- The smaller of the two first nodes, taken off its list. -/
def takeMin (s : MergeState) : Except Fault (Pointer × MergeState) := do
  let n1 ← deref s.heap s.h1
  let n2 ← deref s.heap s.h2
  if n1.data < n2.data then .ok (s.h1, { s with h1 := n1.next })
  else .ok (s.h2, { s with h2 := n2.next })

/-- `tail->next = min; tail = min;` -/
def appendMin (s : MergeState) : Except Fault MergeState := do
  let (min, s) ← takeMin s
  let s ← linkTail s min
  match min with
  | some place => .ok { s with tail := .node place }
  | none => .error .outOfBounds

/-- `while (true)`, with a bound on the number of rounds. -/
def mergeLoop : Nat → MergeState → Except Fault MergeState
  | 0, _ => .error .outOfFuel
  | rounds + 1, s => do
      let s ← appendMin s
      if s.h1 = none then linkTail s s.h2
      else if s.h2 = none then linkTail s s.h1
      else mergeLoop rounds s

/-- The heap afterwards and the head of the merged list. -/
def mergeSortedLists (heap : List (Node Int)) (h1 h2 : Pointer) :
    Except Fault (List (Node Int) × Pointer) :=
  if h1 = none then .ok (heap, h2)
  else if h2 = none then .ok (heap, h1)
  else do
    let s ← mergeLoop (heap.length + 1) ⟨heap, none, .dummy, h1, h2⟩
    .ok (s.heap, s.dummyNext)

end CppProject.MergeSortedLists
