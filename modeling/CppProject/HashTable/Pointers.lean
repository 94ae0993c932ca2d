import CppProject.HashTable.Chained
import CppProject.Library.Memory

/-!
# The chained `immutable_hash_table` with its pointers

The table as it is linked: the entries and the bucket arrays are allocated and deleted, a
bucket holds a pointer, and a rehash links the entries anew where they are.  It runs like the
table of chains whose values carry the places of their entries.
-/

namespace CppProject.HashTable.Pointers

open Library Library.Checked Library.LinkedLists Library.Chains
open Library.Memory (Linked Heads)
open Chained (Operation Answer)

/-- What `new` has given out: the entries, and the arrays of pointers. -/
structure Heap (K V : Type) where
  entries : Memory (Node (K × V))
  arrays : Memory (List Pointer)

/-- The members; `buckets` is the place of the array. -/
structure ImmutableHashTable where
  buckets : Nat
  size : Nat
  sizeMask : Nat
  used : Nat
  loading : Bool

section Model

variable {K V : Type}

/-- `buckets[i]` as a read. -/
def loadBucket (heap : Heap K V) (buckets i : Nat) : Except Fault Pointer := do
  let heads ← heap.arrays.read buckets
  load heads i

/-- `buckets[i] = head` -/
def storeBucket (heap : Heap K V) (buckets i : Nat) (head : Pointer) : Except Fault (Heap K V) := do
  let heads ← heap.arrays.read buckets
  let heads ← store heads i head
  let arrays ← heap.arrays.write buckets heads
  .ok { heap with arrays := arrays }

/-- An array of `size` null pointers. -/
def newBuckets (heap : Heap K V) (size : Nat) : Nat × Heap K V :=
  let (buckets, arrays) := heap.arrays.allocate (List.replicate size none)
  (buckets, { heap with arrays := arrays })

/-- The constructor. -/
def create (heap : Heap K V) (size : Nat) : Heap K V × ImmutableHashTable :=
  let size := nextPower size
  let (buckets, heap) := newBuckets heap size
  (heap, { buckets := buckets, size := size, sizeMask := size - 1, used := 0, loading := false })

/-- `_freeEntryList` -/
def freeEntryList (heap : Heap K V) (t : ImmutableHashTable) (bucket : Nat) : Except Fault (Heap K V) := do
  let head ← loadBucket heap t.buckets bucket
  let entries ← Memory.deleteList heap.entries.fresh heap.entries head
  storeBucket { heap with entries := entries } t.buckets bucket none

/-- `_freeEntryList` for `left` buckets from `i` on. -/
def freeFrom (t : ImmutableHashTable) : Nat → Nat → Heap K V → Except Fault (Heap K V)
  | 0, _, heap => .ok heap
  | left + 1, i, heap => do
      let heap ← freeEntryList heap t i
      freeFrom t left (i + 1) heap

/-- `_freeTable` -/
def freeTable (heap : Heap K V) (t : ImmutableHashTable) : Except Fault (Heap K V) := do
  let heap ← freeFrom t t.size 0 heap
  let arrays ← heap.arrays.delete t.buckets
  .ok { heap with arrays := arrays }

/-- `_reset` -/
def reset (heap : Heap K V) (t : ImmutableHashTable) : Except Fault (Heap K V × ImmutableHashTable) :=
  if 0 < t.used then do
    let heap ← freeFrom t t.size 0 heap
    .ok (heap, { t with used := 0, loading := false })
  else .ok (heap, t)

def beginLoading (heap : Heap K V) (t : ImmutableHashTable) :
    Except Fault (Heap K V × ImmutableHashTable) := do
  let (heap, t) ← reset heap t
  .ok (heap, { t with loading := true })

variable (hash : K → Nat)

/-- Every entry from the pointer on becomes the head of its bucket under the new mask, with a
bound on the number of rounds. -/
def relinkList (t : ImmutableHashTable) (buckets : Nat) : Nat → Heap K V → Pointer → Except Fault (Heap K V)
  | _, heap, none => .ok heap
  | 0, _, some _ => .error .outOfFuel
  | rounds + 1, heap, some head => do
      let entry ← heap.entries.read head
      let h := hash entry.data.1 &&& t.sizeMask
      let front ← loadBucket heap buckets h
      let entries ← heap.entries.write head { entry with next := front }
      let heap ← storeBucket { heap with entries := entries } buckets h (some head)
      relinkList t buckets rounds heap entry.next

/-- The full table rehash, for `left` old buckets from `i` on. -/
def relinkFrom (t : ImmutableHashTable) (buckets : Nat) : Nat → Nat → Heap K V → Except Fault (Heap K V)
  | 0, _, heap => .ok heap
  | left + 1, i, heap => do
      let head ← loadBucket heap t.buckets i
      let heap ← relinkList hash t buckets heap.entries.fresh heap head
      relinkFrom t buckets left (i + 1) heap

/-- `_rehash` -/
def rehash (heap : Heap K V) (t : ImmutableHashTable) (size : Nat) :
    Except Fault (Heap K V × ImmutableHashTable) :=
  let size := nextPower size
  if size = t.size then .ok (heap, t)
  else do
    let t := { t with sizeMask := size - 1 }
    let (buckets, heap) := newBuckets heap size
    let heap ← relinkFrom hash t buckets t.size 0 heap
    let arrays ← heap.arrays.delete t.buckets
    .ok ({ heap with arrays := arrays }, { t with size := size, buckets := buckets })

/-- `_expandIfNeeded` -/
def expandIfNeeded (heap : Heap K V) (t : ImmutableHashTable) :
    Except Fault (Heap K V × ImmutableHashTable) :=
  if t.size ≤ t.used then rehash hash heap t (t.used * 2) else .ok (heap, t)

/-- `_shrinkIfNeeded` -/
def shrinkIfNeeded (heap : Heap K V) (t : ImmutableHashTable) :
    Except Fault (Heap K V × ImmutableHashTable) :=
  if t.used * 2 < t.size then rehash hash heap t (t.used * 2) else .ok (heap, t)

def endLoading (heap : Heap K V) (t : ImmutableHashTable) :
    Except Fault (Heap K V × ImmutableHashTable) := do
  let (heap, t) ← shrinkIfNeeded hash heap t
  .ok (heap, { t with loading := false })

variable [DecidableEq K]

/-- The walk of `find` and `insert` along a bucket, with a bound on the number of rounds. -/
def search (key : K) : Nat → Memory (Node (K × V)) → Pointer → Except Fault Pointer
  | _, _, none => .ok none
  | 0, _, some _ => .error .outOfFuel
  | rounds + 1, entries, some head => do
      let entry ← entries.read head
      if entry.data.1 = key then .ok (some head) else search key rounds entries entry.next

def find (heap : Heap K V) (t : ImmutableHashTable) (key : K) : Except Fault Pointer :=
  if t.loading ∨ t.used = 0 then .ok none
  else do
    let head ← loadBucket heap t.buckets (hash key &&& t.sizeMask)
    search key heap.entries.fresh heap.entries head

def insert (heap : Heap K V) (t : ImmutableHashTable) (key : K) (val : V) :
    Except Fault (Pointer × Heap K V × ImmutableHashTable) :=
  if t.loading then do
    let (heap, t) ← expandIfNeeded hash heap t
    let h := hash key &&& t.sizeMask
    let head ← loadBucket heap t.buckets h
    let known ← search key heap.entries.fresh heap.entries head
    match known with
    | some _ => .ok (none, heap, t)
    | none => do
        let (entry, entries) := heap.entries.allocate ⟨(key, val), none⟩
        let head ← loadBucket heap t.buckets h
        let entries ← entries.write entry ⟨(key, val), head⟩
        let heap ← storeBucket { heap with entries := entries } t.buckets h (some entry)
        .ok (some entry, heap, { t with used := t.used + 1 })
  else .ok (none, heap, t)

/-- What a call answers; an entry is given out by its place. -/
inductive PlaceAnswer where
  | done
  | entry (place : Pointer)
  | count (entries : Nat)
  deriving DecidableEq, Repr

def step (heap : Heap K V) (t : ImmutableHashTable) :
    Operation K V → Except Fault (PlaceAnswer × Heap K V × ImmutableHashTable)
  | .beginLoading => do
      let (heap, t) ← beginLoading heap t
      .ok (.done, heap, t)
  | .insert key val => do
      let (place, heap, t) ← insert hash heap t key val
      .ok (.entry place, heap, t)
  | .endLoading => do
      let (heap, t) ← endLoading hash heap t
      .ok (.done, heap, t)
  | .find key => do
      let place ← find hash heap t key
      .ok (.entry place, heap, t)
  | .entryCount => .ok (.count t.used, heap, t)

/-- What the caller reads behind the pointer of an answer. -/
def observe (heap : Heap K V) : PlaceAnswer → Except Fault (Answer K V)
  | .done => .ok .done
  | .entry none => .ok (.entry none)
  | .entry (some place) => do
      let entry ← heap.entries.read place
      .ok (.entry (some entry.data))
  | .count entries => .ok (.count entries)

/-- Calls, and what the caller reads behind each of them. -/
def run (heap : Heap K V) (t : ImmutableHashTable) :
    List (Operation K V) → Except Fault (List (Answer K V) × Heap K V × ImmutableHashTable)
  | [] => .ok ([], heap, t)
  | operation :: rest => do
      let (place, heap, t) ← step hash heap t operation
      let answer ← observe heap place
      let (answers, heap, t) ← run heap t rest
      .ok (answer :: answers, heap, t)

/-- A table from its constructor to its destructor. -/
def lifetime (size : Nat) (operations : List (Operation K V)) : Except Fault (List (Answer K V) × Heap K V) := do
  let (heap, t) := create ⟨.empty _, .empty _⟩ size
  let (answers, heap, t) ← run hash heap t operations
  let heap ← freeTable heap t
  .ok (answers, heap)

end Model

end CppProject.HashTable.Pointers
