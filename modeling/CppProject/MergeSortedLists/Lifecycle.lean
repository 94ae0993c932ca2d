import CppProject.MergeSortedLists.Merge
import CppProject.Library.Memory
import Mathlib.Data.List.Sort

/-!
# The lists of the test

The lists that `test` builds, prints, merges, checks and deletes, from the first `new` to the
last `delete`.
-/

namespace CppProject.MergeSortedLists

open Library Library.Checked Library.LinkedLists

/-- `new Node(data)`, linked behind `tail`. -/
def appendNew (s : MergeState) (data : Int) : Except Fault MergeState := do
  let place := s.heap.length
  let s ← linkTail { s with heap := s.heap ++ [⟨data, none⟩] } (some place)
  .ok { s with tail := .node place }

/-- The loop of `constructList`. -/
def appendAll : List Int → MergeState → Except Fault MergeState
  | [], s => .ok s
  | data :: rest, s => do
      let s ← appendNew s data
      appendAll rest s

/-- `constructList`; there are no lists to merge yet. -/
def constructList (heap : List (Node Int)) (datas : List Int) : Except Fault (List (Node Int) × Pointer) := do
  let s ← appendAll datas ⟨heap, none, .dummy, none, none⟩
  .ok (s.heap, s.dummyNext)

/-- `printList`: the data it writes, with a bound on the number of rounds. -/
def printList : Nat → List (Node Int) → Pointer → Except Fault (List Int)
  | _, _, none => .ok []
  | 0, _, some _ => .error .outOfFuel
  | rounds + 1, heap, some place => do
      let node ← load heap place
      let rest ← printList rounds heap node.next
      .ok (node.data :: rest)

/-- `orderTest`: whether its assertion holds in every round. -/
def orderTest : Nat → List (Node Int) → Pointer → Except Fault Bool
  | _, _, none => .ok true
  | 0, _, some _ => .error .outOfFuel
  | rounds + 1, heap, some place => do
      let node ← load heap place
      match node.next with
      | none => .ok true
      | some next => do
          let behind ← load heap next
          if node.data ≤ behind.data then orderTest rounds heap node.next else .ok false

/-- `deconstructList` -/
def deconstructList (m : Memory (Node Int)) (h : Pointer) : Except Fault (Memory (Node Int)) :=
  Memory.deleteList m.fresh m h

/-- `std::sort` -/
def sort (datas : List Int) : List Int := datas.mergeSort fun a b => decide (a ≤ b)

/-- What a round of `test` writes, whether its assertions hold, and the memory it leaves. -/
structure TestRound where
  list1 : List Int
  list2 : List Int
  merged : List Int
  ordered : Bool
  memory : Memory (Node Int)

/-- A round of `test` with the data of its two vectors. -/
def testRound (datas1 datas2 : List Int) : Except Fault TestRound := do
  let (heap, h1) ← constructList [] (sort datas1)
  let (heap, h2) ← constructList heap (sort datas2)
  let list1 ← printList heap.length heap h1
  let list2 ← printList heap.length heap h2
  let (heap, newH) ← mergeSortedLists heap h1 h2
  let merged ← printList heap.length heap newH
  let ordered ← orderTest heap.length heap newH
  let memory ← deconstructList (Memory.ofList heap) newH
  .ok ⟨list1, list2, merged, ordered, memory⟩

/-! ## Building -/

section Building

variable {heap : List (Node Int)} {s : MergeState} {built nodes : List (Nat × Int)} {h : Pointer}

/-- The list that is built behind the nodes of a heap. -/
structure Building (heap : List (Node Int)) (s : MergeState) (built : List (Nat × Int)) : Prop where
  chain : Built s built
  list : IsList s.heap s.dummyNext built
  behind : ∀ p ∈ places built, heap.length ≤ p
  others : ∀ p, p < heap.length → s.heap[p]? = heap[p]?
  length : s.heap.length = heap.length + built.length

theorem Building.append (building : Building heap s built) (data : Int) :
    ∃ s' place, appendNew s data = .ok s' ∧ Building heap s' (built ++ [(place, data)]) := by
  obtain ⟨chain, list, behind, others, length⟩ := building
  have grown (p : Nat) (inside : p < s.heap.length) : (s.heap ++ [⟨data, none⟩])[p]? = s.heap[p]? :=
    List.getElem?_append_left inside
  have off : s.heap.length ∉ places built := fun on => Nat.lt_irrefl _ (list.lt_length _ on)
  have chain' : Built { s with heap := s.heap ++ [⟨data, none⟩] } built := by
    rcases chain with first | ⟨front, place, last, stop, tail, same, path⟩
    · exact Or.inl first
    · exact Or.inr ⟨front, place, last, stop, tail, same, path.agree fun p on => grown p (path.lt_length p on)⟩
  obtain ⟨s', run, relinked, path⟩ := chain'.link (isList_nodup list) (some s.heap.length)
  have new : s'.heap[s.heap.length]? = some ⟨data, none⟩ := by
    rw [relinked.others _ off, List.getElem?_append_right (Nat.le_refl _), Nat.sub_self]
    rfl
  refine ⟨{ s' with tail := .node s.heap.length }, s.heap.length, ?_, ?_, path.snoc new, ?_, ?_, ?_⟩
  · simp only [appendNew, run, ok_bind]
  · exact Or.inr ⟨built, s.heap.length, data, none, rfl, rfl, path.snoc new⟩
  · rw [places, List.map_append, List.forall_mem_append]
    refine ⟨behind, List.forall_mem_singleton.mpr ?_⟩
    rw [length]
    exact Nat.le_add_right _ _
  · intro p inside
    have apart : p ∉ places built := fun on => Nat.not_le.mpr inside (behind p on)
    rw [relinked.others p apart]
    exact (grown p (by rw [length]; omega)).trans (others p inside)
  · simp only [relinked.length, List.length_append, List.length_singleton, length]
    omega

theorem Building.appendAll (building : Building heap s built) (datas : List Int) :
    ∃ s' more, appendAll datas s = .ok s' ∧ Building heap s' (built ++ more) ∧ more.map Prod.snd = datas := by
  induction datas generalizing s built with
  | nil => exact ⟨s, [], rfl, by rw [List.append_nil]; exact building, rfl⟩
  | cons data rest ih =>
      obtain ⟨next, place, one, after⟩ := building.append data
      obtain ⟨last, more, others, ended, same⟩ := ih after
      refine ⟨last, (place, data) :: more, ?_, ?_, congrArg (data :: ·) same⟩
      · rw [MergeSortedLists.appendAll, one, ok_bind, others]
      · rwa [List.append_assoc] at ended

/-- The list holds the data in their order, in new nodes behind the old ones. -/
theorem constructList_spec (heap : List (Node Int)) (datas : List Int) :
    ∃ heap' h nodes, constructList heap datas = .ok (heap', h) ∧ IsList heap' h nodes ∧
      nodes.map Prod.snd = datas ∧ (∀ p ∈ places nodes, heap.length ≤ p) ∧
      (∀ p, p < heap.length → heap'[p]? = heap[p]?) ∧ heap'.length = heap.length + nodes.length := by
  have begun : Building heap ⟨heap, none, .dummy, none, none⟩ [] :=
    ⟨Or.inl ⟨rfl, rfl⟩, .nil none, List.forall_mem_nil _, fun _ _ => rfl, rfl⟩
  obtain ⟨s, nodes, run, ended, same⟩ := begun.appendAll datas
  refine ⟨s.heap, s.dummyNext, nodes, ?_, ended.list, same, ended.behind, ended.others, ended.length⟩
  simp only [constructList, run, ok_bind]

end Building

/-! ## Printing and checking -/

section Walking

variable {heap : List (Node Int)} {nodes : List (Nat × Int)} {h : Pointer} {rounds : Nat}

theorem printList_spec (list : IsList heap h nodes) (enough : nodes.length ≤ rounds) :
    printList rounds heap h = .ok (nodes.map Prod.snd) := by
  induction nodes generalizing h rounds with
  | nil =>
      rw [list.eq_of_nil, printList]
      rfl
  | cons first nodes ih =>
      obtain ⟨node, rfl, found, same, rest⟩ := isList_cons list
      obtain ⟨rounds, rfl⟩ := Nat.exists_eq_succ_of_ne_zero (Nat.ne_of_gt (Nat.lt_of_lt_of_le (Nat.succ_pos _) enough))
      rw [printList, load_eq_ok.mpr found, ok_bind, ih rest (Nat.le_of_succ_le_succ enough), ok_bind, same]
      rfl

theorem orderTest_spec (list : IsList heap h nodes) (enough : nodes.length ≤ rounds)
    (sorted : (nodes.map Prod.snd).Pairwise (· ≤ ·)) : orderTest rounds heap h = .ok true := by
  induction nodes generalizing h rounds with
  | nil => rw [list.eq_of_nil, orderTest]
  | cons first nodes ih =>
      obtain ⟨node, rfl, found, same, rest⟩ := isList_cons list
      obtain ⟨rounds, rfl⟩ := Nat.exists_eq_succ_of_ne_zero (Nat.ne_of_gt (Nat.lt_of_lt_of_le (Nat.succ_pos _) enough))
      obtain ⟨below, later⟩ := List.pairwise_cons.mp sorted
      have further := ih rest (Nat.le_of_succ_le_succ enough) later
      rw [orderTest, load_eq_ok.mpr found, ok_bind]
      cases nodes with
      | nil => rw [rest.eq_of_nil]
      | cons second nodes =>
          obtain ⟨behind, next, found', same', _⟩ := isList_cons rest
          rw [next] at further
          simp only [next, load_eq_ok.mpr found', ok_bind, same, same']
          rw [if_pos (below _ List.mem_cons_self), further]

end Walking

/-! ## A round -/

theorem sort_pairwise (datas : List Int) : (sort datas).Pairwise (· ≤ ·) := by
  have sorted := @List.pairwise_mergeSort _ (fun a b : Int => decide (a ≤ b))
    (fun a b c low high => decide_eq_true (Int.le_trans (of_decide_eq_true low) (of_decide_eq_true high)))
    (fun a b => by simpa using Int.le_total a b) datas
  exact sorted.imp of_decide_eq_true

/-- Sorting does not depend on the order of the data. -/
theorem sort_eq {datas sorted : List Int} (perm : sorted.Perm datas) (order : sorted.Pairwise (· ≤ ·)) :
    sorted = sort datas :=
  (perm.trans (List.mergeSort_perm datas _).symm).eq_of_pairwise
    (fun _ _ _ _ low high => Int.le_antisymm low high) order (sort_pairwise datas)

/-- Nodes that are as many as the heap has are all of its nodes. -/
theorem mem_of_all {heap : List (Node Int)} {nodes : List (Nat × Int)} (nodup : (places nodes).Nodup)
    (inside : ∀ p ∈ places nodes, p < heap.length) (all : heap.length ≤ nodes.length) {p : Nat}
    (here : p < heap.length) : p ∈ places nodes := by
  have among : places nodes ⊆ List.range heap.length := fun p member => List.mem_range.mpr (inside p member)
  have perm := (nodup.subperm among).perm_of_length_le (by rwa [List.length_range, List.length_map])
  exact perm.mem_iff.mpr (List.mem_range.mpr here)

/-- For any data of the two vectors a round of `test` writes both lists and all of their data in
order, no assertion fails, and every node is deleted, each once. -/
theorem testRound_passes (datas1 datas2 : List Int) :
    ∃ memory, testRound datas1 datas2 =
        .ok ⟨sort datas1, sort datas2, sort (datas1 ++ datas2), true, memory⟩ ∧
      ∀ place, memory.cells place = none := by
  obtain ⟨heap1, h1, nodes1, run1, list1, data1, _, _, length1⟩ := constructList_spec [] (sort datas1)
  obtain ⟨heap2, h2, nodes2, run2, list2, data2, behind2, others2, length2⟩ :=
    constructList_spec heap1 (sort datas2)
  have below1 := list1.lt_length
  have list1 : IsList heap2 h1 nodes1 := list1.agree fun p on => others2 p (below1 p on)
  have disjoint : (places nodes1).Disjoint (places nodes2) :=
    fun p on1 on2 => Nat.not_le.mpr (below1 p on1) (behind2 p on2)
  obtain ⟨after, h, merge, list, others⟩ := mergeSortedLists_spec list1 list2 disjoint
  have perm : (interleave nodes1 nodes2).Perm (nodes1 ++ nodes2) :=
    (List.merge_perm_append notGreater).trans List.perm_append_comm
  have nodup := isList_nodup list
  have sorted := interleave_sorted (data1.symm ▸ sort_pairwise datas1) (data2.symm ▸ sort_pairwise datas2)
  have data : (interleave nodes1 nodes2).map Prod.snd = sort (datas1 ++ datas2) := by
    refine sort_eq ((perm.map Prod.snd).trans ?_) sorted
    rw [List.map_append, data1, data2]
    exact (List.mergeSort_perm datas1 _).append (List.mergeSort_perm datas2 _)
  -- the merged list has all nodes of the heap
  have all (p : Nat) (absent : p ∉ places (interleave nodes1 nodes2)) : after[p]? = none := by
    rw [places, (perm.map Prod.fst).mem_iff] at absent
    rw [others p absent, List.getElem?_eq_none]
    by_contra inside
    refine absent (mem_of_all ?_ ?_ ?_ (Nat.not_le.mp inside))
    · rw [places, List.map_append]
      exact List.Nodup.append (isList_nodup list1) (isList_nodup list2) disjoint
    · rw [places, List.map_append]
      exact List.forall_mem_append.mpr ⟨list1.lt_length, list2.lt_length⟩
    · rw [length2, length1, List.length_append, List.length_nil]
      omega
  have enough := length_le_of_nodup nodup list.lt_length
  have holds : (Memory.ofList after).Holds ((interleave nodes1 nodes2).map Prod.fst ++ []) := by
    rw [List.append_nil]
    refine ⟨nodup, fun p => ⟨fun used => ?_, fun on => ?_⟩⟩
    · by_contra absent
      exact used (all p absent)
    · have inside := list.lt_length p on
      change after[p]? ≠ none
      rw [List.getElem?_eq_getElem inside]
      simp
  obtain ⟨memory, deleted, empty, _, _⟩ := Memory.deleteList_spec (Memory.linked_ofList list) holds enough
  refine ⟨memory, ?_, empty.nothing⟩
  have fuel1 : nodes1.length ≤ heap2.length := by rw [length2, length1]; omega
  have fuel2 : nodes2.length ≤ heap2.length := by rw [length2]; omega
  simp only [testRound, run1, run2, ok_bind, printList_spec list1 fuel1, printList_spec list2 fuel2, merge,
    printList_spec list enough, orderTest_spec list enough sorted, data1, data2, data]
  rw [deconstructList]
  change (Memory.deleteList after.length _ h >>= _) = _
  rw [deleted, ok_bind]

end CppProject.MergeSortedLists
