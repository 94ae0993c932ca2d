import CppProject.Library.Checked
import Mathlib.Data.List.Nodup
import Mathlib.Data.List.Perm.Subperm

/-!
# Singly linked lists

A heap is the list of its nodes, and a pointer is the place of a node in it or null.  A path
follows the links from one pointer to another; a list is a path to null.  Every node of a path
is given with its data, so that relinking nodes rearranges the path.
-/

namespace CppProject.Library.LinkedLists

variable {α : Type}

/-- The place of a node; `none` is null. -/
abbrev Pointer := Option Nat

structure Node (α : Type) where
  data : α
  next : Pointer
  deriving DecidableEq, Repr

/-- The nodes passed from one pointer to another, each with its data. -/
inductive Path (heap : List (Node α)) : Pointer → List (Nat × α) → Pointer → Prop where
  | nil (p : Pointer) : Path heap p [] p
  | cons {place : Nat} {node : Node α} {rest : List (Nat × α)} {stop : Pointer}
      (found : heap[place]? = some node) (path : Path heap node.next rest stop) :
      Path heap (some place) ((place, node.data) :: rest) stop

/-- A finite list: its links end at null. -/
abbrev IsList (heap : List (Node α)) (head : Pointer) (nodes : List (Nat × α)) : Prop :=
  Path heap head nodes none

/-- The places of the nodes. -/
abbrev places (nodes : List (Nat × α)) : List Nat := nodes.map Prod.fst

variable {heap : List (Node α)} {start stop : Pointer} {nodes front : List (Nat × α)} {place : Nat}

namespace Path

theorem eq_of_nil (path : Path heap start [] stop) : start = stop := by
  cases path
  rfl

theorem append {mid : Pointer} {back : List (Nat × α)} (first : Path heap start front mid)
    (second : Path heap mid back stop) : Path heap start (front ++ back) stop := by
  induction first with
  | nil p => exact second
  | cons found path ih => exact .cons found (ih second)

/-- A path goes on over the node it has led to. -/
theorem snoc {node : Node α} (path : Path heap start front (some place))
    (found : heap[place]? = some node) :
    Path heap start (front ++ [(place, node.data)]) node.next :=
  path.append (.cons found (.nil _))

/-- The last node of a path, and the path to it. -/
theorem of_snoc {data : α} (path : Path heap start (front ++ [(place, data)]) stop) :
    Path heap start front (some place) ∧ heap[place]? = some ⟨data, stop⟩ := by
  induction front generalizing start with
  | nil =>
      cases path with
      | cons found rest =>
          obtain rfl := rest.eq_of_nil
          exact ⟨.nil _, found⟩
  | cons node front ih =>
      cases path with
      | cons found rest =>
          obtain ⟨inner, last⟩ := ih rest
          exact ⟨.cons found inner, last⟩

/-- A path stays when its own nodes do. -/
theorem agree {other : List (Node α)} (path : Path heap start nodes stop)
    (same : ∀ p ∈ places nodes, other[p]? = heap[p]?) : Path other start nodes stop := by
  induction path with
  | nil p => exact .nil p
  | cons found rest ih =>
      obtain ⟨here, later⟩ := List.forall_mem_cons.mp same
      exact .cons (here.trans found) (ih later)

/-- Every node of a path is in the heap. -/
theorem lt_length (path : Path heap start nodes stop) : ∀ p ∈ places nodes, p < heap.length := by
  induction path with
  | nil p => exact List.forall_mem_nil _
  | cons found rest ih =>
      exact List.forall_mem_cons.mpr ⟨(List.getElem?_eq_some_iff.mp found).1, ih⟩

end Path

section IsList

variable {head : Pointer} {other : List (Nat × α)}

theorem isList_none (list : IsList heap none nodes) : nodes = [] := by
  cases list
  rfl

theorem isList_none_iff (list : IsList heap head nodes) : head = none ↔ nodes = [] := by
  constructor
  · rintro rfl
    exact isList_none list
  · rintro rfl
    exact list.eq_of_nil

theorem isList_cons {first : Nat × α} (list : IsList heap head (first :: nodes)) :
    ∃ node, head = some first.1 ∧ heap[first.1]? = some node ∧ node.data = first.2 ∧
      IsList heap node.next nodes := by
  cases list with
  | cons found rest => exact ⟨_, rfl, found, rfl, rest⟩

/-- A pointer to a node is the head of that node and the rest. -/
theorem isList_some (list : IsList heap (some place) nodes) :
    ∃ node rest, heap[place]? = some node ∧ nodes = (place, node.data) :: rest ∧
      IsList heap node.next rest := by
  cases list with
  | cons found rest => exact ⟨_, _, found, rfl, rest⟩

theorem isList_unique (list : IsList heap head nodes) (again : IsList heap head other) :
    nodes = other := by
  induction nodes generalizing head other with
  | nil =>
      cases list
      exact (isList_none again).symm
  | cons first nodes ih =>
      cases list with
      | cons found rest =>
          obtain ⟨node, others, found', rfl, rest'⟩ := isList_some again
          cases found.symm.trans found'
          rw [ih rest rest']

/-- From every node of a list there is a shorter one. -/
theorem isList_from (list : IsList heap head nodes) (on : place ∈ places nodes) :
    ∃ others, IsList heap (some place) others ∧ others.length ≤ nodes.length := by
  induction nodes generalizing head with
  | nil => exact absurd on List.not_mem_nil
  | cons first nodes ih =>
      cases list with
      | cons found rest =>
          rcases List.mem_cons.mp on with rfl | later
          · exact ⟨_, .cons found rest, Nat.le_refl _⟩
          · obtain ⟨others, from_place, shorter⟩ := ih rest later
            exact ⟨others, from_place, Nat.le_succ_of_le shorter⟩

/-- A list that ends does not pass a node twice. -/
theorem isList_nodup (list : IsList heap head nodes) : (places nodes).Nodup := by
  induction nodes generalizing head with
  | nil => exact List.nodup_nil
  | cons first nodes ih =>
      cases list with
      | cons found rest =>
          refine List.nodup_cons.mpr ⟨fun again => ?_, ih rest⟩
          obtain ⟨others, from_place, shorter⟩ := isList_from rest again
          have same := isList_unique from_place (.cons found rest)
          rw [same, List.length_cons] at shorter
          exact Nat.not_succ_le_self _ shorter

/-- Nodes in different places are no more than the heap has. -/
theorem length_le_of_nodup (nodup : (places nodes).Nodup) (inside : ∀ p ∈ places nodes, p < heap.length) :
    nodes.length ≤ heap.length := by
  have among : places nodes ⊆ List.range heap.length :=
    fun p member => List.mem_range.mpr (inside p member)
  have fewer := (nodup.subperm among).length_le
  rwa [List.length_map, List.length_range] at fewer

end IsList

end CppProject.Library.LinkedLists
