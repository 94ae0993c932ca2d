import CppProject.Library.Checked
import CppProject.Library.LinkedLists
import Mathlib.Data.List.Nodup
import Mathlib.Data.List.Perm.Subperm
import Mathlib.Logic.Function.Basic

/-!
# Memory with `new` and `delete`

A memory gives out places that it has not given out before and takes them back.  Reading,
writing and deleting a place that is not given out is a fault, so a run without faults uses
nothing after its deletion and deletes nothing twice.
-/

namespace CppProject.Library

open LinkedLists

/-- The cells by their places; nothing lies behind the first fresh place. -/
structure Memory (N : Type) where
  cells : Nat → Option N
  fresh : Nat
  beyond : ∀ place, fresh ≤ place → cells place = none

namespace Memory

variable {N : Type}

def empty (N : Type) : Memory N := ⟨fun _ => none, 0, fun _ _ => rfl⟩

/-- `new` -/
def allocate (m : Memory N) (cell : N) : Nat × Memory N :=
  (m.fresh, ⟨Function.update m.cells m.fresh (some cell), m.fresh + 1, by
    intro place beyond
    rw [Function.update_of_ne (by omega)]
    exact m.beyond place (by omega)⟩)

theorem lt_fresh {m : Memory N} {place : Nat} {cell : N} (found : m.cells place = some cell) :
    place < m.fresh := by
  by_contra beyond
  rw [m.beyond place (Nat.not_lt.mp beyond)] at found
  cases found

/-- The memory after a place in use has been written or deleted. -/
def change (m : Memory N) (place : Nat) (inside : place < m.fresh) (cell : Option N) : Memory N :=
  ⟨Function.update m.cells place cell, m.fresh, by
    intro other beyond
    rw [Function.update_of_ne (by omega)]
    exact m.beyond other beyond⟩

/-- `*place` as a read. -/
def read (m : Memory N) (place : Nat) : Except Fault N :=
  match m.cells place with
  | some cell => .ok cell
  | none => .error .outOfBounds

/-- `*place = cell` -/
def write (m : Memory N) (place : Nat) (cell : N) : Except Fault (Memory N) :=
  match found : m.cells place with
  | some _ => .ok (m.change place (lt_fresh found) (some cell))
  | none => .error .outOfBounds

/-- `delete` -/
def delete (m : Memory N) (place : Nat) : Except Fault (Memory N) :=
  match found : m.cells place with
  | some _ => .ok (m.change place (lt_fresh found) none)
  | none => .error .outOfBounds

variable {m : Memory N} {place : Nat} {cell : N}

theorem read_of_found (found : m.cells place = some cell) : m.read place = .ok cell := by
  rw [read, found]

theorem write_of_found (found : m.cells place = some cell) (written : N) :
    m.write place written = .ok (m.change place (lt_fresh found) (some written)) := by
  unfold write
  split
  next => rfl
  next none_found => cases found.symm.trans none_found

theorem delete_of_found (found : m.cells place = some cell) :
    m.delete place = .ok (m.change place (lt_fresh found) none) := by
  unfold delete
  split
  next => rfl
  next none_found => cases found.symm.trans none_found

@[simp] theorem allocate_place (m : Memory N) (cell : N) : (m.allocate cell).1 = m.fresh := rfl

@[simp] theorem allocate_fresh (m : Memory N) (cell : N) : (m.allocate cell).2.fresh = m.fresh + 1 := rfl

@[simp] theorem allocate_found (m : Memory N) (cell : N) :
    (m.allocate cell).2.cells m.fresh = some cell :=
  Function.update_self _ _ _

theorem allocate_other (cell : N) {other : Nat} (apart : other ≠ m.fresh) :
    (m.allocate cell).2.cells other = m.cells other :=
  Function.update_of_ne apart _ _

@[simp] theorem change_fresh (inside : place < m.fresh) (written : Option N) :
    (m.change place inside written).fresh = m.fresh := rfl

@[simp] theorem change_found (inside : place < m.fresh) (written : Option N) :
    (m.change place inside written).cells place = written :=
  Function.update_self _ _ _

theorem change_other (inside : place < m.fresh) (written : Option N) {other : Nat} (apart : other ≠ place) :
    (m.change place inside written).cells other = m.cells other :=
  Function.update_of_ne apart _ _

/-! ## What is in use -/

/-- The places in use are those of the list, each of them once. -/
structure Holds (m : Memory N) (held : List Nat) : Prop where
  nodup : held.Nodup
  used : ∀ place, m.cells place ≠ none ↔ place ∈ held

theorem holds_empty (N : Type) : (empty N).Holds [] :=
  ⟨List.nodup_nil, fun place => by simp [empty]⟩

namespace Holds

variable {held others : List Nat}

theorem perm (holds : m.Holds held) (same : held.Perm others) : m.Holds others :=
  ⟨same.nodup_iff.mp holds.nodup, fun place => (holds.used place).trans same.mem_iff⟩

theorem found (holds : m.Holds held) (member : place ∈ held) : ∃ cell, m.cells place = some cell :=
  Option.ne_none_iff_exists'.mp ((holds.used place).mpr member)

theorem lt_fresh (holds : m.Holds held) : ∀ place ∈ held, place < m.fresh := by
  intro place member
  obtain ⟨cell, found⟩ := holds.found member
  exact Memory.lt_fresh found

/-- No more places are in use than have been given out. -/
theorem length_le_fresh (holds : m.Holds held) (part : others.Sublist held) : others.length ≤ m.fresh := by
  have among : others ⊆ List.range m.fresh := fun place member =>
    List.mem_range.mpr (holds.lt_fresh place (part.subset member))
  have fewer := ((holds.nodup.sublist part).subperm among).length_le
  rwa [List.length_range] at fewer

theorem nothing (holds : m.Holds []) (place : Nat) : m.cells place = none := by
  by_contra used
  exact List.not_mem_nil ((holds.used place).mp used)

theorem allocate (holds : m.Holds held) (cell : N) : (m.allocate cell).2.Holds (m.fresh :: held) := by
  refine ⟨List.nodup_cons.mpr ⟨fun member => Nat.lt_irrefl _ (holds.lt_fresh _ member), holds.nodup⟩, ?_⟩
  intro place
  rcases eq_or_ne place m.fresh with rfl | apart
  · simp
  · rw [allocate_other cell apart, holds.used, List.mem_cons]
    exact ⟨Or.inr, fun either => either.resolve_left apart⟩

theorem write (holds : m.Holds held) (inside : place < m.fresh) (member : place ∈ held) (written : N) :
    (m.change place inside (some written)).Holds held := by
  refine ⟨holds.nodup, fun other => ?_⟩
  rcases eq_or_ne other place with rfl | apart
  · simp [member]
  · rw [change_other inside _ apart, holds.used]

theorem delete (holds : m.Holds (place :: held)) (inside : place < m.fresh) :
    (m.change place inside none).Holds held := by
  obtain ⟨absent, nodup⟩ := List.nodup_cons.mp holds.nodup
  refine ⟨nodup, fun other => ?_⟩
  rcases eq_or_ne other place with rfl | apart
  · simp [absent]
  · rw [change_other inside _ apart, holds.used, List.mem_cons]
    exact ⟨fun either => either.resolve_left apart, Or.inr⟩

end Holds

/-! ## Linked nodes -/

section Linked

variable {α β : Type} (site : β → Nat) (data : β → α)

/-- The nodes of a list are linked from the pointer on, each in its place and with its data. -/
inductive Linked (m : Memory (Node α)) : Pointer → List β → Prop where
  | nil : Linked m none []
  | cons {first : β} {next : Pointer} {rest : List β}
      (found : m.cells (site first) = some ⟨data first, next⟩) (linked : Linked m next rest) :
      Linked m (some (site first)) (first :: rest)

variable {site data} {m other : Memory (Node α)} {head : Pointer} {nodes : List β}

namespace Linked

/-- A list stays when its nodes do. -/
theorem agree (linked : Linked site data m head nodes)
    (same : ∀ place ∈ nodes.map site, other.cells place = m.cells place) :
    Linked site data other head nodes := by
  induction linked with
  | nil => exact .nil
  | cons found linked ih =>
      obtain ⟨here, later⟩ := List.forall_mem_cons.mp same
      exact .cons (here.trans found) (ih later)

theorem of_nil (linked : Linked site data m head []) : head = none := by
  cases linked
  rfl

theorem of_cons {first : β} (linked : Linked site data m head (first :: nodes)) :
    head = some (site first) ∧ ∃ next, m.cells (site first) = some ⟨data first, next⟩ ∧
      Linked site data m next nodes := by
  cases linked with
  | cons found rest => exact ⟨rfl, _, found, rest⟩

/-- Every node of a list is in its place. -/
theorem found (linked : Linked site data m head nodes) {node : β} (member : node ∈ nodes) :
    ∃ next, m.cells (site node) = some ⟨data node, next⟩ := by
  induction linked with
  | nil => cases member
  | cons here _ ih =>
      rcases List.mem_cons.mp member with rfl | later
      · exact ⟨_, here⟩
      · exact ih later

end Linked

/-- The nodes of a heap that has only grown. -/
def ofList (heap : List (Node α)) : Memory (Node α) :=
  ⟨fun place => heap[place]?, heap.length, fun _ beyond => List.getElem?_eq_none beyond⟩

theorem linked_ofList {heap : List (Node α)} {nodes : List (Nat × α)} (list : IsList heap head nodes) :
    Linked Prod.fst Prod.snd (ofList heap) head nodes := by
  induction nodes generalizing head with
  | nil =>
      rw [list.eq_of_nil]
      exact .nil
  | cons first nodes ih =>
      obtain ⟨node, rfl, found, same, rest⟩ := isList_cons list
      have here : (ofList heap).cells first.1 = some ⟨first.2, node.next⟩ := by
        rw [← same]
        exact found
      exact .cons here (ih rest)

/-! ## An array of lists -/

/-- Every cell of the array is the head of its list. -/
structure Heads (site : β → Nat) (data : β → α) (m : Memory (Node α)) (heads : List Pointer)
    (lists : List (List β)) : Prop where
  same_length : heads.length = lists.length
  linked : ∀ (i : Nat) (list : List β), lists[i]? = some list → ∃ head, heads[i]? = some head ∧ Linked site data m head list

namespace Heads

variable {heads : List Pointer} {lists : List (List β)} {i : Nat}

/-- An array of empty lists. -/
theorem replicate (m : Memory (Node α)) (size : Nat) :
    Heads site data m (List.replicate size none) (List.replicate size []) := by
  refine ⟨by rw [List.length_replicate, List.length_replicate], fun i list here => ?_⟩
  obtain ⟨inside, same⟩ := List.getElem?_eq_some_iff.mp here
  rw [List.getElem_replicate] at same
  rw [List.length_replicate] at inside
  subst same
  exact ⟨none, List.getElem?_replicate_of_lt inside, .nil⟩

theorem found (filled : Heads site data m heads lists) {node : β} (member : node ∈ lists.flatten) :
    ∃ next, m.cells (site node) = some ⟨data node, next⟩ := by
  obtain ⟨list, listed, on⟩ := List.mem_flatten.mp member
  obtain ⟨i, here⟩ := List.mem_iff_getElem?.mp listed
  obtain ⟨head, _, linked⟩ := filled.linked i list here
  exact linked.found on

theorem agree (filled : Heads site data m heads lists)
    (same : ∀ place ∈ lists.flatten.map site, other.cells place = m.cells place) :
    Heads site data other heads lists := by
  refine ⟨filled.same_length, fun i list here => ?_⟩
  obtain ⟨head, found, linked⟩ := filled.linked i list here
  refine ⟨head, found, linked.agree fun place member => same place ?_⟩
  obtain ⟨node, on, at_place⟩ := List.mem_map.mp member
  exact List.mem_map.mpr ⟨node, List.mem_flatten.mpr ⟨list, List.mem_of_getElem? here, on⟩, at_place⟩

theorem set (filled : Heads site data m heads lists) {list : List β} (linked : Linked site data m head list) :
    Heads site data m (heads.set i head) (lists.set i list) := by
  refine ⟨by rw [List.length_set, List.length_set, filled.same_length], fun j other here => ?_⟩
  rw [List.getElem?_set] at here ⊢
  split at here
  next same =>
    subst same
    split at here
    next inside =>
      cases here
      rw [if_pos rfl, if_pos (filled.same_length ▸ inside)]
      exact ⟨head, rfl, linked⟩
    next => cases here
  next apart =>
    rw [if_neg apart]
    exact filled.linked j other here

end Heads

/-- `while (head != nullptr) { next = head->next; delete head; head = next; }`, with a bound
on the number of rounds. -/
def deleteList : Nat → Memory (Node α) → Pointer → Except Fault (Memory (Node α))
  | _, m, none => .ok m
  | 0, _, some _ => .error .outOfFuel
  | rounds + 1, m, some place => do
      let node ← m.read place
      let m ← m.delete place
      deleteList rounds m node.next

/-- Every node of the list is deleted, and nothing else. -/
theorem deleteList_spec {held : List Nat} {rounds : Nat} (linked : Linked site data m head nodes)
    (holds : m.Holds (nodes.map site ++ held)) (enough : nodes.length ≤ rounds) :
    ∃ rest, deleteList rounds m head = .ok rest ∧ rest.Holds held ∧ rest.fresh = m.fresh ∧
      ∀ place ∈ held, rest.cells place = m.cells place := by
  induction nodes generalizing m head rounds with
  | nil =>
      rw [linked.of_nil]
      exact ⟨m, by rw [deleteList], holds, rfl, fun _ _ => rfl⟩
  | cons first nodes ih =>
      obtain ⟨rfl, next, found, later⟩ := linked.of_cons
      obtain ⟨rounds, rfl⟩ := Nat.exists_eq_succ_of_ne_zero (Nat.ne_of_gt (Nat.lt_of_lt_of_le (Nat.succ_pos _) enough))
      have absent := (List.nodup_cons.mp holds.nodup).1
      have apart (place : Nat) (member : place ∈ nodes.map site ++ held) : place ≠ site first :=
        fun same => absent (same ▸ member)
      have deleted := holds.delete (lt_fresh found)
      have agree (place : Nat) (member : place ∈ nodes.map site) :=
        change_other (lt_fresh found) none (apart place (List.mem_append_left _ member))
      obtain ⟨rest, run, ended, fresh, same⟩ := ih (later.agree agree) deleted (Nat.le_of_succ_le_succ enough)
      refine ⟨rest, ?_, ended, fresh, fun place member => ?_⟩
      · rw [deleteList, read_of_found found, Checked.ok_bind, delete_of_found found, Checked.ok_bind, run]
      · rw [same place member, change_other _ _ (apart place (List.mem_append_right _ member))]

end Linked

end Memory

end CppProject.Library
