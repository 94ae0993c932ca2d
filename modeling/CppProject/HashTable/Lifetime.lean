import CppProject.HashTable.Allocation

/-!
# The lifetime of a table

From the constructor to the destructor the table touches only what `new` has given out, every
call answers like the map, and nothing is left behind.  An entry stays where it is until the
next `beginLoading`.
-/

namespace CppProject.HashTable.Pointers

open Library Library.Checked Library.LinkedLists Library.Chains
open Chained (Operation Answer LoadingMap)

variable {K V : Type}

/-! ## The map of places -/

/-- The call on the table of chains: an insert brings the next fresh place along. -/
def placed (fresh : Nat) : Operation K V → Operation K (V × Nat)
  | .beginLoading => .beginLoading
  | .insert key val => .insert key (val, fresh)
  | .endLoading => .endLoading
  | .find key => .find key
  | .entryCount => .entryCount

def placeAnswer : Answer K (V × Nat) → PlaceAnswer
  | .done => .done
  | .entry found => .entry (found.map site)
  | .count entries => .count entries

/-- An answer without the places. -/
def valueAnswer : Answer K (V × Nat) → Answer K V
  | .done => .done
  | .entry found => .entry (found.map data)
  | .count entries => .count entries

/-- A map without the places. -/
def values (s : LoadingMap K (V × Nat)) : LoadingMap K V :=
  ⟨s.loading, s.entries.map data, by
    have same : (s.entries.map data).map Prod.fst = s.entries.map Prod.fst := by
      rw [List.map_map]
      rfl
    rw [same]
    exact s.distinct⟩

section Places

variable (s : LoadingMap K (V × Nat))

theorem keys_values : (values s).entries.map Prod.fst = s.entries.map Prod.fst := by
  rw [values, List.map_map]
  rfl

variable [DecidableEq K]

theorem lookup_values (key : K) : lookup key (values s).entries = (lookup key s.entries).map data := by
  rw [values, lookup, lookup, List.find?_map]
  rfl

/-- The map without the places does the same. -/
theorem step_values (fresh : Nat) (operation : Operation K V) :
    (values s).step operation =
      (valueAnswer (s.step (placed fresh operation)).1, values (s.step (placed fresh operation)).2) := by
  cases operation with
  | beginLoading => rfl
  | insert key val =>
      by_cases accepted : s.loading ∧ key ∉ s.entries.map Prod.fst
      · have accepted' : (values s).loading ∧ key ∉ (values s).entries.map Prod.fst := by
          rw [keys_values]
          exact accepted
        simp only [LoadingMap.step, placed, LoadingMap.insert_accepted accepted,
          LoadingMap.insert_accepted accepted']
        rfl
      · have rejected' : ¬((values s).loading ∧ key ∉ (values s).entries.map Prod.fst) := by
          rw [keys_values]
          exact accepted
        simp only [LoadingMap.step, placed, LoadingMap.insert_rejected accepted,
          LoadingMap.insert_rejected rejected']
        rfl
  | endLoading => rfl
  | find key =>
      simp only [LoadingMap.step, placed, valueAnswer, lookup_values]
      cases loading : s.loading <;> simp [values, loading]
  | entryCount => simp [LoadingMap.step, placed, valueAnswer, values]

/-- An entry that a call answers is in the map. -/
theorem answer_mem {operation : Operation K (V × Nat)} {entry : K × V × Nat}
    (answer : (s.step operation).1 = .entry (some entry)) : entry ∈ (s.step operation).2.entries := by
  cases operation with
  | beginLoading => cases answer
  | insert key val =>
      by_cases accepted : s.loading ∧ key ∉ s.entries.map Prod.fst
      · simp only [LoadingMap.step, LoadingMap.insert_accepted accepted, Answer.entry.injEq, Option.some.injEq]
          at answer ⊢
        exact answer ▸ List.mem_cons_self
      · simp [LoadingMap.step, LoadingMap.insert_rejected accepted] at answer
  | endLoading => cases answer
  | find key =>
      simp only [LoadingMap.step, Answer.entry.injEq] at answer
      split at answer
      · cases answer
      · exact (lookup_eq_some s.distinct).mp answer |>.1
  | entryCount => cases answer

end Places

/-! ## Runs -/

section Runs

variable {hash : K → Nat} {heap : Heap K V} {t : ImmutableHashTable} {s : LoadingMap K (V × Nat)}

/-- The memory holds a table of chains, and that holds the map. -/
def Carries (hash : K → Nat) (heap : Heap K V) (t : ImmutableHashTable) (s : LoadingMap K (V × Nat)) : Prop :=
  ∃ c, Represents heap t c ∧ Chained.Represents hash c s

theorem room {c : Chained.ImmutableHashTable K (V × Nat)} (chained : Chained.Represents hash c s) :
    c.size = c.buckets.length :=
  chained.size_eq.trans chained.under.room.symm

namespace Carries

theorem create (hash : K → Nat) (size : Nat) :
    Carries hash (create (⟨.empty _, .empty _⟩ : Heap K V) size).1
      (create (⟨.empty _, .empty _⟩ : Heap K V) size).2 (LoadingMap.empty K (V × Nat)) :=
  ⟨_, represents_create size, Chained.represents_create hash size⟩

/-- Every entry of the map is in its place. -/
theorem found (carries : Carries hash heap t s) {entry : K × V × Nat} (member : entry ∈ s.entries) :
    ∃ next, heap.entries.cells (site entry) = some ⟨data entry, next⟩ := by
  obtain ⟨c, represents, chained⟩ := carries
  obtain ⟨heads, _, filled⟩ := represents.filled
  exact filled.found (chained.perm.mem_iff.mpr member)

/-- Nothing else is allocated. -/
theorem mem_of_found (carries : Carries hash heap t s) {place : Nat} {node : Node (K × V)}
    (here : heap.entries.cells place = some node) : (node.data.1, node.data.2, place) ∈ s.entries := by
  obtain ⟨c, represents, chained⟩ := carries
  have used : heap.entries.cells place ≠ none := by rw [here]; simp
  obtain ⟨entry, member, rfl⟩ := List.mem_map.mp ((represents.entries.used place).mp used)
  obtain ⟨heads, _, filled⟩ := represents.filled
  obtain ⟨next, there⟩ := filled.found member
  cases here.symm.trans there
  exact chained.perm.mem_iff.mp member

/-- The caller finds the entry of the map behind the pointer. -/
theorem observe (carries : Carries hash heap t s) {answer : Answer K (V × Nat)}
    (member : ∀ entry, answer = .entry (some entry) → entry ∈ s.entries) :
    observe heap (placeAnswer answer) = .ok (valueAnswer answer) := by
  cases answer with
  | done => rfl
  | entry found =>
      cases found with
      | none => rfl
      | some entry =>
          obtain ⟨next, here⟩ := carries.found (member entry rfl)
          rw [placeAnswer, Option.map_some, Pointers.observe, Memory.read_of_found here, ok_bind]
          rfl
  | count entries => rfl

/-- The destructor deletes what is left. -/
theorem freeTable (carries : Carries hash heap t s) :
    ∃ freed, freeTable heap t = .ok freed ∧ (∀ place, freed.entries.cells place = none) ∧
      ∀ place, freed.arrays.cells place = none := by
  obtain ⟨c, represents, chained⟩ := carries
  obtain ⟨freed, run, entries, arrays⟩ := represents.freeTable (room chained)
  exact ⟨freed, run, entries.nothing, arrays.nothing⟩

/-- The entries stay in use behind every call but `beginLoading`. -/
def keepsEntries : Operation K V → Bool
  | .beginLoading => false
  | _ => true

/-- What one call does to the entries that are in use. -/
def Moves (operation : Operation K V) (before behind : Heap K V) : Prop :=
  match operation with
  | .beginLoading => ∀ place, behind.entries.cells place = none
  | _ => Stays before behind

theorem Moves.stays {operation : Operation K V} {before behind : Heap K V}
    (moves : Moves operation before behind) (keeps : keepsEntries operation = true) : Stays before behind := by
  cases operation with
  | beginLoading => cases keeps
  | insert key val => exact moves
  | endLoading => exact moves
  | find key => exact moves
  | entryCount => exact moves

variable [DecidableEq K]

/-- A call answers like the map of places. -/
theorem step (carries : Carries hash heap t s) (operation : Operation K V) :
    ∃ heap' t', step hash heap t operation =
        .ok (placeAnswer (s.step (placed heap.entries.fresh operation)).1, heap', t') ∧
      Carries hash heap' t' (s.step (placed heap.entries.fresh operation)).2 ∧ Moves operation heap heap' := by
  obtain ⟨c, represents, chained⟩ := carries
  obtain ⟨next, run, after⟩ := chained.step (placed heap.entries.fresh operation)
  cases operation with
  | beginLoading =>
      obtain ⟨loading, begun, done⟩ := bind_eq_ok.mp run
      cases done
      have unused (none_used : c.used = 0) : c.buckets.flatten = [] := by
        have entries := chained.used_eq.symm.trans none_used
        exact (List.length_eq_zero_iff.mp entries ▸ chained.perm).eq_nil
      obtain ⟨heap', t', begun', represents', empty⟩ := represents.beginLoading (room chained) begun unused
      refine ⟨heap', t', ?_, ⟨_, represents', after⟩, empty.nothing⟩
      rw [Pointers.step, begun', ok_bind]
      rfl
  | insert key val =>
      obtain ⟨⟨found, table⟩, inserted, done⟩ := bind_eq_ok.mp run
      obtain ⟨answer, rfl⟩ := Prod.mk.inj (Except.ok.inj done)
      obtain ⟨heap', t', inserted', represents', stays⟩ := represents.insert (room chained) inserted
      refine ⟨heap', t', ?_, ⟨_, represents', after⟩, stays⟩
      rw [Pointers.step, inserted', ok_bind, ← answer]
      rfl
  | endLoading =>
      obtain ⟨ended, finish, done⟩ := bind_eq_ok.mp run
      cases done
      obtain ⟨heap', t', finish', represents', stays⟩ := represents.endLoading (room chained) finish
      refine ⟨heap', t', ?_, ⟨_, represents', after⟩, stays⟩
      rw [Pointers.step, finish', ok_bind]
      rfl
  | find key =>
      obtain ⟨found, looked, done⟩ := bind_eq_ok.mp run
      obtain ⟨answer, rfl⟩ := Prod.mk.inj (Except.ok.inj done)
      refine ⟨heap, t, ?_, ⟨_, represents, after⟩, .refl heap⟩
      rw [Pointers.step, represents.find looked, ok_bind, ← answer]
      rfl
  | entryCount =>
      obtain ⟨answer, rfl⟩ := Prod.mk.inj (Except.ok.inj run)
      refine ⟨heap, t, ?_, ⟨_, represents, after⟩, .refl heap⟩
      rw [Pointers.step, represents.used_eq, ← answer]
      rfl

/-- Runs answer like runs of the map, and keep the entries where they are. -/
theorem run (carries : Carries hash heap t s) (operations : List (Operation K V)) :
    ∃ heap' t' s', run hash heap t operations = .ok (((values s).run operations).1, heap', t') ∧
      Carries hash heap' t' s' ∧ ((∀ o ∈ operations, keepsEntries o = true) → Stays heap heap') := by
  induction operations generalizing heap t s with
  | nil => exact ⟨heap, t, s, rfl, carries, fun _ => .refl heap⟩
  | cons operation rest ih =>
      obtain ⟨heap', t', go, after, moves⟩ := carries.step operation
      obtain ⟨last, t'', s', further, ended, stays⟩ := ih after
      have here := step_values s heap.entries.fresh operation
      refine ⟨last, t'', s', ?_, ended, fun keeps => ?_⟩
      · rw [Pointers.run, go, ok_bind]
        simp only [after.observe fun entry => answer_mem s, further, ok_bind, LoadingMap.run, here]
      · obtain ⟨first, others⟩ := List.forall_mem_cons.mp keeps
        exact (moves.stays first).trans (stays others)

/-- Once loading has ended, an entry is found where it is. -/
theorem find (carries : Carries hash heap t s) {place : Nat} {node : Node (K × V)}
    (here : heap.entries.cells place = some node) (ended : t.loading = false) :
    find hash heap t node.data.1 = .ok (some place) := by
  have member := carries.mem_of_found here
  obtain ⟨c, represents, chained⟩ := carries
  have loading : s.loading = false := by rw [← chained.loading_eq, ← represents.loading_eq, ended]
  have looked := chained.find_eq node.data.1
  rw [loading, (lookup_eq_some s.distinct).mpr ⟨member, rfl⟩] at looked
  exact represents.find looked

end Carries

/-- For every hash function, constructor size and sequence of calls, a table touches only
memory that is in use, answers like the finite map with a loading flag, and leaves no
memory behind its destructor. -/
theorem lifetime_refines_map [DecidableEq K] (hash : K → Nat) (size : Nat) (operations : List (Operation K V)) :
    ∃ heap, lifetime hash size operations = .ok (((LoadingMap.empty K V).run operations).1, heap) ∧
      (∀ place, heap.entries.cells place = none) ∧ ∀ place, heap.arrays.cells place = none := by
  obtain ⟨heap, t, s, run, carries, _⟩ := (Carries.create (V := V) hash size).run operations
  obtain ⟨freed, free, entries, arrays⟩ := carries.freeTable
  refine ⟨freed, ?_, entries, arrays⟩
  rw [lifetime]
  simp only [run, ok_bind, free]
  rfl

/-- An entry that is in use behind some calls stays in its place, with its key and its value,
until the next `beginLoading`; between the calls that load, `find` answers its place, and
behind `beginLoading` no entry is in use. -/
theorem entries_stay_in_place [DecidableEq K] (hash : K → Nat) (size : Nat) {first rest : List (Operation K V)}
    {answers answers' : List (Answer K V)} {heap heap' : Heap K V} {t t' : ImmutableHashTable}
    (begun : run hash (create ⟨.empty _, .empty _⟩ size).1 (create (⟨.empty _, .empty _⟩ : Heap K V) size).2 first =
      .ok (answers, heap, t))
    (further : run hash heap t rest = .ok (answers', heap', t'))
    (quiet : ∀ operation ∈ rest, Carries.keepsEntries operation = true) :
    (∀ place node, heap.entries.cells place = some node →
      (∃ next, heap'.entries.cells place = some ⟨node.data, next⟩) ∧
        (t'.loading = false → find hash heap' t' node.data.1 = .ok (some place))) ∧
      ∀ answer emptied t'', step hash heap' t' .beginLoading = .ok (answer, emptied, t'') →
        ∀ place, emptied.entries.cells place = none := by
  obtain ⟨_, _, s, begun', carries, _⟩ := (Carries.create (V := V) hash size).run first
  cases begun'.symm.trans begun
  obtain ⟨_, _, s', further', carries', stays⟩ := carries.run rest
  cases further'.symm.trans further
  refine ⟨fun place node here => ?_, fun answer emptied t'' begins => ?_⟩
  · obtain ⟨next, there⟩ := stays quiet place node here
    have looked := carries'.find there
    exact ⟨⟨next, there⟩, looked⟩
  · obtain ⟨_, _, begins', _, moves⟩ := carries'.step .beginLoading
    cases begins'.symm.trans begins
    exact moves

/-- An entry is inserted, the table shrinks from 64 to 16 buckets, and the entry is found in
its place. -/
theorem entries_stay_in_place_shrunk : ∃ answers : List (Answer Nat Nat), ∃ heap t,
    run id (create ⟨.empty _, .empty _⟩ 64).1 (create (⟨.empty _, .empty _⟩ : Heap Nat Nat) 64).2
        [.beginLoading, .insert 5 7, .endLoading] = .ok (answers, heap, t) ∧
      t.size = 16 ∧ find id heap t 5 = .ok (some 0) := by
  refine ⟨_, _, _, rfl, rfl, ?_⟩
  exact ((@entries_stay_in_place Nat Nat _ id 64 [.beginLoading, .insert 5 7] [.endLoading] _ _ _ _ _ _ rfl rfl
    (by decide)).1 0 _ rfl).2 rfl

end Runs

end CppProject.HashTable.Pointers
