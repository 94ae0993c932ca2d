import CppProject.HashTable.Relinking

/-!
# The memory of a table

The memory of a table holds the table of chains whose values carry the places of their
entries: the entries are linked from the buckets, and nothing else is allocated.
-/

namespace CppProject.HashTable.Pointers

open Library Library.Checked Library.LinkedLists Library.Chains
open Library.Memory (Linked Heads)
open Chained (Operation Answer LoadingMap)
open scoped List

variable {K V : Type}

/-- The entries of the chains are linked from the buckets, and nothing else is allocated. -/
structure Represents (heap : Heap K V) (t : ImmutableHashTable)
    (c : Chained.ImmutableHashTable K (V × Nat)) : Prop where
  filled : ∃ heads, heap.arrays.cells t.buckets = some heads ∧ Heads site data heap.entries heads c.buckets
  entries : heap.entries.Holds (c.buckets.flatten.map site)
  arrays : heap.arrays.Holds [t.buckets]
  size_eq : t.size = c.size
  mask_eq : t.sizeMask = c.sizeMask
  used_eq : t.used = c.used
  loading_eq : t.loading = c.loading

section Calls

variable {heap : Heap K V} {t : ImmutableHashTable} {c next : Chained.ImmutableHashTable K (V × Nat)}

theorem represents_create (size : Nat) :
    Represents (create (⟨.empty _, .empty _⟩ : Heap K V) size).1 (create (⟨.empty _, .empty _⟩ : Heap K V) size).2
      (Chained.create K (V × Nat) size) := by
  refine ⟨⟨_, Memory.allocate_found _ _, .replicate _ _⟩, ?_, ?_, rfl, rfl, rfl, rfl⟩
  · simp only [Chained.create, List.flatten_replicate_nil]
    exact Memory.holds_empty _
  · exact (Memory.holds_empty _).allocate _

/-- The entries of the old buckets wait to be linked or freed. -/
theorem Represents.waiting (represents : Represents heap t c) :
    ∃ heads, heap.arrays.cells t.buckets = some heads ∧ Heads site data heap.entries heads c.buckets ∧
      OldHeads heap.entries heads c.buckets 0 := by
  obtain ⟨heads, array, filled⟩ := represents.filled
  exact ⟨heads, array, filled, fun j _ chain here => filled.linked j chain here⟩

/-- A rehash runs like that of the chains, and every entry stays in its place. -/
theorem Represents.rehash (represents : Represents heap t c) (room : c.size = c.buckets.length)
    {hash : K → Nat} {size : Nat} (run : Chained.rehash hash c size = .ok next) :
    ∃ heap' t', rehash hash heap t size = .ok (heap', t') ∧ Represents heap' t' next ∧ Stays heap heap' ∧
      heap'.entries.fresh = heap.entries.fresh := by
  unfold Chained.rehash at run
  unfold Pointers.rehash
  split at run
  next same =>
    cases run
    exact ⟨heap, t, if_pos (same.trans represents.size_eq.symm), represents, .refl heap, rfl⟩
  next differs =>
    obtain ⟨behind, walk, rebuilt⟩ := bind_eq_ok.mp run
    cases rebuilt
    obtain ⟨heads, array, filled, waiting⟩ := represents.waiting
    obtain ⟨_, entries, arrays, size_eq, mask_eq, used_eq, loading_eq⟩ := represents
    have apart : t.buckets ≠ heap.arrays.fresh :=
      Nat.ne_of_lt (arrays.lt_fresh _ (List.mem_singleton_self _))
    have old := (Memory.allocate_other (List.replicate (nextPower size) none) apart).trans array
    have all : 0 + t.size = c.buckets.length := by rw [Nat.zero_add, size_eq, room]
    have held : heap.entries.Holds
        (((c.buckets.drop 0).flatten ++ (List.replicate (nextPower size) []).flatten).map site) := by
      rw [List.drop_zero, List.flatten_replicate_nil, List.append_nil]
      exact entries
    rw [← size_eq] at walk
    obtain ⟨relinked, heads', loop, array', filled', entries', frame⟩ :=
      @relinkFrom_spec K V ⟨heap.entries, _⟩ heap.arrays.fresh _ _ hash { t with sizeMask := nextPower size - 1 }
        c.buckets t.size 0 all heads apart old waiting (Memory.allocate_found _ _) (.replicate _ _) held behind walk
    have old_array := (frame.others _ apart).trans old
    have arrays' := (frame.arrays _ (arrays.allocate _)).perm (.swap _ _ [])
    refine ⟨⟨relinked.entries, relinked.arrays.change t.buckets (Memory.lt_fresh old_array) none⟩,
      { t with sizeMask := nextPower size - 1, size := nextPower size, buckets := heap.arrays.fresh }, ?_, ?_,
      frame.stays, frame.fresh⟩
    · rw [if_neg (fun same => differs (same.trans size_eq))]
      simp only [newBuckets, Memory.allocate_place] at loop ⊢
      rw [loop, ok_bind, Memory.delete_of_found old_array, ok_bind]
    · refine ⟨⟨heads', ?_, filled'⟩, entries', arrays'.delete (Memory.lt_fresh old_array), rfl, rfl, used_eq,
        loading_eq⟩
      rw [Memory.change_other (Memory.lt_fresh old_array) _ apart.symm]
      exact array'

theorem Represents.expandIfNeeded (represents : Represents heap t c) (room : c.size = c.buckets.length)
    {hash : K → Nat} (run : Chained.expandIfNeeded hash c = .ok next) :
    ∃ heap' t', expandIfNeeded hash heap t = .ok (heap', t') ∧ Represents heap' t' next ∧ Stays heap heap' ∧
      heap'.entries.fresh = heap.entries.fresh := by
  unfold Chained.expandIfNeeded at run
  unfold Pointers.expandIfNeeded
  rw [represents.size_eq, represents.used_eq]
  split at run
  next full =>
    rw [if_pos full]
    exact represents.rehash room run
  next free =>
    cases run
    exact ⟨heap, t, if_neg free, represents, .refl heap, rfl⟩

theorem Represents.endLoading (represents : Represents heap t c) (room : c.size = c.buckets.length)
    {hash : K → Nat} (run : Chained.endLoading hash c = .ok next) :
    ∃ heap' t', endLoading hash heap t = .ok (heap', t') ∧ Represents heap' t' next ∧ Stays heap heap' := by
  obtain ⟨shrunk, shrink, flagged⟩ := bind_eq_ok.mp run
  cases flagged
  suffices shrunk_here : ∃ heap' t', shrinkIfNeeded hash heap t = .ok (heap', t') ∧
      Represents heap' t' shrunk ∧ Stays heap heap' by
    obtain ⟨heap', t', shrink', after, stays⟩ := shrunk_here
    refine ⟨heap', { t' with loading := false }, ?_, ?_, stays⟩
    · rw [Pointers.endLoading, shrink', ok_bind]
    · exact ⟨after.filled, after.entries, after.arrays, after.size_eq, after.mask_eq, after.used_eq, rfl⟩
  unfold Chained.shrinkIfNeeded at shrink
  unfold shrinkIfNeeded
  rw [represents.size_eq, represents.used_eq]
  split at shrink
  next sparse =>
    obtain ⟨heap', t', run, after, stays, _⟩ := represents.rehash room shrink
    exact ⟨heap', t', (if_pos sparse).trans run, after, stays⟩
  next dense =>
    cases shrink
    exact ⟨heap, t, if_neg dense, represents, .refl heap⟩

/-- The destructor and `_reset` free every entry. -/
theorem Represents.freeFrom (represents : Represents heap t c) (room : c.size = c.buckets.length) :
    ∃ freed, freeFrom t t.size 0 heap = .ok freed ∧ freed.entries.Holds [] ∧ freed.arrays.Holds [t.buckets] ∧
      freed.arrays.cells t.buckets = some (List.replicate t.size none) := by
  obtain ⟨heads, array, filled, waiting⟩ := represents.waiting
  have all : 0 + t.size = c.buckets.length := by rw [Nat.zero_add, represents.size_eq, room]
  obtain ⟨freed, loop, empty, array', arrays⟩ := freeFrom_spec all filled.same_length array waiting
    (by rw [List.drop_zero]; exact represents.entries)
  exact ⟨freed, loop, empty, arrays _ represents.arrays, array'⟩

/-- The destructor leaves nothing behind. -/
theorem Represents.freeTable (represents : Represents heap t c) (room : c.size = c.buckets.length) :
    ∃ freed, freeTable heap t = .ok freed ∧ freed.entries.Holds [] ∧ freed.arrays.Holds [] := by
  obtain ⟨freed, loop, empty, arrays, array⟩ := represents.freeFrom room
  refine ⟨⟨freed.entries, freed.arrays.change t.buckets (Memory.lt_fresh array) none⟩, ?_, empty,
    arrays.delete (Memory.lt_fresh array)⟩
  rw [Pointers.freeTable, loop, ok_bind, Memory.delete_of_found array, ok_bind]

/-- `beginLoading` forgets every entry. -/
theorem Represents.beginLoading (represents : Represents heap t c) (room : c.size = c.buckets.length)
    (run : Chained.beginLoading c = .ok next) (unused : c.used = 0 → c.buckets.flatten = []) :
    ∃ heap' t', beginLoading heap t = .ok (heap', t') ∧ Represents heap' t' next ∧ heap'.entries.Holds [] := by
  obtain ⟨emptied, reset, flagged⟩ := bind_eq_ok.mp run
  cases flagged
  unfold Chained.reset at reset
  rcases Nat.eq_zero_or_pos c.used with none_used | occupied
  · rw [if_neg (by omega)] at reset
    cases reset
    have empty := represents.entries
    rw [unused none_used] at empty
    refine ⟨heap, { t with loading := true }, ?_, ?_, empty⟩
    · rw [Pointers.beginLoading, Pointers.reset, if_neg (by rw [represents.used_eq]; omega), ok_bind]
    · exact ⟨represents.filled, represents.entries, represents.arrays, represents.size_eq, represents.mask_eq,
        represents.used_eq, rfl⟩
  · have all : 0 + c.size = c.buckets.length := by rw [Nat.zero_add, room]
    rw [if_pos occupied, Chained.freeFrom_spec all, ok_bind, List.take_zero, List.nil_append] at reset
    cases reset
    obtain ⟨freed, loop, empty, arrays, array⟩ := represents.freeFrom room
    refine ⟨freed, { t with used := 0, loading := true }, ?_, ?_, empty⟩
    · rw [Pointers.beginLoading, Pointers.reset, if_pos (by rw [represents.used_eq]; exact occupied), loop, ok_bind]
      rfl
    · refine ⟨⟨_, array, ?_⟩, ?_, arrays, represents.size_eq, represents.mask_eq, rfl, rfl⟩
      · rw [represents.size_eq]
        exact .replicate _ _
      · simp only [List.flatten_replicate_nil]
        exact empty

/-- A new entry is linked in front of its bucket. -/
theorem Represents.push (represents : Represents heap t c) {h : Nat} {chain : List (K × V × Nat)}
    (here : c.buckets[h]? = some chain) (key : K) (val : V) :
    ∃ front entries linked, loadBucket heap t.buckets h = .ok front ∧
      (heap.entries.allocate ⟨(key, val), none⟩).2.write heap.entries.fresh ⟨(key, val), front⟩ = .ok entries ∧
      storeBucket { heap with entries := entries } t.buckets h (some heap.entries.fresh) = .ok linked ∧
      Represents linked { t with used := t.used + 1 } { c with
        buckets := c.buckets.set h ((key, val, heap.entries.fresh) :: chain), used := c.used + 1 } ∧
      Stays heap linked := by
  obtain ⟨heads, array, filled⟩ := represents.filled
  have before (place : Nat) (inside : place < heap.entries.fresh) :=
    Memory.allocate_other (m := heap.entries) (Node.mk (key, val) none) (Nat.ne_of_lt inside)
  have held : (heap.entries.allocate ⟨(key, val), none⟩).2.Holds
      (([(key, val, heap.entries.fresh)] ++ c.buckets.flatten).map site ++ []) := by
    rw [List.append_nil]
    exact represents.entries.allocate _
  obtain ⟨front, entries, linked, loaded, written, put, array', filled', entries', relinked⟩ :=
    @link_entry K V ⟨(heap.entries.allocate ⟨(key, val), none⟩).2, heap.arrays⟩ t.buckets heads c.buckets [] h
      (key, val, heap.entries.fresh) none [] chain array
      (filled.agree fun place member => before place (represents.entries.lt_fresh place member))
      (Memory.allocate_found _ _) held here
  refine ⟨front, entries, linked, loaded, written, put, ⟨⟨_, array', filled'⟩, ?_,
    relinked.arrays _ represents.arrays, represents.size_eq, represents.mask_eq,
    congrArg (· + 1) represents.used_eq, represents.loading_eq⟩, ?_⟩
  · rw [List.append_nil] at entries'
    exact entries'
  · intro place node found
    exact relinked.stays place node ((before place (Memory.lt_fresh found)).trans found)

variable [DecidableEq K] {hash : K → Nat}

/-- The walk finds the entry that a lookup in its chain finds. -/
theorem search_spec {entries : Memory (Node (K × V))} {head : Pointer} {chain : List (K × V × Nat)} {rounds : Nat}
    (linked : Linked site data entries head chain) (enough : chain.length ≤ rounds) (key : K) :
    search key rounds entries head = .ok ((lookup key chain).map site) := by
  induction chain generalizing head rounds with
  | nil =>
      rw [linked.of_nil, search]
      rfl
  | cons entry chain ih =>
      obtain ⟨rfl, next, found, later⟩ := linked.of_cons
      obtain ⟨rounds, rfl⟩ := Nat.exists_eq_succ_of_ne_zero (Nat.ne_of_gt (Nat.lt_of_lt_of_le (Nat.succ_pos _) enough))
      rw [search, Memory.read_of_found found, ok_bind]
      by_cases same : (data entry).1 = key
      · rw [if_pos same, lookup, List.find?_cons_of_pos (by simpa [data] using same)]
        rfl
      · rw [if_neg same, lookup, List.find?_cons_of_neg (by simpa [data] using same)]
        exact ih later (Nat.le_of_succ_le_succ enough)

/-- A chain is found behind the pointer of its bucket. -/
theorem Represents.bucket (represents : Represents heap t c) {h : Nat} {chain : List (K × V × Nat)}
    (here : c.buckets[h]? = some chain) (key : K) :
    ∃ head, loadBucket heap t.buckets h = .ok head ∧
      search key heap.entries.fresh heap.entries head = .ok ((lookup key chain).map site) := by
  obtain ⟨heads, array, filled⟩ := represents.filled
  obtain ⟨head, at_head, linked⟩ := filled.linked h chain here
  refine ⟨head, loadBucket_of_found array at_head, search_spec linked ?_ key⟩
  rw [← List.length_map site]
  exact represents.entries.length_le_fresh ((List.sublist_flatten_of_mem (List.mem_of_getElem? here)).map site)

theorem Represents.find (represents : Represents heap t c) {key : K} {found : Option (K × V × Nat)}
    (run : Chained.find hash c key = .ok found) : find hash heap t key = .ok (found.map site) := by
  unfold Chained.find at run
  unfold Pointers.find
  rw [represents.loading_eq, represents.used_eq, represents.mask_eq]
  split at run
  next hidden =>
    cases run
    rw [if_pos hidden]
    rfl
  next shown =>
    obtain ⟨chain, read, same⟩ := bind_eq_ok.mp run
    cases same
    obtain ⟨head, loaded, walk⟩ := represents.bucket (load_eq_ok.mp read) key
    rw [if_neg shown, loaded, ok_bind, walk]

/-- An insert runs like that of the chains, where the value carries the next fresh place. -/
theorem Represents.insert (represents : Represents heap t c) (room : c.size = c.buckets.length) {key : K}
    {val : V} {found : Option (K × V × Nat)}
    (run : Chained.insert hash c key (val, heap.entries.fresh) = .ok (found, next)) :
    ∃ heap' t', insert hash heap t key val = .ok (found.map site, heap', t') ∧ Represents heap' t' next ∧
      Stays heap heap' := by
  unfold Chained.insert at run
  unfold Pointers.insert
  rw [represents.loading_eq]
  split at run
  next loading =>
    obtain ⟨grown, expand, rest⟩ := bind_eq_ok.mp run
    obtain ⟨chain, read, rest⟩ := bind_eq_ok.mp rest
    have here := load_eq_ok.mp read
    obtain ⟨heap', t', expand', after, stays, fresh⟩ := represents.expandIfNeeded room expand
    obtain ⟨head, loaded, walk⟩ := after.bucket here key
    rw [if_pos loading, expand', ok_bind]
    simp only [after.mask_eq, loaded, walk, ok_bind]
    split at rest
    next entry known =>
      cases rest
      rw [known]
      exact ⟨heap', t', rfl, after, stays⟩
    next unknown =>
      obtain ⟨stored, write, done⟩ := bind_eq_ok.mp rest
      rw [store_of_lt (List.getElem?_eq_some_iff.mp here).1] at write
      cases write
      cases done
      rw [unknown]
      rw [← fresh]
      obtain ⟨front, entries, linked, loaded', written, put, pushed, stays'⟩ := after.push here key val
      refine ⟨linked, { t' with used := t'.used + 1 }, ?_, pushed, stays.trans stays'⟩
      cases loaded.symm.trans loaded'
      simp only [Option.map_none, Memory.allocate_place, written, put, ok_bind, after.mask_eq]
      rfl
  next idle =>
    cases run
    exact ⟨heap, t, if_neg idle, represents, .refl heap⟩

end Calls

end CppProject.HashTable.Pointers
