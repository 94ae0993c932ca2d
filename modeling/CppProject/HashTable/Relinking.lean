import CppProject.HashTable.Pointers

/-!
# Linking and freeing the entries

What the loops over the pointers do to the memory: a rehash links every entry anew in its
place and keeps its key and its value, and freeing the buckets deletes each entry once.
-/

namespace CppProject.HashTable.Pointers

open Library Library.Checked Library.LinkedLists Library.Chains
open Library.Memory (Linked Heads)
open scoped List

variable {K V : Type}

/-! ## Entries with their places -/

/-- The place that an entry of the table of chains carries in its value. -/
def site (entry : K × V × Nat) : Nat := entry.2.2

def data (entry : K × V × Nat) : K × V := (entry.1, entry.2.1)

/-- Every entry in use stays in its place, with its key and its value. -/
def Stays (old new : Heap K V) : Prop :=
  ∀ place node, old.entries.cells place = some node →
    ∃ next, new.entries.cells place = some ⟨node.data, next⟩

theorem Stays.refl (heap : Heap K V) : Stays heap heap := fun _ node found => ⟨node.next, found⟩

theorem Stays.trans {first second third : Heap K V} (here : Stays first second) (later : Stays second third) :
    Stays first third := by
  intro place node found
  obtain ⟨next, moved⟩ := here place node found
  exact later place ⟨node.data, next⟩ moved

/-- Only entries that are not held, and one array, have been written. -/
structure Relinked (old new : Heap K V) (buckets : Nat) (held : List Nat) : Prop where
  stays : Stays old new
  held : ∀ place ∈ held, new.entries.cells place = old.entries.cells place
  others : ∀ place, place ≠ buckets → new.arrays.cells place = old.arrays.cells place
  arrays : ∀ list, old.arrays.Holds list → new.arrays.Holds list
  fresh : new.entries.fresh = old.entries.fresh

namespace Relinked

variable {first second third : Heap K V} {buckets : Nat} {held : List Nat}

theorem refl (heap : Heap K V) (buckets : Nat) (held : List Nat) : Relinked heap heap buckets held :=
  ⟨.refl heap, fun _ _ => rfl, fun _ _ => rfl, fun _ holds => holds, rfl⟩

theorem trans {more : List Nat} (here : Relinked first second buckets more)
    (later : Relinked second third buckets held) (fewer : held ⊆ more) :
    Relinked first third buckets held :=
  ⟨here.stays.trans later.stays,
    fun place member => (later.held place member).trans (here.held place (fewer member)),
    fun place apart => (later.others place apart).trans (here.others place apart),
    fun list holds => later.arrays list (here.arrays list holds), later.fresh.trans here.fresh⟩

end Relinked

/-! ## Buckets -/

section Buckets

variable {heap : Heap K V} {buckets i : Nat} {heads : List Pointer} {head : Pointer}

theorem loadBucket_of_found (found : heap.arrays.cells buckets = some heads) (here : heads[i]? = some head) :
    loadBucket heap buckets i = .ok head := by
  rw [loadBucket, Memory.read_of_found found, ok_bind]
  exact load_eq_ok.mpr here

theorem storeBucket_of_found {arrays : Memory (List Pointer)} (found : arrays.cells buckets = some heads)
    (inside : i < heads.length) (entries : Memory (Node (K × V))) (head : Pointer) :
    storeBucket ⟨entries, arrays⟩ buckets i head =
      .ok ⟨entries, arrays.change buckets (Memory.lt_fresh found) (some (heads.set i head))⟩ := by
  rw [storeBucket, Memory.read_of_found found, ok_bind, store_of_lt inside, ok_bind,
    Memory.write_of_found found]
  rfl

end Buckets

/-! ## Linking -/

section Linking

variable {heap : Heap K V} {buckets : Nat} {heads : List Pointer} {chains : List (List (K × V × Nat))}
  {held : List Nat}

/-- `head->next = buckets[h]; buckets[h] = head;` for an entry that is in no bucket. -/
theorem link_entry {h : Nat} {entry : K × V × Nat} {next : Pointer} {rest chain : List (K × V × Nat)}
    (array : heap.arrays.cells buckets = some heads) (filled : Heads site data heap.entries heads chains)
    (found : heap.entries.cells (site entry) = some ⟨data entry, next⟩)
    (holds : heap.entries.Holds ((entry :: rest ++ chains.flatten).map site ++ held))
    (here : chains[h]? = some chain) :
    ∃ front entries linked, loadBucket heap buckets h = .ok front ∧
      heap.entries.write (site entry) ⟨data entry, front⟩ = .ok entries ∧
      storeBucket { heap with entries := entries } buckets h (some (site entry)) = .ok linked ∧
      linked.arrays.cells buckets = some (heads.set h (some (site entry))) ∧
      Heads site data linked.entries (heads.set h (some (site entry))) (chains.set h (entry :: chain)) ∧
      linked.entries.Holds ((rest ++ (chains.set h (entry :: chain)).flatten).map site ++ held) ∧
      Relinked heap linked buckets (rest.map site ++ held) := by
  obtain ⟨front, at_front, linked⟩ := filled.linked h chain here
  have inside : h < heads.length := (List.getElem?_eq_some_iff.mp at_front).1
  have member : site entry ∈ (entry :: rest ++ chains.flatten).map site ++ held := by simp
  have absent := (List.nodup_cons.mp holds.nodup).1
  have apart (place : Nat) (other : place ∈ (rest ++ chains.flatten).map site ++ held) : place ≠ site entry :=
    fun same => absent (same ▸ other)
  -- the write changes nothing but the link of the entry
  have same (place : Nat) (other : place ∈ (rest ++ chains.flatten).map site ++ held) :=
    Memory.change_other (Memory.lt_fresh found) (some ⟨data entry, front⟩) (apart place other)
  have in_chains (place : Nat) (other : place ∈ chains.flatten.map site) :=
    same place (List.mem_append_left _ (by rw [List.map_append]; exact List.mem_append_right _ other))
  have in_chain (place : Nat) (other : place ∈ chain.map site) :
      place ∈ chains.flatten.map site := by
    obtain ⟨node, on, at_place⟩ := List.mem_map.mp other
    exact List.mem_map.mpr ⟨node, List.mem_flatten.mpr ⟨chain, List.mem_of_getElem? here, on⟩, at_place⟩
  refine ⟨front, _, _, loadBucket_of_found array at_front, Memory.write_of_found found _,
    storeBucket_of_found array inside _ _, Memory.change_found (Memory.lt_fresh array) _, ?_, ?_, ?_, ?_, ?_,
    ?_, rfl⟩
  · refine (filled.agree in_chains).set (.cons (Memory.change_found (Memory.lt_fresh found) _) ?_)
    exact linked.agree fun place other => in_chains place (in_chain place other)
  · refine (holds.write (Memory.lt_fresh found) member ⟨data entry, front⟩).perm ?_
    refine List.Perm.append_right held (List.Perm.map site ?_)
    calc entry :: rest ++ chains.flatten
        _ ~ rest ++ entry :: chains.flatten := List.perm_middle.symm
        _ ~ rest ++ (chains.set h (entry :: chain)).flatten := ((flatten_push_perm here entry).symm).append_left rest
  · intro place node kept
    rcases eq_or_ne place (site entry) with rfl | other
    · cases found.symm.trans kept
      exact ⟨front, Memory.change_found (Memory.lt_fresh found) _⟩
    · exact ⟨node.next, (Memory.change_other (Memory.lt_fresh found) _ other).trans kept⟩
  · intro place kept
    refine same place ?_
    rw [List.map_append, List.append_assoc]
    rcases List.mem_append.mp kept with in_rest | in_held
    · exact List.mem_append_left _ in_rest
    · exact List.mem_append_right _ (List.mem_append_right _ in_held)
  · exact fun place other => Memory.change_other (Memory.lt_fresh array) _ other
  · intro list arrays
    exact arrays.write (Memory.lt_fresh array) ((arrays.used buckets).mp (by rw [array]; simp)) _

variable {hash : K → Nat} {t : ImmutableHashTable}

/-- A walk over linked entries links each of them to its new bucket. -/
theorem relinkList_spec (chain : List (K × V × Nat)) {head : Pointer} {rounds : Nat}
    (linked : Linked site data heap.entries head chain)
    (array : heap.arrays.cells buckets = some heads) (filled : Heads site data heap.entries heads chains)
    (holds : heap.entries.Holds ((chain ++ chains.flatten).map site ++ held)) (enough : chain.length ≤ rounds)
    {behind : List (List (K × V × Nat))} (run : Chained.relinkChain hash t.sizeMask chain chains = .ok behind) :
    ∃ relinked heads', relinkList hash t buckets rounds heap head = .ok relinked ∧
      relinked.arrays.cells buckets = some heads' ∧ Heads site data relinked.entries heads' behind ∧
      relinked.entries.Holds (behind.flatten.map site ++ held) ∧ Relinked heap relinked buckets held := by
  induction chain generalizing heap heads chains head rounds with
  | nil =>
      cases run
      rw [linked.of_nil]
      exact ⟨heap, heads, by rw [relinkList], array, filled, holds, .refl heap buckets held⟩
  | cons entry chain ih =>
      obtain ⟨rfl, next, found, later⟩ := linked.of_cons
      obtain ⟨rounds, rfl⟩ := Nat.exists_eq_succ_of_ne_zero (Nat.ne_of_gt (Nat.lt_of_lt_of_le (Nat.succ_pos _) enough))
      obtain ⟨old, read, rest⟩ := bind_eq_ok.mp run
      obtain ⟨stored, write, rest⟩ := bind_eq_ok.mp rest
      have here := load_eq_ok.mp read
      rw [store_of_lt (List.getElem?_eq_some_iff.mp here).1] at write
      cases write
      obtain ⟨front, entries, one, loaded, written, put, array', filled', holds', relinked⟩ :=
        link_entry array filled found holds here
      have same (place : Nat) (member : place ∈ chain.map site) :=
        relinked.held place (List.mem_append_left held member)
      obtain ⟨last, heads', walk, array'', filled'', holds'', relinked'⟩ :=
        ih (later.agree same) array' filled' holds' (Nat.le_of_succ_le_succ enough) rest
      refine ⟨last, heads', ?_, array'', filled'', holds'',
        relinked.trans relinked' (List.subset_append_right _ _)⟩
      rw [relinkList, Memory.read_of_found found, ok_bind]
      simp only [data] at loaded written ⊢
      rw [loaded, ok_bind, written, ok_bind, put, ok_bind, walk]

/-- The buckets of the old array from `i` on. -/
def OldHeads (entries : Memory (Node (K × V))) (heads : List Pointer) (old : List (List (K × V × Nat)))
    (i : Nat) : Prop :=
  ∀ j, i ≤ j → ∀ chain, old[j]? = some chain → ∃ head, heads[j]? = some head ∧ Linked site data entries head chain

/-- Behind a round the later buckets still wait. -/
theorem OldHeads.next {entries other : Memory (Node (K × V))} {heads heads' : List Pointer}
    {old : List (List (K × V × Nat))} {i : Nat} (waiting : OldHeads entries heads old i)
    (same : ∀ place ∈ (old.drop (i + 1)).flatten.map site, other.cells place = entries.cells place)
    (later : ∀ j, i < j → heads'[j]? = heads[j]?) : OldHeads other heads' old (i + 1) := by
  intro j behind chain there
  obtain ⟨head, found, linked⟩ := waiting j (by omega) chain there
  refine ⟨head, (later j behind).trans found, linked.agree fun place member => same place ?_⟩
  obtain ⟨node, on, at_place⟩ := List.mem_map.mp member
  have dropped : (old.drop (i + 1))[j - (i + 1)]? = some chain := by
    rw [List.getElem?_drop, Nat.add_sub_cancel' behind]
    exact there
  exact List.mem_map.mpr ⟨node, List.mem_flatten.mpr ⟨chain, List.mem_of_getElem? dropped, on⟩, at_place⟩

theorem relinkFrom_spec {old : List (List (K × V × Nat))} {left i : Nat} (rest : i + left = old.length)
    {oldHeads : List Pointer} (apart : t.buckets ≠ buckets)
    (oldArray : heap.arrays.cells t.buckets = some oldHeads) (waiting : OldHeads heap.entries oldHeads old i)
    (array : heap.arrays.cells buckets = some heads) (filled : Heads site data heap.entries heads chains)
    (holds : heap.entries.Holds (((old.drop i).flatten ++ chains.flatten).map site))
    {behind : List (List (K × V × Nat))}
    (run : Chained.relinkFrom hash t.sizeMask old left i chains = .ok behind) :
    ∃ relinked heads', relinkFrom hash t buckets left i heap = .ok relinked ∧
      relinked.arrays.cells buckets = some heads' ∧ Heads site data relinked.entries heads' behind ∧
      relinked.entries.Holds (behind.flatten.map site) ∧ Relinked heap relinked buckets [] := by
  induction left generalizing i heap heads chains with
  | zero =>
      cases run
      rw [List.drop_of_length_le (by omega), List.flatten_nil, List.nil_append] at holds
      exact ⟨heap, heads, rfl, array, filled, holds, .refl heap buckets []⟩
  | succ left ih =>
      have inside : i < old.length := by omega
      obtain ⟨chain, read, from_chain⟩ := bind_eq_ok.mp run
      obtain ⟨middle, walk, from_next⟩ := bind_eq_ok.mp from_chain
      have here := load_eq_ok.mp read
      obtain rfl : old[i] = chain := List.getElem?_eq_some_iff.mp here |>.2
      obtain ⟨head, at_head, linked⟩ := waiting i (Nat.le_refl i) _ here
      have held : heap.entries.Holds ((old[i] ++ chains.flatten).map site ++
          (old.drop (i + 1)).flatten.map site) := by
        refine holds.perm ?_
        rw [List.drop_eq_getElem_cons inside, List.flatten_cons, ← List.map_append]
        refine List.Perm.map site ?_
        rw [List.append_assoc, List.append_assoc]
        exact List.perm_append_comm.append_left old[i]
      have enough : old[i].length ≤ heap.entries.fresh := by
        rw [← List.length_map site]
        refine held.length_le_fresh ?_
        rw [List.map_append, List.append_assoc]
        exact List.sublist_append_left _ _
      obtain ⟨one, heads', step, array', filled', holds', relinked⟩ :=
        relinkList_spec old[i] linked array filled held enough walk
      have waiting' := waiting.next relinked.held fun _ _ => rfl
      have holds'' : one.entries.Holds (((old.drop (i + 1)).flatten ++ middle.flatten).map site) := by
        rw [List.map_append]
        exact holds'.perm List.perm_append_comm
      obtain ⟨last, heads'', loop, array'', filled'', ended, relinked'⟩ :=
        ih (by omega) ((relinked.others _ apart).trans oldArray) waiting' array' filled' holds'' from_next
      refine ⟨last, heads'', ?_, array'', filled'', ended, relinked.trans relinked' (List.nil_subset _)⟩
      rw [relinkFrom, loadBucket_of_found oldArray at_head, ok_bind, step, ok_bind, loop]

end Linking

/-! ## Freeing -/

section Freeing

variable {heap : Heap K V} {t : ImmutableHashTable} {heads : List Pointer} {chains : List (List (K × V × Nat))}

/-- Freeing the buckets from `i` on deletes the entries that are linked from them. -/
theorem freeFrom_spec {left i : Nat} (rest : i + left = chains.length) (same_length : heads.length = chains.length)
    (array : heap.arrays.cells t.buckets = some heads) (waiting : OldHeads heap.entries heads chains i)
    (holds : heap.entries.Holds ((chains.drop i).flatten.map site)) :
    ∃ freed, freeFrom t left i heap = .ok freed ∧ freed.entries.Holds [] ∧
      freed.arrays.cells t.buckets = some (heads.take i ++ List.replicate left none) ∧
      ∀ list, heap.arrays.Holds list → freed.arrays.Holds list := by
  induction left generalizing i heap heads with
  | zero =>
      rw [List.drop_of_length_le (by omega)] at holds
      refine ⟨heap, rfl, holds, ?_, fun _ arrays => arrays⟩
      rw [List.take_of_length_le (by omega), List.replicate_zero, List.append_nil]
      exact array
  | succ left ih =>
      have inside : i < chains.length := by omega
      obtain ⟨head, at_head, linked⟩ := waiting i (Nat.le_refl i) _ (List.getElem?_eq_getElem inside)
      have in_heads : i < heads.length := by omega
      rw [List.drop_eq_getElem_cons inside, List.flatten_cons, List.map_append] at holds
      have enough : chains[i].length ≤ heap.entries.fresh := by
        rw [← List.length_map site]
        exact holds.length_le_fresh (List.sublist_append_left _ _)
      obtain ⟨entries, deleted, kept, _, same⟩ := Memory.deleteList_spec linked holds enough
      have put := storeBucket_of_found array in_heads entries none
      have waiting' := waiting.next same fun j later =>
        List.getElem?_set_ne (a := none) (Nat.ne_of_lt later)
      have array' : (Heap.mk entries (heap.arrays.change t.buckets (Memory.lt_fresh array)
          (some (heads.set i none)))).arrays.cells t.buckets = some (heads.set i none) :=
        Memory.change_found (Memory.lt_fresh array) _
      obtain ⟨freed, loop, empty, array'', arrays⟩ :=
        ih (by omega) (List.length_set.trans same_length) array' waiting' kept
      refine ⟨freed, ?_, empty, ?_, fun list holds => arrays list ?_⟩
      · rw [freeFrom, freeEntryList, loadBucket_of_found array at_head, ok_bind, deleted, ok_bind, put, ok_bind,
          loop]
      · have front : (heads.set i none).take (i + 1) = heads.take i ++ [none] := by
          rw [List.take_add_one, List.take_set_of_le (Nat.le_refl i), List.getElem?_set_self in_heads]
          rfl
        rw [array'', front, List.append_assoc]
        rfl
      · exact holds.write (Memory.lt_fresh array) ((holds.used t.buckets).mp (by rw [array]; simp)) _

end Freeing

end CppProject.HashTable.Pointers
