import CppProject.HashTable.Chained
import CppProject.HashTable.InternalStorage
import Mathlib.Data.List.Dedup

/-!
# Two tables for the same pairs

A chained table that is loaded with a list of pairs keeps the first pair of every key.  A
table with internal storage keeps all of them and finds the one its placement leaves in
front.  For keys without a second pair they cannot be told apart, whatever either has done
before and whatever the pairs are hashed with.
-/

namespace CppProject.HashTable

open Library Library.Checked Library.Chains Chained
open scoped List

variable {K V : Type}

/-! ## Loads of the map -/

namespace Chained

/-- The calls that load a list of pairs. -/
def loadOf (kvs : List (K × V)) : List (Operation K V) :=
  .beginLoading :: (kvs.map (fun kv => .insert kv.1 kv.2) ++ [.endLoading])

namespace LoadingMap

variable [DecidableEq K] {s : LoadingMap K V} {key : K}

theorem run_append (s : LoadingMap K V) (first rest : List (Operation K V)) :
    (s.run (first ++ rest)).2 = ((s.run first).2.run rest).2 := by
  induction first generalizing s with
  | nil => rfl
  | cons operation first ih => exact ih _

theorem insert_loading (loading : s.loading = true) (kv : K × V) :
    (s.insert kv.1 kv.2).2.loading = true := by
  unfold insert
  split
  · exact loading
  · exact loading

/-- A pair does not replace one that was there before. -/
theorem lookup_insert (loading : s.loading = true) (kv : K × V) :
    lookup key (s.insert kv.1 kv.2).2.entries = (lookup key s.entries).or (lookup key [kv]) := by
  by_cases fresh : kv.1 ∉ s.entries.map Prod.fst
  · rw [insert_accepted ⟨loading, fresh⟩]
    by_cases same : kv.1 = key
    · subst same
      rw [lookup_eq_none.mpr fresh, Option.none_or]
      simp [lookup]
    · simp [lookup, same]
  · rw [insert_rejected fun accepted => fresh accepted.2]
    by_cases same : kv.1 = key
    · subst same
      cases found : lookup kv.1 s.entries with
      | none => exact absurd (lookup_eq_none.mp found) fresh
      | some entry => rfl
    · simp [lookup, same]

/-- Behind the inserts of a load a key has the pair that it had before, or its first one in the list. -/
theorem run_inserts (loading : s.loading = true) (kvs : List (K × V)) :
    let last := (s.run (kvs.map fun kv => .insert kv.1 kv.2)).2
    last.loading = true ∧ ∀ key, lookup key last.entries = (lookup key s.entries).or (lookup key kvs) := by
  induction kvs generalizing s with
  | nil => exact ⟨loading, fun key => (Option.or_none).symm⟩
  | cons kv rest ih =>
      obtain ⟨still_loading, rest_lookup⟩ := ih (insert_loading loading kv)
      refine ⟨still_loading, fun key => ?_⟩
      have first_apart : lookup key ([kv] ++ rest) = (lookup key [kv]).or (lookup key rest) :=
        List.find?_append
      rw [List.singleton_append] at first_apart
      rw [first_apart, ← Option.or_assoc, ← lookup_insert loading kv]
      exact rest_lookup key

/-- A load leaves the first pair of every key, whatever was there before. -/
theorem run_loadOf (s : LoadingMap K V) (kvs : List (K × V)) :
    (s.run (loadOf kvs)).2.loading = false ∧
      ∀ key, lookup key (s.run (loadOf kvs)).2.entries = lookup key kvs := by
  have begun : ((s.run (loadOf kvs)).2) =
      ((LoadingMap.run ⟨true, [], List.nodup_nil⟩ (kvs.map fun kv => .insert kv.1 kv.2)).2.run
        [.endLoading]).2 := run_append _ _ _
  rw [begun]
  exact ⟨rfl, (run_inserts rfl kvs).2⟩

/-- Maps with the same lookups have as many entries as there are keys. -/
theorem length_entries (s : LoadingMap K V) {kvs : List (K × V)}
    (same : ∀ key, lookup key s.entries = lookup key kvs) :
    s.entries.length = (kvs.map Prod.fst).dedup.length := by
  have keys : s.entries.map Prod.fst ~ (kvs.map Prod.fst).dedup := by
    rw [List.perm_ext_iff_of_nodup s.distinct (List.nodup_dedup _)]
    intro key
    rw [List.mem_dedup, ← not_iff_not, ← lookup_eq_none, ← lookup_eq_none, same]
  rw [← keys.length_eq, List.length_map]

end LoadingMap

end Chained

/-! ## Both tables -/

section Both

variable [DecidableEq K]

/-- What a table with internal storage finds, against the first pair of the key. -/
theorem find_lookup {hash : K → Nat} {kvs arranged : List (K × V)}
    {stored : InternalStorage.ImmutableHashTable K V} (built : InternalStorage.Built hash arranged stored)
    (perm : arranged ~ kvs) (key : K) :
    ∃ found, InternalStorage.find hash stored key = .ok found ∧ (found = none ↔ lookup key kvs = none) ∧
      (∀ entry, found = some entry → entry ∈ kvs ∧ entry.1 = key) ∧
      ((∀ a ∈ kvs, ∀ b ∈ kvs, a.1 = key → b.1 = key → a = b) → found = lookup key kvs) := by
  rcases built.find_spec key with ⟨entry, member, same, hit⟩ | ⟨absent, miss⟩
  · have listed : entry ∈ kvs := perm.mem_iff.mp member
    obtain ⟨first, here⟩ : ∃ first, lookup key kvs = some first := by
      rw [← Option.ne_none_iff_exists', ne_eq, lookup_eq_none, not_not, ← same]
      exact List.mem_map_of_mem listed
    refine ⟨some entry, hit, ?_, ?_, ?_⟩
    · simp [here]
    · rintro _ ⟨⟩
      exact ⟨listed, same⟩
    · intro only
      have first_key : first.1 = key := by simpa using List.find?_some here
      rw [here, only entry listed first (List.mem_of_find?_eq_some here) same first_key]
  · have nowhere : lookup key kvs = none := by
      rw [lookup_eq_none, List.mem_map]
      rintro ⟨entry, listed, same⟩
      exact absent entry (perm.mem_iff.mpr listed) same
    refine ⟨none, miss, by simp [nowhere], ?_, fun _ => nowhere.symm⟩
    intro entry same
    cases same

/-- Loaded with a list of pairs, whatever it has been through before, a chained table finds
the first pair of every key and counts the keys.  A table with internal storage that is made
of the same pairs, in any order and for any hash function of its own, finds a pair for the
same keys, and the same pair where all pairs of the key are the same. -/
theorem tables_agree (hash other : K → Nat) (size : Nat) (earlier : List (Operation K V))
    {kvs arranged : List (K × V)} (perm : arranged ~ kvs) :
    ∃ answers chained stored,
      Chained.run hash (create K V size) (earlier ++ loadOf kvs) = .ok (answers, chained) ∧
      InternalStorage.construct other arranged = .ok stored ∧
      entryCount chained = (kvs.map Prod.fst).dedup.length ∧ stored.table ~ kvs ∧
      ∀ key, ∃ first found,
        Chained.find hash chained key = .ok first ∧ InternalStorage.find other stored key = .ok found ∧
        first = lookup key kvs ∧ (found = none ↔ first = none) ∧
        (∀ entry, found = some entry → entry ∈ kvs ∧ entry.1 = key) ∧
        ((∀ a ∈ kvs, ∀ b ∈ kvs, a.1 = key → b.1 = key → a = b) → found = first) := by
  obtain ⟨chained, runs, represents⟩ := (represents_create hash size).run (earlier ++ loadOf kvs)
  obtain ⟨stored, constructs, built⟩ := InternalStorage.construct_spec other arranged
  rw [LoadingMap.run_append] at represents
  obtain ⟨ended, lookups⟩ := LoadingMap.run_loadOf ((LoadingMap.empty K V).run earlier).2 kvs
  refine ⟨_, chained, stored, runs, constructs, ?_, built.arranged.perm.trans perm, ?_⟩
  · rw [entryCount, represents.used_eq, LoadingMap.length_entries _ lookups]
  · intro key
    have finds : Chained.find hash chained key = .ok (lookup key kvs) := by
      rw [represents.find_eq, ended, lookups]
      rfl
    obtain ⟨found, stored_finds, same_keys, listed, same_found⟩ := find_lookup built perm key
    exact ⟨_, found, finds, stored_finds, rfl, same_keys, listed, same_found⟩

/-- The pairs whose key `3` is repeated. -/
def repeatedKey : List (Nat × Nat) := [(3, 30), (4, 40), (3, 31)]

/-- Of the two pairs of a repeated key the tables find different ones. -/
theorem tables_agree_repeated_key : ∃ answers chained stored,
    Chained.run id (create Nat Nat 2) ([.insert 1 10] ++ loadOf repeatedKey) = .ok (answers, chained) ∧
    InternalStorage.construct id repeatedKey = .ok stored ∧ entryCount chained = 2 ∧
    Chained.find id chained 3 = .ok (some (3, 30)) ∧
    InternalStorage.find id stored 3 = .ok (some (3, 31)) ∧
    InternalStorage.find id stored 4 = Chained.find id chained 4 := by
  obtain ⟨answers, chained, stored, runs, constructs, count, _, finds⟩ :=
    tables_agree id id 2 [.insert 1 10] (.refl repeatedKey)
  obtain ⟨_, _, three, _, here, _⟩ := finds 3
  obtain ⟨_, _, four, stored_four, _, _, _, same_found⟩ := finds 4
  have stored_three : (do
      let stored ← InternalStorage.construct id repeatedKey
      InternalStorage.find id stored 3) = .ok (some (3, 31)) := rfl
  rw [constructs, ok_bind] at stored_three
  refine ⟨answers, chained, stored, runs, constructs, count, three.trans (congrArg _ here), stored_three, ?_⟩
  rw [four, stored_four, same_found (by decide)]

end Both

end CppProject.HashTable
