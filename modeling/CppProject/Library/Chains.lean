import Mathlib.Data.List.Nodup
import Mathlib.Data.List.Perm.Basic

/-!
# Bucket chains

A table of chains files every element in the chain of its bucket.  Lookups by
key in one chain then agree with lookups in the whole table.
-/

namespace CppProject.Library.Chains

variable {α K V : Type}

/-- Every element lies in the chain of its bucket. -/
def Filed (bucket : α → Nat) (chains : List (List α)) : Prop :=
  ∀ i chain, chains[i]? = some chain → ∀ a ∈ chain, bucket a = i

variable {bucket : α → Nat} {chains : List (List α)} {chain : List α} {i : Nat} {a : α}

theorem filed_replicate (bucket : α → Nat) (n : Nat) : Filed bucket (List.replicate n []) := by
  rintro i chain found a member
  obtain ⟨_, rfl⟩ := List.mem_replicate.mp (List.mem_of_getElem? found)
  cases member

/-- Pushing an element onto the chain of its bucket. -/
theorem Filed.push (filed : Filed bucket chains) (here : chains[bucket a]? = some chain) :
    Filed bucket (chains.set (bucket a) (a :: chain)) := by
  rintro i other found b member
  rw [List.getElem?_set] at found
  split at found
  next same =>
    split at found
    · cases found
      rcases List.mem_cons.mp member with rfl | old
      · exact same
      · exact (filed _ chain here b old).trans same
    · cases found
  next => exact filed i other found b member

theorem flatten_push_perm (here : chains[i]? = some chain) (a : α) :
    (chains.set i (a :: chain)).flatten.Perm (a :: chains.flatten) := by
  induction chains generalizing i with
  | nil => cases here
  | cons first rest ih =>
      cases i with
      | zero =>
          cases here
          exact .refl _
      | succ i =>
          have tail := ih (i := i) here
          simp only [List.set_cons_succ, List.flatten_cons]
          exact (tail.append_left first).trans List.perm_middle

/-- The chain of a bucket holds exactly the elements of that bucket. -/
theorem Filed.mem_iff (filed : Filed bucket chains) (here : chains[bucket a]? = some chain) :
    a ∈ chain ↔ a ∈ chains.flatten := by
  constructor
  · exact fun member => List.mem_flatten.mpr ⟨chain, List.mem_of_getElem? here, member⟩
  · intro member
    obtain ⟨other, listed, member⟩ := List.mem_flatten.mp member
    obtain ⟨j, found⟩ := List.mem_iff_getElem?.mp listed
    have same : bucket a = j := filed j other found a member
    rw [← same, here] at found
    cases found
    exact member

/-! ## Lookups by key -/

section Lookup

variable [DecidableEq K] {entries : List (K × V)} {key : K}

/-- The first entry of a key, as a walk along a chain finds it. -/
def lookup (key : K) (entries : List (K × V)) : Option (K × V) :=
  entries.find? (fun entry => entry.1 = key)

theorem lookup_eq_none : lookup key entries = none ↔ key ∉ entries.map Prod.fst := by
  simp only [lookup, List.find?_eq_none, decide_eq_true_eq, List.mem_map, not_exists, not_and]

theorem lookup_eq_some (distinct : (entries.map Prod.fst).Nodup) {entry : K × V} :
    lookup key entries = some entry ↔ entry ∈ entries ∧ entry.1 = key := by
  constructor
  · intro found
    exact ⟨List.mem_of_find?_eq_some found, by simpa using List.find?_some found⟩
  · rintro ⟨member, rfl⟩
    cases found : lookup entry.1 entries with
    | none => exact absurd (List.mem_map_of_mem member) (lookup_eq_none.mp found)
    | some other =>
        have same : other.1 = entry.1 := by simpa using List.find?_some found
        rw [List.inj_on_of_nodup_map distinct (List.mem_of_find?_eq_some found) member same]

/-- A lookup in the chain of the key's bucket is a lookup in all entries. -/
theorem Filed.lookup_eq (hash : K → Nat) {chains : List (List (K × V))} {chain : List (K × V)}
    (filed : Filed (fun entry => hash entry.1) chains) (perm : chains.flatten.Perm entries)
    (distinct : (entries.map Prod.fst).Nodup) (here : chains[hash key]? = some chain) :
    lookup key chain = lookup key entries := by
  have all_distinct : (chains.flatten.map Prod.fst).Nodup :=
    (perm.map Prod.fst).nodup_iff.mpr distinct
  have chain_distinct : (chain.map Prod.fst).Nodup :=
    all_distinct.sublist ((List.sublist_flatten_of_mem (List.mem_of_getElem? here)).map Prod.fst)
  apply Option.ext
  intro entry
  rw [lookup_eq_some chain_distinct, lookup_eq_some distinct, and_congr_left_iff]
  rintro rfl
  rw [filed.mem_iff here, perm.mem_iff]

end Lookup

end CppProject.Library.Chains
