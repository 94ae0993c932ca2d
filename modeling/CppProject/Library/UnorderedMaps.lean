import Mathlib.Data.List.Nodup

/-!
# Unordered maps

A map is the list of its entries.  A new key is entered behind the others; the order in which a
program sees the entries when it iterates is not part of the map.
-/

namespace CppProject.Library

abbrev UnorderedMap (κ ν : Type) := List (κ × ν)

namespace UnorderedMap

variable {κ ν : Type} [DecidableEq κ]

/-- `map.find(key)`; `none` is `map.end()`. -/
def find : UnorderedMap κ ν → κ → Option ν
  | [], _ => none
  | (other, value) :: rest, key => if other = key then some value else find rest key

/-- `map[key] = value` -/
def assign : UnorderedMap κ ν → κ → ν → UnorderedMap κ ν
  | [], key, value => [(key, value)]
  | (other, old) :: rest, key, value =>
      if other = key then (key, value) :: rest else (other, old) :: assign rest key value

abbrev keys (map : UnorderedMap κ ν) : List κ := List.map Prod.fst map

variable {map : UnorderedMap κ ν} {key other : κ} {value : ν}

theorem find_assign (map : UnorderedMap κ ν) (key : κ) (value : ν) (other : κ) :
    find (assign map key value) other = if key = other then some value else find map other := by
  induction map with
  | nil => rfl
  | cons entry rest ih =>
      obtain ⟨first, old⟩ := entry
      by_cases here : first = key
      · subst here
        rw [assign, if_pos rfl, find, find]
        split <;> rfl
      · rw [assign, if_neg here, find, find, ih]
        by_cases found : first = other
        · rw [if_pos found, if_pos found, if_neg fun same => here (found.trans same.symm)]
        · rw [if_neg found, if_neg found]

/-- The keys of a map are those that are found. -/
theorem find_eq_none : find map key = none ↔ key ∉ keys map := by
  induction map with
  | nil => exact ⟨fun _ => List.not_mem_nil, fun _ => rfl⟩
  | cons entry rest ih =>
      obtain ⟨first, old⟩ := entry
      rw [find, keys, List.map_cons, List.mem_cons, not_or]
      by_cases here : first = key
      · rw [if_pos here]
        exact iff_of_false (fun impossible => by cases impossible) fun other => other.1 here.symm
      · rw [if_neg here, ih]
        exact ⟨fun off => ⟨fun same => here same.symm, off⟩, fun off => off.2⟩

theorem exists_find : (∃ value, find map key = some value) ↔ key ∈ keys map := by
  rw [← Option.ne_none_iff_exists', ne_eq, find_eq_none, not_not]

theorem mem_keys_assign : other ∈ keys (assign map key value) ↔ other = key ∨ other ∈ keys map := by
  rw [← exists_find, ← exists_find, find_assign]
  by_cases same : key = other
  · rw [if_pos same]
    exact iff_of_true ⟨value, rfl⟩ (Or.inl same.symm)
  · rw [if_neg same]
    exact ⟨Or.inr, fun found => found.resolve_left fun eq => same eq.symm⟩

theorem mem_of_find (found : find map key = some value) : (key, value) ∈ map := by
  induction map with
  | nil => cases found
  | cons entry rest ih =>
      obtain ⟨first, old⟩ := entry
      rw [find] at found
      split at found
      next here =>
          cases found
          exact here ▸ List.mem_cons_self
      next => exact List.mem_cons_of_mem _ (ih found)

/-- A map that has a key keeps its keys; a new key stands behind the others. -/
theorem keys_assign (map : UnorderedMap κ ν) (key : κ) (value : ν) :
    keys (assign map key value) = if key ∈ keys map then keys map else keys map ++ [key] := by
  induction map with
  | nil => rfl
  | cons entry rest ih =>
      obtain ⟨first, old⟩ := entry
      rw [assign]
      split
      next here =>
          have present : key ∈ keys ((first, old) :: rest) := List.mem_cons.mpr (Or.inl here.symm)
          rw [if_pos present]
          exact congrArg (· :: keys rest) here.symm
      next here =>
          have behind : key ∈ keys ((first, old) :: rest) ↔ key ∈ keys rest :=
            List.mem_cons.trans (or_iff_right fun same => here same.symm)
          change first :: keys (assign rest key value) = _
          simp only [ih, behind]
          split <;> rfl

/-- No key is entered twice. -/
theorem nodup_keys_assign (nodup : (keys map).Nodup) : (keys (assign map key value)).Nodup := by
  rw [keys_assign]
  split
  next => exact nodup
  next absent =>
      rw [← List.concat_eq_append]
      exact nodup.concat absent

/-- With distinct keys an entry is the one that is found. -/
theorem find_of_mem (nodup : (keys map).Nodup) (member : (key, value) ∈ map) :
    find map key = some value := by
  induction map with
  | nil => exact absurd member List.not_mem_nil
  | cons entry rest ih =>
      obtain ⟨first, old⟩ := entry
      obtain ⟨absent, nodup⟩ := List.nodup_cons.mp nodup
      cases List.mem_cons.mp member with
      | inl here =>
          cases here
          exact if_pos rfl
      | inr there =>
          have present : key ∈ keys rest := List.mem_map_of_mem there
          have other : first ≠ key := fun same => absent (same ▸ present)
          rw [find, if_neg other]
          exact ih nodup there

/-- With distinct keys the order of the entries does not matter to what is found. -/
theorem find_perm {shuffled : UnorderedMap κ ν} (perm : shuffled.Perm map) (nodup : (keys map).Nodup)
    (key : κ) : find shuffled key = find map key := by
  have nodup' : (keys shuffled).Nodup := (perm.map Prod.fst).nodup_iff.mpr nodup
  cases found : find map key with
  | none =>
      rw [find_eq_none, (perm.map Prod.fst).mem_iff]
      exact find_eq_none.mp found
  | some value => exact find_of_mem nodup' (perm.mem_iff.mpr (mem_of_find found))

end UnorderedMap

end CppProject.Library
