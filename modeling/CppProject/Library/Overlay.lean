import Mathlib.Data.List.Nodup
import Mathlib.Logic.Function.Basic

/-!
# Finite maps that keep the first value

A store that inserts a pair only under a key it does not hold yet.  A batch of
such inserts lays the first values of the batch under the old contents, and all
of its inserts are accepted exactly when its keys are new and distinct.  Splitting
the batch by a function of the keys splits both facts.
-/

namespace CppProject.Library.Overlay

variable {α K V : Type} [DecidableEq K] (key : α → K) (value : α → V)

/-- The first value of a batch under a key. -/
def firstValue (batch : List α) (k : K) : Option V := (batch.find? (fun a => key a = k)).map value

/-- Insert under a new key; a key that is present keeps its value. -/
def put (m : K → Option V) (a : α) : K → Option V :=
  if m (key a) = none then Function.update m (key a) (some (value a)) else m

/-- The contents of `m` over the first values of a batch. -/
def overlay (m : K → Option V) (batch : List α) (k : K) : Option V :=
  (m k).or (firstValue key value batch k)

/-- The keys of the batch are distinct and not in the map. -/
def Fresh (m : K → Option V) (batch : List α) : Prop :=
  (batch.map key).Nodup ∧ ∀ a ∈ batch, m (key a) = none

variable {key value} {m : K → Option V}

@[simp] theorem overlay_nil (m : K → Option V) : overlay key value m [] = m := by
  funext k
  simp [overlay, firstValue]

theorem firstValue_cons (a : α) (batch : List α) (k : K) :
    firstValue key value (a :: batch) k =
      if key a = k then some (value a) else firstValue key value batch k := by
  unfold firstValue
  rw [List.find?_cons]
  split <;> simp_all

theorem firstValue_append (first second : List α) (k : K) :
    firstValue key value (first ++ second) k =
      (firstValue key value first k).or (firstValue key value second k) := by
  unfold firstValue
  rw [List.find?_append]
  cases first.find? (fun a => key a = k) <;> rfl

theorem firstValue_eq_none {batch : List α} {k : K} :
    firstValue key value batch k = none ↔ k ∉ batch.map key := by
  simp only [firstValue, Option.map_eq_none_iff, List.find?_eq_none, decide_eq_true_eq, List.mem_map,
    not_exists, not_and]

/-- Inserting one element and then the others lays the whole batch under the map. -/
theorem overlay_put (m : K → Option V) (a : α) (batch : List α) :
    overlay key value (put key value m a) batch = overlay key value m (a :: batch) := by
  funext k
  simp only [overlay, firstValue_cons, put]
  rcases eq_or_ne (key a) k with rfl | other
  · cases old : m (key a) with
    | none => simp
    | some v => simp [old]
  · rw [if_neg other]
    split
    · rw [Function.update_of_ne other.symm]
    · rfl

theorem overlay_append (m : K → Option V) (first second : List α) :
    overlay key value m (first ++ second) = overlay key value (overlay key value m first) second := by
  funext k
  simp only [overlay, firstValue_append, Option.or_assoc]

omit [DecidableEq K] in
@[simp] theorem fresh_nil (m : K → Option V) : Fresh key m ([] : List α) :=
  ⟨List.nodup_nil, List.forall_mem_nil _⟩

omit [DecidableEq K] in
theorem fresh_congr {m' : K → Option V} {batch : List α}
    (same : ∀ a ∈ batch, m (key a) = m' (key a)) :
    Fresh key m batch ↔ Fresh key m' batch := by
  refine and_congr_right fun _ => forall₂_congr fun a member => ?_
  rw [same a member]

theorem fresh_append {first second : List α} :
    Fresh key m (first ++ second) ↔
      Fresh key m first ∧ Fresh key (overlay key value m first) second := by
  simp only [Fresh, List.map_append, List.nodup_append', List.mem_append, overlay,
    Option.or_eq_none_iff, firstValue_eq_none, List.disjoint_right, List.mem_map]
  constructor
  · rintro ⟨⟨first_nodup, second_nodup, apart⟩, new⟩
    exact ⟨⟨first_nodup, fun a member => new a (Or.inl member)⟩, second_nodup,
      fun a member => ⟨new a (Or.inr member), apart ⟨a, member, rfl⟩⟩⟩
  · rintro ⟨⟨first_nodup, first_new⟩, second_nodup, second_new⟩
    refine ⟨⟨first_nodup, second_nodup, ?_⟩, ?_⟩
    · rintro _ ⟨a, member, rfl⟩
      exact (second_new a member).2
    · rintro a (member | member)
      · exact first_new a member
      · exact (second_new a member).1

theorem fresh_cons {a : α} {batch : List α} :
    Fresh key m (a :: batch) ↔ m (key a) = none ∧ Fresh key (put key value m a) batch := by
  have single : Fresh key m [a] ↔ m (key a) = none := by simp [Fresh]
  have laid : overlay key value m [a] = put key value m a := by
    rw [← overlay_put, overlay_nil]
  have split := @fresh_append _ _ _ _ key value m [a] batch
  rw [List.singleton_append] at split
  rw [split, single, laid]

/-! ## Splitting a batch -/

section Split

variable (route : K → Nat)

/-- The elements of a batch that go to one part. -/
def part (route : K → Nat) (key : α → K) (batch : List α) (i : Nat) : List α :=
  batch.filter (fun a => route (key a) = i)

theorem firstValue_part (batch : List α) (k : K) :
    firstValue key value (part route key batch (route k)) k = firstValue key value batch k := by
  unfold firstValue part
  congr 1
  rw [List.find?_filter]
  congr 1
  funext a
  by_cases same : key a = k
  · simp [same]
  · simp [same]

omit [DecidableEq K] in
theorem part_sublist (batch : List α) (i : Nat) : (part route key batch i).Sublist batch :=
  List.filter_sublist

omit [DecidableEq K] in
theorem mem_part {batch : List α} {i : Nat} {a : α} :
    a ∈ part route key batch i ↔ a ∈ batch ∧ route (key a) = i := by
  simp [part]

omit [DecidableEq K] in
theorem part_cons_self (a : α) (batch : List α) :
    part route key (a :: batch) (route (key a)) = a :: part route key batch (route (key a)) :=
  List.filter_cons_of_pos (by simp)

omit [DecidableEq K] in
theorem part_cons_of_ne {a : α} {i : Nat} (other : route (key a) ≠ i) (batch : List α) :
    part route key (a :: batch) i = part route key batch i :=
  List.filter_cons_of_neg (by simpa using other)

omit [DecidableEq K] in
/-- A batch has distinct keys when each of its parts has. -/
theorem nodup_of_parts {batch : List α} {n : Nat} (routed : ∀ a ∈ batch, route (key a) < n)
    (parts : ∀ i, i < n → ((part route key batch i).map key).Nodup) : (batch.map key).Nodup := by
  induction batch with
  | nil => exact List.nodup_nil
  | cons a batch ih =>
      have own := parts (route (key a)) (routed a List.mem_cons_self)
      rw [part_cons_self, List.map_cons, List.nodup_cons] at own
      rw [List.map_cons, List.nodup_cons]
      constructor
      · intro member
        obtain ⟨b, b_member, same⟩ := List.mem_map.mp member
        exact own.1 (List.mem_map.mpr ⟨b, (mem_part route).mpr ⟨b_member, by rw [same]⟩, same⟩)
      · apply ih (fun b member => routed b (List.mem_cons_of_mem a member))
        intro i inside
        exact (parts i inside).sublist (((List.sublist_cons_self a batch).filter _).map key)

omit [DecidableEq K] in
/-- Inserting the parts of a batch into their own maps is accepted exactly when
the batch is new to the map that reads each key in its own part. -/
theorem fresh_parts {maps : Nat → K → Option V} {batch : List α} {n : Nat}
    (routed : ∀ a ∈ batch, route (key a) < n) :
    (∀ i, i < n → Fresh key (maps i) (part route key batch i)) ↔
      Fresh key (fun k => maps (route k) k) batch := by
  constructor
  · intro parts
    refine ⟨nodup_of_parts route routed fun i inside => (parts i inside).1, ?_⟩
    intro a member
    exact (parts _ (routed a member)).2 a ((mem_part route).mpr ⟨member, rfl⟩)
  · rintro ⟨distinct, new⟩ i _
    refine ⟨distinct.sublist ((part_sublist route batch i).map key), ?_⟩
    intro a member
    obtain ⟨listed, rfl⟩ := (mem_part route).mp member
    exact new a listed

end Split

end CppProject.Library.Overlay
