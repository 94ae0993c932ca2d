import CppProject.CannonProxy.ProxyServer

/-!
# Sharding

Both `get` and `_insert` send a key to the shard of its index.  Read through
that routing, the slots of all servers are one store, and a request to the
shards is a request to that store.
-/

namespace CppProject.CannonProxy

open Library Library.Checked Library.Overlay

variable {V : Type} {n : Nat}

/-- The key has a shard. -/
def Routed (n : Nat) (key : Int64) : Prop := 0 ≤ clientIdx key n ∧ clientIdx key n < n

instance (n : Nat) (key : Int64) : Decidable (Routed n key) := inferInstanceAs (Decidable (_ ∧ _))

/-- The shard of a key. -/
def shardOf (n : Nat) (key : Int64) : Nat := (clientIdx key n).toNat

theorem Routed.shardOf_lt {key : Int64} (routed : Routed n key) : shardOf n key < n := by
  obtain ⟨low, high⟩ := routed
  unfold shardOf
  omega

/-! ## Collecting the elements of each shard -/

section Collect

variable {α : Type} {keyOf : α → Int64}

theorem shardInto_cons_routed {a : α} (routed : Routed n (keyOf a)) (rest : List α)
    {shards : List (List α)} (length : shards.length = n) :
    ∃ shard, shards[shardOf n (keyOf a)]? = some shard ∧
      shardInto keyOf n (a :: rest) shards =
        shardInto keyOf n rest (shards.set (shardOf n (keyOf a)) (shard ++ [a])) := by
  have inside : shardOf n (keyOf a) < shards.length := by
    rw [length]
    exact routed.shardOf_lt
  have some_shard : n ≠ 0 := fun none => absurd (none ▸ routed.shardOf_lt) (Nat.not_lt_zero _)
  refine ⟨_, List.getElem?_eq_getElem inside, ?_⟩
  unfold shardOf at inside
  simp only [shardInto, if_neg some_shard, if_neg (Int.not_lt.mpr routed.1), load_of_lt inside,
    store_of_lt inside, ok_bind, shardOf]

theorem shardInto_cons_unrouted {a : α} (unrouted : ¬Routed n (keyOf a)) (rest : List α)
    {shards : List (List α)} (length : shards.length = n) :
    ∃ fault, shardInto keyOf n (a :: rest) shards = .error fault := by
  unfold shardInto
  split
  · exact ⟨_, rfl⟩
  · split
    · exact ⟨_, rfl⟩
    next low =>
      have outside : shards.length ≤ (clientIdx (keyOf a) n).toNat := by
        unfold Routed at unrouted
        omega
      rw [load_eq_error outside]
      exact ⟨_, rfl⟩

/-- Routed elements end up behind what their shard already holds, in order. -/
theorem shardInto_routed {items : List α} (routed : ∀ a ∈ items, Routed n (keyOf a))
    {shards : List (List α)} (length : shards.length = n) :
    ∃ filled, shardInto keyOf n items shards = .ok filled ∧ filled.length = n ∧
      ∀ i, i < n → filled[i]? = some (shards.getD i [] ++ part (shardOf n) keyOf items i) := by
  induction items generalizing shards with
  | nil =>
      refine ⟨shards, rfl, length, ?_⟩
      intro i inside
      rw [← length] at inside
      simp [part, List.getElem?_eq_getElem inside]
  | cons a rest ih =>
      obtain ⟨shard, here, step⟩ := shardInto_cons_routed (routed a List.mem_cons_self) rest length
      obtain ⟨filled, run, filled_length, contents⟩ :=
        ih (fun b member => routed b (List.mem_cons_of_mem a member))
          (show (shards.set (shardOf n (keyOf a)) (shard ++ [a])).length = n from
            List.length_set.trans length)
      refine ⟨filled, step.trans run, filled_length, ?_⟩
      intro i inside
      rw [contents i inside]
      rcases eq_or_ne (shardOf n (keyOf a)) i with rfl | other
      · rw [part_cons_self, List.getD_eq_getElem?_getD, List.getD_eq_getElem?_getD, here,
          List.getElem?_set_self (length ▸ inside)]
        simp
      · rw [part_cons_of_ne _ other, List.getD_eq_getElem?_getD, List.getD_eq_getElem?_getD,
          List.getElem?_set_ne other]

theorem shardInto_unrouted {items : List α} (unrouted : ∃ a ∈ items, ¬Routed n (keyOf a))
    {shards : List (List α)} (length : shards.length = n) :
    ∃ fault, shardInto keyOf n items shards = .error fault := by
  induction items generalizing shards with
  | nil =>
      obtain ⟨a, member, _⟩ := unrouted
      cases member
  | cons a rest ih =>
      by_cases routed : Routed n (keyOf a)
      · obtain ⟨shard, _, step⟩ := shardInto_cons_routed routed rest length
        rw [step]
        refine ih ?_ (List.length_set.trans length)
        obtain ⟨b, member, astray⟩ := unrouted
        rcases List.mem_cons.mp member with rfl | later
        · exact absurd routed astray
        · exact ⟨b, later, astray⟩
      · exact shardInto_cons_unrouted routed rest length

theorem getElem?_replicate_nil_append (part : List α) {i : Nat} :
    (List.replicate n ([] : List α)).getD i [] ++ part = part := by
  rw [List.getD_eq_getElem?_getD, List.getElem?_replicate]
  split <;> rfl

/-- What `get` and `_insert` hand to the shards. -/
theorem shardInto_fresh {items : List α} (routed : ∀ a ∈ items, Routed n (keyOf a)) :
    ∃ shards, shardInto keyOf n items (List.replicate n []) = .ok shards ∧ shards.length = n ∧
      ∀ i, i < n → shards[i]? = some (part (shardOf n) keyOf items i) := by
  obtain ⟨shards, run, length, contents⟩ := shardInto_routed routed List.length_replicate
  refine ⟨shards, run, length, fun i inside => ?_⟩
  rw [contents i inside, getElem?_replicate_nil_append]

section Shards

variable {items : List α} {shards : List (List α)} (length : shards.length = n)
  (contents : ∀ i, i < n → shards[i]? = some (part (shardOf n) keyOf items i))

include length contents

/-- Every list that is handed out is the part of a shard. -/
theorem shard_eq_part {i : Nat} {shard : List α} (found : shards[i]? = some shard) :
    i < n ∧ shard = part (shardOf n) keyOf items i := by
  obtain ⟨inside, _⟩ := List.getElem?_eq_some_iff.mp found
  rw [length] at inside
  exact ⟨inside, Option.some.inj (found.symm.trans (contents i inside))⟩

/-- Every routed element is handed to a shard. -/
theorem mem_flatten_shards (routed : ∀ a ∈ items, Routed n (keyOf a)) (a : α) :
    a ∈ shards.flatten ↔ a ∈ items := by
  rw [List.mem_flatten]
  constructor
  · rintro ⟨shard, listed, member⟩
    obtain ⟨i, found⟩ := List.mem_iff_getElem?.mp listed
    obtain ⟨_, rfl⟩ := shard_eq_part length contents found
    exact ((mem_part _).mp member).1
  · intro member
    exact ⟨_, List.mem_of_getElem? (contents _ (routed a member).shardOf_lt),
      (mem_part _).mpr ⟨member, rfl⟩⟩

end Shards

end Collect

/-! ## The keys that have a shard -/

/-- A truncated remainder has the sign of its dividend. -/
theorem tmod_inside_iff {a : Int} (some_shard : 1 ≤ n) :
    0 ≤ Int.tmod a n ∧ Int.tmod a n < n ↔ 0 ≤ a ∨ (n : Int) ∣ a := by
  have positive : (0 : Int) < n := Int.natCast_pos.mpr some_shard
  rw [and_iff_left (Int.tmod_lt_of_pos a positive)]
  rcases Int.lt_or_le a 0 with negative | nonneg
  · rw [or_iff_right (Int.not_le.mpr negative), Int.dvd_iff_tmod_eq_zero]
    have below : Int.tmod a n ≤ 0 := by
      have mirrored := Int.tmod_nonneg n (Int.neg_nonneg_of_nonpos (Int.le_of_lt negative))
      rw [Int.neg_tmod] at mirrored
      omega
    omega
  · exact iff_of_true (Int.tmod_nonneg n nonneg) (Or.inl nonneg)

/-- The key is not negative as an `int`, or it is a multiple of the number of shards. -/
def IndexInside (n : Nat) (key : Int64) : Prop :=
  0 ≤ key.toInt32.toInt ∨ (n : Int) ∣ key.toInt32.toInt

theorem routed_iff {key : Int64} (some_shard : 1 ≤ n) : Routed n key ↔ IndexInside n key :=
  tmod_inside_iff some_shard

/-- An index that is computed from a key is an index of a shard exactly when the key is not
negative as an `int` or a multiple of the number of shards; a request or a model is
spread over the shards exactly when that holds for all of its keys. -/
theorem client_idx_inside_iff (n : Nat) (some_shard : 1 ≤ n) :
    (∀ key, 0 ≤ clientIdx key n ∧ clientIdx key n < n ↔ IndexInside n key) ∧
    ∀ (α : Type) (keyOf : α → Int64) (items : List α),
      (∃ shards, shardInto keyOf n items (List.replicate n []) = .ok shards ∧ shards.length = n) ↔
        ∀ a ∈ items, IndexInside n (keyOf a) := by
  refine ⟨fun key => routed_iff some_shard, fun α keyOf items => ?_⟩
  simp only [← routed_iff some_shard]
  constructor
  · rintro ⟨shards, run, _⟩
    by_contra astray
    push Not at astray
    obtain ⟨fault, stop⟩ := @shardInto_unrouted n _ keyOf items astray _ List.length_replicate
    rw [stop] at run
    cases run
  · intro routed
    obtain ⟨shards, run, length, _⟩ := shardInto_fresh routed
    exact ⟨shards, run, length⟩

/-- Two shards, and a key that has one. -/
theorem client_idx_inside_two_shards :
    0 ≤ clientIdx 5 2 ∧ clientIdx 5 2 < 2 ∧
      ∃ shards, shardInto id 2 [5, -4] (List.replicate 2 []) = .ok shards ∧ shards.length = 2 := by
  obtain ⟨index, spread⟩ := client_idx_inside_iff 2 (by decide)
  obtain ⟨low, high⟩ := (index 5).mpr (Or.inl (by decide))
  refine ⟨low, high, (spread Int64 id [5, -4]).mpr ?_⟩
  intro key member
  rcases List.mem_cons.mp member with rfl | last
  · exact Or.inl (by decide)
  · rw [List.mem_singleton.mp last]
    exact Or.inr (by decide)

/-- The key `-1` in front of two shards. -/
theorem client_idx_negative_key :
    clientIdx (-1) 2 = -1 ∧
    ¬(∀ (key : Int64) (n : Nat), 1 ≤ n → n < 2 ^ 31 → 0 ≤ clientIdx key n ∧ clientIdx key n < n) ∧
    shardInto id 2 [-1] (List.replicate 2 []) = .error .outOfBounds := by
  refine ⟨by decide, fun inside => ?_, by decide⟩
  exact absurd (inside (-1) 2 (by decide) (by decide)).1 (by decide)

/-! ## The slots of all servers as one store -/

/-- The store that a version is served from, read through the routing. -/
def view (n : Nat) (s : Nat → Storage V) (dataVersion : Nat) : Store V := fun key =>
  if Routed n key then (s (shardOf n key)).slot dataVersion key else none

variable {s s' : Nat → Storage V}

theorem view_of_routed {key : Int64} (routed : Routed n key) (s : Nat → Storage V) (dataVersion : Nat) :
    view n s dataVersion key = (s (shardOf n key)).slot dataVersion key := if_pos routed

theorem view_of_unrouted {key : Int64} (unrouted : ¬Routed n key) (s : Nat → Storage V)
    (dataVersion : Nat) : view n s dataVersion key = none := if_neg unrouted

theorem view_congr {v v' : Nat}
    (same : ∀ i, i < n → (s i).slot v = (s' i).slot v') : view n s v = view n s' v' := by
  funext key
  by_cases routed : Routed n key
  · rw [view_of_routed routed, view_of_routed routed, same _ routed.shardOf_lt]
  · rw [view_of_unrouted routed, view_of_unrouted routed]

end CppProject.CannonProxy
