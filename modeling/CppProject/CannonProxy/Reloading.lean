import CppProject.CannonProxy.Sharding

/-!
# A reload in front of the servers

One `reload` call on an idle proxy: the model is laid under the inactive slots,
and when every insert was accepted the version moves on and the old slots are
cleared.
-/

namespace CppProject.CannonProxy

open Library Library.Checked Library.Overlay

variable {V : Type} [Zero V] {n : Nat}

theorem servers_clientsNum : (servers V n).clientsNum = n := rfl

/-! ## Inserting -/

/-- The insert requests to consecutive shards. -/
theorem enqueue_inserts (v : Nat) (shards : List (List (CannonKV V))) (i : Nat)
    (s : Nat → Storage V) :
    ∃ replies s', enqueueAll (fun i shard => (servers V n).insertKvs i shard v) i shards s =
        (replies, s') ∧
      (∃ accepted, (∀ ret, awaitAll ret replies = .ok (ret && accepted)) ∧
        (accepted = true ↔ ∀ j shard, shards[j]? = some shard →
          (CannonHandler.insert v shard (s (i + j))).1 = true)) ∧
      (∀ j shard, shards[j]? = some shard →
        s' (i + j) = (CannonHandler.insert v shard (s (i + j))).2) ∧
      ∀ j, j < i → s' j = s j := by
  induction shards generalizing i s with
  | nil =>
      refine ⟨[], s, rfl, ⟨true, fun ret => by simp [awaitAll], ?_⟩, ?_, fun _ _ => rfl⟩
      · simp
      · simp
  | cons shard rest ih =>
      obtain ⟨replies, s', run, ⟨accepted, await, accepted_iff⟩, stored, before⟩ :=
        ih (i + 1) (Function.update s i (CannonHandler.insert v shard (s i)).2)
      have later : ∀ j, Function.update s i (CannonHandler.insert v shard (s i)).2 (i + 1 + j) =
          s (i + 1 + j) := fun j => Function.update_of_ne (by omega) _ _
      simp only [later] at accepted_iff stored
      have accepted_all : ((CannonHandler.insert v shard (s i)).1 && accepted) = true ↔
          ∀ j other, (shard :: rest)[j]? = some other →
            (CannonHandler.insert v other (s (i + j))).1 = true := by
        rw [Bool.and_eq_true, accepted_iff]
        constructor
        · rintro ⟨first, others⟩ j other found
          cases j with
          | zero => cases found; exact first
          | succ j => rw [← Nat.add_assoc, Nat.add_right_comm]; exact others j other found
        · intro all
          refine ⟨all 0 shard rfl, fun j other found => ?_⟩
          have := all (j + 1) other found
          rwa [← Nat.add_assoc, Nat.add_right_comm] at this
      have stored_all : ∀ j other, (shard :: rest)[j]? = some other →
          s' (i + j) = (CannonHandler.insert v other (s (i + j))).2 := by
        intro j other found
        cases j with
        | zero =>
            cases found
            rw [Nat.add_zero, before i (Nat.lt_succ_self i), Function.update_self]
        | succ j => rw [← Nat.add_assoc, Nat.add_right_comm]; exact stored j other found
      have before_all : ∀ j, j < i → s' j = s j := by
        intro j lower
        rw [before j (Nat.lt_succ_of_lt lower), Function.update_of_ne (Nat.ne_of_lt lower)]
      cases shard with
      | nil =>
          have unchanged : Function.update s i (CannonHandler.insert v [] (s i)).2 = s :=
            Function.update_eq_self i s
          rw [unchanged] at run
          exact ⟨replies, s', run,
            ⟨accepted, await, by simpa [CannonHandler.insert] using accepted_all⟩,
            stored_all, before_all⟩
      | cons kv kvs =>
          refine ⟨.returned (CannonHandler.insert v (kv :: kvs) (s i)).1 :: replies, s', ?_,
            ⟨_, ?_, accepted_all⟩, stored_all, before_all⟩
          · simp only [enqueueAll, List.isEmpty_cons, Bool.false_eq_true, if_false]
            simp only [servers] at run ⊢
            rw [run]
          · intro ret
            rw [awaitAll, await, Bool.and_assoc]

/-- `_insert` lays its pairs under the slots of the next version, and is accepted
exactly when they are new there. -/
theorem insert_servers {kvs : List (CannonKV V)} (routed : ∀ kv ∈ kvs, Routed n kv.key)
    (dataVersion : Nat) (s : Nat → Storage V) :
    ∃ accepted s', insert (servers V n) kvs dataVersion s = (.ok accepted, s') ∧
      (accepted = true ↔ Fresh CannonKV.key (view n s (dataVersion + 1)) kvs) ∧
      view n s' (dataVersion + 1) =
        overlay CannonKV.key CannonKV.value (view n s (dataVersion + 1)) kvs ∧
      view n s' dataVersion = view n s dataVersion := by
  obtain ⟨shards, collect, length, contents⟩ := shardInto_fresh routed
  obtain ⟨replies, s', run, ⟨accepted, await, accepted_iff⟩, stored, _⟩ :=
    @enqueue_inserts V _ n (dataVersion + 1) shards 0 s
  simp only [Nat.zero_add] at accepted_iff stored
  refine ⟨accepted, s', ?_, ?_, ?_, ?_⟩
  · simp only [insert, servers_clientsNum, collect, run, await, Bool.true_and]
  · have each : accepted = true ↔ ∀ i, i < n →
        Fresh CannonKV.key ((s i).slot (dataVersion + 1)) (part (shardOf n) CannonKV.key kvs i) := by
      rw [accepted_iff]
      constructor
      · intro all i inside
        exact (handler_insert_spec _ _ _).1.mp (all i _ (contents i inside))
      · intro all i shard found
        obtain ⟨inside, rfl⟩ := shard_eq_part length contents found
        exact (handler_insert_spec _ _ _).1.mpr (all i inside)
    rw [each, fresh_parts _ fun kv member => (routed kv member).shardOf_lt]
    exact fresh_congr fun kv member => (view_of_routed (routed kv member) _ _).symm
  · funext key
    by_cases known : Routed n key
    · have shard := stored _ _ (contents _ known.shardOf_lt)
      rw [overlay, view_of_routed known, view_of_routed known, shard, (handler_insert_spec _ _ _).2.1,
        overlay, firstValue_part]
    · have absent : firstValue CannonKV.key CannonKV.value kvs key = none := by
        rw [firstValue_eq_none]
        intro member
        obtain ⟨kv, listed, rfl⟩ := List.mem_map.mp member
        exact known (routed kv listed)
      rw [overlay, view_of_unrouted known, view_of_unrouted known, absent]
      rfl
  · apply view_congr
    intro i inside
    rw [stored i _ (contents i inside)]
    exact (handler_insert_spec _ _ _).2.2 _ (getIndex_succ_ne dataVersion).symm

/-- The reading loop lays all blocks under the slots of the next version. -/
theorem insertBlocks_servers (dataVersion : Nat) {blocks : List (List (CannonKV V))}
    (routed : ∀ kv ∈ blocks.flatten, Routed n kv.key) (ret : Bool) (s : Nat → Storage V) :
    ∃ accepted s', insertBlocks (servers V n) dataVersion ret blocks s =
        (.ok (ret && accepted), s') ∧
      (accepted = true ↔ Fresh CannonKV.key (view n s (dataVersion + 1)) blocks.flatten) ∧
      view n s' (dataVersion + 1) =
        overlay CannonKV.key CannonKV.value (view n s (dataVersion + 1)) blocks.flatten ∧
      view n s' dataVersion = view n s dataVersion := by
  induction blocks generalizing ret s with
  | nil => exact ⟨true, s, by simp [insertBlocks], by simp, by simp, rfl⟩
  | cons kvs rest ih =>
      rw [List.flatten_cons] at routed
      have rest_routed := fun kv member => routed kv (List.mem_append_right kvs member)
      cases kvs with
      | nil => exact ih rest_routed ret s
      | cons kv kvs =>
          obtain ⟨first, middle, run, first_iff, laid, kept⟩ :=
            insert_servers (fun other member => routed other (List.mem_append_left _ member))
              dataVersion s
          obtain ⟨others, s', runs, others_iff, all_laid, all_kept⟩ :=
            ih rest_routed (ret && first) middle
          refine ⟨first && others, s', ?_, ?_, ?_, all_kept.trans kept⟩
          · simp only [insertBlocks, List.isEmpty_cons, Bool.false_eq_true, if_false, run, runs,
              Bool.and_assoc]
          · rw [Bool.and_eq_true, first_iff, others_iff, laid, List.flatten_cons, fresh_append]
          · rw [all_laid, laid, List.flatten_cons, overlay_append]

/-! ## Clearing -/

theorem clearAll_servers (v left i : Nat) (s : Nat → Storage V) :
    ∃ replies s', clearAll (servers V n) v left i s = (replies, s') ∧
      (∀ ret, awaitAll ret replies = .ok ret) ∧
      ∀ j, s' j = if i ≤ j ∧ j < i + left then (s j).clearData v else s j := by
  induction left generalizing i s with
  | zero => exact ⟨[], s, rfl, fun _ => rfl, fun j => by rw [if_neg (by omega)]⟩
  | succ left ih =>
      obtain ⟨replies, s', run, await, stored⟩ :=
        ih (i + 1) (Function.update s i ((s i).clearData v))
      refine ⟨.returned true :: replies, s', ?_, ?_, ?_⟩
      · simp only [clearAll]
        simp only [servers, CannonHandler.clearData] at run ⊢
        rw [run]
      · intro ret
        rw [awaitAll, await, Bool.and_true]
      · intro j
        rw [stored]
        rcases eq_or_ne j i with rfl | other
        · rw [Function.update_self, if_neg (by omega), if_pos (by omega)]
        · rw [Function.update_of_ne other]
          by_cases inside : i + 1 ≤ j ∧ j < i + 1 + left
          · rw [if_pos inside, if_pos (by omega)]
          · rw [if_neg inside, if_neg (by omega)]

/-- Clearing a version empties its slots and leaves those of the next version. -/
theorem clear_servers (dataVersion : Nat) (s : Nat → Storage V) :
    ∃ replies s', clearAll (servers V n) dataVersion n 0 s = (replies, s') ∧
      awaitAll true replies = .ok true ∧ view n s' dataVersion = (fun _ => none) ∧
      view n s' (dataVersion + 1) = view n s (dataVersion + 1) := by
  obtain ⟨replies, s', run, await, stored⟩ := clearAll_servers (n := n) dataVersion n 0 s
  have cleared : ∀ i, i < n → s' i = (s i).clearData dataVersion := by
    intro i inside
    rw [stored, if_pos (by omega)]
  refine ⟨replies, s', run, await true, ?_, ?_⟩
  · funext key
    by_cases routed : Routed n key
    · rw [view_of_routed routed, cleared _ routed.shardOf_lt, Storage.clearData, slot_withSlot]
    · exact view_of_unrouted routed s' dataVersion
  · apply view_congr
    intro i inside
    rw [cleared i inside]
    exact slot_withSlot_of_ne _ _ (getIndex_succ_ne dataVersion) _

/-! ## Reloading -/

/-- A reload of an idle proxy. -/
theorem reload_servers {call : ReloadCall V} (paths : call.paths ≠ [])
    (routed : ∀ kv ∈ call.model, Routed n kv.key) {w : World (Nat → Storage V)}
    (idle : w.isLoading = false) :
    ∃ s', (Fresh CannonKV.key (view n w.shards (w.dataVersion + 1)) call.model ∧
        reload (servers V n) call w = (.ok true, ⟨w.dataVersion + 1, false, s'⟩) ∧
        view n s' w.dataVersion = (fun _ => none) ∧
        view n s' (w.dataVersion + 1) =
          overlay CannonKV.key CannonKV.value (view n w.shards (w.dataVersion + 1)) call.model) ∨
      (¬Fresh CannonKV.key (view n w.shards (w.dataVersion + 1)) call.model ∧
        reload (servers V n) call w = (.ok false, ⟨w.dataVersion, false, s'⟩) ∧
        view n s' w.dataVersion = view n w.shards w.dataVersion ∧
        view n s' (w.dataVersion + 1) =
          overlay CannonKV.key CannonKV.value (view n w.shards (w.dataVersion + 1)) call.model) := by
  obtain ⟨accepted, middle, run, accepted_iff, laid, kept⟩ :=
    insertBlocks_servers w.dataVersion routed true w.shards
  have not_empty : call.paths.isEmpty = false := by
    simpa using paths
  have begun : reload (servers V n) call w =
      reload (servers V n) call ⟨w.dataVersion, false, w.shards⟩ := by
    rw [← idle]
  rw [begun]
  cases accepted with
  | true =>
      obtain ⟨replies, s', cleared, await, emptied, others⟩ :=
        clear_servers (n := n) w.dataVersion middle
      refine ⟨s', Or.inl ⟨accepted_iff.mp rfl, ?_, emptied, others.trans laid⟩⟩
      simp only [reload, Bool.false_eq_true, if_false, not_empty, run, Bool.and_true,
        servers_clientsNum, cleared, await]
  | false =>
      refine ⟨middle, Or.inr ⟨?_, ?_, kept, laid⟩⟩
      · intro fresh
        cases accepted_iff.mpr fresh
      · simp only [reload, Bool.false_eq_true, if_false, not_empty, run, Bool.and_false]

end CppProject.CannonProxy
