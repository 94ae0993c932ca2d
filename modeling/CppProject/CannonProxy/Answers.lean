import CppProject.CannonProxy.Positions

/-!
# Answers of `get`

In front of the cannon servers, the shards answer from the slots of one version.  A key is
answered at its last position in the request, so distinct keys are all answered, key by
key, from one store.
-/

namespace CppProject.CannonProxy

open Library Library.Checked Library.Overlay

variable {V : Type} [Zero V] {n : Nat}

/-- The status of a response whose keys are looked up in one store. -/
def statusFor (m : Store V) (keys : List Int64) : Status :=
  if keys.all fun key => (m key).isSome then .ok else .partialOk

/-- The response that answers the keys, in order, from one store. -/
def answerFrom (m : Store V) (keys : List Int64) : CannonResponse V where
  status := statusFor m keys
  values := keys.map fun key => itemOf (m key)

theorem mergeStatus_itemOf (m : Store V) (key : Int64) (keys : List Int64) :
    mergeStatus (statusFor m keys) (itemOf (m key)).status = statusFor m (keys ++ [key]) := by
  unfold statusFor
  rw [List.all_append]
  cases stored : m key <;> cases keys.all fun key => (m key).isSome <;>
    simp [mergeStatus, itemOf, stored]

theorem overall_statusFor (m : Store V) (keys : List Int64) :
    Overall (statusFor m keys) (keys.map fun key => itemOf (m key)) := by
  induction keys using List.reverseRecOn with
  | nil => exact overall_nil
  | append_singleton front key ih =>
      rw [List.map_append, ← mergeStatus_itemOf]
      exact ih.snoc (itemOf (m key))

/-! ## Placing items -/

/-- Write the answer of one key to its position. -/
def placeKey (m : Store V) (keyIdx : Int64 → Nat) (response : CannonResponse V) (key : Int64) :
    CannonResponse V :=
  ⟨mergeStatus response.status (itemOf (m key)).status,
    response.values.set (keyIdx key) (itemOf (m key))⟩

theorem placeKey_eq (m : Store V) : placeKey m = placeAnswer fun key => itemOf (m key) := rfl

/-- Distinct keys get their own positions. -/
theorem position_of_nodup {keys : List Int64} (distinct : keys.Nodup) {i : Nat} {key : Int64}
    (here : keys[i]? = some key) : position keys key = i := by
  by_contra other
  have repeated := repeated_iff_position.mpr ⟨i, here, other⟩
  exact absurd (List.nodup_iff_count_le_one.mp distinct key) (Nat.not_le.mpr repeated)

/-- The response to any keys: only the last position of a key holds its answer. -/
def answerKeys (m : Store V) (keys : List Int64) : CannonResponse V where
  status := statusFor m keys
  values := keys.mapIdx fun i key => if position keys key = i then itemOf (m key) else ValueItem.init V

theorem answerKeys_length (m : Store V) (keys : List Int64) : (answerKeys m keys).values.length = keys.length :=
  List.length_mapIdx

/-- Distinct keys are answered key by key. -/
theorem answerKeys_of_nodup (m : Store V) {keys : List Int64} (distinct : keys.Nodup) :
    answerKeys m keys = answerFrom m keys := by
  have values : (keys.mapIdx fun i key => if position keys key = i then itemOf (m key) else ValueItem.init V) =
      keys.map fun key => itemOf (m key) := by
    apply List.ext_getElem?
    intro i
    rw [List.getElem?_mapIdx, List.getElem?_map]
    cases here : keys[i]? with
    | none => rfl
    | some key => rw [Option.map_some, Option.map_some, if_pos (position_of_nodup distinct here)]
  rw [answerKeys, answerFrom, values]

/-- Placing all keys of a request, in any order, answers the request. -/
theorem placeKeys_eq {m : Store V} {keys placed : List Int64} (same : ∀ key, key ∈ placed ↔ key ∈ keys) :
    placed.foldl (placeKey m (position keys)) ⟨.ok, List.replicate keys.length (ValueItem.init V)⟩ =
      answerKeys m keys := by
  rw [placeKey_eq]
  have status := ((placeAnswers_overall (fun key => itemOf (m key)) (position keys)
    (List.replicate keys.length (ValueItem.init V)) placed).of_same fun kind _ => by
      simp only [List.mem_map, exists_exists_and_eq_and, same]).unique (overall_statusFor m keys)
  have values : (placed.foldl (placeAnswer (fun key => itemOf (m key)) (position keys))
      ⟨.ok, List.replicate keys.length (ValueItem.init V)⟩).values = (answerKeys m keys).values := by
    apply List.ext_getElem?
    intro i
    rw [answerKeys, List.getElem?_mapIdx]
    cases here : keys[i]? with
    | none =>
        rw [Option.map_none, List.getElem?_eq_none]
        rw [placeAnswers_length, List.length_replicate]
        exact List.getElem?_eq_none_iff.mp here
    | some key =>
        have inside := (List.getElem?_eq_some_iff.mp here).1
        rw [placeAnswers_getElem? same here List.length_replicate, List.getElem?_replicate_of_lt inside,
          Option.map_some]
        split <;> rfl
  generalize placed.foldl _ _ = response at status values ⊢
  cases response
  cases status
  cases values
  rfl

/-- `get` for keys that have shards answers from the slots of the current version. -/
theorem get_servers_any {keys : List Int64} (routed : ∀ key ∈ keys, Routed n key)
    (w : World (Nat → Storage V)) :
    get (servers V n) keys w = (.ok (answerKeys (view n w.shards w.dataVersion) keys), w) := by
  have replies : ∀ i keys s, s = w.shards → ∃ s',
      (servers V n).queryKeys i keys w.dataVersion s =
        (.returned (keys.map fun key => itemOf ((w.shards i).slot w.dataVersion key)), s') ∧
      s' = w.shards := by
    rintro i keys s rfl
    refine ⟨w.shards, ?_, rfl⟩
    rw [← handler_get_values]
    rfl
  obtain ⟨placed, s', same, rfl, run⟩ := @get_answers _ V _ n (servers V n) _ (· = w.shards) rfl w
    replies rfl keys routed
  rw [run, ← placeKeys_eq same]
  congr 2
  refine List.foldl_ext _ _ _ fun response key member => ?_
  simp only [placeKey_eq, placeAnswer, view_of_routed (routed key ((same key).mp member))]

/-- `get` for distinct keys that have shards answers from the slots of the
current version. -/
theorem get_servers {keys : List Int64} (distinct : keys.Nodup)
    (routed : ∀ key ∈ keys, Routed n key) (w : World (Nat → Storage V)) :
    get (servers V n) keys w = (.ok (answerFrom (view n w.shards w.dataVersion) keys), w) := by
  rw [get_servers_any routed, answerKeys_of_nodup _ distinct]

/-- `get` stops when a key has no shard. -/
theorem get_unrouted {keys : List Int64} (unrouted : ∃ key ∈ keys, ¬Routed n key)
    (w : World (Nat → Storage V)) :
    ∃ fault, get (servers V n) keys w = (.error (.fault fault), w) := by
  obtain ⟨fault, stop⟩ := @shardInto_unrouted n _ id keys unrouted (List.replicate n [])
    List.length_replicate
  refine ⟨fault, ?_⟩
  have clients : (servers V n).clientsNum = n := rfl
  simp only [get, clients, stop]

end CppProject.CannonProxy
