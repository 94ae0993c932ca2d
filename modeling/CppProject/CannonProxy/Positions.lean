import CppProject.CannonProxy.Sharding
import Mathlib.Algebra.Order.Ring.Int
import Mathlib.Data.List.Induction
import Mathlib.Data.List.NodupEquivFin

/-!
# Positions of the answers

The results of a `get` come back shard by shard, and each item is written to the position
that `key_idx` holds for its key: the last position of the key in the request.  Nothing
here depends on what the shards answer, only on their answering each key they are sent.
-/

namespace CppProject.CannonProxy

open Library Library.Checked Library.Overlay

/-! ## The position of a key -/

theorem keyIdxFrom_of_notMem {keys : List Int64} {key : Int64} (absent : key ∉ keys) (p : Nat)
    (keyIdx : Int64 → Nat) : keyIdxFrom p keyIdx keys key = keyIdx key := by
  induction keys generalizing p keyIdx with
  | nil => rfl
  | cons first rest ih =>
      obtain ⟨different, later⟩ := not_or.mp (mt List.mem_cons.mpr absent)
      rw [keyIdxFrom, ih later, Function.update_of_ne different]

/-- The map holds the last position of every key. -/
theorem keyIdxFrom_last {keys : List Int64} {key : Int64} (member : key ∈ keys) (p : Nat)
    (keyIdx : Int64 → Nat) :
    ∃ i, keyIdxFrom p keyIdx keys key = p + i ∧ keys[i]? = some key ∧
      ∀ j, i < j → keys[j]? ≠ some key := by
  induction keys generalizing p keyIdx with
  | nil => cases member
  | cons first rest ih =>
      rw [keyIdxFrom]
      by_cases again : key ∈ rest
      · obtain ⟨i, position, here, last⟩ := ih again (p + 1) (Function.update keyIdx first p)
        refine ⟨i + 1, by rw [position]; omega, here, fun j later => ?_⟩
        obtain ⟨j, rfl⟩ := Nat.exists_eq_succ_of_ne_zero (Nat.ne_zero_of_lt later)
        exact last j (Nat.lt_of_succ_lt_succ later)
      · obtain rfl : key = first := (List.mem_cons.mp member).resolve_right again
        refine ⟨0, ?_, rfl, fun j later here => ?_⟩
        · rw [keyIdxFrom_of_notMem again, Function.update_self, Nat.add_zero]
        · obtain ⟨j, rfl⟩ := Nat.exists_eq_succ_of_ne_zero (Nat.ne_of_gt later)
          exact again (List.mem_of_getElem? here)

/-- The position that `get` uses for a key. -/
abbrev position (keys : List Int64) : Int64 → Nat := keyIdxFrom 0 (fun _ => 0) keys

theorem getElem?_position {keys : List Int64} {key : Int64} (member : key ∈ keys) :
    keys[position keys key]? = some key := by
  obtain ⟨i, here, found, _⟩ := keyIdxFrom_last member 0 fun _ => 0
  rw [position, here, Nat.zero_add]
  exact found

theorem position_lt {keys : List Int64} {key : Int64} (member : key ∈ keys) :
    position keys key < keys.length :=
  (List.getElem?_eq_some_iff.mp (getElem?_position member)).1

/-- A key has a position besides the one in the map exactly when it is repeated. -/
theorem repeated_iff_position {keys : List Int64} {key : Int64} :
    1 < keys.count key ↔ ∃ i, keys[i]? = some key ∧ position keys key ≠ i := by
  rw [← Nat.succ_le_iff, ← List.duplicate_iff_two_le_count, List.duplicate_iff_exists_distinct_get]
  constructor
  · rintro ⟨i, j, before, at_i, at_j⟩
    rcases eq_or_ne (position keys key) i with same | other
    · refine ⟨j, List.getElem?_eq_some_iff.mpr ⟨j.isLt, at_j.symm⟩, ?_⟩
      rw [same]
      exact Nat.ne_of_lt before
    · exact ⟨i, List.getElem?_eq_some_iff.mpr ⟨i.isLt, at_i.symm⟩, other⟩
  · rintro ⟨i, here, other⟩
    obtain ⟨i_lt, at_i⟩ := List.getElem?_eq_some_iff.mp here
    obtain ⟨last_lt, at_last⟩ := List.getElem?_eq_some_iff.mp
      (getElem?_position (List.mem_of_getElem? here))
    rcases Nat.lt_or_gt_of_ne other with before | behind
    · exact ⟨⟨_, last_lt⟩, ⟨i, i_lt⟩, before, at_last.symm, at_i.symm⟩
    · exact ⟨⟨i, i_lt⟩, ⟨_, last_lt⟩, behind, at_i.symm, at_last.symm⟩

/-! ## Placing answers -/

section Place

variable {V : Type} {answer : Int64 → ValueItem V} {keyIdx : Int64 → Nat}

/-- Write the answer of one key to its position. -/
def placeAnswer (answer : Int64 → ValueItem V) (keyIdx : Int64 → Nat) (response : CannonResponse V)
    (key : Int64) : CannonResponse V :=
  ⟨mergeStatus response.status (answer key).status, response.values.set (keyIdx key) (answer key)⟩

theorem placeAnswers_length (placed : List Int64) (response : CannonResponse V) :
    (placed.foldl (placeAnswer answer keyIdx) response).values.length = response.values.length := by
  induction placed generalizing response with
  | nil => rfl
  | cons key rest ih => rw [List.foldl_cons, ih, placeAnswer, List.length_set]

theorem placeItems_answers {keys : List Int64} {result : List (ValueItem V)} {j : Nat}
    (items : result.drop j = keys.map answer) {response : CannonResponse V}
    (inside : ∀ key ∈ keys, keyIdx key < response.values.length) :
    placeItems keyIdx result j keys response =
      .ok (keys.foldl (placeAnswer answer keyIdx) response) := by
  induction keys generalizing j response with
  | nil => rfl
  | cons key rest ih =>
      have here : result[j]? = some (answer key) := by
        have head := congrArg List.head? items
        rwa [List.head?_drop] at head
      have tail : result.drop (j + 1) = rest.map answer := by
        have tail := congrArg List.tail items
        rwa [List.tail_drop] at tail
      have write := store_of_lt (inside key List.mem_cons_self) (answer key)
      simp only [placeItems, load_eq_ok.mpr here, write]
      rw [ih tail (fun other member => by
        rw [List.length_set]; exact inside other (List.mem_cons_of_mem key member))]
      rfl

/-- Gathering the results of the query requests places every key once. -/
theorem gather_answers {σ : Type} {send : Nat → List Int64 → σ → Reply (List (ValueItem V)) × σ}
    {Inv : σ → Prop} {shards : List (List Int64)} {i : Nat}
    (replies : ∀ j shard, shards[j]? = some shard → ∀ s, Inv s →
      ∃ s', send (i + j) shard s = (.returned (shard.map answer), s') ∧ Inv s')
    {s : σ} (inv : Inv s) {response : CannonResponse V}
    (inside : ∀ key ∈ shards.flatten, keyIdx key < response.values.length) :
    ∃ results s', enqueueAll send i shards s = (results, s') ∧ Inv s' ∧
      gather keyIdx shards results response =
        .ok (shards.flatten.foldl (placeAnswer answer keyIdx) response) := by
  induction shards generalizing i s response with
  | nil => exact ⟨[], s, rfl, inv, rfl⟩
  | cons shard rest ih =>
      have rest_replies : ∀ j other, rest[j]? = some other → ∀ s, Inv s →
          ∃ s', send (i + 1 + j) other s = (.returned (other.map answer), s') ∧ Inv s' := by
        intro j other found
        rw [Nat.add_assoc, Nat.add_comm 1 j]
        exact replies (j + 1) other found
      rw [List.flatten_cons] at inside
      cases shard with
      | nil => exact ih rest_replies inv inside
      | cons key keys =>
          obtain ⟨middle, sent, middle_inv⟩ := replies 0 (key :: keys) rfl s inv
          rw [Nat.add_zero] at sent
          have placed := @placeItems_answers V answer keyIdx (key :: keys) ((key :: keys).map answer) 0
            rfl response
            (fun other member => inside other (List.mem_append_left _ member))
          obtain ⟨results, s', run, last_inv, gathered⟩ := @ih (i + 1) rest_replies middle middle_inv
            ((key :: keys).foldl (placeAnswer answer keyIdx) response)
            (fun other member => by
              rw [placeAnswers_length]; exact inside other (List.mem_append_right _ member))
          refine ⟨.returned ((key :: keys).map answer) :: results, s', ?_, last_inv, ?_⟩
          · simp only [enqueueAll, List.isEmpty_cons, Bool.false_eq_true, if_false, sent, run]
          · simp only [gather, List.isEmpty_cons, Bool.false_eq_true, if_false, placed, gathered,
              List.flatten_cons, List.foldl_append]

/-- A position of no placed key is not written. -/
theorem placeAnswers_unplaced {placed : List Int64} {i : Nat} (unplaced : ∀ key ∈ placed, keyIdx key ≠ i)
    (response : CannonResponse V) :
    (placed.foldl (placeAnswer answer keyIdx) response).values[i]? = response.values[i]? := by
  induction placed generalizing response with
  | nil => rfl
  | cons key rest ih =>
      obtain ⟨first, later⟩ := List.forall_mem_cons.mp unplaced
      rw [List.foldl_cons, ih later, placeAnswer, List.getElem?_set_ne first]

/-- A position that some placed key owns holds the answer of that key. -/
theorem placeAnswers_owned {placed : List Int64} {key : Int64} (member : key ∈ placed)
    (owner : ∀ other ∈ placed, keyIdx other = keyIdx key → other = key)
    {response : CannonResponse V} (inside : keyIdx key < response.values.length) :
    (placed.foldl (placeAnswer answer keyIdx) response).values[keyIdx key]? = some (answer key) := by
  induction placed using List.reverseRecOn with
  | nil => cases member
  | append_singleton front last ih =>
      rw [List.foldl_append, List.foldl_cons, List.foldl_nil, placeAnswer]
      rcases eq_or_ne (keyIdx last) (keyIdx key) with same | other
      · rw [owner last (by simp) same, List.getElem?_set_self (by rwa [placeAnswers_length])]
      · rw [List.getElem?_set_ne other]
        have in_front : key ∈ front := by
          rcases List.mem_append.mp member with front_member | last_member
          · exact front_member
          · rw [List.mem_singleton.mp last_member] at other
            exact absurd rfl other
        exact ih in_front fun k k_member => owner k (List.mem_append_left _ k_member)

/-- Behind the placing of all keys of a request, in any order, the last position of a key
holds its answer, and the other positions are as they were. -/
theorem placeAnswers_getElem? {keys placed : List Int64} (same : ∀ key, key ∈ placed ↔ key ∈ keys)
    {i : Nat} {key : Int64} (here : keys[i]? = some key) {response : CannonResponse V}
    (length : response.values.length = keys.length) :
    (placed.foldl (placeAnswer answer (position keys)) response).values[i]? =
      if position keys key = i then some (answer key) else response.values[i]? := by
  have member := List.mem_of_getElem? here
  split
  next own =>
    subst own
    refine placeAnswers_owned ((same key).mpr member) (fun other other_member equal => ?_) ?_
    · have found := getElem?_position ((same other).mp other_member)
      rw [equal, here] at found
      exact (Option.some.inj found).symm
    · rw [length]
      exact position_lt member
  next other =>
    refine placeAnswers_unplaced (fun k placed_k equal => ?_) response
    have found := getElem?_position ((same k).mp placed_k)
    rw [equal, here] at found
    exact other (Option.some.inj found ▸ equal)

end Place

/-! ## The status of a response -/

section Status

variable {V : Type}

/-- The status of a response with these items. -/
structure Overall (status : Status) (items : List (ValueItem V)) : Prop where
  error_iff : status = .error ↔ ∃ item ∈ items, item.status = .error
  partialOk_iff : status = .partialOk ↔
    (∀ item ∈ items, item.status ≠ .error) ∧ ∃ item ∈ items, item.status = .notFound
  ok_iff : status = .ok ↔ ∀ item ∈ items, item.status = .found

theorem overall_nil : Overall .ok ([] : List (ValueItem V)) := by
  constructor <;> simp

/-- The running status, one item further. -/
theorem Overall.snoc {status : Status} {items : List (ValueItem V)} (overall : Overall status items)
    (item : ValueItem V) : Overall (mergeStatus status item.status) (items ++ [item]) := by
  obtain ⟨error_iff, partialOk_iff, ok_iff⟩ := overall
  have some_item : ∀ kind, (∃ other ∈ items ++ [item], other.status = kind) ↔
      (∃ other ∈ items, other.status = kind) ∨ item.status = kind := by
    simp [or_and_right, exists_or]
  have all_items : ∀ P : ItemStatus → Prop, (∀ other ∈ items ++ [item], P other.status) ↔
      (∀ other ∈ items, P other.status) ∧ P item.status := by
    simp [or_imp, forall_and]
  constructor
  · rw [some_item, ← error_iff]
    cases item.status <;> cases status <;> simp [mergeStatus]
  · rw [some_item, all_items fun kind => kind ≠ .error]
    cases item.status <;> cases status <;> simp_all [mergeStatus]
  · rw [all_items fun kind => kind = .found, ← ok_iff]
    cases item.status <;> cases status <;> simp [mergeStatus]

theorem Overall.unique {status status' : Status} {items : List (ValueItem V)}
    (overall : Overall status items) (overall' : Overall status' items) : status = status' := by
  have errors := overall.error_iff.trans overall'.error_iff.symm
  have partials := overall.partialOk_iff.trans overall'.partialOk_iff.symm
  cases status <;> cases status' <;> simp_all

theorem all_found_iff {items : List (ValueItem V)} : (∀ item ∈ items, item.status = .found) ↔
    ¬(∃ item ∈ items, item.status = .error) ∧ ¬∃ item ∈ items, item.status = .notFound := by
  push Not
  rw [← forall₂_and]
  refine forall₂_congr fun item _ => ?_
  cases item.status <;> simp

/-- Items of the same statuses, other than `FOUND`, make the same overall status. -/
theorem Overall.of_same {status : Status} {items items' : List (ValueItem V)}
    (overall : Overall status items)
    (same : ∀ kind, kind ≠ .found →
      ((∃ item ∈ items, item.status = kind) ↔ ∃ item ∈ items', item.status = kind)) :
    Overall status items' := by
  have errors := same .error (by decide)
  have missing := same .notFound (by decide)
  constructor
  · rw [← errors, overall.error_iff]
  · have without_errors := not_congr errors
    push Not at without_errors
    rw [← missing, ← without_errors, overall.partialOk_iff]
  · rw [overall.ok_iff, all_found_iff, all_found_iff, errors, missing]

theorem placeAnswers_overall (answer : Int64 → ValueItem V) (keyIdx : Int64 → Nat)
    (values : List (ValueItem V)) (placed : List Int64) :
    Overall (placed.foldl (placeAnswer answer keyIdx) ⟨.ok, values⟩).status (placed.map answer) := by
  induction placed using List.reverseRecOn with
  | nil => exact overall_nil
  | append_singleton front key ih =>
      rw [List.foldl_append, List.foldl_cons, List.foldl_nil, placeAnswer, List.map_append]
      exact ih.snoc (answer key)

end Status

/-! ## `get` in front of shards that answer -/

section Get

variable {σ V : Type} [Zero V] {n : Nat}

/-- Over shards that answer each key they are sent, `get` places the answer of every key. -/
theorem get_answers {cluster : Cluster σ V} {answer : Nat → Int64 → ValueItem V} {Inv : σ → Prop}
    (clients : cluster.clientsNum = n) {w : World σ}
    (replies : ∀ i keys s, Inv s → ∃ s',
      cluster.queryKeys i keys w.dataVersion s = (.returned (keys.map (answer i)), s') ∧ Inv s')
    (inv : Inv w.shards) {keys : List Int64} (routed : ∀ key ∈ keys, Routed n key) :
    ∃ (placed : List Int64) (s' : σ), (∀ key, key ∈ placed ↔ key ∈ keys) ∧ Inv s' ∧
      get cluster keys w =
        (.ok (placed.foldl (placeAnswer (fun key => answer (shardOf n key) key) (position keys))
          ⟨.ok, List.replicate keys.length (ValueItem.init V)⟩), { w with shards := s' }) := by
  obtain ⟨shards, collect, length, contents⟩ := @shardInto_fresh n _ id keys routed
  have shard_replies : ∀ j shard, shards[j]? = some shard → ∀ s, Inv s →
      ∃ s', cluster.queryKeys (0 + j) shard w.dataVersion s =
        (.returned (shard.map fun key => answer (shardOf n key) key), s') ∧ Inv s' := by
    intro j shard found s s_inv
    obtain ⟨_, rfl⟩ := shard_eq_part length contents found
    obtain ⟨s', sent, s'_inv⟩ := replies (0 + j) (part (shardOf n) id keys j) s s_inv
    refine ⟨s', ?_, s'_inv⟩
    rw [sent]
    congr 2
    apply List.map_congr_left
    intro key member
    obtain ⟨_, rfl⟩ := (mem_part _).mp member
    rw [Nat.zero_add]
    rfl
  have same : ∀ key, key ∈ shards.flatten ↔ key ∈ keys :=
    mem_flatten_shards length contents routed
  have inside : ∀ key ∈ shards.flatten, position keys key <
      (List.replicate keys.length (ValueItem.init V)).length := by
    intro key member
    rw [List.length_replicate]
    exact position_lt ((same key).mp member)
  obtain ⟨results, s', run, s'_inv, gathered⟩ := @gather_answers V _ _ σ
    (fun i shard => cluster.queryKeys i shard w.dataVersion) Inv shards 0 shard_replies _ inv
    ⟨.ok, List.replicate keys.length (ValueItem.init V)⟩ inside
  refine ⟨shards.flatten, s', same, s'_inv, ?_⟩
  simp only [get, clients, collect, run, gathered]

/-- Shards that answer each key on its own; shard `i` answers `key` with `answer i key`. -/
def answering (n : Nat) (answer : Nat → Int64 → ValueItem V) : Cluster Unit V where
  clientsNum := n
  queryKeys i keys _ s := (.returned (keys.map (answer i)), s)
  insertKvs _ _ _ s := (.returned true, s)
  clearData _ _ s := (.returned true, s)

/-- The answer that a routed key gets. -/
def answerTo (n : Nat) (answer : Nat → Int64 → ValueItem V) (key : Int64) : ValueItem V :=
  answer (shardOf n key) key

variable {answer : Nat → Int64 → ValueItem V} {keys : List Int64}

/-- The response has an item for every position, which is the answer of the key there or
has never been written; its status is that of the answers. -/
theorem get_answering (routed : ∀ key ∈ keys, Routed n key) (w : World Unit) :
    ∃ response, (get (answering n answer) keys w).1 = .ok response ∧
      response.values.length = keys.length ∧
      (∀ i key, keys[i]? = some key → response.values[i]? =
        some (if position keys key = i then answerTo n answer key else ValueItem.init V)) ∧
      Overall response.status (keys.map (answerTo n answer)) := by
  have replies : ∀ i keys s, True → ∃ s', (answering n answer).queryKeys i keys w.dataVersion s =
      (.returned (keys.map (answer i)), s') ∧ True := fun i keys s _ => ⟨s, rfl, trivial⟩
  have clients : (answering n answer).clientsNum = n := rfl
  obtain ⟨placed, s', same, _, run⟩ := get_answers clients replies trivial routed
  rw [run]
  refine ⟨_, rfl, ?_, fun i key here => ?_, ?_⟩
  · rw [placeAnswers_length, List.length_replicate]
  · have inside := (List.getElem?_eq_some_iff.mp here).1
    rw [placeAnswers_getElem? same here List.length_replicate, List.getElem?_replicate_of_lt inside]
    split <;> rfl
  · refine (placeAnswers_overall _ _ _ placed).of_same fun kind _ => ?_
    simp only [List.mem_map, exists_exists_and_eq_and, same, answerTo]

/-- Every position of the response holds the answer of its key exactly when the keys that
are requested more than once are answered like a position that is never written: with a
`FOUND` item of value zero. -/
theorem get_items_positional_iff (n : Nat) (answer : Nat → Int64 → ValueItem V) (keys : List Int64)
    (routed : ∀ key ∈ keys, Routed n key) (w : World Unit) :
    ∃ response, (get (answering n answer) keys w).1 = .ok response ∧
      response.values.length = keys.length ∧
      ((∀ (i : Nat) (key : Int64), keys[i]? = some key →
          response.values[i]? = some (answer (shardOf n key) key)) ↔
        ∀ key ∈ keys, 1 < keys.count key → answer (shardOf n key) key = ⟨.found, 0⟩) := by
  obtain ⟨response, run, length, items, _⟩ := @get_answering V _ n answer keys routed w
  refine ⟨response, run, length, ?_⟩
  constructor
  · intro positional key member repeated
    obtain ⟨i, here, other⟩ := repeated_iff_position.mp repeated
    have item := items i key here
    rw [positional i key here, if_neg other] at item
    exact Option.some.inj item
  · intro unwritten i key here
    rw [items i key here]
    split
    next own => rfl
    next other =>
      have repeated := repeated_iff_position.mpr ⟨i, here, other⟩
      rw [unwritten key (List.mem_of_getElem? here) repeated]
      rfl

/-- One shard, and a request for two keys. -/
theorem get_items_positional_two_keys :
    ∃ response, (get (answering 1 fun _ key => ⟨.found, key.toInt⟩) [7, 9] ⟨0, false, ()⟩).1 =
        .ok response ∧
      response.values.length = 2 ∧ ∀ (i : Nat) (key : Int64), [7, 9][i]? = some key →
        response.values[i]? = some ⟨.found, key.toInt⟩ := by
  obtain ⟨response, run, length, positional⟩ :=
    get_items_positional_iff 1 (fun _ key => ⟨.found, key.toInt⟩) [7, 9]
      (List.forall_mem_cons.mpr ⟨by decide, List.forall_mem_singleton.mpr (by decide)⟩) ⟨0, false, ()⟩
  refine ⟨response, run, length, positional.mpr ?_⟩
  exact List.forall_mem_cons.mpr ⟨fun impossible => absurd impossible (by decide),
    List.forall_mem_singleton.mpr fun impossible => absurd impossible (by decide)⟩

/-- One shard, and a request that asks for the key `7` twice: the first position is not
written. -/
theorem get_items_repeated_key :
    ∃ response, (get (answering 1 fun _ key => ⟨.found, key.toInt⟩) [7, 7] ⟨0, false, ()⟩).1 =
        .ok response ∧
      response = ⟨.ok, [⟨.found, 0⟩, ⟨.found, 7⟩]⟩ ∧
      ¬∀ (i : Nat) (key : Int64), [7, 7][i]? = some key →
        response.values[i]? = some ⟨.found, key.toInt⟩ := by
  refine ⟨⟨.ok, [⟨.found, 0⟩, ⟨.found, 7⟩]⟩, by rfl, rfl, fun positional => ?_⟩
  exact absurd (positional 0 7 rfl) (by decide)

/-! ## The overall status -/

/-- The overall status is that of the items in the response, and that of the answers to
the keys.  It does not depend on the number of shards or on the order of the keys. -/
theorem get_overall_status (n : Nat) (answer : Nat → Int64 → ValueItem V) (keys : List Int64)
    (routed : ∀ key ∈ keys, Routed n key) (w : World Unit) :
    ∃ response, (get (answering n answer) keys w).1 = .ok response ∧
      Overall response.status response.values ∧
      Overall response.status (keys.map fun key => answer (shardOf n key) key) ∧
      ∀ (n' : Nat) (answer' : Nat → Int64 → ValueItem V) (keys' : List Int64) (w' : World Unit),
        (∀ key ∈ keys', Routed n' key) → (∀ key, key ∈ keys' ↔ key ∈ keys) →
        (∀ key ∈ keys, answer' (shardOf n' key) key = answer (shardOf n key) key) →
        ∃ response', (get (answering n' answer') keys' w').1 = .ok response' ∧
          response'.status = response.status := by
  obtain ⟨response, run, length, items, overall⟩ := @get_answering V _ n answer keys routed w
  refine ⟨response, run, overall.of_same fun kind kind_ne => ?_, overall, ?_⟩
  · -- the answer of a key is at its position, and an unwritten item is `FOUND`
    constructor
    · rintro ⟨item, member, rfl⟩
      obtain ⟨key, listed, rfl⟩ := List.mem_map.mp member
      have item := items _ key (getElem?_position listed)
      rw [if_pos rfl] at item
      exact ⟨_, List.mem_of_getElem? item, rfl⟩
    · rintro ⟨item, member, rfl⟩
      obtain ⟨i, here⟩ := List.mem_iff_getElem?.mp member
      obtain ⟨inside, _⟩ := List.getElem?_eq_some_iff.mp here
      have key_here := List.getElem?_eq_getElem (length ▸ inside)
      rw [items i _ key_here] at here
      cases here
      split at kind_ne
      next own => exact ⟨_, List.mem_map_of_mem (List.getElem_mem _), by rw [if_pos own]⟩
      next other => exact absurd rfl kind_ne
  · intro n' answer' keys' w' routed' same agree
    obtain ⟨response', run', _, _, overall'⟩ := @get_answering V _ n' answer' keys' routed' w'
    refine ⟨response', run', overall'.unique (overall.of_same fun kind _ => ?_)⟩
    simp only [List.mem_map, exists_exists_and_eq_and, same, answerTo]
    exact exists_congr fun key => and_congr_right fun listed => by rw [agree key listed]

/-- Two shards, a key that is stored and a key that is not. -/
theorem get_overall_status_two_shards :
    ∃ response, (get (answering 2 fun _ key => if key = 5 then ⟨.found, 1⟩ else ⟨.notFound, 0⟩)
        [4, 5] ⟨0, false, ()⟩).1 = .ok response ∧
      Overall response.status response.values := by
  obtain ⟨response, run, overall, _⟩ := get_overall_status 2
    (fun _ key => if key = 5 then ⟨.found, 1⟩ else ⟨.notFound, (0 : Nat)⟩) [4, 5]
    (List.forall_mem_cons.mpr ⟨by decide, List.forall_mem_singleton.mpr (by decide)⟩) ⟨0, false, ()⟩
  exact ⟨response, run, overall⟩

end Get

end CppProject.CannonProxy
