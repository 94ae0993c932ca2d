import CppProject.CannonProxy.Interleaving
import CppProject.CannonProxy.Reloading

/-!
# Uninterrupted calls

A `get` or `reload` call whose steps nothing interleaves with is the call in one
piece: the interleaved calls refine the sequential ones.
-/

namespace CppProject.CannonProxy

open Library Library.Checked Library.Runs

variable {V : Type} [Zero V] {n : Nat}

/-! ## Requests -/

theorem mem_requestsFrom {α : Type} {shards : List (List α)} {i : Nat} {shard : List α} :
    (i, shard) ∈ requestsFrom 0 shards ↔ shards[i]? = some shard ∧ shard ≠ [] := by
  rw [requestsFrom, List.mem_filterMap]
  constructor
  · rintro ⟨⟨shard', j⟩, listed, made⟩
    cases shard' with
    | nil => cases made
    | cons a rest =>
        cases made
        exact ⟨List.mk_mem_zipIdx_iff_getElem?.mp listed, List.cons_ne_nil a rest⟩
  · rintro ⟨found, filled⟩
    exact ⟨(shard, i), List.mk_mem_zipIdx_iff_getElem?.mpr found, if_neg (by simpa using filled)⟩

/-- The queries of a `get` call that nothing interleaves with. -/
theorem enqueueAll_queries (v : Nat) (shards : List (List Int64)) (i : Nat) (s : Nat → Storage V) :
    enqueueAll (fun i shard => (servers V n).queryKeys i shard v) i shards s =
      ((requestsFrom i shards).map fun request =>
        .returned (CannonHandler.get (s request.1) request.2 v).values, s) := by
  induction shards generalizing i with
  | nil => rfl
  | cons shard rest ih =>
      have others := ih (i + 1)
      cases shard with
      | nil => exact others
      | cons key keys =>
          simp only [enqueueAll, List.isEmpty_cons, Bool.false_eq_true, if_false]
          simp only [servers] at others ⊢
          rw [others]
          rfl

/-- A split of the keys that does not fault has one vector for every shard. -/
theorem length_of_shardInto {α : Type} {keyOf : α → Int64} {items : List α} {shards : List (List α)}
    (collect : shardInto keyOf n items (List.replicate n []) = .ok shards) :
    shards.length = n ∧ ∀ a ∈ items, Routed n (keyOf a) := by
  by_cases routed : ∀ a ∈ items, Routed n (keyOf a)
  · obtain ⟨filled, run, length, _⟩ := shardInto_fresh routed
    rw [run] at collect
    cases collect
    exact ⟨length, routed⟩
  · obtain ⟨fault, stop⟩ := shardInto_unrouted (by simpa using routed) List.length_replicate
    rw [stop] at collect
    cases collect

/-! ## `reload` -/

/-- Send the inserts of a block one after another, each processed at once. -/
theorem inserts_alone (ret : Bool) (blocks : List (List (CannonKV V))) (v : Nat)
    {shards : List (List (CannonKV V))} {i : Nat} (s : System V) {replies : List (Reply Bool)}
    {stored : Nat → Storage V}
    (sent : enqueueAll (fun i shard => (servers V n).insertKvs i shard v) i shards s.shards =
      (replies, stored)) {ret' : Bool} (awaited : awaitAll ret replies = .ok ret') :
    ∃ events, run (System.step n)
        { s with phase := .inserting ret blocks v (Round.start (requestsFrom i shards)) } events =
      some { s with shards := stored, phase := .inserting ret' blocks v (Round.start []) } := by
  induction shards generalizing i s ret replies with
  | nil =>
      cases sent
      cases awaited
      exact ⟨[], rfl⟩
  | cons shard rest ih =>
      cases shard with
      | nil => exact ih ret s sent awaited
      | cons kv kvs =>
          obtain ⟨inserted, here⟩ : ∃ inserted,
              CannonHandler.insert v (kv :: kvs) (s.shards i) = inserted := ⟨_, rfl⟩
          cases later : enqueueAll (fun i shard => (servers V n).insertKvs i shard v) (i + 1) rest
              (Function.update s.shards i inserted.2) with
          | mk others last =>
              have whole : enqueueAll (fun i shard => (servers V n).insertKvs i shard v) i
                  ((kv :: kvs) :: rest) s.shards = (.returned inserted.1 :: others, last) := by
                simp only [enqueueAll, List.isEmpty_cons, Bool.false_eq_true, if_false]
                simp only [servers, here] at later ⊢
                rw [later]
              rw [whole] at sent
              cases sent
              obtain ⟨events, others_run⟩ := ih (ret && inserted.1)
                { s with shards := Function.update s.shards i inserted.2 } later awaited
              have send : System.step n { s with
                    phase := .inserting ret blocks v
                      (Round.start (requestsFrom i ((kv :: kvs) :: rest))) }
                  (.reload .enqueueInsert) = some { s with
                    phase := .inserting ret blocks v
                      ⟨requestsFrom (i + 1) rest, [(i, kv :: kvs)]⟩ } := rfl
              have process : System.step n { s with
                    phase := .inserting ret blocks v
                      ⟨requestsFrom (i + 1) rest, [(i, kv :: kvs)]⟩ }
                  (.reload (.insert i)) = some { s with
                    shards := Function.update s.shards i inserted.2
                    phase := .inserting (ret && inserted.1) blocks v
                      (Round.start (requestsFrom (i + 1) rest)) } := by
                simp only [System.step, System.stepReload, Round.take_single, here, Round.start]
              refine ⟨.reload .enqueueInsert :: .reload (.insert i) :: events, ?_⟩
              rw [run_cons_of_step send, run_cons_of_step process]
              exact others_run

/-- Send the clears of a version one after another, each processed at once. -/
theorem clears_alone (ret : Bool) (v left i : Nat) (s : System V) {replies : List (Reply Bool)}
    {stored : Nat → Storage V}
    (sent : clearAll (servers V n) v left i s.shards = (replies, stored)) {ret' : Bool}
    (awaited : awaitAll ret replies = .ok ret') :
    ∃ events, run (System.step n)
        { s with phase := .clearing ret v (Round.start ((List.range' i left).map (·, ()))) } events =
      some { s with shards := stored, phase := .clearing ret' v (Round.start []) } := by
  induction left generalizing i s ret replies with
  | zero =>
      cases sent
      cases awaited
      exact ⟨[], rfl⟩
  | succ left ih =>
      cases later : clearAll (servers V n) v left (i + 1)
          (Function.update s.shards i ((s.shards i).clearData v)) with
      | mk others last =>
          have whole : clearAll (servers V n) v (left + 1) i s.shards =
              (.returned true :: others, last) := by
            simp only [clearAll]
            simp only [servers, CannonHandler.clearData] at later ⊢
            rw [later]
          rw [whole] at sent
          cases sent
          obtain ⟨events, others_run⟩ := ih (ret && true) (i + 1)
            { s with shards := Function.update s.shards i ((s.shards i).clearData v) } later awaited
          have send : System.step n { s with
                phase := .clearing ret v (Round.start ((List.range' i (left + 1)).map (·, ()))) }
              (.reload .enqueueClear) = some { s with
                phase := .clearing ret v ⟨(List.range' (i + 1) left).map (·, ()), [(i, ())]⟩ } := rfl
          have process : System.step n { s with
                phase := .clearing ret v ⟨(List.range' (i + 1) left).map (·, ()), [(i, ())]⟩ }
              (.reload (.clear v i)) = some { s with
                shards := Function.update s.shards i ((s.shards i).clearData v)
                phase := .clearing (ret && true) v
                  (Round.start ((List.range' (i + 1) left).map (·, ()))) } := by
            simp only [System.step, System.stepReload, Round.take_single, if_true,
              CannonHandler.clearData, Round.start]
          refine ⟨.reload .enqueueClear :: .reload (.clear v i) :: events, ?_⟩
          rw [run_cons_of_step send, run_cons_of_step process]
          exact others_run

theorem awaitAll_eq_map (ret : Bool) (replies : List (Reply Bool)) :
    awaitAll ret replies = (awaitAll true replies).map (ret && ·) := by
  induction replies generalizing ret with
  | nil => simp [awaitAll, Except.map]
  | cons reply rest ih =>
      cases reply with
      | threw => rfl
      | returned value =>
          rw [awaitAll, awaitAll, ih (ret && value), ih (true && value)]
          cases awaitAll true rest <;> simp [Except.map, Bool.and_assoc]

/-- The reading loop of a `reload` call. -/
theorem blocks_alone (ret : Bool) {blocks : List (List (CannonKV V))} (s : System V) {ret' : Bool}
    {stored : Nat → Storage V}
    (inserted : insertBlocks (servers V n) s.dataVersion ret blocks s.shards = (.ok ret', stored)) :
    ∃ events, run (System.step n) { s with phase := .reading ret blocks } events =
      some { s with shards := stored, phase := .reading ret' [] } := by
  induction blocks generalizing s ret with
  | nil =>
      cases inserted
      exact ⟨[], rfl⟩
  | cons kvs rest ih =>
      cases kvs with
      | nil =>
          obtain ⟨events, rest_run⟩ := ih ret s inserted
          have skip : System.step n { s with phase := .reading ret ([] :: rest) }
              (.reload .nextBlock) = some { s with phase := .reading ret rest } := rfl
          exact ⟨.reload .nextBlock :: events, by rw [run_cons_of_step skip, rest_run]⟩
      | cons kv kvs =>
          simp only [insertBlocks, List.isEmpty_cons, Bool.false_eq_true, if_false, insert,
            servers_clientsNum] at inserted
          cases collected : shardInto CannonKV.key n (kv :: kvs) (List.replicate n []) with
          | error fault =>
              rw [collected] at inserted
              cases inserted
          | ok shards =>
              cases sent : enqueueAll
                  (fun i shard => (servers V n).insertKvs i shard (s.dataVersion + 1)) 0 shards
                  s.shards with
              | mk replies middle =>
                  simp only [collected, sent] at inserted
                  cases awaited : awaitAll true replies with
                  | error stop =>
                      rw [awaited] at inserted
                      cases inserted
                  | ok accepted =>
                      rw [awaited] at inserted
                      have all_awaited : awaitAll ret replies = .ok (ret && accepted) := by
                        rw [awaitAll_eq_map, awaited]
                        rfl
                      obtain ⟨first, block_run⟩ := inserts_alone ret rest _ s sent all_awaited
                      obtain ⟨second, rest_run⟩ :=
                        ih (ret && accepted) { s with shards := middle } inserted
                      have start : System.step n { s with phase := .reading ret ((kv :: kvs) :: rest) }
                          (.reload .nextBlock) = some { s with
                            phase := .inserting ret rest (s.dataVersion + 1)
                              (Round.start (requestsFrom 0 shards)) } := by
                        simp only [System.step, System.stepReload, List.isEmpty_cons,
                          Bool.false_eq_true, if_false, collected]
                      have stop : System.step n { s with
                            shards := middle
                            phase := .inserting (ret && accepted) rest (s.dataVersion + 1)
                              (Round.start []) }
                          (.reload .endBlock) = some { s with
                            shards := middle
                            phase := .reading (ret && accepted) rest } := rfl
                      refine ⟨.reload .nextBlock :: (first ++ .reload .endBlock :: second), ?_⟩
                      rw [run_cons_of_step start]
                      refine run_append block_run ?_
                      rw [run_cons_of_step stop]
                      exact rest_run

section Reload

variable {call : ReloadCall V} {s : System V} {ret : Bool} {stored : Nat → Storage V}

/-- The start of a `reload` call that is let in. -/
theorem begin_reload (free : s.isLoading = false) (paths : call.paths ≠ []) :
    s.step n (.beginReload call) =
      some { s with isLoading := true, phase := .reading true call.blocks } := by
  have not_empty : call.paths.isEmpty = false := by
    simpa using paths
  simp only [System.step, free, not_empty, Bool.false_eq_true, if_false]

/-- The run of a call behind a rejected insert. -/
theorem reload_rejected (free : s.isLoading = false) (paths : call.paths ≠ [])
    (inserted : insertBlocks (servers V n) s.dataVersion true call.blocks s.shards =
      (.ok false, stored)) :
    ∃ events, run (System.step n) s events = some ({ s with shards := stored }.returnReload false) := by
  obtain ⟨events, blocks_run⟩ := blocks_alone true { s with isLoading := true } inserted
  have stop : System.step n
      { s with isLoading := true, shards := stored, phase := .reading false [] } (.reload .giveUp) =
        some ({ s with shards := stored }.returnReload false) := rfl
  refine ⟨.beginReload call :: (events ++ [.reload .giveUp]), ?_⟩
  rw [run_cons_of_step (begin_reload free paths)]
  exact run_snoc.mpr ⟨_, blocks_run, stop⟩

/-- The run of a call whose inserts are all accepted. -/
theorem reload_accepted (free : s.isLoading = false) (paths : call.paths ≠ [])
    (inserted : insertBlocks (servers V n) s.dataVersion true call.blocks s.shards =
      (.ok true, stored)) {replies : List (Reply Bool)} {last : Nat → Storage V}
    (cleared : clearAll (servers V n) s.dataVersion n 0 stored = (replies, last))
    (awaited : awaitAll true replies = .ok ret) :
    ∃ events, run (System.step n) s events =
      some ({ s with dataVersion := s.dataVersion + 1, shards := last }.returnReload ret) := by
  obtain ⟨first, blocks_run⟩ := blocks_alone true { s with isLoading := true } inserted
  obtain ⟨second, clears_run⟩ := clears_alone true s.dataVersion n 0
    { s with dataVersion := s.dataVersion + 1, isLoading := true, shards := stored } cleared awaited
  have publish : System.step n
      { s with isLoading := true, shards := stored, phase := .reading true [] } (.reload .publish) =
        some { s with
          dataVersion := s.dataVersion + 1
          isLoading := true
          shards := stored
          phase := .clearing true s.dataVersion (Round.start ((List.range' 0 n).map (·, ()))) } := by
    simp only [System.step, System.stepReload, List.range_eq_range']
  have stop : System.step n
      { s with
        dataVersion := s.dataVersion + 1
        isLoading := true
        shards := last
        phase := .clearing ret s.dataVersion (Round.start []) } (.reload .finish) =
        some ({ s with dataVersion := s.dataVersion + 1, shards := last }.returnReload ret) := rfl
  refine ⟨.beginReload call :: (first ++ .reload .publish :: (second ++ [.reload .finish])), ?_⟩
  rw [run_cons_of_step (begin_reload free paths)]
  refine run_append blocks_run ?_
  rw [run_cons_of_step publish]
  exact run_snoc.mpr ⟨_, clears_run, stop⟩

/-- A `reload` call that returns, from a state without a running one, is a run of its steps
with the same end. -/
theorem reload_uninterrupted (idle : s.phase = .idle) {w : World (Nat → Storage V)}
    (returns : reload (servers V n) call s.toWorld = (.ok ret, w)) :
    ∃ events, run (System.step n) s events = some ⟨w, s.gets, s.returned ++ [ret], .idle⟩ := by
  obtain ⟨⟨dataVersion, isLoading, shards⟩, gets, returned, phase⟩ := s
  cases idle
  cases isLoading with
  | true =>
      cases returns
      exact ⟨[.beginReload call], rfl⟩
  | false =>
      by_cases paths : call.paths = []
      · simp only [reload, paths, List.isEmpty_nil, Bool.false_eq_true, if_false, if_true] at returns
        cases returns
        refine ⟨[.beginReload call], ?_⟩
        simp [run, System.step, paths]
      · have not_empty : call.paths.isEmpty = false := by
          simpa using paths
        simp only [reload, not_empty, Bool.false_eq_true, if_false, servers_clientsNum] at returns
        split at returns
        · cases returns
        next stored inserted =>
          cases returns
          exact reload_rejected rfl paths inserted
        next stored inserted =>
          cases cleared : clearAll (servers V n) dataVersion n 0 stored with
          | mk replies last =>
              simp only [cleared] at returns
              cases awaited : awaitAll true replies with
              | error stop =>
                  rw [awaited] at returns
                  cases returns
              | ok all =>
                  rw [awaited] at returns
                  cases returns
                  exact reload_accepted rfl paths inserted cleared awaited

end Reload

/-! ## `get` -/

/-- When every future holds what its shard answers in a state, the response is that of
a `get` call in this state. -/
theorem gather_replies {call : GetCall V} (w : World (Nat → Storage V))
    (collected : shardInto id n call.keys (List.replicate n []) = .ok call.shardingKeys)
    (results : ∀ request ∈ requestsFrom 0 call.shardingKeys, call.results request.1 =
      some (request.2.map fun key => itemOf ((w.shards request.1).slot w.dataVersion key))) :
    gather (keyIdxFrom 0 (fun _ => 0) call.keys) call.shardingKeys call.replies
        ⟨.ok, List.replicate call.keys.length (ValueItem.init V)⟩ =
      (get (servers V n) call.keys w).1 := by
  have replies : call.replies = (requestsFrom 0 call.shardingKeys).map fun request =>
      .returned (CannonHandler.get (w.shards request.1) request.2 w.dataVersion).values := by
    rw [GetCall.replies, ← List.filterMap_eq_map]
    apply List.filterMap_congr
    rintro ⟨i, keys⟩ member
    simp only [results (i, keys) member, Option.map_some, Function.comp_apply, handler_get_values]
  have clients : (servers V n).clientsNum = n := rfl
  simp only [get, clients, collected, enqueueAll_queries, replies]

omit [Zero V] in
theorem System.setGet_setGet (s : System V) (g : Nat) (call next : GetCall V) :
    (s.setGet g call).setGet g next = s.setGet g next := by
  simp only [System.setGet, Function.update_idem]

/-- A step of a `get` call. -/
theorem step_get {s : System V} {g : Nat} {call next : GetCall V} {event : GetEvent}
    (here : call.step s.toWorld event = some next) :
    (s.setGet g call).step n (.get g event) = some (s.setGet g next) := by
  have known : (s.setGet g call).gets g = some call := Function.update_self _ _ _
  have same_world : (s.setGet g call).toWorld = s.toWorld := rfl
  simp only [System.step, known, same_world, here, System.setGet_setGet]

/-- Send the queries of a `get` call one after another, each processed at once. -/
theorem queries_alone {g v : Nat} (s : System V) {shards : List (List Int64)} {i : Nat}
    {call : GetCall V} (read : call.dataVersion = some v) :
    ∃ events results, run (System.step n)
        (s.setGet g { call with queries := Round.start (requestsFrom i shards) }) events =
          some (s.setGet g { call with queries := Round.start [], results := results }) ∧
      (∀ request ∈ requestsFrom i shards, results request.1 =
        some (CannonHandler.get (s.shards request.1) request.2 v).values) ∧
      ∀ j, j < i → results j = call.results j := by
  induction shards generalizing i call with
  | nil => exact ⟨[], call.results, rfl, nofun, fun _ _ => rfl⟩
  | cons shard rest ih =>
      cases shard with
      | nil =>
          obtain ⟨events, results, rest_run, answered, before⟩ := ih (i := i + 1) read
          exact ⟨events, results, rest_run, answered, fun j lower => before j (Nat.lt_succ_of_lt lower)⟩
      | cons key keys =>
          obtain ⟨events, results, rest_run, answered, before⟩ := @ih (i + 1) { call with
            results := Function.update call.results i
              (some (CannonHandler.get (s.shards i) (key :: keys) v).values) } read
          have send : (s.setGet g { call with
                queries := Round.start (requestsFrom i ((key :: keys) :: rest)) }).step n
              (.get g .enqueueQuery) = some (s.setGet g { call with
                queries := ⟨requestsFrom (i + 1) rest, [(i, key :: keys)]⟩ }) := step_get rfl
          have process : (s.setGet g { call with
                queries := ⟨requestsFrom (i + 1) rest, [(i, key :: keys)]⟩ }).step n
              (.get g (.query i)) = some (s.setGet g { call with
                queries := Round.start (requestsFrom (i + 1) rest)
                results := Function.update call.results i
                  (some (CannonHandler.get (s.shards i) (key :: keys) v).values) }) := by
            apply step_get
            simp only [GetCall.step, read, Round.take_single, Round.start]
          refine ⟨.get g .enqueueQuery :: .get g (.query i) :: events, results, ?_, ?_, ?_⟩
          · rw [run_cons_of_step send, run_cons_of_step process]
            exact rest_run
          · refine List.forall_mem_cons.mpr ⟨?_, answered⟩
            exact (before i (Nat.lt_succ_self i)).trans (Function.update_self i _ _)
          · intro j lower
            exact (before j (Nat.lt_succ_of_lt lower)).trans
              (Function.update_of_ne (Nat.ne_of_lt lower) _ _)

/-- A `get` call that returns is a run of its steps with the same response. -/
theorem get_uninterrupted {g : Nat} {s : System V} (new : s.gets g = none) {keys : List Int64}
    {response : CannonResponse V} {w : World (Nat → Storage V)}
    (returns : get (servers V n) keys s.toWorld = (.ok response, w)) :
    w = s.toWorld ∧ ∃ events call, run (System.step n) s events = some (s.setGet g call) ∧
      call.response = some (.ok response) := by
  cases collected : shardInto id n keys (List.replicate n []) with
  | error fault =>
      simp only [get, servers_clientsNum, collected] at returns
      cases returns
  | ok shards =>
      have world : w = s.toWorld := by
        simp only [get, servers_clientsNum, collected, enqueueAll_queries] at returns
        exact (congrArg Prod.snd returns).symm
      refine ⟨world, ?_⟩
      have start : s.step n (.beginGet g keys) =
          some (s.setGet g ⟨keys, shards, none, Round.start [], fun _ => none, none⟩) := by
        simp only [System.step, new, collected]
      have read : (s.setGet g ⟨keys, shards, none, Round.start [], fun _ => none, none⟩).step n
          (.get g .readVersion) = some (s.setGet g ⟨keys, shards, some s.dataVersion,
            Round.start (requestsFrom 0 shards), fun _ => none, none⟩) := step_get rfl
      obtain ⟨events, results, queries_run, answered, _⟩ := @queries_alone V _ n g s.dataVersion s
        shards 0 ⟨keys, shards, some s.dataVersion, Round.start (requestsFrom 0 shards),
          fun _ => none, none⟩ rfl
      have finish : (s.setGet g ⟨keys, shards, some s.dataVersion, Round.start [], results, none⟩).step n
          (.get g .finish) = some (s.setGet g ⟨keys, shards, some s.dataVersion, Round.start [],
            results, some (.ok response)⟩) := by
        apply step_get
        have gathered := @gather_replies V _ n
          ⟨keys, shards, some s.dataVersion, Round.start [], results, none⟩ s.toWorld collected
          (fun request member => by simp only [answered request member, handler_get_values])
        have done : (Round.start ([] : List (Nat × List Int64))).isDone = true := rfl
        rw [returns] at gathered
        simp only [GetCall.step, done, if_true, gathered]
      refine ⟨.beginGet g keys :: .get g .readVersion :: (events ++ [.get g .finish]),
        ⟨keys, shards, some s.dataVersion, Round.start [], results, some (.ok response)⟩, ?_, rfl⟩
      rw [run_cons_of_step start, run_cons_of_step read]
      exact run_snoc.mpr ⟨_, queries_run, finish⟩

end CppProject.CannonProxy
