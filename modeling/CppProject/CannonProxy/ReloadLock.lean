import CppProject.CannonProxy.Sharding

/-!
# The reload lock

`reload` takes the flag `_is_loading` in its first line.  Over any shards, and
whatever they reply, this module says which calls give it back.
-/

namespace CppProject.CannonProxy

open Library Library.Checked Library.Overlay

variable {σ V : Type}

/-- The vectors of pairs, one for every shard, that a block of routed pairs is
split into. -/
def shardLists (n : Nat) (kvs : List (CannonKV V)) : List (List (CannonKV V)) :=
  (List.range n).map (part (shardOf n) CannonKV.key kvs)

/-- The replies to the insert requests of a sequence of blocks, and the shards
behind them. -/
def insertReplies (cluster : Cluster σ V) (dataVersion : Nat) :
    List (List (CannonKV V)) → σ → List (Reply Bool) × σ
  | [], s => ([], s)
  | kvs :: rest, s =>
      let (first, s) := enqueueAll (fun i shard => cluster.insertKvs i shard (dataVersion + 1)) 0
        (shardLists cluster.clientsNum kvs) s
      let (others, s) := insertReplies cluster dataVersion rest s
      (first ++ others, s)

/-- The call has a path, all of its keys have a shard, and none of its RPCs
throws: no insert, and no clear if every insert has returned true. -/
structure Quiet (cluster : Cluster σ V) (call : ReloadCall V) (w : World σ) : Prop where
  paths : call.paths ≠ []
  routed : ∀ kv ∈ call.model, Routed cluster.clientsNum kv.key
  inserts : Reply.threw ∉ (insertReplies cluster w.dataVersion call.blocks w.shards).1
  clears : Reply.returned false ∉ (insertReplies cluster w.dataVersion call.blocks w.shards).1 →
    Reply.threw ∉ (clearAll cluster w.dataVersion cluster.clientsNum 0
      (insertReplies cluster w.dataVersion call.blocks w.shards).2).1

/-- Every call of the sequence is quiet in the state it starts from. -/
def AllQuiet (cluster : Cluster σ V) : List (ReloadCall V) → World σ → Prop
  | [], _ => True
  | call :: rest, w => Quiet cluster call w ∧ AllQuiet cluster rest (reload cluster call w).2

/-- The flag is clear between the calls and behind the last one. -/
def Released (cluster : Cluster σ V) (calls : List (ReloadCall V)) (w : World σ) : Prop :=
  ∀ earlier, earlier <+: calls → (reloadAll cluster earlier w).2.isLoading = false

/-! ## Awaiting replies -/

theorem awaitAll_of_notMem {replies : List (Reply Bool)} (quiet : Reply.threw ∉ replies) (ret : Bool) :
    awaitAll ret replies = .ok (ret && decide (Reply.returned false ∉ replies)) := by
  induction replies generalizing ret with
  | nil => simp [awaitAll]
  | cons reply rest ih =>
      obtain ⟨returned, rest_quiet⟩ := not_or.mp (mt List.mem_cons.mpr quiet)
      cases reply with
      | threw => exact absurd rfl returned
      | returned value =>
          rw [awaitAll, ih rest_quiet]
          cases value <;> simp

theorem awaitAll_of_mem {replies : List (Reply Bool)} (threw : Reply.threw ∈ replies) (ret : Bool) :
    awaitAll ret replies = .error .thrown := by
  induction replies generalizing ret with
  | nil => cases threw
  | cons reply rest ih =>
      cases reply with
      | threw => rfl
      | returned value => exact ih (by simpa using threw) _

/-! ## Inserting -/

theorem shardInto_lists {n : Nat} {kvs : List (CannonKV V)} (routed : ∀ kv ∈ kvs, Routed n kv.key) :
    shardInto CannonKV.key n kvs (List.replicate n []) = .ok (shardLists n kvs) := by
  obtain ⟨shards, collect, length, contents⟩ := shardInto_fresh routed
  rw [collect, shardLists]
  congr 1
  apply List.ext_getElem?
  intro i
  rcases Nat.lt_or_ge i n with inside | outside
  · rw [contents i inside, List.getElem?_map, List.getElem?_range inside]
    rfl
  · rw [List.getElem?_eq_none (by omega), List.getElem?_eq_none (by simpa using outside)]

/-- A block without pairs is no request. -/
theorem enqueueAll_shardLists_nil {β : Type} (send : Nat → List (CannonKV V) → σ → Reply β × σ)
    (n : Nat) (s : σ) : enqueueAll send 0 (shardLists n []) s = ([], s) := by
  have nothing : ∀ left i, enqueueAll send i (List.replicate left []) s = ([], s) := by
    intro left
    induction left with
    | zero => exact fun _ => rfl
    | succ left ih => exact fun i => ih (i + 1)
  have empty : shardLists n ([] : List (CannonKV V)) = List.replicate n [] := by
    simp [shardLists, part, List.eq_replicate_iff]
  rw [empty, nothing]

/-- `_insert` of routed pairs, when no shard throws. -/
theorem insertBlocks_quiet (cluster : Cluster σ V) (dataVersion : Nat)
    {blocks : List (List (CannonKV V))}
    (routed : ∀ kv ∈ blocks.flatten, Routed cluster.clientsNum kv.key) {s : σ}
    (quiet : Reply.threw ∉ (insertReplies cluster dataVersion blocks s).1) (ret : Bool) :
    insertBlocks cluster dataVersion ret blocks s =
      (.ok (ret && decide (Reply.returned false ∉ (insertReplies cluster dataVersion blocks s).1)),
        (insertReplies cluster dataVersion blocks s).2) := by
  induction blocks generalizing s ret with
  | nil => simp [insertBlocks, insertReplies]
  | cons kvs rest ih =>
      rw [List.flatten_cons] at routed
      have rest_routed := fun kv member => routed kv (List.mem_append_right kvs member)
      simp only [insertReplies, List.mem_append, not_or] at quiet ⊢
      cases kvs with
      | nil =>
          rw [enqueueAll_shardLists_nil] at quiet ⊢
          simpa [insertBlocks] using ih rest_routed quiet.2 ret
      | cons kv kvs =>
          have split := shardInto_lists fun other member =>
            routed other (List.mem_append_left rest.flatten member)
          simp only [insertBlocks, List.isEmpty_cons, Bool.false_eq_true, if_false, insert, split,
            awaitAll_of_notMem quiet.1, Bool.true_and]
          rw [ih rest_routed quiet.2, Bool.and_assoc, ← Bool.decide_and]

/-- A key without a shard or an exception of a shard stops the reading loop. -/
theorem insertBlocks_stops (cluster : Cluster σ V) (dataVersion : Nat)
    {blocks : List (List (CannonKV V))} {s : σ}
    (disturbed : (∃ kv ∈ blocks.flatten, ¬Routed cluster.clientsNum kv.key) ∨
      Reply.threw ∈ (insertReplies cluster dataVersion blocks s).1) (ret : Bool) :
    ∃ stop s', insertBlocks cluster dataVersion ret blocks s = (.error stop, s') := by
  induction blocks generalizing s ret with
  | nil => simp [insertReplies] at disturbed
  | cons kvs rest ih =>
      simp only [List.flatten_cons, List.mem_append, or_and_right, exists_or, insertReplies]
        at disturbed
      cases kvs with
      | nil =>
          rw [enqueueAll_shardLists_nil] at disturbed
          simp only [insertBlocks, List.isEmpty_nil, if_true]
          exact ih (by simpa using disturbed) ret
      | cons kv kvs =>
          simp only [insertBlocks, List.isEmpty_cons, Bool.false_eq_true, if_false, insert]
          by_cases routed : ∀ other ∈ kv :: kvs, Routed cluster.clientsNum other.key
          · rw [shardInto_lists routed]
            by_cases threw : Reply.threw ∈ (enqueueAll
                (fun i shard => cluster.insertKvs i shard (dataVersion + 1)) 0
                (shardLists cluster.clientsNum (kv :: kvs)) s).1
            · simp only [awaitAll_of_mem threw]
              exact ⟨.thrown, _, rfl⟩
            · simp only [awaitAll_of_notMem threw]
              apply ih
              rcases disturbed with (⟨other, own, astray⟩ | later) | own | later
              · exact absurd (routed other own) astray
              · exact Or.inl later
              · exact absurd own threw
              · exact Or.inr later
          · obtain ⟨fault, stop⟩ := @shardInto_unrouted cluster.clientsNum _ CannonKV.key (kv :: kvs)
              (by simpa only [not_forall, exists_prop] using routed)
              (List.replicate cluster.clientsNum []) List.length_replicate
            rw [stop]
            exact ⟨.fault fault, s, rfl⟩

/-! ## One call -/

section Call

variable {cluster : Cluster σ V} {call : ReloadCall V} {w : World σ}

/-- A call that stops while it inserts keeps the flag. -/
theorem reload_stops (idle : w.isLoading = false) (paths : call.paths ≠ [])
    (disturbed : (∃ kv ∈ call.model, ¬Routed cluster.clientsNum kv.key) ∨
      Reply.threw ∈ (insertReplies cluster w.dataVersion call.blocks w.shards).1) :
    ∃ stop next, reload cluster call w = (.error stop, next) ∧ next.isLoading = true := by
  obtain ⟨stop, s', run⟩ := insertBlocks_stops cluster w.dataVersion disturbed true
  have not_empty : call.paths.isEmpty = false := by
    simpa using paths
  refine ⟨stop, { w with isLoading := true, shards := s' }, ?_, rfl⟩
  simp only [reload, idle, Bool.false_eq_true, if_false, not_empty, run]

/-- A call on an idle proxy gives the flag back exactly when it is quiet. -/
theorem reload_released_iff (idle : w.isLoading = false) :
    (reload cluster call w).2.isLoading = false ↔ Quiet cluster call w := by
  by_cases paths : call.paths = []
  · have kept : (reload cluster call w).2.isLoading = true := by
      simp [reload, idle, paths]
    rw [kept]
    exact iff_of_false nofun fun quiet => quiet.paths paths
  by_cases disturbed : (∃ kv ∈ call.model, ¬Routed cluster.clientsNum kv.key) ∨
      Reply.threw ∈ (insertReplies cluster w.dataVersion call.blocks w.shards).1
  · obtain ⟨stop, next, run, kept⟩ := reload_stops idle paths disturbed
    rw [run, kept]
    refine iff_of_false nofun ?_
    rintro ⟨_, routed, inserts, _⟩
    rcases disturbed with ⟨kv, member, astray⟩ | threw
    · exact astray (routed kv member)
    · exact inserts threw
  · obtain ⟨routed, inserts⟩ := not_or.mp disturbed
    have all_routed : ∀ kv ∈ call.model, Routed cluster.clientsNum kv.key := by
      simpa using routed
    have quiet_iff : Quiet cluster call w ↔
        (Reply.returned false ∉ (insertReplies cluster w.dataVersion call.blocks w.shards).1 →
          Reply.threw ∉ (clearAll cluster w.dataVersion cluster.clientsNum 0
            (insertReplies cluster w.dataVersion call.blocks w.shards).2).1) :=
      ⟨Quiet.clears, fun clears => ⟨paths, all_routed, inserts, clears⟩⟩
    have not_empty : call.paths.isEmpty = false := by
      simpa using paths
    rw [quiet_iff]
    simp only [reload, idle, Bool.false_eq_true, if_false, not_empty,
      insertBlocks_quiet cluster w.dataVersion all_routed inserts, Bool.true_and]
    by_cases rejected : Reply.returned false ∈
        (insertReplies cluster w.dataVersion call.blocks w.shards).1
    · simp only [rejected, not_true, decide_false, false_implies]
    · simp only [rejected, not_false_eq_true, decide_true, true_implies]
      by_cases threw : Reply.threw ∈ (clearAll cluster w.dataVersion cluster.clientsNum 0
          (insertReplies cluster w.dataVersion call.blocks w.shards).2).1
      · simp only [awaitAll_of_mem threw, Bool.true_eq_false, threw, not_true]
      · simp only [awaitAll_of_notMem threw, threw, not_false_eq_true]

end Call

/-! ## Sequences of calls -/

theorem released_nil (cluster : Cluster σ V) {w : World σ} (idle : w.isLoading = false) :
    Released cluster [] w := by
  intro earlier initial
  rw [List.prefix_nil.mp initial]
  exact idle

theorem released_cons {cluster : Cluster σ V} {call : ReloadCall V} {rest : List (ReloadCall V)}
    {w : World σ} (idle : w.isLoading = false) :
    Released cluster (call :: rest) w ↔ Released cluster rest (reload cluster call w).2 := by
  constructor
  · intro released earlier initial
    exact released (call :: earlier) (List.cons_prefix_cons.mpr ⟨rfl, initial⟩)
  · intro released earlier initial
    cases earlier with
    | nil => exact idle
    | cons first earlier =>
        obtain ⟨rfl, later⟩ := List.cons_prefix_cons.mp initial
        exact released earlier later

theorem Released.idle {cluster : Cluster σ V} {calls : List (ReloadCall V)} {w : World σ}
    (released : Released cluster calls w) : w.isLoading = false :=
  released [] (List.nil_prefix)

/-- From the start of the proxy, in front of any shards, the flag is clear
whenever no call is running if and only if every call of the sequence has a path,
keys with shards only, and RPCs that do not throw. -/
theorem released_iff (cluster : Cluster σ V) (calls : List (ReloadCall V)) (shards : σ) :
    Released cluster calls ⟨0, false, shards⟩ ↔ AllQuiet cluster calls ⟨0, false, shards⟩ := by
  have from_idle : ∀ w : World σ, w.isLoading = false →
      (Released cluster calls w ↔ AllQuiet cluster calls w) := by
    induction calls with
    | nil => exact fun w idle => iff_of_true (released_nil cluster idle) trivial
    | cons call rest ih =>
        intro w idle
        rw [released_cons idle, AllQuiet, ← reload_released_iff idle]
        constructor
        · intro released
          exact ⟨released.idle, (ih _ released.idle).mp released⟩
        · rintro ⟨given_back, quiet⟩
          exact (ih _ given_back).mpr quiet
  exact from_idle _ rfl

/-- A reload of no files takes the flag and returns; no reload is accepted after it. -/
theorem not_released_empty_paths :
    ¬Released (servers Nat 1) [⟨[], []⟩] (World.init Nat) ∧
      (reloadAll (servers Nat 1) [⟨[], []⟩, ⟨["a"], [[⟨1, 10⟩]]⟩] (World.init Nat)).1 =
        [.ok true, .ok false] := by
  refine ⟨?_, rfl⟩
  intro released
  cases released [⟨[], []⟩] (List.prefix_refl _)

end CppProject.CannonProxy
