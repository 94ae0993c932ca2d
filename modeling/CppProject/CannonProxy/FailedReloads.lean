import CppProject.CannonProxy.Reloading

/-!
# Reloads that fail

A failing `reload` has already inserted blocks on many shards, and nothing is rolled
back.  All of that lies in the slots of the next version, whatever earlier reloads have
left there, and `get` looks only at the slots of the current one.
-/

namespace CppProject.CannonProxy

open Library

/-- A call of the handler. -/
inductive Call (V : Type) where
  | reload (call : ReloadCall V)
  | get (keys : List Int64)

/-- The proxy behind a sequence of calls, one after another. -/
def runCalls {σ V : Type} [Zero V] (cluster : Cluster σ V) : List (Call V) → World σ → World σ
  | [], w => w
  | .reload call :: rest, w => runCalls cluster rest (reload cluster call w).2
  | .get keys :: rest, w => runCalls cluster rest (get cluster keys w).2

/-! ## What a run of requests preserves -/

section Keep

variable {σ V : Type} {P : σ → Prop}

/-- What every request preserves holds behind all of them. -/
theorem enqueueAll_keeps {α β : Type} {send : Nat → List α → σ → Reply β × σ}
    (keeps : ∀ i shard s, P s → P (send i shard s).2) (i : Nat) (shards : List (List α)) {s : σ}
    (here : P s) : P (enqueueAll send i shards s).2 := by
  induction shards generalizing i s with
  | nil => exact here
  | cons shard rest ih =>
      unfold enqueueAll
      split
      · exact ih (i + 1) here
      · exact ih (i + 1) (keeps i shard s here)

variable {cluster : Cluster σ V} {dataVersion : Nat}

theorem insert_keeps (keeps : ∀ i shard s, P s → P (cluster.insertKvs i shard (dataVersion + 1) s).2)
    (kvs : List (CannonKV V)) {s : σ} (here : P s) : P (insert cluster kvs dataVersion s).2 := by
  unfold insert
  split
  · exact here
  · exact enqueueAll_keeps keeps 0 _ here

theorem insertBlocks_keeps
    (keeps : ∀ i shard s, P s → P (cluster.insertKvs i shard (dataVersion + 1) s).2)
    (ret : Bool) (blocks : List (List (CannonKV V))) {s : σ} (here : P s) :
    P (insertBlocks cluster dataVersion ret blocks s).2 := by
  induction blocks generalizing ret s with
  | nil => exact here
  | cons kvs rest ih =>
      unfold insertBlocks
      split
      · exact ih ret here
      · have inserted := insert_keeps keeps kvs here
        split
        next stop _ outcome => rwa [outcome] at inserted
        next accepted _ outcome =>
          rw [outcome] at inserted
          exact ih (ret && accepted) inserted

end Keep

/-! ## The slots of the current version -/

section Servers

variable {V : Type} [Zero V] {n : Nat}

/-- A reload that returns false keeps the version, and the slots of the version on every
server. -/
theorem reload_false_keeps {call : ReloadCall V} {w : World (Nat → Storage V)}
    (failed : (reload (servers V n) call w).1 = .ok false) :
    (reload (servers V n) call w).2.dataVersion = w.dataVersion ∧
      ∀ i, ((reload (servers V n) call w).2.shards i).slot w.dataVersion =
        (w.shards i).slot w.dataVersion := by
  have keeps : ∀ i shard (s : Nat → Storage V),
      (∀ j, (s j).slot w.dataVersion = (w.shards j).slot w.dataVersion) →
      ∀ j, (((servers V n).insertKvs i shard (w.dataVersion + 1) s).2 j).slot w.dataVersion =
        (w.shards j).slot w.dataVersion := by
    intro i shard s here j
    change (Function.update s i _ j).slot _ = _
    rcases eq_or_ne j i with rfl | other
    · rw [Function.update_self, ← here j]
      exact (handler_insert_spec _ _ _).2.2 _ (getIndex_succ_ne w.dataVersion).symm
    · rw [Function.update_of_ne other, here j]
  have inserted := insertBlocks_keeps keeps true call.blocks fun j => rfl
  unfold reload at failed ⊢
  split
  next busy => exact ⟨rfl, fun i => rfl⟩
  next free =>
    rw [if_neg free] at failed
    simp only at failed ⊢
    split
    next none =>
      rw [if_pos none] at failed
      cases failed
    next some =>
      rw [if_neg some] at failed
      split
      next stop s outcome =>
        rw [outcome] at failed
        cases failed
      next s outcome =>
        rw [outcome] at inserted
        exact ⟨rfl, inserted⟩
      next s outcome =>
        -- the cleared servers all return true
        obtain ⟨replies, s', cleared, await, _⟩ := clear_servers (n := n) w.dataVersion s
        rw [outcome] at failed
        simp only [servers_clientsNum, cleared, await] at failed
        cases failed

/-- The queries of a `get` depend on the slots of the version only, and change nothing. -/
theorem queries_congr {v : Nat} {s s' : Nat → Storage V} (same : ∀ i, (s' i).slot v = (s i).slot v)
    (i : Nat) (shards : List (List Int64)) :
    ∃ results,
      enqueueAll (fun i shard => (servers V n).queryKeys i shard v) i shards s = (results, s) ∧
      enqueueAll (fun i shard => (servers V n).queryKeys i shard v) i shards s' = (results, s') := by
  induction shards generalizing i with
  | nil => exact ⟨[], rfl, rfl⟩
  | cons shard rest ih =>
      obtain ⟨results, run, run'⟩ := ih (i + 1)
      unfold enqueueAll
      split
      · exact ⟨results, run, run'⟩
      · have answers : (CannonHandler.get (s' i) shard v).values =
            (CannonHandler.get (s i) shard v).values := by
          rw [handler_get_values, handler_get_values, same i]
        simp only [servers] at run run' ⊢
        rw [run, run', answers]
        exact ⟨_, rfl, rfl⟩

/-- Worlds of one version with the same slots of that version answer a `get` alike. -/
theorem get_congr {w w' : World (Nat → Storage V)} (version : w'.dataVersion = w.dataVersion)
    (same : ∀ i, (w'.shards i).slot w.dataVersion = (w.shards i).slot w.dataVersion)
    (keys : List Int64) : (get (servers V n) keys w').1 = (get (servers V n) keys w).1 := by
  unfold get
  split
  · rfl
  next shards collect =>
    obtain ⟨results, run, run'⟩ := @queries_congr V _ n _ _ _ same 0 shards
    rw [version]
    simp only [run, run']

theorem get_keeps (keys : List Int64) (w : World (Nat → Storage V)) :
    (get (servers V n) keys w).2 = w := by
  unfold get
  split
  · rfl
  next shards collect =>
    obtain ⟨results, run, _⟩ := @queries_congr V _ n w.dataVersion w.shards _ (fun i => rfl) 0 shards
    simp only [run]

theorem runCalls_gets (gets : List (List Int64)) (w : World (Nat → Storage V)) :
    runCalls (servers V n) (gets.map .get) w = w := by
  induction gets with
  | nil => rfl
  | cons keys rest ih => rw [List.map_cons, runCalls, get_keeps, ih]

/-- A reload that returns false, behind any history of calls, is invisible: until the next
reload every `get` responds as it would have done before. -/
theorem failed_reload_invisible (n : Nat) (history : List (Call V)) (call : ReloadCall V)
    (failed : (reload (servers V n) call
      (runCalls (servers V n) history (World.init V))).1 = .ok false)
    (gets : List (List Int64)) (keys : List Int64) :
    (get (servers V n) keys (runCalls (servers V n) (gets.map .get)
      (reload (servers V n) call (runCalls (servers V n) history (World.init V))).2)).1 =
    (get (servers V n) keys (runCalls (servers V n) history (World.init V))).1 := by
  obtain ⟨version, same⟩ := reload_false_keeps failed
  rw [runCalls_gets]
  exact get_congr version same keys

end Servers

/-- A model with a key twice behind a model that is served. -/
theorem failed_reload_invisible_duplicate_key :
    (reload (servers Nat 1) ⟨["b"], [[⟨7, 3⟩, ⟨7, 4⟩]]⟩
      (runCalls (servers Nat 1) [.reload ⟨["a"], [[⟨7, 1⟩]]⟩, .get [7]] (World.init Nat))).1 =
        .ok false ∧
    (get (servers Nat 1) [7, 8] (runCalls (servers Nat 1) [.get [9]]
      (reload (servers Nat 1) ⟨["b"], [[⟨7, 3⟩, ⟨7, 4⟩]]⟩
        (runCalls (servers Nat 1) [.reload ⟨["a"], [[⟨7, 1⟩]]⟩, .get [7]] (World.init Nat))).2)).1 =
      .ok ⟨.partialOk, [⟨.found, 1⟩, ⟨.notFound, 0⟩]⟩ := by
  have failed : (reload (servers Nat 1) ⟨["b"], [[⟨7, 3⟩, ⟨7, 4⟩]]⟩
      (runCalls (servers Nat 1) [.reload ⟨["a"], [[⟨7, 1⟩]]⟩, .get [7]] (World.init Nat))).1 =
        .ok false := by rfl
  refine ⟨failed, (failed_reload_invisible 1 _ _ failed [[9]] [7, 8]).trans ?_⟩
  rfl

end CppProject.CannonProxy
