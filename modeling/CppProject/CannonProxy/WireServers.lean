import CppProject.CannonProxy.Connection
import CppProject.CannonProxy.Sharding

/-!
# The proxy in front of its connections

The cluster of shards as the proxy reaches it: every call is written to an idle connection,
served there, and its reply is read.  What the proxy computes over the connections is what
it computes over the shards themselves.
-/

namespace CppProject.CannonProxy

open Library Library.Wire

variable {B V Y : Type} [Zero V] (P : Protocol B V Y)

/-- One call on an idle connection: what the client reads, and the storage behind it. -/
def Request.call (request : Request V) (s : Storage V) :
    Option (Except ApplicationException (Answer V) × Storage V) := do
  let (serve, _) ← (Interface.CannonProcessor.process P).run (request.sent P)
  let (reply, s) := serve s
  let (outcome, _) ← (request.received P).run reply
  some (outcome, s)

/-- The cannon servers behind connections.  An exception of the calling layer, or of the
protocol, ends in the future. -/
def wireServers (n : Nat) : Cluster (Nat → Storage V) V where
  clientsNum := n
  queryKeys i keys dataVersion s :=
    match (Request.get keys dataVersion).call P (s i) with
    | some (.ok (.values values), stored) => (.returned values, Function.update s i stored)
    | some (_, stored) => (.threw, Function.update s i stored)
    | none => (.threw, s)
  insertKvs i kvs dataVersion s :=
    match (Request.insert kvs dataVersion).call P (s i) with
    | some (.ok (.ret ret), stored) => (.returned ret, Function.update s i stored)
    | some (_, stored) => (.threw, Function.update s i stored)
    | none => (.threw, s)
  clearData i dataVersion s :=
    match (Request.clearData dataVersion : Request V).call P (s i) with
    | some (.ok (.ret ret), stored) => (.returned ret, Function.update s i stored)
    | some (_, stored) => (.threw, Function.update s i stored)
    | none => (.threw, s)

section Laws

variable {P}

theorem Request.call_eq {request : Request V} (fits : request.Fits) (s : Storage V) :
    request.call P s = some (.ok (request.serve s).1, (request.serve s).2) := by
  obtain ⟨serve, takes, each⟩ := Request.works (P := P) fits
  obtain ⟨reads, storage⟩ := each s
  have served : (Interface.CannonProcessor.process P).run (request.sent P) = some (serve, []) := takes.run_self
  have received : (request.received P).run (serve s).1 = some (.ok (request.serve s).1, []) := reads.run_self
  simp only [Request.call, served, received, storage, Option.bind_eq_bind, Option.bind_some]
  rfl

variable {n : Nat}

theorem wire_queryKeys {keys : List Int64} (short : keys.length < sizeLimit) (i dataVersion : Nat)
    (s : Nat → Storage V) :
    (wireServers P n).queryKeys i keys dataVersion s = (servers V n).queryKeys i keys dataVersion s := by
  have fits : (Request.get keys dataVersion : Request V).Fits := short
  simp only [wireServers, Request.call_eq fits, Request.serve, servers, Function.update_eq_self]

theorem wire_insertKvs {kvs : List (CannonKV V)} (short : kvs.length < sizeLimit) (i dataVersion : Nat)
    (s : Nat → Storage V) :
    (wireServers P n).insertKvs i kvs dataVersion s = (servers V n).insertKvs i kvs dataVersion s := by
  have fits : (Request.insert kvs dataVersion : Request V).Fits := short
  simp only [wireServers, Request.call_eq fits, Request.serve, servers]

theorem wire_clearData (i dataVersion : Nat) (s : Nat → Storage V) :
    (wireServers P n).clearData i dataVersion s = (servers V n).clearData i dataVersion s := by
  have fits : (Request.clearData dataVersion : Request V).Fits := trivial
  simp only [wireServers, Request.call_eq fits, Request.serve, servers]

/-! ## The calls of the proxy -/

theorem enqueueAll_congr {α β σ : Type} {send send' : Nat → List α → σ → Reply β × σ}
    {shards : List (List α)} (same : ∀ shard ∈ shards, ∀ i s, send i shard s = send' i shard s) (i : Nat)
    (s : σ) : enqueueAll send i shards s = enqueueAll send' i shards s := by
  induction shards generalizing i s with
  | nil => rfl
  | cons shard rest ih =>
      obtain ⟨here, others⟩ := List.forall_mem_cons.mp same
      simp only [enqueueAll, here, ih others]

/-- No shard gets more than there is. -/
theorem length_shardInto {α : Type} {keyOf : α → Int64} {items : List α} {shards : List (List α)}
    (run : shardInto keyOf n items (List.replicate n []) = .ok shards) :
    ∀ shard ∈ shards, shard.length ≤ items.length := by
  by_cases routed : ∀ a ∈ items, Routed n (keyOf a)
  · obtain ⟨filled, fresh, length, contents⟩ := shardInto_fresh routed
    cases run.symm.trans fresh
    intro shard member
    obtain ⟨i, found⟩ := List.mem_iff_getElem?.mp member
    obtain ⟨_, rfl⟩ := shard_eq_part length contents found
    exact List.length_filter_le _ _
  · push Not at routed
    obtain ⟨fault, stop⟩ := @shardInto_unrouted n _ keyOf items routed _ List.length_replicate
    cases run.symm.trans stop

theorem wire_get {keys : List Int64} (short : keys.length < sizeLimit) (w : World (Nat → Storage V)) :
    get (wireServers P n) keys w = get (servers V n) keys w := by
  have number : (wireServers P n).clientsNum = (servers V n).clientsNum := rfl
  unfold get
  rw [number]
  cases run : shardInto id (servers V n).clientsNum keys (List.replicate (servers V n).clientsNum []) with
  | error fault => rfl
  | ok shards =>
      have same : ∀ shard ∈ shards, ∀ i (s : Nat → Storage V),
          (wireServers P n).queryKeys i shard w.dataVersion s = (servers V n).queryKeys i shard w.dataVersion s :=
        fun shard member i s =>
          wire_queryKeys ((length_shardInto run shard member).trans_lt short) i w.dataVersion s
      simp only [enqueueAll_congr same]

theorem wire_insert {kvs : List (CannonKV V)} (short : kvs.length < sizeLimit) (dataVersion : Nat)
    (s : Nat → Storage V) :
    insert (wireServers P n) kvs dataVersion s = insert (servers V n) kvs dataVersion s := by
  have number : (wireServers P n).clientsNum = (servers V n).clientsNum := rfl
  unfold insert
  rw [number]
  cases run : shardInto CannonKV.key (servers V n).clientsNum kvs
      (List.replicate (servers V n).clientsNum []) with
  | error fault => rfl
  | ok shards =>
      have same : ∀ shard ∈ shards, ∀ i (s : Nat → Storage V),
          (wireServers P n).insertKvs i shard (dataVersion + 1) s =
            (servers V n).insertKvs i shard (dataVersion + 1) s :=
        fun shard member i s =>
          wire_insertKvs ((length_shardInto run shard member).trans_lt short) i (dataVersion + 1) s
      simp only [enqueueAll_congr same]

theorem wire_insertBlocks {blocks : List (List (CannonKV V))}
    (short : ∀ kvs ∈ blocks, kvs.length < sizeLimit) (dataVersion : Nat) (ret : Bool)
    (s : Nat → Storage V) :
    insertBlocks (wireServers P n) dataVersion ret blocks s = insertBlocks (servers V n) dataVersion ret blocks s := by
  induction blocks generalizing ret s with
  | nil => rfl
  | cons kvs rest ih =>
      obtain ⟨here, others⟩ := List.forall_mem_cons.mp short
      simp only [insertBlocks, wire_insert here, ih others]

theorem wire_clearAll (dataVersion left i : Nat) (s : Nat → Storage V) :
    clearAll (wireServers P n) dataVersion left i s = clearAll (servers V n) dataVersion left i s := by
  induction left generalizing i s with
  | zero => rfl
  | succ left ih => simp only [clearAll, wire_clearData, ih]

theorem wire_reload {call : ReloadCall V} (short : ∀ kvs ∈ call.blocks, kvs.length < sizeLimit)
    (w : World (Nat → Storage V)) :
    reload (wireServers P n) call w = reload (servers V n) call w := by
  have number : (wireServers P n).clientsNum = (servers V n).clientsNum := rfl
  simp only [reload, wire_insertBlocks short, wire_clearAll, number]

end Laws

/-- The proxy over the connections of its shards is the proxy over the shards: for every
sequence of `reload` calls whose blocks of pairs fit the size fields, and then every `get`
with fewer than 2³¹ keys, the results and what is left in the shards are the same, also
where a call faults.  The versions may have wrapped around on the wire. -/
theorem proxy_over_connections (P : Protocol B V Y) (n : Nat) (calls : List (ReloadCall V))
    (short : ∀ call ∈ calls, ∀ kvs ∈ call.blocks, kvs.length < sizeLimit) (keys : List Int64)
    (few : keys.length < sizeLimit) (w : World (Nat → Storage V)) :
    reloadAll (wireServers P n) calls w = reloadAll (servers V n) calls w ∧
    get (wireServers P n) keys (reloadAll (wireServers P n) calls w).2 =
      get (servers V n) keys (reloadAll (servers V n) calls w).2 := by
  have reloads : ∀ w, reloadAll (wireServers P n) calls w = reloadAll (servers V n) calls w := by
    induction calls with
    | nil => exact fun _ => rfl
    | cons call rest ih =>
        obtain ⟨here, others⟩ := List.forall_mem_cons.mp short
        intro w
        simp only [reloadAll, wire_reload here, ih others]
  rw [reloads w]
  exact ⟨rfl, wire_get few _⟩

/-- A model of two pairs over two shards, and a request for its keys and a third one, in the
binary protocol. -/
theorem proxy_over_connections_two_shards :
    (reloadAll (wireServers binaryProtocol 2) [⟨["model"], [[⟨1, 10⟩, ⟨2, 20⟩]]⟩]
      (World.init (BitVec 64))).1 = [.ok true] ∧
    (get (wireServers binaryProtocol 2) [1, 2, 3] (reloadAll (wireServers binaryProtocol 2)
      [⟨["model"], [[⟨1, 10⟩, ⟨2, 20⟩]]⟩] (World.init (BitVec 64))).2).1 =
        .ok ⟨.partialOk, [⟨.found, 10⟩, ⟨.found, 20⟩, ⟨.notFound, 0⟩]⟩ := by
  obtain ⟨reloads, answers⟩ := proxy_over_connections binaryProtocol 2
    [⟨["model"], [[⟨1, 10⟩, ⟨2, 20⟩]]⟩]
    (List.forall_mem_cons.mpr ⟨List.forall_mem_cons.mpr ⟨(by decide : 2 < sizeLimit), List.forall_mem_nil _⟩,
      List.forall_mem_nil _⟩) [1, 2, 3] (by decide) (World.init (BitVec 64))
  rw [answers, reloads]
  exact ⟨rfl, rfl⟩

end CppProject.CannonProxy
