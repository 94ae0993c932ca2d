import CppProject.CannonProxy.Storage
import CppProject.Library.Checked

/-!
# `CannonServiceHandler`

The proxy, call by call.  The shards behind the client wrappers are a
parameter: a cluster answers every RPC with a value or with an exception, and
may change its own state.  A request that a queue has accepted is carried out
even when the caller stops before it has read the reply.
-/

namespace CppProject.CannonProxy

open Library Library.Checked

/-- What a future holds. -/
inductive Reply (α : Type) where
  | returned (value : α)
  | threw
  deriving DecidableEq, Repr

/-- The shards behind `_clients`, with their state `σ`. -/
structure Cluster (σ V : Type) where
  clientsNum : Nat
  queryKeys : Nat → List Int64 → Nat → σ → Reply (List (ValueItem V)) × σ
  insertKvs : Nat → List (CannonKV V) → Nat → σ → Reply Bool × σ
  clearData : Nat → Nat → σ → Reply Bool × σ

/-- How a call of the handler ends without returning. -/
inductive Stop where
  | thrown
  | fault (fault : Fault)
  deriving DecidableEq, Repr

/-- The handler's members, and the shards.  A version is a number: the shards look only
at its low bit, which an `int` that wraps around keeps. -/
structure World (σ : Type) where
  dataVersion : Nat
  isLoading : Bool
  shards : σ

/-- A `reload` request: its paths, and the blocks of pairs that the file reader
and the line parser make of them. -/
structure ReloadCall (V : Type) where
  paths : List String
  blocks : List (List (CannonKV V))
  deriving DecidableEq, Repr

/-- The pairs that the reload loop hands to `_insert`. -/
def ReloadCall.model {V : Type} (call : ReloadCall V) : List (CannonKV V) := call.blocks.flatten

/-! ## Sharding -/

/-- `(int)std::hash<keyT>{}(key) % _clients_num`, where the hash is the identity. -/
def clientIdx (key : Int64) (clientsNum : Nat) : Int := Int.tmod key.toInt32.toInt clientsNum

/-- `push_back` every element to the vector of its shard. -/
def shardInto {α : Type} (keyOf : α → Int64) (clientsNum : Nat) :
    List α → List (List α) → Except Fault (List (List α))
  | [], shards => .ok shards
  | a :: rest, shards =>
      if clientsNum = 0 then .error .divisionByZero
      else if clientIdx (keyOf a) clientsNum < 0 then .error .outOfBounds
      else do
        let shard ← load shards (clientIdx (keyOf a) clientsNum).toNat
        let shards ← store shards (clientIdx (keyOf a) clientsNum).toNat (shard ++ [a])
        shardInto keyOf clientsNum rest shards

section Handler

variable {σ V : Type}

/-- Enqueue one request for every shard, from shard `i` on, that has something to
do, and collect the replies. -/
def enqueueAll {α β : Type} (send : Nat → List α → σ → Reply β × σ) :
    Nat → List (List α) → σ → List (Reply β) × σ
  | _, [], s => ([], s)
  | i, shard :: rest, s =>
      if shard.isEmpty then enqueueAll send (i + 1) rest s
      else
        let (reply, s) := send i shard s
        let (replies, s) := enqueueAll send (i + 1) rest s
        (reply :: replies, s)

/-- `ret &= result.get()` over all futures. -/
def awaitAll (ret : Bool) : List (Reply Bool) → Except Stop Bool
  | [] => .ok ret
  | .returned value :: rest => awaitAll (ret && value) rest
  | .threw :: _ => .error .thrown

/-- `_insert` -/
def insert (cluster : Cluster σ V) (kvs : List (CannonKV V)) (dataVersion : Nat) (s : σ) :
    Except Stop Bool × σ :=
  match shardInto CannonKV.key cluster.clientsNum kvs (List.replicate cluster.clientsNum []) with
  | .error fault => (.error (.fault fault), s)
  | .ok shards =>
      let (replies, s) :=
        enqueueAll (fun i shard => cluster.insertKvs i shard (dataVersion + 1)) 0 shards s
      (awaitAll true replies, s)

/-- The reading loop of `reload`: `ret &= _insert(kvs)` for every block with pairs. -/
def insertBlocks (cluster : Cluster σ V) (dataVersion : Nat) (ret : Bool) :
    List (List (CannonKV V)) → σ → Except Stop Bool × σ
  | [], s => (.ok ret, s)
  | kvs :: rest, s =>
      if kvs.isEmpty then insertBlocks cluster dataVersion ret rest s
      else
        match insert cluster kvs dataVersion s with
        | (.error stop, s) => (.error stop, s)
        | (.ok inserted, s) => insertBlocks cluster dataVersion (ret && inserted) rest s

/-- Enqueue `clear_data` on `left` shards from shard `i` on. -/
def clearAll (cluster : Cluster σ V) (dataVersion : Nat) : Nat → Nat → σ → List (Reply Bool) × σ
  | 0, _, s => ([], s)
  | left + 1, i, s =>
      let (reply, s) := cluster.clearData i dataVersion s
      let (replies, s) := clearAll cluster dataVersion left (i + 1) s
      (reply :: replies, s)

/-- `reload` -/
def reload (cluster : Cluster σ V) (call : ReloadCall V) (w : World σ) : Except Stop Bool × World σ :=
  if w.isLoading then (.ok false, w)
  else
    let w := { w with isLoading := true }
    if call.paths.isEmpty then (.ok true, w)
    else
      match insertBlocks cluster w.dataVersion true call.blocks w.shards with
      | (.error stop, s) => (.error stop, { w with shards := s })
      | (.ok false, s) => (.ok false, { w with shards := s, isLoading := false })
      | (.ok true, s) =>
          let (replies, s) := clearAll cluster w.dataVersion cluster.clientsNum 0 s
          let w := { w with dataVersion := w.dataVersion + 1, shards := s }
          match awaitAll true replies with
          | .error stop => (.error stop, w)
          | .ok ret => (.ok ret, { w with isLoading := false })

/-- A sequence of `reload` calls, one after another. -/
def reloadAll (cluster : Cluster σ V) :
    List (ReloadCall V) → World σ → List (Except Stop Bool) × World σ
  | [], w => ([], w)
  | call :: rest, w =>
      let (result, w) := reload cluster call w
      let (results, w) := reloadAll cluster rest w
      (result :: results, w)

/-! ## `get` -/

/-- The loop `key_idx[key] = n++`. -/
def keyIdxFrom (n : Nat) (keyIdx : Int64 → Nat) : List Int64 → (Int64 → Nat)
  | [] => keyIdx
  | key :: rest => keyIdxFrom (n + 1) (Function.update keyIdx key n) rest

/-- The status of the response after an item of the given status. -/
def mergeStatus (status : Status) : ItemStatus → Status
  | .error => .error
  | .notFound => if status = .ok then .partialOk else status
  | .found => status

/-- Write the items of one shard's result to the positions of its keys. -/
def placeItems (keyIdx : Int64 → Nat) (result : List (ValueItem V)) :
    Nat → List Int64 → CannonResponse V → Except Stop (CannonResponse V)
  | _, [], response => .ok response
  | j, key :: rest, response =>
      match load result j with
      | .error fault => .error (.fault fault)
      | .ok item =>
          match store response.values (keyIdx key) item with
          | .error fault => .error (.fault fault)
          | .ok values =>
              placeItems keyIdx result (j + 1) rest ⟨mergeStatus response.status item.status, values⟩

/-- The loop that takes one result for every shard with keys. -/
def gather (keyIdx : Int64 → Nat) :
    List (List Int64) → List (Reply (List (ValueItem V))) → CannonResponse V →
      Except Stop (CannonResponse V)
  | [], _, response => .ok response
  | keys :: rest, results, response =>
      if keys.isEmpty then gather keyIdx rest results response
      else
        match results with
        | [] => .error (.fault .outOfBounds)
        | .threw :: _ => .error .thrown
        | .returned result :: results =>
            match placeItems keyIdx result 0 keys response with
            | .error stop => .error stop
            | .ok response => gather keyIdx rest results response

/-- `get` -/
def get [Zero V] (cluster : Cluster σ V) (keys : List Int64) (w : World σ) :
    Except Stop (CannonResponse V) × World σ :=
  match shardInto id cluster.clientsNum keys (List.replicate cluster.clientsNum []) with
  | .error fault => (.error (.fault fault), w)
  | .ok shards =>
      let (results, s) :=
        enqueueAll (fun i shard => cluster.queryKeys i shard w.dataVersion) 0 shards w.shards
      let values := List.replicate keys.length (ValueItem.init V)
      (gather (keyIdxFrom 0 (fun _ => 0) keys) shards results ⟨.ok, values⟩, { w with shards := s })

end Handler

/-! ## The cannon servers as a cluster -/

/-- `n` servers, each with its own storage. -/
def servers (V : Type) [Zero V] (n : Nat) : Cluster (Nat → Storage V) V where
  clientsNum := n
  queryKeys i keys dataVersion s := (.returned (CannonHandler.get (s i) keys dataVersion).values, s)
  insertKvs i kvs dataVersion s :=
    let (ret, stored) := CannonHandler.insert dataVersion kvs (s i)
    (.returned ret, Function.update s i stored)
  clearData i dataVersion s :=
    let (ret, stored) := CannonHandler.clearData (s i) dataVersion
    (.returned ret, Function.update s i stored)

/-- The proxy after its start, in front of empty servers. -/
def World.init (V : Type) : World (Nat → Storage V) := ⟨0, false, fun _ => Storage.init V⟩

end CppProject.CannonProxy
