import CppProject.CannonProxy.ProxyServer
import CppProject.Library.Rounds
import CppProject.Library.Runs

/-!
# Interleaved calls of the proxy

`get` and `reload` step by step, so that the steps of any number of calls and the
work of the servers can interleave.  A request is processed in one step, at any time
between its enqueuing and the read of its future.
-/

namespace CppProject.CannonProxy

open Library Library.Checked Library.Runs

/-- The requests for the shards that have something to do. -/
def requestsFrom {α : Type} (i : Nat) (shards : List (List α)) : List (Nat × List α) :=
  (shards.zipIdx i).filterMap fun (shard, i) => if shard.isEmpty then none else some (i, shard)

/-- A `get` call: its keys, split into `sharding_keys`, the version once it is read,
its query requests, what the futures hold, and the response once it is returned. -/
structure GetCall (V : Type) where
  keys : List Int64
  shardingKeys : List (List Int64)
  dataVersion : Option Nat
  queries : Round (List Int64)
  results : Nat → Option (List (ValueItem V))
  response : Option (Except Stop (CannonResponse V))

inductive GetEvent where
  | readVersion
  | enqueueQuery
  | query (i : Nat)
  | finish
  deriving DecidableEq, Repr

/-- Where the running `reload` call is: between two blocks, waiting for the inserts
of a block, or waiting for the clears of the old version.  `ret` is the conjunction of
the replies so far. -/
inductive ReloadPhase (V : Type) where
  | idle
  | reading (ret : Bool) (blocks : List (List (CannonKV V)))
  | inserting (ret : Bool) (blocks : List (List (CannonKV V))) (dataVersion : Nat)
      (inserts : Round (List (CannonKV V)))
  | clearing (ret : Bool) (dataVersion : Nat) (clears : Round Unit)

/-- `finish` is the normal end, `giveUp` the end behind a rejected insert. -/
inductive ReloadEvent where
  | nextBlock
  | enqueueInsert
  | insert (i : Nat)
  | endBlock
  | publish
  | enqueueClear
  | clear (dataVersion i : Nat)
  | finish
  | giveUp
  deriving DecidableEq, Repr

/-- The proxy and its servers, with all `get` calls so far, what the finished
`reload` calls have returned, and the `reload` call that is running. -/
structure System (V : Type) extends World (Nat → Storage V) where
  gets : Nat → Option (GetCall V)
  returned : List Bool
  phase : ReloadPhase V

inductive Event (V : Type) where
  | beginGet (g : Nat) (keys : List Int64)
  | get (g : Nat) (event : GetEvent)
  | beginReload (call : ReloadCall V)
  | reload (event : ReloadEvent)
  deriving DecidableEq, Repr

variable {V : Type} [Zero V]

namespace GetCall

/-- The replies in the futures, in the order of the requests. -/
def replies (call : GetCall V) : List (Reply (List (ValueItem V))) :=
  (requestsFrom 0 call.shardingKeys).filterMap fun (i, _) => (call.results i).map .returned

def step (w : World (Nat → Storage V)) (call : GetCall V) : GetEvent → Option (GetCall V)
  | .readVersion =>
      match call.dataVersion with
      | none =>
          some { call with
            dataVersion := some w.dataVersion
            queries := Round.start (requestsFrom 0 call.shardingKeys) }
      | some _ => none
  | .enqueueQuery =>
      match call.queries.send with
      | none => none
      | some queries => some { call with queries := queries }
  | .query i =>
      match call.dataVersion, call.queries.take i with
      | some dataVersion, some (keys, queries) =>
          some { call with
            queries := queries
            results := Function.update call.results i
              (some (CannonHandler.get (w.shards i) keys dataVersion).values) }
      | _, _ => none
  | .finish =>
      match call.dataVersion, call.response with
      | some _, none =>
          if call.queries.isDone then
            some { call with
              response := some (gather (keyIdxFrom 0 (fun _ => 0) call.keys) call.shardingKeys
                call.replies ⟨.ok, List.replicate call.keys.length (ValueItem.init V)⟩) }
          else none
      | _, _ => none

end GetCall

namespace System

def init (shards : Nat → Storage V) : System V := ⟨⟨0, false, shards⟩, fun _ => none, [], .idle⟩

def setGet (s : System V) (g : Nat) (call : GetCall V) : System V :=
  { s with gets := Function.update s.gets g (some call) }

/-- The end of a `reload` call that gives the flag back. -/
def returnReload (s : System V) (ret : Bool) : System V :=
  { s with isLoading := false, returned := s.returned ++ [ret], phase := .idle }

/-- A step of the running `reload` call, in front of `n` servers. -/
def stepReload (n : Nat) (s : System V) : ReloadEvent → Option (System V)
  | .nextBlock =>
      match s.phase with
      | .reading ret (kvs :: blocks) =>
          if kvs.isEmpty then some { s with phase := .reading ret blocks }
          else
            match shardInto CannonKV.key n kvs (List.replicate n []) with
            | .error _ => none
            | .ok shards =>
                some { s with
                  phase := .inserting ret blocks (s.dataVersion + 1)
                    (Round.start (requestsFrom 0 shards)) }
      | _ => none
  | .enqueueInsert =>
      match s.phase with
      | .inserting ret blocks dataVersion inserts =>
          match inserts.send with
          | none => none
          | some inserts => some { s with phase := .inserting ret blocks dataVersion inserts }
      | _ => none
  | .insert i =>
      match s.phase with
      | .inserting ret blocks dataVersion inserts =>
          match inserts.take i with
          | none => none
          | some (kvs, inserts) =>
              let (inserted, stored) := CannonHandler.insert dataVersion kvs (s.shards i)
              some { s with
                shards := Function.update s.shards i stored
                phase := .inserting (ret && inserted) blocks dataVersion inserts }
      | _ => none
  | .endBlock =>
      match s.phase with
      | .inserting ret blocks _ inserts =>
          if inserts.isDone then some { s with phase := .reading ret blocks } else none
      | _ => none
  | .publish =>
      match s.phase with
      | .reading true [] =>
          some { s with
            dataVersion := s.dataVersion + 1
            phase := .clearing true s.dataVersion (Round.start ((List.range n).map (·, ()))) }
      | _ => none
  | .enqueueClear =>
      match s.phase with
      | .clearing ret dataVersion clears =>
          match clears.send with
          | none => none
          | some clears => some { s with phase := .clearing ret dataVersion clears }
      | _ => none
  | .clear v i =>
      match s.phase with
      | .clearing ret dataVersion clears =>
          match clears.take i with
          | none => none
          | some (_, clears) =>
              if v = dataVersion then
                let (cleared, stored) := CannonHandler.clearData (s.shards i) dataVersion
                some { s with
                  shards := Function.update s.shards i stored
                  phase := .clearing (ret && cleared) dataVersion clears }
              else none
      | _ => none
  | .finish =>
      match s.phase with
      | .clearing ret _ clears => if clears.isDone then some (s.returnReload ret) else none
      | _ => none
  | .giveUp =>
      match s.phase with
      | .reading false [] => some (s.returnReload false)
      | _ => none

/-- A key without a shard leaves its call without a step. -/
def step (n : Nat) (s : System V) : Event V → Option (System V)
  | .beginGet g keys =>
      match s.gets g, shardInto id n keys (List.replicate n []) with
      | none, .ok shards => some (s.setGet g ⟨keys, shards, none, Round.start [], fun _ => none, none⟩)
      | _, _ => none
  | .get g event =>
      match s.gets g with
      | none => none
      | some call =>
          match call.step s.toWorld event with
          | none => none
          | some next => some (s.setGet g next)
  | .beginReload call =>
      if s.isLoading then some { s with returned := s.returned ++ [false] }
      else if call.paths.isEmpty then
        some { s with isLoading := true, returned := s.returned ++ [true] }
      else some { s with isLoading := true, phase := .reading true call.blocks }
  | .reload event => s.stepReload n event

/-! ## The steps of a `reload` call -/

omit [Zero V] in
/-- What a step of the running `reload` call can do. -/
inductive ReloadStep (n : Nat) (s : System V) : ReloadEvent → System V → Prop where
  | emptyBlock {ret : Bool} {blocks : List (List (CannonKV V))}
      (phase : s.phase = .reading ret ([] :: blocks)) :
      ReloadStep n s .nextBlock { s with phase := .reading ret blocks }
  | nextBlock {ret : Bool} {kvs : List (CannonKV V)} {blocks shards : List (List (CannonKV V))}
      (phase : s.phase = .reading ret (kvs :: blocks))
      (collected : shardInto CannonKV.key n kvs (List.replicate n []) = .ok shards) :
      ReloadStep n s .nextBlock { s with
        phase := .inserting ret blocks (s.dataVersion + 1) (Round.start (requestsFrom 0 shards)) }
  | enqueueInsert {ret : Bool} {blocks : List (List (CannonKV V))} {v : Nat}
      {inserts sent : Round (List (CannonKV V))} (phase : s.phase = .inserting ret blocks v inserts)
      (send : inserts.send = some sent) :
      ReloadStep n s .enqueueInsert { s with phase := .inserting ret blocks v sent }
  | insert {ret : Bool} {blocks : List (List (CannonKV V))} {v i : Nat}
      {inserts left : Round (List (CannonKV V))} {kvs : List (CannonKV V)}
      (phase : s.phase = .inserting ret blocks v inserts) (take : inserts.take i = some (kvs, left)) :
      ReloadStep n s (.insert i) { s with
        shards := Function.update s.shards i (CannonHandler.insert v kvs (s.shards i)).2
        phase := .inserting (ret && (CannonHandler.insert v kvs (s.shards i)).1) blocks v left }
  | endBlock {ret : Bool} {blocks : List (List (CannonKV V))} {v : Nat}
      {inserts : Round (List (CannonKV V))} (phase : s.phase = .inserting ret blocks v inserts)
      (done : inserts.isDone = true) :
      ReloadStep n s .endBlock { s with phase := .reading ret blocks }
  | publish (phase : s.phase = .reading true []) :
      ReloadStep n s .publish { s with
        dataVersion := s.dataVersion + 1
        phase := .clearing true s.dataVersion (Round.start ((List.range n).map (·, ()))) }
  | enqueueClear {ret : Bool} {v : Nat} {clears sent : Round Unit}
      (phase : s.phase = .clearing ret v clears) (send : clears.send = some sent) :
      ReloadStep n s .enqueueClear { s with phase := .clearing ret v sent }
  | clear {ret : Bool} {v i : Nat} {clears left : Round Unit}
      (phase : s.phase = .clearing ret v clears) (take : clears.take i = some ((), left)) :
      ReloadStep n s (.clear v i) { s with
        shards := Function.update s.shards i (CannonHandler.clearData (s.shards i) v).2
        phase := .clearing (ret && (CannonHandler.clearData (s.shards i) v).1) v left }
  | finish {ret : Bool} {v : Nat} {clears : Round Unit} (phase : s.phase = .clearing ret v clears)
      (done : clears.isDone = true) : ReloadStep n s .finish (s.returnReload ret)
  | giveUp (phase : s.phase = .reading false []) : ReloadStep n s .giveUp (s.returnReload false)

omit [Zero V] in
theorem stepReload_cases {n : Nat} {s next : System V} {event : ReloadEvent}
    (here : s.stepReload n event = some next) : ReloadStep n s event next := by
  cases event with
  | nextBlock =>
      simp only [stepReload] at here
      split at here
      next ret kvs blocks phase =>
        split at here
        next empty =>
          cases here
          rw [List.isEmpty_iff.mp empty] at phase
          exact .emptyBlock phase
        · split at here
          · cases here
          next collected =>
            cases here
            exact .nextBlock phase collected
      · cases here
  | enqueueInsert =>
      simp only [stepReload] at here
      split at here
      next phase =>
        split at here
        · cases here
        next send =>
          cases here
          exact .enqueueInsert phase send
      · cases here
  | insert i =>
      simp only [stepReload] at here
      split at here
      next phase =>
        split at here
        · cases here
        next take =>
          cases here
          exact .insert phase take
      · cases here
  | endBlock =>
      simp only [stepReload] at here
      split at here
      next phase =>
        split at here
        next done =>
          cases here
          exact .endBlock phase done
        · cases here
      · cases here
  | publish =>
      simp only [stepReload] at here
      split at here
      next phase =>
        cases here
        exact .publish phase
      · cases here
  | enqueueClear =>
      simp only [stepReload] at here
      split at here
      next phase =>
        split at here
        · cases here
        next send =>
          cases here
          exact .enqueueClear phase send
      · cases here
  | clear v i =>
      simp only [stepReload] at here
      split at here
      next phase =>
        split at here
        · cases here
        next take =>
          split at here
          next same =>
            cases same
            cases here
            exact .clear phase take
          · cases here
      · cases here
  | finish =>
      simp only [stepReload] at here
      split at here
      next phase =>
        split at here
        next done =>
          cases here
          exact .finish phase done
        · cases here
      · cases here
  | giveUp =>
      simp only [stepReload] at here
      split at here
      next phase =>
        cases here
        exact .giveUp phase
      · cases here

end System

end CppProject.CannonProxy
