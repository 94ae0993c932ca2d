import CppProject.CannonProxy.Interface
import CppProject.Library.BinaryProtocol

/-!
# The connection of a shard

The wrapper's tasks as the bytes that they write to the connection and read from it.  The
wrapper over bytes does what the wrapper over messages does, as long as one call is
outstanding at a time.
-/

namespace CppProject.CannonProxy

open Library Library.Wire Library.Runs

/-! ## A request on the wire -/

section Requests

variable {B V Y : Type} (P : Protocol B V Y)

/-- The versions are 32-bit numbers on the wire. -/
def wireVersion (dataVersion : Nat) : Int32 := Int32.ofNat dataVersion

/-- What the proxy makes of the status of an item.  No shard sends another number. -/
def receivedStatus (status : Int32) : ItemStatus :=
  if status = 1 then .notFound else if status = 2 then .error else .found

def receivedItem (item : Interface.ValueItem V) : ValueItem V := ⟨receivedStatus item.status, item.value⟩

namespace Request

def sent : Request V → List B
  | .get keys dataVersion => Interface.CannonClient.sendGet P keys (wireVersion dataVersion)
  | .insert kvs dataVersion => Interface.CannonClient.sendInsert P kvs (wireVersion dataVersion)
  | .clearData dataVersion => Interface.CannonClient.sendClearData P (wireVersion dataVersion)

/-- The outcome of a call, as its future holds it. -/
def mapOutcome {α β ε : Type} (f : α → β) : Except ε α → Except ε β
  | .ok value => .ok (f value)
  | .error x => .error x

/-- Read the reply to a request. -/
def received [Zero V] : Request V → Reader B (Except ApplicationException (Answer V))
  | .get _ _ => do
      let outcome ← Interface.CannonClient.recvGet P Interface.CannonResponse.init
      pure (mapOutcome (fun response => .values (response.values.map receivedItem)) outcome)
  | .insert _ _ => do
      let outcome ← Interface.CannonClient.recvInsert P false
      pure (mapOutcome .ret outcome)
  | .clearData _ => do
      let outcome ← Interface.CannonClient.recvClearData P false
      pure (mapOutcome .ret outcome)

def exchange [Zero V] (request : Request V) :
    Exchange B (Storage V) (Except ApplicationException (Answer V)) where
  request := request.sent P
  recv := request.received P
  answer s := (.ok (request.serve s).1, (request.serve s).2)

/-- The sizes of the lists fit their size fields. -/
def Fits : Request V → Prop
  | .get keys _ => keys.length < sizeLimit
  | .insert kvs _ => kvs.length < sizeLimit
  | .clearData _ => True

end Request

end Requests

section Laws

variable {B V Y : Type} {P : Protocol B V Y}

theorem getIndex_wireVersion (dataVersion : Nat) :
    getIndex (Interface.versionBits (wireVersion dataVersion)) = getIndex dataVersion := by
  apply Fin.ext
  rw [getIndex_val, getIndex_val]
  have bits : Interface.versionBits (wireVersion dataVersion) = dataVersion % 2 ^ 32 := by
    simp [Interface.versionBits, wireVersion, Int32.ofNat, UInt32.toNat]
  rw [bits]
  omega

theorem receivedStatus_sent (status : ItemStatus) : receivedStatus (Interface.itemStatusCode status) = status := by
  cases status <;> rfl

theorem received_sent (items : List (ValueItem V)) :
    (items.map Interface.sentItem).map receivedItem = items := by
  rw [List.map_map]
  refine (List.map_congr_left fun item _ => ?_).trans (List.map_id items)
  rw [Function.comp_apply, receivedItem, Interface.sentItem, receivedStatus_sent]
  rfl

/-- A call sees of its version only the slot. -/
theorem handler_get_congr [Zero V] {v w : Nat} (same : getIndex v = getIndex w) (s : Storage V)
    (keys : List Int64) : CannonHandler.get s keys v = CannonHandler.get s keys w := by
  have seek : ∀ key value, s.seek key value v = s.seek key value w := by
    intro key value
    unfold Storage.seek Storage.slot
    rw [same]
  simp only [CannonHandler.get, seek]

theorem handler_insert_congr {v w : Nat} (same : getIndex v = getIndex w) (kvs : List (CannonKV V))
    (s : Storage V) : CannonHandler.insert v kvs s = CannonHandler.insert w kvs s := by
  induction kvs generalizing s with
  | nil => rfl
  | cons kv kvs ih =>
      have first : s.insert kv v = s.insert kv w := by
        simp only [Storage.insert, Storage.slot, Storage.withSlot, same]
      simp only [CannonHandler.insert, first, ih]

theorem handler_clearData_congr {v w : Nat} (same : getIndex v = getIndex w) (s : Storage V) :
    CannonHandler.clearData s v = CannonHandler.clearData s w := by
  simp only [CannonHandler.clearData, Storage.clearData, Storage.withSlot, same]

section Works

variable [Zero V]

theorem plain_names : Plain "get".toList ∧ Plain "insert".toList ∧ Plain "clear_data".toList :=
  ⟨plain_of_all (by decide) (by decide), plain_of_all (by decide) (by decide), plain_of_all (by decide) (by decide)⟩

open Interface in
/-- The processor answers a request with what the storage does with it. -/
theorem Request.works {request : Request V} (fits : request.Fits) :
    (request.exchange P).Works (CannonProcessor.process P) := by
  obtain ⟨plain_get, plain_insert, plain_clear⟩ := plain_names
  cases request with
  | get keys dataVersion =>
      have found : CannonProcessor.processMap P "get".toList = some (CannonProcessor.processGet P) := if_pos rfl
      have args : (GetArgs.read P recursionLimit GetArgs.init).Takes
          (GetArgs.write P ⟨keys, wireVersion dataVersion⟩) ⟨keys, wireVersion dataVersion⟩ :=
        GetArgs.takes_write fits
      refine ⟨_, Protocol.takes_process plain_get found args, fun s => ⟨?_, rfl⟩⟩
      have same := handler_get_congr (getIndex_wireVersion dataVersion) s keys
      have short : (sentResponse (CannonHandler.get s keys (versionBits (wireVersion dataVersion)))).values.length
          < sizeLimit := by
        rwa [sentResponse, List.length_map, CannonHandler.get, List.length_map]
      refine (Protocol.takes_recvCall plain_get 0 (Protocol.takes_writeResult rfl
        (CannonResponse.takes_write short _))).bind_pure (Reader.takes_pure_of_eq ?_)
      have values := received_sent (CannonHandler.get s keys dataVersion).values
      rw [← same] at values
      rw [Protocol.outcome, mapOutcome, sentResponse, values]
      exact congrArg (fun response => Except.ok (Answer.values (CannonResponse.values response))) same
  | insert kvs dataVersion =>
      have found : CannonProcessor.processMap P "insert".toList = some (CannonProcessor.processInsert P) := by
        rw [CannonProcessor.processMap, if_neg (by decide), if_pos rfl]
      have args : (InsertArgs.read P recursionLimit InsertArgs.init).Takes
          (InsertArgs.write P ⟨kvs, wireVersion dataVersion⟩) ⟨kvs, wireVersion dataVersion⟩ :=
        InsertArgs.takes_write fits
      refine ⟨_, Protocol.takes_process plain_insert found args, fun s => ?_⟩
      have same := handler_insert_congr (getIndex_wireVersion dataVersion) kvs s
      simp only [same]
      refine ⟨?_, rfl⟩
      exact (Protocol.takes_recvCall plain_insert 0 (Protocol.takes_writeResult rfl
        (P.bool.takes_write trivial))).bind_pure (Reader.takes_pure_of_eq rfl)
  | clearData dataVersion =>
      have found : CannonProcessor.processMap P "clear_data".toList =
          some (CannonProcessor.processClearData P) := by
        rw [CannonProcessor.processMap, if_neg (by decide), if_neg (by decide), if_pos rfl]
      have args : (ClearDataArgs.read P recursionLimit 0).Takes
          (ClearDataArgs.write P (wireVersion dataVersion)) (wireVersion dataVersion) :=
        ClearDataArgs.takes_write _
      refine ⟨_, Protocol.takes_process plain_clear found args, fun s => ?_⟩
      have same := handler_clearData_congr (getIndex_wireVersion dataVersion) s
      simp only [same]
      refine ⟨?_, rfl⟩
      exact (Protocol.takes_recvCall plain_clear 0 (Protocol.takes_writeResult rfl
        (P.bool.takes_write trivial))).bind_pure (Reader.takes_pure_of_eq rfl)

theorem Request.received_nonempty (request : Request V) {taken : List B}
    {found : Except ApplicationException (Answer V)} (takes : (request.received P).Takes taken found) :
    taken ≠ [] := by
  cases request <;> exact Reader.bind_nonempty Protocol.recvCall_nonempty takes

end Works

end Laws

/-! ## The wrapper over bytes -/

/-- The wrapper whose connection carries bytes.  A future holds what its task has read. -/
structure WireWrapper (B V : Type) where
  pools : Pool → ThreadPool V
  enqueued : Nat
  requests : List B
  replies : List B
  results : List (Task V × Except ApplicationException (Answer V))
  storage : Storage V

namespace WireWrapper

variable {B V Y : Type}

def init (B : Type) (storage : Storage V) : WireWrapper B V :=
  ⟨fun _ => ⟨[], .idle⟩, 0, [], [], [], storage⟩

def setPool (w : WireWrapper B V) (pool : Pool) (state : ThreadPool V) : WireWrapper B V :=
  { w with pools := Function.update w.pools pool state }

def enqueue (w : WireWrapper B V) (pool : Pool) (request : Request V) : WireWrapper B V :=
  { w.setPool pool { w.pools pool with tasks := (w.pools pool).tasks ++ [⟨w.enqueued, request⟩] } with
    enqueued := w.enqueued + 1 }

/-- A step of a worker or of the server that needs more bytes than there are does not
happen: the thread waits. -/
def step [Zero V] (P : Protocol B V Y) (w : WireWrapper B V) : WrapperEvent V → Option (WireWrapper B V)
  | .enqueueInsertKvs kvs dataVersion => some (w.enqueue .queryThreadPool (.insert kvs dataVersion))
  | .enqueueQueryKeys keys dataVersion => some (w.enqueue .insertThreadPool (.get keys dataVersion))
  | .clearData dataVersion => some (w.enqueue .queryThreadPool (.clearData dataVersion))
  | .take pool =>
      match w.pools pool with
      | ⟨task :: rest, .idle⟩ => some (w.setPool pool ⟨rest, .taken task⟩)
      | _ => none
  | .write pool =>
      match w.pools pool with
      | ⟨tasks, .taken task⟩ =>
          some { w.setPool pool ⟨tasks, .awaiting task⟩ with
            requests := w.requests ++ task.request.sent P }
      | _ => none
  | .serve =>
      match (Interface.CannonProcessor.process P).run w.requests with
      | none => none
      | some (serve, rest) =>
          let (reply, storage) := serve w.storage
          some { w with requests := rest, replies := w.replies ++ reply, storage := storage }
  | .read pool =>
      match w.pools pool with
      | ⟨tasks, .awaiting task⟩ =>
          match (task.request.received P).run w.replies with
          | none => none
          | some (outcome, rest) =>
              some { w.setPool pool ⟨tasks, .idle⟩ with
                replies := rest, results := w.results ++ [(task, outcome)] }
      | _ => none

/-- The bytes carry the messages: the requests that were written, replies that are read as
the answers, and in the futures the answers. -/
structure Carries [Zero V] (P : Protocol B V Y) (b : WireWrapper B V) (w : CannonClientWrapper V) :
    Prop where
  pools : b.pools = w.pools
  enqueued : b.enqueued = w.enqueued
  requests : b.requests = w.requests.flatMap fun task => task.request.sent P
  replies : ∃ pieces, List.Forall₂ (fun (reply : TaskReply V) piece =>
    (reply.task.request.received P).Takes piece (.ok reply.answer)) w.replies pieces ∧
      b.replies = pieces.flatten
  results : b.results = w.results.map fun result => (result.1, .ok result.2.answer)
  storage : b.storage = w.storage

/-- The list of a call fits its size field. -/
def FittingEvent : WrapperEvent V → Prop
  | .enqueueInsertKvs kvs _ => kvs.length < sizeLimit
  | .enqueueQueryKeys keys _ => keys.length < sizeLimit
  | _ => True

/-- Every task of a pool, queued or running, has a request that fits. -/
structure FittingTasks (pool : ThreadPool V) : Prop where
  queued : ∀ task ∈ pool.tasks, task.request.Fits
  taken : ∀ task, pool.worker = .taken task → task.request.Fits
  awaiting : ∀ task, pool.worker = .awaiting task → task.request.Fits

theorem FittingTasks.take {task : Task V} {rest : List (Task V)} (here : FittingTasks ⟨task :: rest, .idle⟩) :
    FittingTasks ⟨rest, .taken task⟩ := by
  refine ⟨fun other member => here.queued other (List.mem_cons_of_mem _ member), ?_, ?_⟩
  · intro other same
    cases same
    exact here.queued task List.mem_cons_self
  · intro other same
    cases same

theorem FittingTasks.write {tasks : List (Task V)} {task : Task V} (here : FittingTasks ⟨tasks, .taken task⟩) :
    FittingTasks ⟨tasks, .awaiting task⟩ := by
  refine ⟨here.queued, ?_, ?_⟩
  · intro other same
    cases same
  · intro other same
    cases same
    exact here.taken task rfl

theorem FittingTasks.read {tasks : List (Task V)} {task : Task V} (here : FittingTasks ⟨tasks, .awaiting task⟩) :
    FittingTasks ⟨tasks, .idle⟩ := by
  refine ⟨here.queued, ?_, ?_⟩
  · intro other same
    cases same
  · intro other same
    cases same

theorem fitting_setPool {pools : Pool → ThreadPool V} (fitting : ∀ pool, FittingTasks (pools pool))
    {pool : Pool} {state : ThreadPool V} (here : FittingTasks state) (other : Pool) :
    FittingTasks (Function.update pools pool state other) := by
  rcases eq_or_ne other pool with rfl | different
  · rwa [Function.update_self]
  · rw [Function.update_of_ne different]
    exact fitting other

theorem fitting_enqueue {w : CannonClientWrapper V} (fitting : ∀ pool, FittingTasks (w.pools pool))
    (pool : Pool) {request : Request V} (fits : request.Fits) (other : Pool) :
    FittingTasks ((w.enqueue pool request).pools other) := by
  have here : FittingTasks { w.pools pool with tasks := (w.pools pool).tasks ++ [⟨w.enqueued, request⟩] } := by
    refine ⟨?_, (fitting pool).taken, (fitting pool).awaiting⟩
    intro task member
    rcases List.mem_append.mp member with queued | last
    · exact (fitting pool).queued task queued
    · rw [List.mem_singleton.mp last]
      exact fits
  exact fitting_setPool fitting here other

section Steps

variable [Zero V] {P : Protocol B V Y} {b : WireWrapper B V} {w : CannonClientWrapper V}

/-- A call does the same over bytes and over messages. -/
theorem Carries.enqueue (carries : Carries P b w) (pool : Pool) (request : Request V) :
    Carries P (b.enqueue pool request) (w.enqueue pool request) := by
  obtain ⟨pools, enqueued, requests, replies, results, storage⟩ := carries
  refine ⟨?_, ?_, requests, replies, results, storage⟩
  · simp only [WireWrapper.enqueue, CannonClientWrapper.enqueue, setPool, CannonClientWrapper.setPool,
      pools, enqueued]
  · simp only [WireWrapper.enqueue, CannonClientWrapper.enqueue, enqueued]

theorem Carries.setPool (carries : Carries P b w) (pool : Pool) (state : ThreadPool V) :
    Carries P (b.setPool pool state) (w.setPool pool state) := by
  obtain ⟨pools, enqueued, requests, replies, results, storage⟩ := carries
  refine ⟨?_, enqueued, requests, replies, results, storage⟩
  simp only [WireWrapper.setPool, CannonClientWrapper.setPool, pools]

/-- What a step of the one wrapper does, the other one does as well. -/
def Together (P : Protocol B V Y) (next : Option (WireWrapper B V)) (abstract : Option (CannonClientWrapper V)) :
    Prop :=
  match next, abstract with
  | some b, some w => Carries P b w ∧ ∀ pool, FittingTasks (w.pools pool)
  | none, none => True
  | _, _ => False

/-- Without replies there are no bytes of replies. -/
theorem Carries.no_replies (carries : Carries P b w) (none_yet : w.replies = []) : b.replies = [] := by
  obtain ⟨pieces, each, replies⟩ := carries.replies
  rw [none_yet] at each
  cases each
  exact replies

/-- The server answers the request that is on the connection. -/
theorem Carries.serve (carries : Carries P b w) {task : Task V} (requests : w.requests = [task])
    (fits : task.request.Fits) :
    ∃ b' w', b.step P .serve = some b' ∧ w.step .serve = some w' ∧ Carries P b' w' ∧ w'.pools = w.pools := by
  obtain ⟨serve, takes, each⟩ := Request.works (P := P) fits
  obtain ⟨reads, storage⟩ := each w.storage
  have sent : b.requests = task.request.sent P ++ [] := by
    rw [carries.requests, requests, List.flatMap_singleton, List.append_nil]
  have served : (Interface.CannonProcessor.process P).run b.requests = some (serve, []) := by
    rw [sent]
    exact takes []
  refine ⟨{ b with requests := [], replies := b.replies ++ (serve w.storage).1, storage := (serve w.storage).2 },
    { w with
      requests := []
      replies := w.replies ++ [⟨task, (task.request.serve w.storage).1⟩]
      storage := (task.request.serve w.storage).2 }, ?_, ?_, ?_, rfl⟩
  · simp only [WireWrapper.step, served, carries.storage]
  · simp only [CannonClientWrapper.step, requests]
  · obtain ⟨pools, enqueued, _, ⟨pieces, forall_pieces, replies⟩, results, _⟩ := carries
    refine ⟨pools, enqueued, rfl, ⟨pieces ++ [(serve w.storage).1], ?_, ?_⟩, results, storage⟩
    · exact List.rel_append forall_pieces (.cons reads .nil)
    · rw [List.flatten_append, List.flatten_singleton, replies]

/-- The worker reads the reply to its own request. -/
theorem Carries.read (carries : Carries P b w) {pool : Pool} {tasks : List (Task V)} {task : Task V}
    {answer : Answer V} (state : w.pools pool = ⟨tasks, .awaiting task⟩)
    (answered : w.replies = [⟨task, answer⟩]) :
    ∃ b' w', b.step P (.read pool) = some b' ∧ w.step (.read pool) = some w' ∧ Carries P b' w' ∧
      w'.pools = Function.update w.pools pool ⟨tasks, .idle⟩ := by
  obtain ⟨pieces, each, replies⟩ := carries.replies
  rw [answered] at each
  cases each with
  | @cons _ piece _ rest takes others =>
      cases others
      have read : (task.request.received P).run b.replies = some (.ok answer, []) := by
        rw [replies]
        exact takes []
      have moved := carries.setPool pool ⟨tasks, .idle⟩
      refine ⟨{ b.setPool pool ⟨tasks, .idle⟩ with
          replies := [], results := b.results ++ [(task, .ok answer)] },
        { w.setPool pool ⟨tasks, .idle⟩ with
          replies := [], results := w.results ++ [(task, ⟨task, answer⟩)] }, ?_, ?_, ?_, rfl⟩
      · simp only [WireWrapper.step, carries.pools, state, read]
      · simp only [CannonClientWrapper.step, state, answered]
      · refine ⟨moved.pools, moved.enqueued, moved.requests, ⟨[], .nil, rfl⟩, ?_, moved.storage⟩
        rw [List.map_append, ← carries.results]
        rfl

/-- A worker without work takes the first task that is queued. -/
theorem Carries.together_take (carries : Carries P b w) (fitting : ∀ pool, FittingTasks (w.pools pool))
    (pool : Pool) : Together P (b.step P (.take pool)) (w.step (.take pool)) := by
  have here := fitting pool
  rcases state : w.pools pool with ⟨tasks, worker⟩
  rw [state] at here
  cases worker with
  | idle =>
      cases tasks with
      | nil => simp only [WireWrapper.step, CannonClientWrapper.step, carries.pools, state, Together]
      | cons task rest =>
          simp only [WireWrapper.step, CannonClientWrapper.step, carries.pools, state]
          exact ⟨carries.setPool pool _, fitting_setPool fitting here.take⟩
  | taken task => simp only [WireWrapper.step, CannonClientWrapper.step, carries.pools, state, Together]
  | awaiting task => simp only [WireWrapper.step, CannonClientWrapper.step, carries.pools, state, Together]

/-- A worker writes the request of its task behind what is written. -/
theorem Carries.together_write (carries : Carries P b w) (fitting : ∀ pool, FittingTasks (w.pools pool))
    (pool : Pool) : Together P (b.step P (.write pool)) (w.step (.write pool)) := by
  have here := fitting pool
  rcases state : w.pools pool with ⟨tasks, worker⟩
  rw [state] at here
  simp only [WireWrapper.step, CannonClientWrapper.step, carries.pools, state]
  cases worker with
  | idle => trivial
  | taken task =>
      obtain ⟨pools, enqueued, requests, replies, results, storage⟩ := carries.setPool pool ⟨tasks, .awaiting task⟩
      refine ⟨⟨pools, enqueued, ?_, replies, results, storage⟩, fitting_setPool fitting here.write⟩
      rw [List.flatMap_append, List.flatMap_singleton]
      exact congrArg (· ++ task.request.sent P) requests
  | awaiting task => trivial

/-- The server has the bytes of a whole request or none. -/
theorem Carries.together_serve (carries : Carries P b w) {working : Pool} (alone : w.Alone working)
    (fitting : ∀ pool, FittingTasks (w.pools pool)) : Together P (b.step P .serve) (w.step .serve) := by
  have exchange := alone.exchange
  generalize requests : w.requests = written at exchange
  generalize w.replies = answers at exchange
  generalize at_work : (w.pools working).worker = worker at exchange
  have nothing : w.requests = [] → Together P (b.step P .serve) (w.step .serve) := by
    intro empty
    have no_bytes : b.requests = [] := by rw [carries.requests, empty, List.flatMap_nil]
    have waits : (Interface.CannonProcessor.process P).run b.requests = none := by
      rw [no_bytes]
      exact Reader.run_nil Protocol.process_nonempty
    simp only [WireWrapper.step, CannonClientWrapper.step, waits, empty, Together]
  cases exchange with
  | idle => exact nothing requests
  | taken task => exact nothing requests
  | answered task answer => exact nothing requests
  | written task =>
      obtain ⟨b', w', here, there, related, same⟩ := carries.serve requests
        ((fitting working).awaiting task at_work)
      rw [here, there]
      refine ⟨related, ?_⟩
      rw [same]
      exact fitting

/-- A worker that waits for a reply is the one at work, and the reply is its own. -/
theorem Carries.together_read (carries : Carries P b w) {working : Pool} (alone : w.Alone working)
    (fitting : ∀ pool, FittingTasks (w.pools pool)) (pool : Pool) :
    Together P (b.step P (.read pool)) (w.step (.read pool)) := by
  rcases state : w.pools pool with ⟨tasks, worker⟩
  cases worker with
  | idle => simp only [WireWrapper.step, CannonClientWrapper.step, carries.pools, state, Together]
  | taken task => simp only [WireWrapper.step, CannonClientWrapper.step, carries.pools, state, Together]
  | awaiting task =>
      have here : pool = working := by
        rcases Pool.eq_or_other pool working with same | other
        · exact same
        · rw [other, alone.other] at state
          cases state
      subst here
      have exchange := alone.exchange
      rw [state] at exchange
      generalize w.requests = written at exchange
      generalize answered : w.replies = answers at exchange
      cases exchange with
      | written _ =>
          have waits : (task.request.received P).run b.replies = none := by
            rw [carries.no_replies answered]
            exact Reader.run_nil task.request.received_nonempty
          simp only [WireWrapper.step, CannonClientWrapper.step, carries.pools, state, waits, answered, Together]
      | answered _ answer =>
          have waiting := fitting pool
          rw [state] at waiting
          obtain ⟨b', w', first, second, related, pools⟩ := carries.read state answered
          rw [first, second]
          refine ⟨related, ?_⟩
          rw [pools]
          exact fitting_setPool fitting waiting.read

/-- With one pool at work the two wrappers take the same steps. -/
theorem Carries.together (carries : Carries P b w) {working : Pool} (alone : w.Alone working)
    (fitting : ∀ pool, FittingTasks (w.pools pool)) {event : WrapperEvent V} (fits : FittingEvent event) :
    Together P (b.step P event) (w.step event) := by
  cases event with
  | enqueueInsertKvs kvs dataVersion => exact ⟨carries.enqueue _ _, fitting_enqueue fitting _ fits⟩
  | enqueueQueryKeys keys dataVersion => exact ⟨carries.enqueue _ _, fitting_enqueue fitting _ fits⟩
  | clearData dataVersion => exact ⟨carries.enqueue _ _, fitting_enqueue fitting _ trivial⟩
  | take pool => exact carries.together_take fitting pool
  | write pool => exact carries.together_write fitting pool
  | serve => exact carries.together_serve alone fitting
  | read pool => exact carries.together_read alone fitting pool

end Steps

/-! ## Runs -/

section Runs

variable [Zero V] {P : Protocol B V Y}

theorem carries_init (storage : Storage V) :
    Carries P (init B storage) (CannonClientWrapper.init storage) ∧
      ∀ pool, FittingTasks ((CannonClientWrapper.init storage).pools pool) := by
  refine ⟨⟨rfl, rfl, rfl, ⟨[], .nil, rfl⟩, rfl, rfl⟩, fun pool => ⟨List.forall_mem_nil _, ?_, ?_⟩⟩
  · intro task impossible
    cases impossible
  · intro task impossible
    cases impossible

theorem together_run {events : List (WrapperEvent V)} {b : WireWrapper B V} {w : CannonClientWrapper V}
    (carries : Carries P b w) {working : Pool} (alone : w.Alone working)
    (fitting : ∀ pool, FittingTasks (w.pools pool)) (alternating : w.OneAtATime events)
    (fits : ∀ event ∈ events, FittingEvent event) :
    Together P (run (step P) b events) (run CannonClientWrapper.step w events) := by
  induction events generalizing b w working with
  | nil => exact ⟨carries, fitting⟩
  | cons event rest ih =>
      obtain ⟨first, later⟩ := List.forall_mem_cons.mp fits
      have together := carries.together alone fitting first
      cases there : w.step event with
      | none =>
          cases here : b.step P event with
          | none => simp only [run, here, there, Together]
          | some b' =>
              rw [here, there] at together
              exact together.elim
      | some w' =>
          cases here : b.step P event with
          | none =>
              rw [here, there] at together
              exact together.elim
          | some b' =>
              rw [here, there] at together
              rw [run_cons_of_step here, run_cons_of_step there]
              have one_call : w.OneAtATime [event] := ⟨alternating.1, fun _ _ => trivial⟩
              obtain ⟨next, still_alone⟩ := alone.reached one_call (run_cons_of_step there [])
              exact ih together.1 still_alone together.2 (alternating.2 w' there) later

/-- The connection of a shard carries what the wrapper over messages says it carries: from a
wrapper without tasks, for every sequence of calls, workers' and server's steps in which each
call finds the pool it does not use drained, and whose lists fit their size fields, the wrapper
over bytes can take exactly the steps of the wrapper over messages, no read or write of the
protocol fails, and behind them the pools and the storage are the same and each future holds
the answer to its own request. -/
theorem connection_refines_messages (P : Protocol B V Y) (storage : Storage V)
    (events : List (WrapperEvent V))
    (alternating : (CannonClientWrapper.init storage).OneAtATime events)
    (fits : ∀ event ∈ events, FittingEvent event) :
    ((run (step P) (init B storage) events).isSome =
      (run CannonClientWrapper.step (CannonClientWrapper.init storage) events).isSome) ∧
    ∀ b w, run (step P) (init B storage) events = some b →
      run CannonClientWrapper.step (CannonClientWrapper.init storage) events = some w →
      b.pools = w.pools ∧ b.storage = w.storage ∧
        b.results = w.results.map (fun result => (result.1, .ok result.2.answer)) ∧
        ∀ result ∈ w.results, result.2.task = result.1 := by
  obtain ⟨carries, fitting⟩ := carries_init (P := P) storage
  have alone := CannonClientWrapper.alone_init storage .queryThreadPool
  have together := together_run carries alone fitting alternating fits
  cases here : run (step P) (init B storage) events with
  | none =>
      cases there : run CannonClientWrapper.step (CannonClientWrapper.init storage) events with
      | none => exact ⟨rfl, fun _ _ impossible => by cases impossible⟩
      | some w =>
          rw [here, there] at together
          exact together.elim
  | some b =>
      cases there : run CannonClientWrapper.step (CannonClientWrapper.init storage) events with
      | none =>
          rw [here, there] at together
          exact together.elim
      | some w =>
          rw [here, there] at together
          refine ⟨rfl, ?_⟩
          intro b' w' same same'
          cases same
          cases same'
          obtain ⟨_, last⟩ := alone.reached alternating there
          exact ⟨together.1.pools, together.1.storage, together.1.results, last.own⟩

end Runs

/-- One query in the binary protocol, from its call to the answer in its future. -/
theorem connection_refines_messages_query :
    ((run (step binaryProtocol) (init (BitVec 8) (Storage.init (BitVec 64)))
        [.enqueueQueryKeys [1] 0, .take .insertThreadPool, .write .insertThreadPool, .serve,
          .read .insertThreadPool]).map results) =
      some [(⟨0, .get [1] 0⟩, .ok (.values [⟨.notFound, 0⟩]))] := by
  let threads : List (WrapperEvent (BitVec 64)) :=
    [.take .insertThreadPool, .write .insertThreadPool, .serve, .read .insertThreadPool]
  have working : ∀ event ∈ threads, event.enqueuesOn = none := by
    intro event member
    simp only [threads, List.mem_cons, List.not_mem_nil, or_false] at member
    rcases member with rfl | rfl | rfl | rfl <;> rfl
  have fits : ∀ event ∈ WrapperEvent.enqueueQueryKeys [1] 0 :: threads, FittingEvent event := by
    intro event member
    simp only [threads, List.mem_cons, List.not_mem_nil, or_false] at member
    rcases member with rfl | rfl | rfl | rfl | rfl
    · exact (by decide : 1 < sizeLimit)
    all_goals trivial
  have alternating : (CannonClientWrapper.init (Storage.init (BitVec 64))).OneAtATime
      (.enqueueQueryKeys [1] 0 :: threads) := by
    refine ⟨fun pool call => ?_, fun next _ => CannonClientWrapper.oneAtATime_threads working next⟩
    cases call
    rfl
  obtain ⟨same, agree⟩ := connection_refines_messages binaryProtocol (Storage.init (BitVec 64)) _ alternating fits
  obtain ⟨b, here⟩ := Option.isSome_iff_exists.mp (same.trans rfl)
  obtain ⟨_, _, results, _⟩ := agree b _ here rfl
  rw [here, Option.map_some, results]
  rfl

end WireWrapper

end CppProject.CannonProxy
